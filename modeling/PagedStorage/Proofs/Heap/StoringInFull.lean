import PagedStorage.Proofs.Heap.Chains
import PagedStorage.Proofs.Heap.Cutting

/-!
# Storing in full

While a chain is built two pages are in use at a time, the last one and the one that comes behind
it. So two frames, enough ids and a medium without failures are all that it takes of a pool,
`Pool.Provided`, whoever else uses it. What can go wrong then is a piece that no page takes, and
this is the last piece of a record that leaves a scrap.

## Known from the length

So whether a record is stored is known from its length. The pieces before the scrap have been
stored by the time it is refused. The condition on ids is a limit that is counted down by one with
each piece, and below it every page fits the medium; one errand that has a page pinned is provided
for one piece more (`Provided.canInstall`).

## How long a scrap takes

Eight bytes are the shortest record. The pieces are of even size, rounded up, and the last one gets
what is left. For it to get less than eight bytes the others must have the largest size and be many,
so the shortest record of this kind has 66528487 bytes (`insertOverflow_scrap`).
-/

namespace PagedStorage

theorem Page.Joined.add_cases {p : Page} {record : List UInt8} (hp : p.Joined)
    (hmax : record.length ≤ maxRecordSize) :
    (minRecordSize ≤ record.length ∧ ∃ rid q, p.add record = .ok (rid, q)) ∨
      (record.length < minRecordSize ∧
        p.add record = .error (.recordTooSmall record.length minRecordSize)) := by
  by_cases hmin : minRecordSize ≤ record.length
  · have hadmits := admits_of_freeSpace hp.freeSpace_eq hmin hmax
    exact .inl ⟨hmin, (exists_add_iff hp.tidy.packs.encloses).2 hadmits⟩
  · have hsmall := Nat.lt_of_not_le hmin
    refine .inr ⟨hsmall, ?_⟩
    rw [add, checkRecord, if_pos hsmall]
    rfl

namespace Pool

variable {ρ : Type} [Replacer ρ] [LawfulReplacer ρ] {p q : Pool ρ} {limit : Nat}

/-- A pool in which chains can be built on the ids below a limit. -/
structure Provided (p : Pool ρ) (limit : Nat) : Prop extends p.Sound where
  inStep : p.InStep
  twoFrames : p.busyFrames.card + 2 ≤ p.capacity
  willing : p.file.store.Willing
  fits : ∀ id : PageId, id.toNat < limit → p.file.Fits id
  limit_lt : limit < UInt32.size

/-- An errand that has one page pinned can pin another one. -/
theorem Provided.canInstall {touched : Set PageId} {held : List PageId} {v : Finset PageId}
    (hp : p.Provided limit) (h : p.Errand touched held v q) (hheld : held.length ≤ 1)
    (hnext : q.file.ids.next.toNat < limit) : q.CanInstall := by
  have hq := h.sound hp.toSound
  have hlasts := h.lasts hp.toSound
  have hlimit := hp.limit_lt
  have hext : q.file.Extensible := hq.ahead.extensible (by omega)
  refine ⟨⟨hq, h.inStep hp.toSound hp.inStep, hlasts.willing hp.willing,
    fun id hid ↦ ⟨hext, ?_⟩⟩, ?_⟩
  · have hlt : id.toNat < limit := by
      obtain hle | hend := hq.covers_of_marked hid
      · omega
      · omega
    exact (hp.fits id hlt).congr hlasts.medium_eq
  · have hbusy := h.card_busyFrames_le hp.toSound
    have hcapacity := h.capacity_eq hp.toSound
    have htwo := hp.twoFrames
    rw [crowded_iff]
    omega

theorem CanInstall.guardNew_ok (hp : p.CanInstall)
    (hnext : p.file.ids.next.toNat + 1 < UInt32.size) :
    ∃ g t, p.guardNew = (.ok g, t) ∧ g.page = p.file.ids.next := by
  rcases hnew : p.newPage with ⟨r, t⟩
  obtain ⟨hd, rfl⟩ := hp.newPage_ok hnext hnew
  exact ⟨_, t, by rw [guardNew, hnew], rfl⟩

end Pool

namespace Heap

open Pool

variable {ρ : Type} [Replacer ρ] {p p₀ t : Pool ρ} {g : Guard} {prev : Option Guard}
  {piece record : List UInt8} {pieces : List (List UInt8)} {page : Page} {limit : Nat}

/-! ## One piece after the other -/

theorem storePieces_cons (hguard : p.guardNew = (.ok g, t)) {rid : RecordId}
    (hadd : ((joinChain t prev g).page g.handle).add piece = .ok (rid, page)) :
    let rest := storePieces (((joinChain t prev g).setPage g.handle page).release? prev) (some g)
      pieces
    storePieces p prev (piece :: pieces) = (rest.1.map fun _ ↦ some g.page, rest.2) := by
  intro rest
  rw [storePieces, hguard]
  simp only [hadd]
  split
  next hrest =>
    rw [show rest = _ from hrest]
    rfl
  next hrest =>
    rw [show rest = _ from hrest]
    rfl

theorem storePieces_cons_error (hguard : p.guardNew = (.ok g, t)) {e : Error}
    (hadd : ((joinChain t prev g).page g.handle).add piece = .error e) :
    (storePieces p prev (piece :: pieces)).1 = .error e := by
  rw [storePieces, hguard]
  simp only [hadd]

/-- A row of pieces is stored in full, or one of them is too small. -/
def Sized (pieces : List (List UInt8)) (res : Except Error (Option PageId)) : Prop :=
  (∀ x ∈ pieces, minRecordSize ≤ x.length) ∧ (∃ r, res = .ok r) ∨
    ∃ x ∈ pieces, x.length < minRecordSize ∧
      res = .error (.recordTooSmall x.length minRecordSize)

theorem Sized.cons {res : Except Error (Option PageId)} (h : Sized pieces res)
    (hmin : minRecordSize ≤ piece.length) (head : PageId) :
    Sized (piece :: pieces) (res.map fun _ ↦ some head) := by
  obtain ⟨hall, r, rfl⟩ | ⟨x, hx, hsmall, rfl⟩ := h
  · exact .inl ⟨List.forall_mem_cons.2 ⟨hmin, hall⟩, _, rfl⟩
  · exact .inr ⟨x, List.mem_cons_of_mem _ hx, hsmall, rfl⟩

variable [LawfulReplacer ρ]

private theorem Storing.sized_storePieces (hs : Storing p₀ g piece p) (hp₀ : p₀.Provided limit)
    (hroom : p.file.ids.next.toNat + pieces.length ≤ limit)
    (hmax : ∀ x ∈ pieces, x.length ≤ maxRecordSize) :
    Sized pieces (storePieces p (some g) pieces).1 := by
  have hlimit := hp₀.limit_lt
  induction pieces generalizing p g piece with
  | nil => exact .inl ⟨List.forall_mem_nil _, none, rfl⟩
  | cons piece' pieces ih =>
    rw [List.length_cons] at hroom
    rw [List.forall_mem_cons] at hmax
    obtain ⟨v, herrand⟩ := hs.errand
    have hcan := hp₀.canInstall herrand (Nat.le_refl 1) (by omega)
    have hnext : p.file.ids.next.toNat + 1 < UInt32.size := by omega
    obtain ⟨g', t, hguard, -⟩ := hcan.guardNew_ok hnext
    have hprolongs := hs.prolongs hp₀.toSound hnext hguard
    obtain ⟨hmin, rid, page, hadd⟩ | ⟨hsmall, hadd⟩ := hprolongs.joining.joined.add_cases hmax.1
    · have hextends := hprolongs.extends_of_add hs hp₀.toSound hadd
      have hcount := hextends.next_eq
      rw [storePieces_cons hguard hadd]
      exact (ih hextends.storing (by omega) hmax.2).cons hmin g'.page
    · exact .inr ⟨piece', List.mem_cons_self, hsmall, storePieces_cons_error hguard hadd⟩

private theorem sized_storePieces (hp : p.Provided limit)
    (hroom : p.file.ids.next.toNat + pieces.length ≤ limit)
    (hmax : ∀ x ∈ pieces, x.length ≤ maxRecordSize) :
    Sized pieces (storePieces p none pieces).1 ∧ ∀ head,
      (storePieces p none pieces).1 = .ok head → pieces ≠ [] → head = some p.file.ids.next := by
  have hlimit := hp.limit_lt
  cases pieces with
  | nil => exact ⟨.inl ⟨List.forall_mem_nil _, none, rfl⟩, fun _ _ hne ↦ absurd rfl hne⟩
  | cons piece pieces =>
    rw [List.length_cons] at hroom
    rw [List.forall_mem_cons] at hmax
    have hcan := hp.canInstall (.start : p.Errand ∅ [] ∅ p) (Nat.zero_le 1) (by omega)
    have hnext : p.file.ids.next.toNat + 1 < UInt32.size := by omega
    obtain ⟨g, t, hguard, hid⟩ := hcan.guardNew_ok hnext
    have hj := joining_of_first hp.toSound hnext hguard
    obtain ⟨hmin, rid, page, hadd⟩ | ⟨hsmall, hadd⟩ := hj.joined.add_cases hmax.1
    · have hs := hj.storing_first hp.toSound hadd
      have hids := next_of_first hp.toSound hnext hguard page
      have hrest := hs.sized_storePieces hp (by omega) hmax.2
      rw [storePieces_cons hguard hadd]
      refine ⟨hrest.cons hmin g.page, fun head hhead _ ↦ ?_⟩
      obtain ⟨r, -, rfl⟩ := map_eq_ok_iff.1 hhead
      rw [hid]
    · rw [storePieces_cons_error hguard hadd]
      exact ⟨.inr ⟨piece, List.mem_cons_self, hsmall, rfl⟩, fun _ hok ↦ absurd hok error_ne_ok⟩

/-! ## Records -/

/-- Whether a record is stored is known from its length. -/
theorem insertOverflow_of_provided (hp : p.Provided limit) (hsize : minRecordSize ≤ record.length)
    (hroom : p.file.ids.next.toNat + (overflowPieces record).length ≤ limit) :
    (insertOverflow p record).1 =
      if LeavesScrap record.length then
        .error (.recordTooSmall (record.length % maxRecordSize) minRecordSize)
      else .ok p.file.ids.next := by
  obtain ⟨hsized, hhead⟩ := sized_storePieces hp hroom
    fun x hx ↦ length_le_of_mem_overflowPieces hsize hx
  rw [insertOverflow, if_neg (Nat.not_lt.2 hsize)]
  rcases hstore : storePieces p none (overflowPieces record) with ⟨res, q⟩
  rw [hstore] at hsized hhead
  obtain ⟨hall, head, rfl⟩ | ⟨x, hx, hsmall, rfl⟩ := hsized
  · have hnot : ¬ LeavesScrap record.length := (forall_storable_iff hsize).1 fun x hx ↦
      ⟨hall x hx, length_le_of_mem_overflowPieces hsize hx⟩
    rw [if_neg hnot, hhead head rfl (overflowPieces_ne_nil hsize)]
  · obtain ⟨hscrap, hlength⟩ := length_eq_of_mem_overflowPieces hsize hx hsmall
    rw [if_pos hscrap, hlength]

end Heap

namespace Pool

private theorem busyFrames_ofFile {ρ : Type} {file : PageFile} {s : ρ} {n : Nat} :
    (ofFile file s n).busyFrames = ∅ := by
  refine Finset.eq_empty_of_forall_notMem fun f hf ↦ ?_
  have hresident := (mem_busyFrames.1 hf).1
  rw [frame_ofFile] at hresident
  cases hresident

variable {file : PageFile} {kind : ReplacerKind} {n capacity limit : Nat} {p : Pool Policy}

/-- What callers have done with the pool before does not matter, but for the pages in use. -/
theorem Reached.provided (hfile : file.Ahead) (hcapacity : n ≤ capacity)
    (h : Reached Permits (ofFile file (Policy.ofKind capacity kind) n) p)
    (hframes : p.busyFrames.card + 2 ≤ p.capacity) (hwilling : p.file.store.Willing)
    (hfits : ∀ id : PageId, id.toNat < limit → p.file.Fits id) (hlimit : limit < UInt32.size) :
    p.Provided limit :=
  ⟨h.sound (sound_ofFile hfile), h.inStep steady_ofFile (inStep_ofFile hcapacity), hframes,
    hwilling, hfits, hlimit⟩

end Pool

namespace Heap

open Pool

/-- The pieces of a record can be stored, and are stored in a pool that has two frames to be had,
ids for all of them and a medium that fails no call, exactly if the record leaves no scrap. Else all
pieces but the scrap are stored before the last page refuses it. -/
theorem insertOverflow_eq {record : List UInt8} (hsize : minRecordSize ≤ record.length) :
    ((∀ piece ∈ overflowPieces record,
        minRecordSize ≤ piece.length ∧ piece.length ≤ maxRecordSize) ↔
      ¬ LeavesScrap record.length) ∧
    ∀ {file : PageFile} {kind : ReplacerKind} {n capacity : Nat} {p : Pool Policy},
      file.Ahead → n ≤ capacity →
      Reached Permits (Pool.ofFile file (Policy.ofKind capacity kind) n) p →
      p.busyFrames.card + 2 ≤ p.capacity →
      p.file.ids.next.toNat + (overflowPieces record).length < UInt32.size →
      p.file.store.Willing →
      (∀ id : PageId, id.toNat < p.file.ids.next.toNat + (overflowPieces record).length →
        p.file.Fits id) →
      (insertOverflow p record).1 =
        if LeavesScrap record.length then
          .error (.recordTooSmall (record.length % maxRecordSize) minRecordSize)
        else .ok p.file.ids.next := by
  refine ⟨forall_storable_iff hsize,
    fun hfile hcapacity hreached hframes hroom hwilling hfits ↦ ?_⟩
  have hp := hreached.provided hfile hcapacity hframes hwilling hfits hroom
  exact insertOverflow_of_provided hp hsize (Nat.le_refl _)

/-- An empty pool of two frames over an empty file in memory. -/
def twoFrames : Pool Policy := Pool.ofFile .empty (Policy.ofKind 2 .lru) 2

theorem card_busyFrames_twoFrames : twoFrames.busyFrames.card + 2 ≤ twoFrames.capacity := by
  rw [twoFrames, busyFrames_ofFile]
  decide

theorem next_add_length_lt {record : List UInt8} (h : record.length < UInt32.size) :
    PageFile.empty.ids.next.toNat + (overflowPieces record).length < UInt32.size := by
  have hle := length_pieces_le (pieceSize record.length) record
  rw [← overflowPieces_eq] at hle
  show 0 + _ < _
  omega

theorem length_overflowPieces {record : List UInt8} (hlength : record.length = 8161) :
    (overflowPieces record).length = 2 := by
  have hpos : 0 < pieceSize record.length := pieceSize_pos (by rw [hlength]; decide)
  have hlengths := congrArg List.length (map_length_pieces hpos record)
  rw [List.length_map, ← overflowPieces_eq, hlength] at hlengths
  exact hlengths.trans (by decide)

theorem provided_twoFrames : twoFrames.Provided 100 :=
  Reached.provided PageFile.ahead_empty (Nat.le_refl 2) .start card_busyFrames_twoFrames
    PageFile.willing_empty (PageFile.fits_empty (by decide)) (by decide)

/-- A record that needs two pages. -/
theorem insertOverflow_eq_twoPages :
    minRecordSize ≤ (List.replicate 8161 (7 : UInt8)).length ∧
      (insertOverflow twoFrames (List.replicate 8161 7)).1 = .ok 0 := by
  have hlength : (List.replicate 8161 (7 : UInt8)).length = 8161 := List.length_replicate
  have hsize : minRecordSize ≤ (List.replicate 8161 (7 : UInt8)).length := by
    rw [hlength]
    decide
  have hbound : (List.replicate 8161 (7 : UInt8)).length < UInt32.size := by
    rw [hlength]
    decide
  have hroom := next_add_length_lt hbound
  refine ⟨hsize, ((insertOverflow_eq hsize).2 PageFile.ahead_empty (Nat.le_refl 2) .start
    card_busyFrames_twoFrames hroom PageFile.willing_empty (PageFile.fits_empty hroom)).trans ?_⟩
  rw [hlength, if_neg (by decide)]
  rfl

private theorem refuses_scrap {record : List UInt8} (hlength : record.length = 66528487) :
    minRecordSize ≤ record.length ∧ (∃ piece ∈ overflowPieces record, piece.length = 7) ∧
      (insertOverflow twoFrames record).1 = .error (.recordTooSmall 7 minRecordSize) := by
  have hsize : minRecordSize ≤ record.length := by
    rw [hlength]
    decide
  have hscrap : LeavesScrap record.length := by
    rw [hlength]
    decide
  have hbound : record.length < UInt32.size := by
    rw [hlength]
    decide
  have hroom := next_add_length_lt hbound
  have hp : twoFrames.Provided _ := Reached.provided PageFile.ahead_empty (Nat.le_refl 2) .start
    card_busyFrames_twoFrames PageFile.willing_empty (PageFile.fits_empty hroom) hroom
  refine ⟨hsize, ?_, ?_⟩
  · by_contra hnone
    refine (forall_storable_iff hsize).1 (fun piece hpiece ↦ ?_) hscrap
    refine ⟨?_, length_le_of_mem_overflowPieces hsize hpiece⟩
    by_contra hsmall
    have hseven := (length_eq_of_mem_overflowPieces hsize hpiece (Nat.not_le.1 hsmall)).2
    rw [hlength] at hseven
    exact hnone ⟨piece, hpiece, hseven⟩
  · rw [insertOverflow_of_provided hp hsize (Nat.le_refl _), if_pos hscrap, hlength]
    rfl

/-- The shortest record that cannot be stored: there are 8153 pieces of 8160 bytes, and 7 bytes are
left. -/
theorem insertOverflow_scrap :
    let record : List UInt8 := List.replicate 66528487 0
    minRecordSize ≤ record.length ∧ (∃ piece ∈ overflowPieces record, piece.length = 7) ∧
      (insertOverflow twoFrames record).1 = .error (.recordTooSmall 7 minRecordSize) :=
  refuses_scrap List.length_replicate

end Heap

end PagedStorage
