import PagedStorage.Proofs.Page.Decoding
import PagedStorage.Proofs.Page.Placing

/-!
# Edits of a page

All ways in which a page changes are edits, `Page.Edit`, and each of them ends with the encoded
header and directory at the front of the image. So an edit of a readable page gives a readable
page as soon as its header and directory fit together, and only one edit can fail to see to that:
a record stored in place of a free entry that does not keep clear of the rest of the page. This
is `Edit.Safe`, and `Edit.readable_apply_iff` says that it is the exact condition.

## Two levels of soundness

A page is `Enclosed` if its entries lie inside it and its front stands in its image, and `Tidy` if
they also keep clear of each other, the free ones included. Edits keep both. The first is what a
page has that was read from anywhere, and it is enough for an edit to come to an end. The second is
what a page has that is made by edits, and there every edit is safe.

Between the two lies `Readable`, which is what the decoder accepts. It says nothing about free
entries, and for this reason it is not kept by every edit.

## What an edit makes of a page

What an edit makes of a page is said once, `Page.Becomes`, and what edits keep follows from its five
cases. Storing is taken apart once more, in `Placement.Stores`: where the record went is known
from the placement alone, and what is left is to settle the page with the record in place.

`Page.Built` collects the pages that start as fresh ones and are changed by edits alone, or are
stored and read back in between.
-/

namespace PagedStorage.Page

/-! ## Settling -/

/-- The page that settling makes. -/
theorem settle_eq_ok_iff {h : Header} {d : List Slot} {image : Image} {p : Page} :
    settle h d image = .ok p ↔ withinPage d ∧ p = ⟨h, sortDirectory image d,
      image.overwrite 0 (encodeLayout h (sortDirectory image d))⟩ := by
  rw [settle]
  split
  next hin => exact ⟨fun heq ↦ by cases heq; exact ⟨hin, rfl⟩, fun heq ↦ by rw [heq.2]⟩
  next hout =>
    constructor
    · rintro ⟨⟩
    · rintro ⟨hin, -⟩
      exact absurd hin hout

section Settled

variable {h : Header} {d : List Slot} {image : Image} {p : Page}

theorem header_of_settle (hp : settle h d image = .ok p) : p.header = h := by
  rw [(settle_eq_ok_iff.1 hp).2]

theorem directory_of_settle (hp : settle h d image = .ok p) : p.directory.Perm d := by
  rw [(settle_eq_ok_iff.1 hp).2]
  exact sortDirectory_perm image d

theorem slice_of_settle (hp : settle h d image = .ok p) {start len : Nat}
    (hstart : slotPosition d.length ≤ start) :
    p.image.slice start len = image.slice start len := by
  rw [(settle_eq_ok_iff.1 hp).2]
  refine Image.slice_overwrite_of_disjoint image (.inr ?_)
  rw [length_encodeLayout, (sortDirectory_perm image d).length_eq]
  omega

theorem getElem?_of_settle (hp : settle h d image = .ok p) {i : Nat}
    (hi : slotPosition d.length ≤ i) : p.image[i]? = image[i]? := by
  rw [(settle_eq_ok_iff.1 hp).2]
  refine Image.getElem?_overwrite_of_outside image (.inr ?_)
  rw [length_encodeLayout, (sortDirectory_perm image d).length_eq]
  omega

theorem hasFront_of_settle (hp : settle h d image = .ok p) : p.HasFront := by
  obtain ⟨hin, rfl⟩ := settle_eq_ok_iff.1 hp
  rw [withinPage, Bool.and_eq_true, decide_eq_true_eq] at hin
  refine hasFront_overwrite image ?_
  rw [(sortDirectory_perm image d).length_eq]
  exact hin.1

/-- A settled page is readable exactly if its header and directory fit together. -/
theorem readable_of_settle_iff (hp : settle h d image = .ok p) : p.Readable ↔ h.Describes d := by
  constructor
  · rintro ⟨hd, -⟩
    rw [header_of_settle hp] at hd
    exact hd.perm (directory_of_settle hp)
  · intro hd
    refine ⟨?_, hasFront_of_settle hp⟩
    rw [header_of_settle hp]
    exact hd.perm (directory_of_settle hp).symm

theorem enclosed_of_settle (hp : settle h d image = .ok p) (hd : h.Encloses d) : p.Enclosed := by
  refine ⟨?_, hasFront_of_settle hp⟩
  rw [header_of_settle hp]
  exact hd.perm (directory_of_settle hp).symm

theorem tidy_of_settle (hp : settle h d image = .ok p) (hd : h.Packs d) : p.Tidy := by
  refine ⟨?_, hasFront_of_settle hp⟩
  rw [header_of_settle hp]
  exact hd.perm (directory_of_settle hp).symm

end Settled

/-! ## Storing -/

theorem checkRecord_eq_ok_iff {p : Page} {n : Nat} :
    p.checkRecord n = .ok () ↔ minRecordSize ≤ n ∧ n ≤ maxRecordSize ∧ n < p.freeSpace := by
  simp only [checkRecord, ite_error_eq_ok_iff, Nat.not_lt, Nat.not_le]
  constructor
  · rintro ⟨hmin, hmax, hroom, -⟩
    exact ⟨hmin, hmax, hroom⟩
  · rintro ⟨hmin, hmax, hroom⟩
    exact ⟨hmin, hmax, hroom, trivial⟩

/-- All that is known of a stored record: where it was placed, and that the page was settled with
the record in place. -/
structure Placement.Stores (pl : Placement) (p : Page) (record : List UInt8) (id : RecordId)
    (q : Page) : Prop where
  way : (∃ old others, pl.Reuses p record.length old others) ∨ pl.Appends p record.length
  keySize_le : keySize ≤ record.length
  room : record.length < p.freeSpace
  id_eq : id = ⟨p.id, pl.slot.id⟩
  stop_le : pl.slot.stop ≤ pageSize
  settled : settle pl.header pl.directory (p.image.overwrite pl.slot.start record) = .ok q

theorem exists_place_of_add {p q : Page} {record : List UInt8} {id : RecordId}
    (hd : p.header.Encloses p.directory) (h : p.add record = .ok (id, q)) :
    ∃ pl : Placement, p.place (.ofNat record.length) = .ok pl ∧ pl.Stores p record id q := by
  rw [add, check_bind_eq_ok_iff, bind_eq_ok_iff] at h
  obtain ⟨hcheck, pl, hpl, hrest⟩ := h
  obtain ⟨hmin, hmax, hroom⟩ := checkRecord_eq_ok_iff.1 hcheck
  split at hrest
  next hstop =>
    obtain ⟨page, hsettle, heq⟩ := bind_eq_ok_iff.1 hrest
    cases heq
    have hsize : (UInt16.ofNat record.length).toNat = record.length := by
      refine UInt16.toNat_ofNat_of_lt' (Nat.lt_of_le_of_lt hmax ?_)
      decide
    have hway := place_cases hd (by rw [hsize]; exact hroom) hpl
    rw [hsize] at hway
    exact ⟨pl, hpl, hway, hmin, hroom, rfl, hstop, hsettle⟩
  next => cases hrest

theorem exists_stores_of_add {p q : Page} {record : List UInt8} {id : RecordId}
    (hd : p.header.Encloses p.directory) (h : p.add record = .ok (id, q)) :
    ∃ pl : Placement, pl.Stores p record id q := by
  obtain ⟨pl, -, hs⟩ := exists_place_of_add hd h
  exact ⟨pl, hs⟩

namespace Placement.Stores

variable {pl : Placement} {p q : Page} {record : List UInt8} {id : RecordId}

theorem used (hs : pl.Stores p record id q) : pl.slot.isUsed := by
  obtain ⟨old, others, hr⟩ | ha := hs.way
  · exact hr.used
  · exact ha.used

theorem length_eq (hs : pl.Stores p record id q) : pl.slot.length.toNat = record.length := by
  obtain ⟨old, others, hr⟩ | ha := hs.way
  · exact hr.length_eq
  · exact ha.length_eq

theorem stop_eq (hs : pl.Stores p record id q) : pl.slot.stop = pl.slot.start + record.length :=
  Slot.stop_eq hs.length_eq

theorem mem_slot (hs : pl.Stores p record id q) : pl.slot ∈ q.directory := by
  refine (directory_of_settle hs.settled).mem_iff.2 ?_
  obtain ⟨old, others, hr⟩ | ha := hs.way
  · exact hr.after.mem_iff.2 List.mem_cons_self
  · exact ha.after.mem_iff.2 List.mem_cons_self

theorem mem_of_used (hs : pl.Stores p record id q) {t : Slot} (ht : t ∈ p.directory)
    (hused : t.isUsed) : t ∈ q.directory := by
  refine (directory_of_settle hs.settled).mem_iff.2 ?_
  obtain ⟨old, others, hr⟩ | ha := hs.way
  · have hfree : old.isFree := isFree_of_find? hr.found
    obtain rfl | ht := List.mem_cons.1 (hr.before.mem_iff.1 ht)
    · simp [hfree] at hused
    · exact hr.after.mem_iff.2 (List.mem_cons_of_mem _ ht)
  · exact ha.after.mem_iff.2 (List.mem_cons_of_mem _ ht)

theorem enclosed (hs : pl.Stores p record id q) (hd : p.header.Encloses p.directory) :
    q.Enclosed :=
  enclosed_of_settle hs.settled (Placement.encloses hd hs.keySize_le hs.room hs.way).1

/-- Storing a record gives a readable page exactly if it keeps clear of the rest of the page. -/
theorem readable_iff (hs : pl.Stores p record id q) (hd : p.header.Describes p.directory) :
    q.Readable ↔ p.ReuseClear record.length := by
  rw [readable_of_settle_iff hs.settled]
  obtain ⟨old, others, hr⟩ | ha := hs.way
  · rw [← hr.describes_iff hd hs.keySize_le hs.room]
    exact ⟨fun h ↦ h.perm hr.after, fun h ↦ h.perm hr.after.symm⟩
  · -- An added entry is clear, and there is no free one that could be taken over.
    refine iff_of_true ((ha.describes hd hs.keySize_le).perm ha.after.symm) fun old hfound ↦ ?_
    rw [ha.noneFree] at hfound
    cases hfound

theorem tidy (hs : pl.Stores p record id q) (hd : p.header.Packs p.directory) : q.Tidy := by
  obtain ⟨old, others, hr⟩ | ha := hs.way
  · exact tidy_of_settle hs.settled ((hr.packs hd hs.keySize_le hs.room).perm hr.after.symm)
  · exact tidy_of_settle hs.settled ((ha.packs hd hs.keySize_le).perm ha.after.symm)

end Placement.Stores

/-! ## Deleting -/

theorem entry_eq_ok_iff {p : Page} {id : RecordId} {s : Slot} :
    p.entry id = .ok s ↔ id.page = p.id ∧ p.slot? id.slot = some s := by
  rw [entry]
  split
  next hpage =>
    split
    next t ht =>
      rw [ht]
      exact ⟨fun h ↦ by cases h; exact ⟨hpage, rfl⟩, fun h ↦ by cases h.2; rfl⟩
    next ht =>
      rw [ht]
      constructor
      · rintro ⟨⟩
      · rintro ⟨-, ⟨⟩⟩
  next hpage =>
    constructor
    · rintro ⟨⟩
    · rintro ⟨h, -⟩
      exact absurd h hpage

/-- A used entry that is set free: its bytes become zeros and it counts as free. -/
structure Frees (p : Page) (s : Slot) (q : Page) : Prop where
  used : s.isUsed
  mem : s ∈ p.directory
  free_eq : (p.header.freeSlotCount + 1).toNat = p.header.freeSlotCount.toNat + 1
  settled : settle { p.header with freeSlotCount := p.header.freeSlotCount + 1 }
    (replaceSlot p.directory { s with status := .free })
    (p.image.overwrite s.start (List.replicate s.length.toNat 0)) = .ok q

/-- Deleting a record frees its entry. Deleting it again does nothing. -/
theorem delete_cases {p q : Page} {id : RecordId} (h : p.delete id = .ok q) :
    ∃ s, id.page = p.id ∧ p.slot? id.slot = some s ∧ ((s.isFree ∧ q = p) ∨ p.Frees s q) := by
  rw [delete, bind_eq_ok_iff] at h
  obtain ⟨s, hs, hrest⟩ := h
  obtain ⟨hpage, hslot⟩ := entry_eq_ok_iff.1 hs
  refine ⟨s, hpage, hslot, ?_⟩
  split at hrest
  next hfree =>
    cases hrest
    exact .inl ⟨hfree, rfl⟩
  next hused =>
    split at hrest
    next => cases hrest
    next =>
      split at hrest
      next => cases hrest
      next hcount =>
        refine .inr ⟨by simpa using hused, List.mem_of_find?_eq_some hslot, ?_, hrest⟩
        have hlt := p.header.freeSlotCount.toNat_lt
        rw [UInt16.size] at hcount
        rw [UInt16.toNat_add, UInt16.toNat_one]
        omega

namespace Frees

variable {p q : Page} {s : Slot}

theorem exists_perm (hf : p.Frees s q) (hids : (p.directory.map (·.id)).Nodup) :
    ∃ others, p.directory.Perm (s :: others) ∧
      (replaceSlot p.directory { s with status := .free }).Perm
        ({ s with status := .free } :: others) := by
  obtain ⟨others, hperm⟩ := exists_perm_cons hf.mem
  exact ⟨others, hperm, replaceSlot_perm hids hperm rfl⟩

theorem mem_of_ne (hf : p.Frees s q) (hids : (p.directory.map (·.id)).Nodup) {t : Slot}
    (ht : t ∈ p.directory) (hne : t ≠ s) : t ∈ q.directory := by
  obtain ⟨others, hbefore, hafter⟩ := hf.exists_perm hids
  have hother := (List.mem_cons.1 (hbefore.mem_iff.1 ht)).resolve_left hne
  exact ((directory_of_settle hf.settled).trans hafter).mem_iff.2 (List.mem_cons_of_mem _ hother)

theorem encloses (hf : p.Frees s q) {others : List Slot}
    (hd : p.header.Encloses (s :: others)) :
    ({ p.header with freeSlotCount := p.header.freeSlotCount + 1 } : Header).Encloses
      ({ s with status := .free } :: others) := by
  have hfree : others.countP (·.isFree) = p.header.freeSlotCount.toNat := by
    rw [← hd.countFree, List.countP_cons_of_neg]
    simpa using hf.used
  refine hd.exchange rfl rfl rfl hd.lower_le_upper (Nat.le_refl _)
    (hd.keySize_le s List.mem_cons_self) (hd.stop_le s List.mem_cons_self) ?_
  rw [List.countP_cons_of_pos rfl, hfree]
  exact hf.free_eq.symm

private theorem enclosed (hf : p.Frees s q) (hd : p.header.Encloses p.directory) : q.Enclosed := by
  obtain ⟨others, hbefore, hafter⟩ := hf.exists_perm hd.ids_nodup
  exact enclosed_of_settle hf.settled ((hf.encloses (hd.perm hbefore)).perm hafter.symm)

theorem describes (hf : p.Frees s q) {others : List Slot}
    (hd : p.header.Describes (s :: others)) :
    ({ p.header with freeSlotCount := p.header.freeSlotCount + 1 } : Header).Describes
      ({ s with status := .free } :: others) :=
  hd.exchange (hf.encloses hd.encloses) (Nat.le_refl _) fun hused ↦
    absurd hused Bool.false_ne_true

private theorem readable (hf : p.Frees s q) (hd : p.header.Describes p.directory) : q.Readable := by
  obtain ⟨others, hbefore, hafter⟩ := hf.exists_perm hd.ids_nodup
  rw [readable_of_settle_iff hf.settled]
  exact (hf.describes (hd.perm hbefore)).perm hafter.symm

theorem tidy (hf : p.Frees s q) (hd : p.header.Packs p.directory) : q.Tidy := by
  obtain ⟨others, hbefore, hafter⟩ := hf.exists_perm hd.ids_nodup
  have hpacks := hd.perm hbefore
  have hapart := (List.pairwise_cons.1 hpacks.apart_all).1
  refine tidy_of_settle hf.settled (Header.Packs.perm ?_ hafter.symm)
  exact hpacks.exchange (hf.describes hpacks.toDescribes) rfl rfl (Nat.le_refl _)
    (hpacks.upper_le_start_all s List.mem_cons_self) hapart

end Frees

/-! ## Changing header fields -/

theorem hasFront_withHeader {p : Page} (hp : p.HasFront) (h : Header) :
    (p.withHeader h).HasFront := by
  have hentries := (slice_eq_encodeLayout_iff.1 hp).2
  refine slice_eq_encodeLayout_iff.2 ⟨?_, fun i hi ↦ ?_⟩
  · have hroom : 0 + h.encode.length ≤ pageSize := by rw [h.length_encode]; decide
    have hread := Image.slice_overwrite p.image hroom
    rwa [h.length_encode] at hread
  · refine Eq.trans (Image.slice_overwrite_of_disjoint p.image (.inr ?_)) (hentries i hi)
    rw [h.length_encode, slotPosition]
    omega

theorem slice_withHeader (p : Page) (h : Header) {start len : Nat} (hstart : headerSize ≤ start) :
    (p.withHeader h).image.slice start len = p.image.slice start len := by
  refine Image.slice_overwrite_of_disjoint p.image (.inr ?_)
  rw [h.length_encode]
  omega

theorem tidy_fresh (id : PageId) : (fresh id).Tidy := by
  refine ⟨Header.packs_fresh id, ?_⟩
  have hroom : 0 + (Header.fresh id).encode.length ≤ pageSize := by
    rw [Header.length_encode]
    decide
  have hread := Image.slice_overwrite Image.zero hroom
  rw [Header.length_encode] at hread
  exact hread.trans (List.append_nil _).symm

/-! ## Edits -/

/-- What becomes of a page when it is edited with success. -/
inductive Becomes (p : Page) : Page → Prop where
  | stores {pl : Placement} {record : List UInt8} {id : RecordId} {q : Page} :
    pl.Stores p record id q → Becomes p q
  | frees {s : Slot} {q : Page} : p.Frees s q → Becomes p q
  | same : Becomes p p
  /-- Only fields that join the page to others are changed. -/
  | relinks {h : Header} : h.lower = p.header.lower → h.upper = p.header.upper →
    h.slotCount = p.header.slotCount → h.freeSlotCount = p.header.freeSlotCount →
      Becomes p (p.withHeader h)
  | reset : Becomes p (fresh p.id)

/-- A change of one page. Linking two pages is an edit of each of them. -/
inductive Edit where
  | add (record : List UInt8)
  | delete (id : RecordId)
  /-- Makes `next` the next page. -/
  | linkTo (next : Page)
  /-- Makes the page the next one after `prev`. -/
  | linkFrom (prev : Page)
  | markOverflow
  | reset

namespace Edit

def apply (e : Edit) (p : Page) : Except Error Page :=
  match e with
  | add record => (p.add record).map (·.2)
  | delete id => p.delete id
  | linkTo next => .ok (p.link next).1
  | linkFrom prev => .ok (prev.link p).2
  | markOverflow => .ok p.markOverflow
  | reset => .ok p.reset

/-- A record stored in place of a free entry keeps clear of the rest of the page. -/
def Safe (e : Edit) (p : Page) : Prop :=
  match e with
  | add record => p.ReuseClear record.length
  | _ => True

variable {e : Edit} {p q : Page}

theorem apply_add {record : List UInt8} {id : RecordId} (h : p.add record = .ok (id, q)) :
    (add record).apply p = .ok q := by
  rw [apply, h]
  rfl

theorem exists_add_of_apply {record : List UInt8} (h : (add record).apply p = .ok q) :
    ∃ id, p.add record = .ok (id, q) := by
  rw [apply] at h
  cases hadd : p.add record with
  | error err =>
    rw [hadd] at h
    cases h
  | ok result =>
    rw [hadd] at h
    cases h
    exact ⟨result.1, rfl⟩

theorem id_apply (h : e.apply p = .ok q) : q.id = p.id := by
  cases e with
  | add record =>
    obtain ⟨id, hadd⟩ := exists_add_of_apply h
    rw [Page.add, check_bind_eq_ok_iff, bind_eq_ok_iff] at hadd
    obtain ⟨-, pl, hpl, hrest⟩ := hadd
    split at hrest
    next =>
      obtain ⟨page, hsettle, heq⟩ := bind_eq_ok_iff.1 hrest
      cases heq
      rw [Page.id, header_of_settle hsettle]
      exact page_of_place hpl
    next => cases hrest
  | delete id =>
    obtain ⟨s, -, -, ⟨-, rfl⟩ | hf⟩ := delete_cases h
    · rfl
    · rw [Page.id, header_of_settle hf.settled]
      rfl
  | linkTo _ | linkFrom _ | markOverflow | reset =>
    cases h
    rfl

/-- All that an edit makes of a page whose entries lie inside it. -/
theorem becomes_of_apply (hd : p.header.Encloses p.directory) (h : e.apply p = .ok q) :
    p.Becomes q := by
  cases e with
  | add record =>
    obtain ⟨id, hadd⟩ := exists_add_of_apply h
    obtain ⟨pl, hs⟩ := exists_stores_of_add hd hadd
    exact .stores hs
  | delete id =>
    obtain ⟨s, -, -, ⟨-, rfl⟩ | hf⟩ := delete_cases h
    · exact .same
    · exact .frees hf
  | linkTo _ | linkFrom _ | markOverflow =>
    cases h
    exact .relinks rfl rfl rfl rfl
  | reset =>
    cases h
    exact .reset

/-- An edit of a readable page gives a readable page exactly if it is safe. -/
theorem readable_apply_iff (hp : p.Readable) (h : e.apply p = .ok q) :
    q.Readable ↔ e.Safe p := by
  cases e with
  | add record =>
    obtain ⟨id, hadd⟩ := exists_add_of_apply h
    obtain ⟨pl, hs⟩ := exists_stores_of_add hp.describes.encloses hadd
    exact hs.readable_iff hp.describes
  | delete id =>
    refine iff_of_true ?_ trivial
    obtain ⟨s, -, -, ⟨-, rfl⟩ | hf⟩ := delete_cases h
    · exact hp
    · exact hf.readable hp.describes
  | linkTo _ | linkFrom _ | markOverflow =>
    cases h
    refine iff_of_true ⟨hp.describes.congr rfl rfl rfl rfl, hasFront_withHeader hp.front _⟩ trivial
  | reset =>
    cases h
    exact iff_of_true (tidy_fresh p.id).readable trivial

/-- On a page that was read from a block, too, edits leave no entry that points out of it. -/
theorem enclosed_apply (hp : p.Enclosed) (h : e.apply p = .ok q) : q.Enclosed := by
  cases becomes_of_apply hp.encloses h with
  | stores hs => exact hs.enclosed hp.encloses
  | frees hf => exact hf.enclosed hp.encloses
  | same => exact hp
  | relinks hlower hupper hcount hfree =>
    exact ⟨hp.encloses.congr hlower hupper hcount hfree, hasFront_withHeader hp.front _⟩
  | reset => exact (tidy_fresh p.id).readable.enclosed

theorem tidy_apply (hp : p.Tidy) (h : e.apply p = .ok q) : q.Tidy := by
  cases becomes_of_apply hp.packs.encloses h with
  | stores hs => exact hs.tidy hp.packs
  | frees hf => exact hf.tidy hp.packs
  | same => exact hp
  | relinks hlower hupper hcount hfree =>
    exact ⟨hp.packs.congr hlower hupper hcount hfree, hasFront_withHeader hp.front _⟩
  | reset => exact tidy_fresh p.id

/-- On a tidy page every edit is safe. -/
theorem safe_of_tidy (hp : p.Tidy) (e : Edit) : e.Safe p := by
  cases e with
  | add record => exact reuseClear_of_packs hp.packs record.length
  | delete _ | linkTo _ | linkFrom _ | markOverflow | reset => exact trivial

end Edit

/-! ## Built pages -/

/-- The pages with a given id that are built by edits from the page without records, and may be
written out and read back at any time. -/
inductive Built (id : PageId) : Page → Prop
  | fresh : Built id (fresh id)
  | edit {p q : Page} {e : Edit} : Built id p → e.apply p = .ok q → Built id q
  | reload {p q : Page} {bytes : Array UInt8} :
      Built id p → p.encode pageSize = .ok bytes → decode bytes = .ok q → Built id q

theorem eq_of_reload {p q : Page} {bytes : Array UInt8} (hp : p.Readable)
    (hencode : p.encode pageSize = .ok bytes) (hdecode : decode bytes = .ok q) : q = p := by
  rw [encode, if_pos rfl] at hencode
  cases hencode
  rw [decode_image_iff.2 hp] at hdecode
  exact (Except.ok.inj hdecode).symm

theorem Built.tidy {id : PageId} {p : Page} (h : Built id p) : p.Tidy := by
  induction h with
  | fresh => exact tidy_fresh id
  | edit _ hq ih => exact Edit.tidy_apply ih hq
  | reload _ hencode hdecode ih => rwa [eq_of_reload ih.readable hencode hdecode]

theorem Built.id_eq {id : PageId} {p : Page} (h : Built id p) : p.id = id := by
  induction h with
  | fresh => rfl
  | edit hp hq ih => rw [Edit.id_apply hq, ih]
  | reload hp hencode hdecode ih => rw [eq_of_reload hp.tidy.readable hencode hdecode, ih]

end PagedStorage.Page
