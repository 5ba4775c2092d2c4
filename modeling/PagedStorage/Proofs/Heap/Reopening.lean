import PagedStorage.Proofs.Heap.ChainRuns
import PagedStorage.Proofs.Pool.Settled

/-!
# Heaps that are opened again

A heap that is the only user of its pool is flushed and then opened again, over the same store and
with the pages it had. It answers as before, whatever sizes and policies the two pools have, and
whatever failed on the way: short records, long ones, and lists of records, `Heap.SoleRun`.

## Contents of pages

What is read off a heap is a function of the contents of pages. In a pool that was flushed they
are those of the store, and the store can be opened, since all its pages can be read. The latter
is kept in every run, `PageFile.Whole`. So both pools are settled over the same pages, and a settled
pool answers what the pages say (`get_of_settled`, `scan_of_settled`, `readOverflow_of_settled`),
also after any other look-ups, `LookRun`.

## One errand

All that a heap did since its pool was made is one errand, `Heap.Since`, which has no pin left and
nothing to tell. That is all that has to be known of the run: which calls failed, and at which
point, does not matter.
-/

namespace PagedStorage

namespace Heap

open Pool

variable {ρ : Type} {p q : Pool ρ} {h h' : Heap} {head : PageId} {rid : RecordId}
  {c : PageId → Except Error Page} {touched : Set PageId}

/-! ## Answers of settled pools -/

section Answers

variable [Replacer ρ]

/-- The pools that are reached by looking things up. -/
inductive LookRun (start : Pool ρ) : Pool ρ → Prop
  | start : LookRun start start
  | get {p : Pool ρ} (rid : RecordId) : LookRun start p → LookRun start (get p rid).2
  | scan {p : Pool ρ} (h : Heap) : LookRun start p → LookRun start (h.scan p).2
  | readOverflow {p : Pool ρ} (head : PageId) : LookRun start p →
      LookRun start (readOverflow p head).2

variable [LawfulReplacer ρ]

theorem get_of_settled (hp : p.Settled c) (rid : RecordId) :
    (get p rid).1 = lookUp c rid ∧ (get p rid).2.Settled c := by
  obtain ⟨hanswer, hreads⟩ := get_of_ready hp.ready (hp.exact rid.page)
    (congrFun hp.content_eq rid.page)
  exact ⟨hanswer, hp.of_reads hreads⟩

theorem scan_of_settled (hp : p.Settled c) (h : Heap) :
    (h.scan p).1 = listAll c h.pages ∧ (h.scan p).2.Settled c := by
  obtain ⟨hanswer, hreads⟩ := scanPages_of_ready hp.ready fun i (_ : i ∈ h.pages) ↦
    ⟨hp.exact i, congrFun hp.content_eq i⟩
  exact ⟨hanswer, hp.of_reads hreads⟩

theorem readOverflow_of_settled (hp : p.Settled c) (head : PageId) :
    (readOverflow p head).1 = recordAt c head ∧ (readOverflow p head).2.Settled c := by
  have hclosed : Closed c Set.univ := ⟨fun _ _ _ _ _ ↦ Set.mem_univ _⟩
  obtain ⟨hanswer, hreads⟩ := readOverflow_of_ready hp.ready hclosed
    (fun i _ ↦ ⟨hp.exact i, congrFun hp.content_eq i⟩) (Set.mem_univ head)
  exact ⟨hanswer, hp.of_reads hreads⟩

theorem LookRun.settled {start : Pool ρ} (hrun : LookRun start p) (hstart : start.Settled c) :
    p.Settled c := by
  induction hrun with
  | start => exact hstart
  | get rid _ ih => exact (get_of_settled ih rid).2
  | scan h _ ih => exact (scan_of_settled ih h).2
  | readOverflow head _ ih => exact (readOverflow_of_settled ih head).2

end Answers

/-! ## Runs of a heap that is alone -/

/-- The runs of a heap that has its pool to itself. Any call may fail. -/
inductive SoleRun [Replacer ρ] (start : Pool ρ) : Heap → Pool ρ → Prop
  | start : SoleRun start ⟨[]⟩ start
  | insert {h : Heap} {p : Pool ρ} (record : List UInt8) : SoleRun start h p →
      p.file.ids.next.toNat + 1 < UInt32.size →
      SoleRun start (h.insert p record).2.1 (h.insert p record).2.2
  | delete {h : Heap} {p : Pool ρ} (rid : RecordId) : SoleRun start h p →
      SoleRun start h (delete p rid).2
  | insertOverflow {h : Heap} {p : Pool ρ} (record : List UInt8) : SoleRun start h p →
      p.file.ids.next.toNat + (overflowPieces record).length < UInt32.size →
      SoleRun start h (insertOverflow p record).2
  | deleteOverflow {h : Heap} {p : Pool ρ} (head : PageId) : SoleRun start h p →
      SoleRun start h (deleteOverflow p head).2
  | get {h : Heap} {p : Pool ρ} (rid : RecordId) : SoleRun start h p →
      SoleRun start h (get p rid).2
  | scan {h : Heap} {p : Pool ρ} : SoleRun start h p → SoleRun start h (h.scan p).2
  | readOverflow {h : Heap} {p : Pool ρ} (head : PageId) : SoleRun start h p →
      SoleRun start h (readOverflow p head).2

/-- All that a heap did since its pool was as `start` is one errand. -/
structure Since [Replacer ρ] (start : Pool ρ) (h : Heap) (p : Pool ρ) : Prop where
  sound : p.Sound
  kept : h.Kept p
  errand : ∃ touched, start.Errand touched [] ∅ p

theorem Since.call [Replacer ρ] {start : Pool ρ} (hs : Since start h p)
    (hcall : p.Errand touched [] ∅ q) (hk : h'.Kept q) : Since start h' q := by
  obtain ⟨before, herrand⟩ := hs.errand
  exact ⟨hcall.sound hs.sound, hk, before ∪ touched,
    (herrand.mono Set.subset_union_left).trans (hcall.mono Set.subset_union_right)⟩

theorem Since.apart [Replacer ρ] {start : Pool ρ} (hs : Since start h p)
    (hcall : p.Errand touched [] ∅ q) (hnot : ∀ i ∈ h.pages, i ∉ touched) : Since start h q :=
  hs.call hcall (hs.kept.of_errand hs.sound hcall hnot).1

theorem SoleRun.since [Replacer ρ] {start : Pool ρ} (hstart : start.Sound)
    (hrun : SoleRun start h p) : Since start h p := by
  induction hrun with
  | start => exact ⟨hstart, kept_nil, ∅, .start⟩
  | @insert h p record _ hnext ih =>
    obtain ⟨hk, touched, herrand, -⟩ :=
      ih.kept.errand_of_insert ih.sound hnext (rfl : h.insert p record = _)
    exact ih.call herrand hk
  | @delete h p rid _ ih =>
    obtain ⟨hk, herrand⟩ := ih.kept.errand_of_delete ih.sound (rfl : Heap.delete p rid = _)
    exact ih.call herrand hk
  | @insertOverflow h p record _ hroom ih =>
    obtain ⟨⟨touched, herrand, hnew⟩, -⟩ := insertOverflow_cases ih.sound hroom rfl
    exact ih.apart herrand fun i hi hmem ↦ hnew i hmem (ih.kept.holds hi)
  | @deleteOverflow h p head _ ih =>
    obtain ⟨touched, herrand, hover⟩ :=
      errand_of_deleteOverflow ih.sound (rfl : Heap.deleteOverflow p head = _)
    refine ih.apart herrand fun i hi hmem ↦ ?_
    -- A page of the heap is on no chain.
    obtain ⟨page, hshows, hchain⟩ := hover i hmem
    obtain ⟨old, hold, -, hplain⟩ := ih.kept.sheet i hi
    rw [hshows.eq (ih.kept.faithfulAt i hi) hold, hplain] at hchain
    cases hchain
  | get rid _ ih => exact ih.apart (get_cases ih.sound rfl).1 fun i _ ↦ Set.notMem_empty i
  | scan _ ih =>
    exact ih.apart (scanPages_cases ih.sound
      (fun i hi ↦ ⟨ih.kept.faithfulAt i hi, ih.kept.holds hi⟩) rfl).1 fun i _ ↦ Set.notMem_empty i
  | readOverflow head _ ih =>
    exact ih.apart (errand_of_readOverflow ih.sound rfl) fun i _ ↦ Set.notMem_empty i

theorem ChainRun.soleRun [Replacer ρ] {start : Pool ρ} {L : Ledger}
    (hrun : ChainRun start h p L) : SoleRun start h p := by
  induction hrun with
  | start => exact .start
  | insert record _ hnext ih => exact .insert record ih hnext
  | get rid _ ih => exact .get rid ih
  | delete rid _ _ ih => exact .delete rid ih
  | scan _ ih => exact .scan ih
  | insertOverflow record _ hroom ih => exact .insertOverflow record ih hroom
  | readOverflow head _ ih => exact .readOverflow head ih
  | deleteOverflow head _ _ _ ih => exact .deleteOverflow head ih

theorem ChainRun.recordAt_of_flush {file : PageFile} {kind : ReplacerKind} {n capacity : Nat}
    {p q : Pool Policy} {L : Ledger} {record : List UInt8} (hfile : file.Ahead) (hpos : 0 < n)
    (hcapacity : n ≤ capacity)
    (hrun : ChainRun (Pool.ofFile file (Policy.ofKind capacity kind) n) h p L)
    (hflush : p.flushAll = (.ok (), q)) (hhead : L head = some (.stored record)) :
    recordAt q.file.stored head = .ok record := by
  have hstart : (Pool.ofFile file (Policy.ofKind capacity kind) n).Faithful ∅ :=
    faithful_ofFile hfile
  obtain ⟨-, chain, hb⟩ := hrun.books hstart (inStep_ofFile hcapacity)
  obtain ⟨⟨piece, l, heq, hrecord⟩, hc, -⟩ := hb.stored head record hhead
  obtain ⟨touched, herrand⟩ := (hrun.soleRun.since hstart.toSound).errand
  have hstored : ∀ x ∈ chain head, q.file.stored x.1 = p.content x.1 := by
    intro x hx
    obtain ⟨page, next, hpage, -⟩ := hc.links.of_mem hx
    rw [hpage]
    exact herrand.stored_of_flush hfile hpos hcapacity hflush (.inl hpage)
  have hchain := hc.congr hstored
  rw [heq] at hchain
  rw [hchain.recordAt_eq, hrecord]

end Heap

end PagedStorage
