import PagedStorage.Proofs.Page.RecordMap

/-!
# Storing on pages that were read

The decoder asks nothing of where a free entry lies, and storing a record takes the first free
entry over as it stands if the record fits. So a page that was read need not be safe to store on:
the entry may lie over a record, over the front or in the middle of the free space.

## When it is safe

Three things can go wrong: the new record is not read back, another one is lost, or the page that is
made cannot be read. `add_keepsRecords_iff` says that none of them happens exactly if one condition
on the free entry holds. `Placement.Stores.get_eq` says what becomes of the other records in any
case: they are read from the image with the new record over it.

## When it is not

A page on which a record is lost stands at the end. It has a record in its last bytes and a free
entry over the same bytes, and the decoder accepts it. A record of that length is stored over the
first one, and the page that is made is one that the decoder refuses. A longer record goes elsewhere
and does no harm, which is why the condition depends on the length.
-/

namespace PagedStorage.Page

/-! ## The other records -/

namespace Placement.Stores

variable {pl : Placement} {p q : Page} {record : List UInt8} {id : RecordId}

private theorem ids_nodup (hs : pl.Stores p record id q) (hd : p.header.Describes p.directory) :
    (q.directory.map (·.id)).Nodup := by
  refine ((directory_of_settle hs.settled).map _).nodup_iff.2 ?_
  obtain ⟨old, others, hr⟩ | ha := hs.way
  · rw [(hr.after.map _).nodup_iff, List.map_cons, hr.id_eq, ← List.map_cons,
      ← (hr.before.map _).nodup_iff]
    exact hd.ids_nodup
  · exact (ha.after.map _).nodup_iff.2 (ha.describes hd hs.keySize_le).ids_nodup

private theorem front_le_start (hs : pl.Stores p record id q) (hp : p.Readable) {t : Slot}
    (ht : t ∈ p.directory) (hused : t.isUsed) : slotPosition pl.directory.length ≤ t.start := by
  obtain ⟨old, others, hr⟩ | ha := hs.way
  · rw [hr.after.length_eq, List.length_cons, ← List.length_cons (a := old),
      ← hr.before.length_eq]
    exact hp.front_le_start ht hused
  · have hd := ha.describes hp.describes hs.keySize_le
    rw [ha.after.length_eq]
    exact Nat.le_trans hd.encloses.front_le_upper
      (hd.upper_le_start t (List.mem_cons_of_mem _ ht) hused)

/-- A record that was there is read from the image with the new record over it. -/
theorem get_eq (hs : pl.Stores p record id q) (hp : p.Readable) {t : Slot}
    (ht : t ∈ p.directory) (hused : t.isUsed) : q.get ⟨q.id, t.id⟩ =
      .ok ((p.image.overwrite pl.slot.start record).slice t.start t.length.toNat) := by
  have hd := hp.describes
  have hslot : q.slot? t.id = some t :=
    (slot?_eq_some_iff (hs.ids_nodup hd)).2 ⟨hs.mem_of_used ht hused, rfl⟩
  have hfree : t.isFree = false := by simpa using hused
  rw [get_of_entry (entry_eq_ok_iff.2 ⟨rfl, hslot⟩), hfree, if_neg Bool.false_ne_true,
    if_pos (hd.stop_le t ht), slice_of_settle hs.settled (hs.front_le_start hp ht hused)]

end Placement.Stores

/-! ## When storing is safe -/

/-- A record is stored on a page that was read from a block. It is read back, all other records are
as before and the new page is read from its own image, exactly if the free entry that is taken over
in place, if there is one, keeps clear of the free space and of all records. -/
theorem add_keepsRecords_iff {bytes : Array UInt8} {p q : Page} {record : List UInt8}
    {id : RecordId} (hdecode : decode bytes = .ok p) (hadd : p.add record = .ok (id, q)) :
    (q.get id = .ok record ∧ (∀ other r, p.get other = .ok r → q.get other = .ok r) ∧
      decode q.image.toArray = .ok q) ↔ p.ReuseClear record.length := by
  have hp : p.Readable := (decode_eq_ok_iff.1 hdecode).2
  obtain ⟨pl, hs⟩ := exists_stores_of_add hp.describes.encloses hadd
  rw [decode_image_iff, ← hs.readable_iff hp.describes]
  constructor
  · rintro ⟨-, -, hq⟩
    exact hq
  · intro hq
    have hid : q.id = p.id := Edit.id_apply (e := .add record) (by rw [Edit.apply, hadd]; rfl)
    obtain ⟨hpage, hdead, hlive, hothers⟩ := liveRecord?_of_add hp hq hadd
    refine ⟨?_, ?_, hq⟩
    · exact (get_eq_ok_iff hq.describes.encloses).2 ⟨hpage.trans hid.symm, hlive⟩
    · intro other r hget
      obtain ⟨hother, hrecord⟩ := (get_eq_ok_iff hp.describes.encloses).1 hget
      have hne : other.slot ≠ id.slot := by
        intro heq
        rw [heq, hdead] at hrecord
        cases hrecord
      exact (get_eq_ok_iff hq.describes.encloses).2
        ⟨hother.trans hid.symm, (hothers other.slot hne).trans hrecord⟩

/-! ## A record that is lost -/

/-- The header of a page with a record and a free entry. -/
def overlaidHeader : Header :=
  { Header.fresh 0 with lower := 40, upper := 8184, slotCount := 2, freeSlotCount := 1 }

/-- An entry for the last bytes of a page. -/
def overlaidEntry (id : SlotId) (status : SlotStatus) : Slot where
  id := id
  status := status
  offset := 8184
  length := 8

/-- The entry of the record, and a free entry over it. -/
def overlaidDirectory : List Slot := [overlaidEntry 0 .used, overlaidEntry 1 .free]

def firstRecord : List UInt8 := List.replicate 8 1

def secondRecord : List UInt8 := List.replicate 8 2

/-- A page that can be read, with one record, over which the next one is stored. -/
def overlaidPage : Page where
  header := overlaidHeader
  directory := overlaidDirectory
  image := (Image.zero.overwrite 8184 firstRecord).overwrite 0
    (encodeLayout overlaidHeader overlaidDirectory)

private theorem describes_overlaidHeader : overlaidHeader.Describes overlaidDirectory where
  length_eq := rfl
  ids_nodup := by decide
  id_lt := by decide
  front_le_lower := by decide
  lower_le_upper := by decide
  upper_le := by decide
  keySize_le := by decide
  stop_le := by decide
  upper_le_start := by decide
  apart := List.pairwise_pair.2 fun _ hfree ↦ absurd hfree (by decide)
  countFree := by decide

private theorem readable_overlaidPage : overlaidPage.Readable :=
  readable_overwrite _ describes_overlaidHeader

private theorem decode_overlaidPage : decode overlaidPage.image.toArray = .ok overlaidPage :=
  decode_image_iff.2 readable_overlaidPage

private theorem exists_add_overlaidPage (record : List UInt8)
    (hok : (overlaidPage.add record).isOk = true) :
    ∃ id q, overlaidPage.add record = .ok (id, q) := by
  cases h : overlaidPage.add record with
  | ok result => exact ⟨result.1, result.2, rfl⟩
  | error e =>
    rw [h] at hok
    cases hok

/-- A record that does not fit into the free entry is safe on this page. -/
theorem add_keepsRecords_longRecord : ∃ id q,
    overlaidPage.add (List.replicate 9 3) = .ok (id, q) ∧ q.get id = .ok (List.replicate 9 3) ∧
      (∀ other r, overlaidPage.get other = .ok r → q.get other = .ok r) ∧
      decode q.image.toArray = .ok q := by
  obtain ⟨id, q, hadd⟩ := exists_add_overlaidPage (List.replicate 9 3) (by decide +kernel)
  refine ⟨id, q, hadd, (add_keepsRecords_iff decode_overlaidPage hadd).2 ?_⟩
  intro old hfound hlen
  cases hfound
  exact absurd hlen (by decide)

private theorem slice_overlaidPage : overlaidPage.image.slice 8184 8 = firstRecord := by
  have hfront : 0 + (encodeLayout overlaidHeader overlaidDirectory).length ≤ 8184 := by
    rw [length_encodeLayout]
    decide
  have hrecord : 8184 + firstRecord.length ≤ pageSize := by decide
  exact (Image.slice_overwrite_of_disjoint _ (.inr hfront)).trans
    (Image.slice_overwrite Image.zero hrecord)

private theorem start_of_stores {pl : Placement} {q : Page} {id : RecordId}
    (hs : pl.Stores overlaidPage secondRecord id q) : pl.slot.start = 8184 := by
  rcases hs.way with ⟨old, others, hr⟩ | ha
  · obtain rfl : overlaidEntry 1 .free = old := Option.some.inj hr.found
    rcases hr.space with ⟨-, -, hstart⟩ | ⟨hlt, -, -⟩
    · exact hstart
    · exact absurd hlt (by decide)
  · cases ha.noneFree

/-- A record is stored and another one is lost, without an error. The page that is made cannot be
read back either. -/
theorem add_overwrites_record : ∃ id q,
    decode overlaidPage.image.toArray = .ok overlaidPage ∧
      overlaidPage.add secondRecord = .ok (id, q) ∧ overlaidPage.get ⟨0, 0⟩ = .ok firstRecord ∧
      q.get ⟨0, 0⟩ = .ok secondRecord ∧ decode q.image.toArray ≠ .ok q := by
  obtain ⟨id, q, hadd⟩ := exists_add_overlaidPage secondRecord (by decide +kernel)
  obtain ⟨pl, hs⟩ := exists_stores_of_add describes_overlaidHeader.encloses hadd
  have hmem : overlaidEntry 0 .used ∈ overlaidPage.directory := List.mem_cons_self
  have hpage : q.id = 0 := Edit.id_apply (e := .add secondRecord) (by rw [Edit.apply, hadd]; rfl)
  refine ⟨id, q, decode_overlaidPage, hadd, ?_, ?_, ?_⟩
  · have hslot : overlaidPage.slot? (RecordId.mk 0 0).slot = some (overlaidEntry 0 .used) := rfl
    have hget := get_eq_of_slot? describes_overlaidHeader.encloses rfl hslot
    exact hget.trans (congrArg Except.ok slice_overlaidPage)
  · have hget := hs.get_eq readable_overlaidPage hmem rfl
    rw [hpage, start_of_stores hs] at hget
    have hrecord : 8184 + secondRecord.length ≤ pageSize := by decide
    exact hget.trans (congrArg Except.ok (Image.slice_overwrite overlaidPage.image hrecord))
  · rw [ne_eq, decode_image_iff, hs.readable_iff describes_overlaidHeader]
    intro hclear
    have hapart := (hclear (overlaidEntry 1 .free) rfl (by decide)).2 _ hmem rfl
    revert hapart
    decide

end PagedStorage.Page
