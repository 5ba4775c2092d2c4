import PagedStorage.Proofs.Page.Accounting
import PagedStorage.Proofs.Page.Searching

/-!
# Pages from anywhere

The decoder lets free entries lie anywhere in a page, the header and the directory included. A
record that is stored in such an entry is copied over whatever stands there, and becomes a used
entry that no decoder would accept. So the page is no longer one that could be read, and what
`Header.Describes` says of pages is lost with the first edit.

## What is never lost

`Header.Encloses` is never lost: entries may lie over each other, but they lie inside the page, and
there are as many as the header counts. That is all that the code relies on. Copies, searches and
sorting stay inside the image, the sums and differences in the header stay inside sixteen bits, and
since the front is written last it says what the page in memory says, whatever was copied over it
before. All of this is `Page.Withstands`.

## Failing with reason

An edit on such a page may fail, for a reason that lies in what was asked for: a record that is too
small or finds no room, an address that names no slot. It does not end in a fault or a violation
(`isInternal_of_apply`), so a user of a page from anywhere needs no care of its own.

A page whose only entry is a free one over its header shows that the case is real. A record is
stored over the header and deleted again, and the page is still one.
-/

namespace PagedStorage

namespace Page

variable {p : Page} {id : RecordId} {key : List UInt8} {e : Error}

/-! ## Errors on a page from anywhere -/

private theorem get_eq_error (hd : p.header.Encloses p.directory) (h : p.get id = .error e) :
    e = .invalidRecordId id ∨ e = .recordFreed id := by
  cases hentry : p.entry id with
  | error e' =>
    rw [get_of_entry_eq_error hentry] at h
    cases h
    exact .inl (entry_eq_error hentry)
  | ok s =>
    have hs := List.mem_of_find?_eq_some (entry_eq_ok_iff.1 hentry).2
    rw [get_of_entry hentry, if_pos (hd.stop_le s hs)] at h
    split at h
    next =>
      cases h
      exact .inr rfl
    next => cases h

private theorem find_eq_error (hd : p.header.Encloses p.directory) (h : p.find key = .error e) :
    e = .recordNotFound p.id := by
  rw [find_eq_of_encloses hd] at h
  split at h
  next => cases h
  next =>
    cases h
    rfl

private theorem isInternal_of_isRecoverable (h : e.isRecoverable) : e.isInternal = false := by
  cases e <;> first | rfl | cases h

/-- An edit fails for a reason that lies in what was asked for. -/
theorem isInternal_of_apply {edit : Edit} (hd : p.header.Encloses p.directory)
    (h : edit.apply p = .error e) : e.isInternal = false := by
  cases edit with
  | add record =>
    obtain ⟨-, rfl⟩ := add_eq_error hd (map_eq_error_iff.1 h)
    exact isInternal_of_isRecoverable (isRecoverable_refusal p record.length)
  | delete id =>
    obtain ⟨rfl, -⟩ := delete_eq_error hd h
    rfl
  | linkTo _ | linkFrom _ | markOverflow | reset => cases h

/-- The count of free entries moves by one, and no other field of the header does. -/
theorem header_of_delete {q : Page} (h : p.delete id = .ok q) : q = p ∨
    q.header = { p.header with freeSlotCount := q.header.freeSlotCount } ∧
      q.header.freeSlotCount.toNat = p.header.freeSlotCount.toNat + 1 := by
  obtain ⟨s, -, -, ⟨-, rfl⟩ | hf⟩ := delete_cases h
  · exact .inl rfl
  · rw [header_of_settle hf.settled]
    exact .inr ⟨rfl, hf.free_eq⟩

/-! ## What runs of edits keep -/

/-- The layout of a page as far as the code relies on it, and what every operation on the page then
comes to. -/
structure Withstands (p : Page) : Prop where
  front_le_lower : slotPosition p.header.slotCount.toNat ≤ p.header.lower.toNat
  lower_le_upper : p.header.lower.toNat ≤ p.header.upper.toNat
  upper_le : p.header.upper.toNat ≤ pageSize
  countFree : p.directory.countP (·.isFree) = p.header.freeSlotCount.toNat
  /-- Each slot id below the slot count has one entry, and there are no others. -/
  ids_perm : (p.directory.map fun s ↦ s.id.toNat).Perm (List.range p.header.slotCount.toNat)
  /-- The header and the directory stand encoded at the start of the image. -/
  front : p.HasFront
  /-- The stretch of each entry has room for a key and ends inside the page. -/
  within : ∀ s ∈ p.directory, s.start + keySize ≤ s.stop ∧ s.stop ≤ pageSize
  /-- Storing takes what the header says, without a carry or a borrow, or refuses the record. -/
  adds : p.AdmitsExactly
  deletes : ∀ id q, p.delete id = .ok q → q = p ∨
    q.header = { p.header with freeSlotCount := q.header.freeSlotCount } ∧
      q.header.freeSlotCount.toNat = p.header.freeSlotCount.toNat + 1
  /-- No edit ends in a fault or a violation. -/
  edit_error : ∀ (edit : Edit) e, edit.apply p = .error e → e.isInternal = false
  get_error : ∀ id e, p.get id = .error e → e = .invalidRecordId id ∨ e = .recordFreed id
  find_error : ∀ key e, p.find key = .error e → e = .recordNotFound p.id
  mem_recordIds : ∀ id, id ∈ p.recordIds ↔ ∃ record, p.get id = .ok record

private theorem withstands_of_enclosed (hp : p.Enclosed) : p.Withstands where
  front_le_lower := hp.encloses.front_le_lower
  lower_le_upper := hp.encloses.lower_le_upper
  upper_le := hp.encloses.upper_le
  countFree := hp.encloses.countFree
  ids_perm := hp.encloses.ids_perm
  front := hp.front
  within s hs := ⟨Nat.add_le_add_left (hp.encloses.keySize_le s hs) s.start,
    hp.encloses.stop_le s hs⟩
  adds := admitsExactly_of_encloses hp.encloses
  deletes _ _ := header_of_delete
  edit_error _ _ := isInternal_of_apply hp.encloses
  get_error _ _ := get_eq_error hp.encloses
  find_error _ _ := find_eq_error hp.encloses
  mem_recordIds _ := mem_recordIds_iff hp.encloses

/-- Whatever block is accepted as a page, and whatever is done to the page: no operation ends in a
fault, and the page stays sound as far as the code relies on it. -/
theorem withstands_of_decode {bytes : Array UInt8} (hdecode : decode bytes = .ok p)
    (edits : List Edit) : (p.after edits).Withstands :=
  withstands_of_enclosed ((decode_eq_ok_iff.1 hdecode).2.enclosed.after edits)

end Page

/-! ## An entry over the header -/

/-- The header of a page with one entry, which is free. -/
def strayHeader : Header := { Header.fresh 0 with lower := 32, slotCount := 1, freeSlotCount := 1 }

theorem describes_strayHeader {s : Slot} (hid : s.id = 0) (hfree : s.isFree)
    (hkey : keySize ≤ s.length.toNat) (hstop : s.stop ≤ pageSize) : strayHeader.Describes [s] where
  length_eq := rfl
  ids_nodup := List.nodup_singleton _
  id_lt := List.forall_mem_singleton.2 (by rw [hid]; decide)
  front_le_lower := by decide
  lower_le_upper := by decide
  upper_le := by decide
  keySize_le := List.forall_mem_singleton.2 hkey
  stop_le := List.forall_mem_singleton.2 hstop
  upper_le_start := List.forall_mem_singleton.2 fun hused ↦ by simp [hfree] at hused
  apart := List.pairwise_singleton _ _
  countFree := List.countP_cons_of_pos hfree

namespace Page

/-- A free entry over the whole header of its page. -/
def maskingEntry : Slot where
  id := 0
  status := .free
  offset := 0
  length := 24

/-- A page that can be read, whose first record is copied over the header. -/
def maskedPage : Page where
  header := strayHeader
  directory := [maskingEntry]
  image := Image.zero.overwrite 0 (encodeLayout strayHeader [maskingEntry])

/-- The record is stored over the header and deleted again, and the page withstands it. -/
theorem withstands_maskedPage : decode maskedPage.image.toArray = .ok maskedPage ∧
    (∃ id q, maskedPage.add (List.replicate 24 255) = .ok (id, q)) ∧
      (maskedPage.after [.add (List.replicate 24 255), .delete ⟨0, 0⟩]).Withstands := by
  have hd : strayHeader.Describes [maskingEntry] :=
    describes_strayHeader rfl rfl (by decide) (by decide)
  have hdecode : decode maskedPage.image.toArray = .ok maskedPage :=
    decode_image_iff.2 (readable_overwrite _ hd)
  refine ⟨hdecode, (exists_add_iff hd.encloses).2 ?_, withstands_of_decode hdecode _⟩
  exact ⟨by decide, by decide, by decide, .inl ⟨maskingEntry, List.mem_cons_self, rfl⟩⟩

end Page

end PagedStorage
