import PagedStorage.Proofs.Page.Runs

/-!
# What deleted records leave behind

Nothing: each byte of an image belongs to the front or to a record, or it is zero (`Page.Wiped`). So
the header, the directory and the records determine the image, and two pages that agree in these are
equal whatever was stored on them before (`Page.HoldsNoRemains`).

## Bytes that nobody owns

What becomes of the bytes of a deleted record is not followed. The condition is about the bytes that
nobody owns *now*, and each edit keeps it for a reason of its own. To store a record writes no byte
but those that the record owns, the front only grows, and no record loses its bytes. To delete one
gives up bytes that were just set to zero. An entry that is free owns nothing, so when it is taken
over by a shorter record, or moved because the new record is longer, there is nothing to be done for
the bytes that it gives up.

## How much is needed of the page

It is enough that all entries lie inside the page. Entries that lie over each other do not matter: a
byte that two of them own has an owner. The comparison of two images at the end goes byte by byte:
the front is that of the header and the directory, the bytes of a record are read by its address,
and all others are zero.
-/

namespace PagedStorage.Page

variable {p q : Page} {e : Edit} {id : PageId} {i : Nat}

/-- The byte at `i` belongs neither to the front nor to a record. -/
def Unowned (p : Page) (i : Nat) : Prop :=
  slotPosition p.header.slotCount.toNat ≤ i ∧ i < pageSize ∧
    ∀ s ∈ p.directory, s.isUsed → i < s.start ∨ s.stop ≤ i

/-- Bytes that belong to nothing are zero. -/
def Wiped (p : Page) : Prop := ∀ i, p.Unowned i → p.image[i]? = some 0

/-! ## One edit -/

namespace Placement.Stores

variable {pl : Placement} {record : List UInt8} {rid : RecordId}

private theorem slotCount_le (hs : pl.Stores p record rid q) :
    p.header.slotCount.toNat ≤ q.header.slotCount.toNat := by
  rw [header_of_settle hs.settled]
  obtain ⟨old, others, hr⟩ | ha := hs.way
  · exact Nat.le_of_eq (by rw [hr.header_eq])
  · rw [ha.count_eq]
    exact Nat.le_succ _

/-- A byte that nobody owns afterwards had no owner before, and was not written. -/
theorem unowned (hs : pl.Stores p record rid q) (h : q.Unowned i) :
    p.Unowned i ∧ (i < pl.slot.start ∨ pl.slot.stop ≤ i) := by
  obtain ⟨hfront, hlt, hout⟩ := h
  refine ⟨⟨?_, hlt, fun t ht hused ↦ hout t (hs.mem_of_used ht hused) hused⟩,
    hout pl.slot hs.mem_slot hs.used⟩
  exact Nat.le_trans (Nat.add_le_add_left (Nat.mul_le_mul_right _ hs.slotCount_le) _) hfront

theorem wiped (hs : pl.Stores p record rid q) (hd : p.header.Encloses p.directory)
    (hw : p.Wiped) : q.Wiped := by
  intro i hi
  obtain ⟨hunowned, hout⟩ := hs.unowned hi
  have hbehind : slotPosition pl.directory.length ≤ i := by
    rw [← (directory_of_settle hs.settled).length_eq, (hs.enclosed hd).encloses.length_eq]
    exact hi.1
  rw [hs.stop_eq] at hout
  rw [getElem?_of_settle hs.settled hbehind, Image.getElem?_overwrite_of_outside _ hout]
  exact hw i hunowned

end Placement.Stores

theorem Frees.wiped {s : Slot} (hf : p.Frees s q) (hd : p.header.Encloses p.directory)
    (hw : p.Wiped) : q.Wiped := by
  rintro i ⟨hfront, hlt, hout⟩
  rw [header_of_settle hf.settled] at hfront
  have hbehind : slotPosition (replaceSlot p.directory { s with status := .free }).length ≤ i := by
    rw [replaceSlot, List.length_map, hd.length_eq]
    exact hfront
  rw [getElem?_of_settle hf.settled hbehind, Image.getElem?_overwrite, List.length_replicate]
  split
  next hin => rw [List.getElem?_replicate, if_pos (by omega)]
  next hnot =>
    refine hw i ⟨hfront, hlt, fun t ht hused ↦ ?_⟩
    by_cases hts : t = s
    · rw [hts, ← s.start_add_length]
      omega
    · exact hout t (hf.mem_of_ne hd.ids_nodup ht hts) hused

theorem wiped_withHeader (hw : p.Wiped) {h : Header} (hcount : h.slotCount = p.header.slotCount) :
    (p.withHeader h).Wiped := by
  rintro i ⟨hfront, hlt, hout⟩
  have hbehind : slotPosition h.slotCount.toNat ≤ i := hfront
  have hrest : 0 + h.encode.length ≤ i := by
    rw [h.length_encode]
    unfold slotPosition at hbehind
    omega
  rw [hcount] at hbehind
  exact (Image.getElem?_overwrite_of_outside p.image (.inr hrest)).trans (hw i ⟨hbehind, hlt, hout⟩)

theorem wiped_fresh (id : PageId) : (fresh id).Wiped := by
  rintro i ⟨hfront, hlt, -⟩
  have hbehind : headerSize ≤ i := hfront
  have hzero : Image.zero[i]? = some 0 := by
    rw [Image.zero, Vector.getElem?_replicate, if_pos hlt]
  refine Eq.trans (Image.getElem?_overwrite_of_outside Image.zero (.inr ?_)) hzero
  rwa [Header.length_encode, Nat.zero_add]

theorem Edit.wiped_apply (hp : p.Enclosed) (hw : p.Wiped) (h : e.apply p = .ok q) : q.Wiped := by
  cases becomes_of_apply hp.encloses h with
  | stores hs => exact hs.wiped hp.encloses hw
  | frees hf => exact hf.wiped hp.encloses hw
  | same => exact hw
  | relinks _ _ hcount _ => exact wiped_withHeader hw hcount
  | reset => exact wiped_fresh p.id

theorem Built.wiped (h : Built id p) : p.Wiped := by
  induction h with
  | fresh => exact wiped_fresh id
  | edit hp hq ih => exact Edit.wiped_apply hp.tidy.readable.enclosed ih hq
  | reload hp hencode hdecode ih => rwa [eq_of_reload hp.tidy.readable hencode hdecode]

/-! ## What determines an image -/

/-- Compared byte by byte: the front is that of the header and the directory, the bytes of a record
are read by its address, and all others are zero. -/
theorem image_eq_of_wiped (hp : p.Enclosed) (hq : q.Enclosed) (hwp : p.Wiped) (hwq : q.Wiped)
    (hheader : q.header = p.header) (hdir : q.directory = p.directory)
    (hget : ∀ rid record, q.get rid = .ok record ↔ p.get rid = .ok record) :
    q.image = p.image := by
  refine Vector.ext fun i hlt ↦ ?_
  suffices hbyte : q.image[i]? = p.image[i]? by
    rwa [Vector.getElem?_eq_getElem hlt, Vector.getElem?_eq_getElem hlt, Option.some_inj] at hbyte
  by_cases hfront : i < slotPosition p.header.slotCount.toNat
  · have hlayout := hq.front
    rw [HasFront, hheader, hdir, ← hp.front, hp.encloses.length_eq] at hlayout
    exact Image.getElem?_of_slice_eq hlayout (Nat.zero_le i) (by omega)
  by_cases hrecord : ∃ s ∈ p.directory, s.isUsed ∧ s.start ≤ i ∧ i < s.stop
  · obtain ⟨s, hs, hused, hstart, hstop⟩ := hrecord
    have hread := (hget ⟨p.id, s.id⟩ _).2 (get_of_mem hp.encloses hs hused)
    rw [Page.id, ← hheader, ← Page.id, get_of_mem hq.encloses (hdir ▸ hs) hused] at hread
    exact Image.getElem?_of_slice_eq (Except.ok.inj hread) hstart hstop
  · have hout : ∀ s ∈ p.directory, s.isUsed → i < s.start ∨ s.stop ≤ i := by
      intro s hs hused
      by_contra hin
      exact hrecord ⟨s, hs, hused, by omega⟩
    have hunowned : p.Unowned i := ⟨Nat.le_of_not_lt hfront, hlt, hout⟩
    have hunowned' : q.Unowned i := by rwa [Unowned, hheader, hdir, ← Unowned]
    rw [hwp i hunowned, hwq i hunowned']

/-- The image of a page says nothing about records that were deleted or replaced. -/
structure HoldsNoRemains (p : Page) : Prop where
  /-- Outside of the front and of the records all bytes are zero. -/
  wiped : p.Wiped
  /-- Edits that lead to the same header, directory and records lead to the same page, whatever
  other records they stored on the way. -/
  eq_after : ∀ id edits, ((fresh id).after edits).header = p.header →
    ((fresh id).after edits).directory = p.directory →
    (∀ rid record, ((fresh id).after edits).get rid = .ok record ↔ p.get rid = .ok record) →
      (fresh id).after edits = p

/-- Every run of edits on a new page, failing ones included, leads to a page without remains. -/
theorem holdsNoRemains_after (id : PageId) (edits : List Edit) :
    ((fresh id).after edits).HoldsNoRemains := by
  have hbuilt : Built id ((fresh id).after edits) := built_iff_exists_after.2 ⟨edits, rfl⟩
  refine ⟨hbuilt.wiped, fun id' edits' hheader hdir hget ↦ ?_⟩
  have hbuilt' : Built id' ((fresh id').after edits') := built_iff_exists_after.2 ⟨edits', rfl⟩
  have himage := image_eq_of_wiped hbuilt.tidy.readable.enclosed hbuilt'.tidy.readable.enclosed
    hbuilt.wiped hbuilt'.wiped hheader hdir hget
  exact Page.mk.injEq .. ▸ ⟨hheader, hdir, himage⟩

end PagedStorage.Page
