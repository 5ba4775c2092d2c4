import Mathlib.Data.List.Nodup
import PagedStorage.Page.Records

/-!
# Directory entries as a set

Every rule on a directory is a rule on its entries and not on their order: no two ids are the
same, no two stretches share a byte, so many entries are free. Storing or deleting a record
exchanges one entry for another and then sorts, so it is enough to know that sorting is a
permutation, and that a directory with one entry exchanged is, up to order, the new entry in
front of the others.

## Stretches and bytes

Two entries are `Slot.Apart` if one ends before the other one starts. For entries with room for a
key, which have at least eight bytes, this is that they share no byte, and what is written over the
stretch of one is not seen by reading the other. These facts are about copying into an array, and
are here because all that is said of records later comes down to them.

## Keys are read once

Sorting attaches to each entry the key that it reads from the image, sorts by the keys and drops
them. That the keys are read once and not in each comparison makes no difference to the order that
comes out (`sortDirectory_eq_mergeSort`).
-/

namespace PagedStorage

/-! ## Stretches that share no byte -/

/-- One entry ends before the other one starts. -/
def Slot.Apart (a b : Slot) : Prop := a.stop ≤ b.start ∨ b.stop ≤ a.start

theorem Slot.Apart.symm {a b : Slot} (h : a.Apart b) : b.Apart a := Or.symm h

theorem Slot.start_add_length (s : Slot) : s.start + s.length.toNat = s.stop := rfl

theorem Slot.stop_eq {s : Slot} {n : Nat} (h : s.length.toNat = n) : s.stop = s.start + n := by
  rw [← h]
  rfl

theorem Slot.start_lt_stop {s : Slot} (h : keySize ≤ s.length.toNat) : s.start < s.stop := by
  rw [← s.start_add_length]
  exact Nat.lt_add_of_pos_right (Nat.lt_of_lt_of_le (by decide) h)

@[simp] theorem Slot.isUsed_eq_not_isFree (s : Slot) : s.isUsed = !s.isFree := by
  unfold isUsed isFree
  cases s.status <;> rfl

namespace Image

/-- Bytes outside the written stretch are read as before. -/
theorem slice_overwrite_of_disjoint (image : Image) {start len at_ : Nat} {bs : List UInt8}
    (h : start + len ≤ at_ ∨ at_ + bs.length ≤ start) :
    (image.overwrite at_ bs).slice start len = image.slice start len := by
  apply List.ext_getElem?
  intro i
  rw [slice, slice, Bytes.getElem?_slice, Bytes.getElem?_slice]
  by_cases hi : i < len
  · rw [if_pos hi, if_pos hi, overwrite, Bytes.getElem?_overwrite, if_neg (by omega)]
  · rw [if_neg hi, if_neg hi]

theorem getElem?_overwrite_of_outside (image : Image) {start i : Nat} {bs : List UInt8}
    (h : i < start ∨ start + bs.length ≤ i) : (image.overwrite start bs)[i]? = image[i]? := by
  rw [getElem?_overwrite, if_neg (by omega)]

theorem getElem?_of_slice_eq {a b : Image} {start len i : Nat}
    (h : a.slice start len = b.slice start len) (hstart : start ≤ i) (hstop : i < start + len) :
    a[i]? = b[i]? := by
  have hbyte := congrArg (·[i - start]?) h
  have hin : i - start < len := by omega
  simpa only [slice, Bytes.getElem?_slice, if_pos hin, Nat.add_sub_cancel' hstart,
    Vector.getElem?_toArray] using hbyte

/-- What was written is read back. -/
theorem slice_overwrite (image : Image) {start : Nat} {bs : List UInt8}
    (h : start + bs.length ≤ pageSize) :
    (image.overwrite start bs).slice start bs.length = bs := by
  have hsize : image.toArray.size = pageSize := image.size_toArray
  exact Bytes.slice_overwrite image.toArray start bs (by rw [hsize]; exact h)

end Image

namespace Page

/-! ## Sorting -/

/-- Whether an entry may stand before another one. -/
def inOrder (image : Image) (a b : Slot) : Bool := decide (sortKey image a ≤ sortKey image b)

/-- That each key is read off the image once only does not matter for the order. -/
theorem sortDirectory_eq_mergeSort (image : Image) (directory : List Slot) :
    sortDirectory image directory = directory.mergeSort (inOrder image) := by
  have hpairs : (directory.mergeSort (inOrder image)).map (fun s ↦ (sortKey image s, s)) =
      (directory.map fun s ↦ (sortKey image s, s)).mergeSort fun a b ↦ decide (a.1 ≤ b.1) :=
    List.map_mergeSort fun _ _ _ _ ↦ rfl
  rw [sortDirectory, ← hpairs, List.map_map]
  exact List.map_id _

theorem sortDirectory_perm (image : Image) (directory : List Slot) :
    (sortDirectory image directory).Perm directory := by
  rw [sortDirectory_eq_mergeSort]
  exact List.mergeSort_perm directory (inOrder image)

/-! ## Exchanging an entry -/

theorem isFree_of_find? {directory : List Slot} {s : Slot}
    (h : directory.find? (·.isFree) = some s) : s.isFree := by
  simpa using List.find?_some h

theorem exists_perm_cons {directory : List Slot} {s : Slot} (hs : s ∈ directory) :
    ∃ others, directory.Perm (s :: others) :=
  ⟨directory.erase s, List.perm_cons_erase hs⟩

/-- An entry is exchanged for one with the same id; all others have other ids and stay. -/
theorem replaceSlot_perm {directory others : List Slot} {old new : Slot}
    (hids : (directory.map (·.id)).Nodup) (hperm : directory.Perm (old :: others))
    (hid : new.id = old.id) : (replaceSlot directory new).Perm (new :: others) := by
  have hnodup : ((old :: others).map (·.id)).Nodup := (hperm.map _).nodup_iff.1 hids
  rw [List.map_cons, List.nodup_cons] at hnodup
  -- The exchange maps over the whole directory. Ids are unique, so the others are left alone.
  have hothers : others.map (fun s ↦ if s.id = new.id then new else s) = others := by
    conv_rhs => rw [← List.map_id others]
    apply List.map_congr_left
    intro s hs
    have hne : s.id ≠ new.id := by
      rintro heq
      exact hnodup.1 (List.mem_map.2 ⟨s, hs, by rw [heq, hid]⟩)
    exact if_neg hne
  have hmap := hperm.map fun s ↦ if s.id = new.id then new else s
  rw [List.map_cons, if_pos hid.symm, hothers] at hmap
  exact hmap

theorem filter_replaceSlot (directory : List Slot) (new : Slot) :
    (replaceSlot directory new).filter (·.id != new.id) = directory.filter (·.id != new.id) := by
  induction directory with
  | nil => rfl
  | cons s rest ih =>
    rw [replaceSlot, List.map_cons, ← replaceSlot]
    by_cases hid : s.id = new.id
    · rw [if_pos hid, List.filter_cons_of_neg (by simp), List.filter_cons_of_neg (by simp [hid]),
        ih]
    · rw [if_neg hid, List.filter_cons_of_pos (by simpa), List.filter_cons_of_pos (by simpa), ih]

theorem slot?_eq_some_iff {p : Page} (hids : (p.directory.map (·.id)).Nodup) {id : SlotId}
    {s : Slot} : p.slot? id = some s ↔ s ∈ p.directory ∧ s.id = id := by
  constructor
  · intro h
    exact ⟨List.mem_of_find?_eq_some h, by simpa using List.find?_some h⟩
  · rintro ⟨hs, rfl⟩
    cases hfound : p.slot? s.id with
    | none => exact absurd (List.find?_eq_none.1 hfound s hs) (by simp)
    | some t =>
      have ht : t ∈ p.directory := List.mem_of_find?_eq_some hfound
      have hid : t.id = s.id := by simpa using List.find?_some hfound
      rw [List.inj_on_of_nodup_map hids ht hs hid]

theorem slot?_eq_none_iff {p : Page} {id : SlotId} :
    p.slot? id = none ↔ ∀ s ∈ p.directory, s.id ≠ id := by
  rw [slot?, List.find?_eq_none]
  exact forall₂_congr fun s _ ↦ by rw [beq_iff_eq]

end Page

end PagedStorage
