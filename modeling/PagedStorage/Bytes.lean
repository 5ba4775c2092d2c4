/-!
# Blocks of bytes

A page image is an array of bytes; a record, a field and an encoded entry are short lists of bytes.
This layer holds what both sides need: numbers written least significant byte first, reading a
stretch of a block, and writing a list over a stretch of a block.

Reading and writing are total. A stretch that runs past the end of the block is read short and
written only where the block has room, so a caller that must not lose bytes checks the bounds
first.
-/

namespace PagedStorage.Bytes

/-! ## Numbers -/

/-- How many numbers can be told apart in `width` bytes. -/
def capacity : Nat → Nat
  | 0 => 1
  | width + 1 => 256 * capacity width

/-- The number `n` in `width` bytes, least significant byte first. -/
def littleEndian : Nat → Nat → List UInt8
  | 0, _ => []
  | width + 1, n => UInt8.ofNat (n % 256) :: littleEndian width (n / 256)

/-- The number that a list of bytes spells, least significant byte first. -/
def value : List UInt8 → Nat
  | [] => 0
  | b :: rest => b.toNat + 256 * value rest

@[simp] theorem length_littleEndian (width n : Nat) : (littleEndian width n).length = width := by
  induction width generalizing n with
  | zero => rfl
  | succ width ih => simp [littleEndian, ih]

theorem value_lt (bs : List UInt8) : value bs < capacity bs.length := by
  induction bs with
  | nil => simp [value, capacity]
  | cons b rest ih =>
    have hb : b.toNat < 256 := b.toNat_lt
    simp only [value, List.length_cons, capacity]
    omega

/-- Reading back gives the number, cut down to the width it was written in. -/
theorem value_littleEndian (width n : Nat) :
    value (littleEndian width n) = n % capacity width := by
  induction width generalizing n with
  | zero => simp [littleEndian, value, capacity, Nat.mod_one]
  | succ width ih =>
    have hb : (UInt8.ofNat (n % 256)).toNat = n % 256 := by
      simp [UInt8.toNat_ofNat']
    rw [littleEndian, value, hb, ih, capacity, Nat.mod_mul]

/-- A number written back in as many bytes as it was read from gives the same bytes. -/
theorem littleEndian_value (bs : List UInt8) : littleEndian bs.length (value bs) = bs := by
  induction bs with
  | nil => rfl
  | cons b rest ih =>
    have hb : b.toNat < 256 := b.toNat_lt
    have hlow : (b.toNat + 256 * value rest) % 256 = b.toNat := by omega
    have hhigh : (b.toNat + 256 * value rest) / 256 = value rest := by omega
    simp [littleEndian, value, hlow, hhigh, ih]

/-! ## Stretches of a block -/

/-- The `len` bytes from position `start`, fewer where the block ends before. -/
def slice (bytes : Array UInt8) (start len : Nat) : List UInt8 :=
  (bytes.extract start (start + len)).toList

/-- The number in the `width` bytes from position `start`. -/
def numberAt (bytes : Array UInt8) (start width : Nat) : Nat :=
  value (slice bytes start width)

/-- The block with a list written over it from position `start`; its size does not change. -/
def overwrite (bytes : Array UInt8) (start : Nat) : List UInt8 → Array UInt8
  | [] => bytes
  | b :: rest => overwrite (bytes.setIfInBounds start b) (start + 1) rest

@[simp] theorem size_overwrite (bytes : Array UInt8) (start : Nat) (bs : List UInt8) :
    (overwrite bytes start bs).size = bytes.size := by
  induction bs generalizing bytes start with
  | nil => rfl
  | cons b rest ih => simp [overwrite, ih]

@[simp] theorem length_slice (bytes : Array UInt8) (start len : Nat) :
    (slice bytes start len).length = min len (bytes.size - start) := by
  simp [slice]

@[simp] theorem getElem?_slice (bytes : Array UInt8) (start len i : Nat) :
    (slice bytes start len)[i]? = if i < len then bytes[start + i]? else none := by
  simp only [slice, Array.toList_extract, List.extract_eq_take_drop, List.getElem?_take,
    List.getElem?_drop, Array.getElem?_toList, Nat.add_sub_cancel_left]

/-- A stretch that lies inside another one. -/
theorem slice_add (bytes : Array UInt8) (start skip : Nat) {len total : Nat}
    (h : skip + len ≤ total) :
    slice bytes (start + skip) len = ((slice bytes start total).drop skip).take len := by
  apply List.ext_getElem?
  intro i
  rw [getElem?_slice, List.getElem?_take, List.getElem?_drop, getElem?_slice]
  by_cases hi : i < len
  · rw [if_pos hi, if_pos hi, if_pos (by omega), Nat.add_assoc]
  · rw [if_neg hi, if_neg hi]

/-- Inside the written stretch the block holds the list, elsewhere what it held before. -/
@[simp] theorem getElem?_overwrite (bytes : Array UInt8) (start : Nat) (bs : List UInt8) (i : Nat) :
    (overwrite bytes start bs)[i]? =
      if start ≤ i ∧ i < start + bs.length ∧ i < bytes.size then bs[i - start]? else bytes[i]? := by
  induction bs generalizing bytes start with
  | nil =>
    have : ¬ (start ≤ i ∧ i < start + ([] : List UInt8).length ∧ i < bytes.size) := by
      simp; omega
    rw [if_neg this, overwrite]
  | cons b rest ih =>
    rw [overwrite, ih, Array.size_setIfInBounds, Array.getElem?_setIfInBounds, List.length_cons]
    by_cases h : start = i
    · subst h
      by_cases hs : start < bytes.size
      · rw [if_neg (by omega), if_pos rfl, if_pos hs, if_pos (by omega)]
        simp
      · rw [if_neg (by omega), if_pos rfl, if_neg hs, if_neg (by omega)]
        simp [hs]
    · by_cases hr : start + 1 ≤ i ∧ i < start + 1 + rest.length ∧ i < bytes.size
      · rw [if_pos hr, if_pos (by omega)]
        have : i - start = i - (start + 1) + 1 := by omega
        rw [this, List.getElem?_cons_succ]
      · rw [if_neg hr, if_neg h, if_neg (by omega)]

/-- What was written is read back. -/
theorem slice_overwrite (bytes : Array UInt8) (start : Nat) (bs : List UInt8)
    (h : start + bs.length ≤ bytes.size) :
    slice (overwrite bytes start bs) start bs.length = bs := by
  apply List.ext_getElem?
  intro i
  rw [getElem?_slice, getElem?_overwrite]
  by_cases hi : i < bs.length
  · rw [if_pos hi, if_pos (by omega), Nat.add_sub_cancel_left]
  · rw [if_neg hi, List.getElem?_eq_none (by omega)]

end PagedStorage.Bytes
