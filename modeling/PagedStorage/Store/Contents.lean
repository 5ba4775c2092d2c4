import PagedStorage.Page.Image

/-!
# Contents of stores

What a store holds is a sequence of bytes that may be far longer than all that was ever written
to it: a write far behind the end leaves a gap of zeros. So the contents are kept in pieces of the
size of a page, each under its number, and a piece in which nothing was written is not kept.

The view of contents is `size` and `byte`, the byte at a position, which is zero from the end on.
Every operation has one equation for each of the two, and nothing else needs to be known of the
pieces. In particular two lists of pieces may stand for the same bytes.
-/

namespace PagedStorage

/-- A sequence of bytes with gaps. -/
structure Contents where
  size : Nat := 0
  /-- The pieces that are kept. Where a number occurs twice, the first one counts. -/
  pieces : List (Nat × Image) := []
deriving DecidableEq, Inhabited

namespace Contents

/-! ## Pieces -/

/-- The piece that holds position `i`, as far as it is kept. -/
def piece? (c : Contents) (i : Nat) : Option Image := c.pieces.lookup (i / pageSize)

/-- The byte of a piece at position `i` of the contents. -/
def byteOf (image : Image) (i : Nat) : UInt8 :=
  have : i % pageSize < pageSize := Nat.mod_lt i (by decide)
  image[i % pageSize]

/-- The byte at a position. -/
def byte (c : Contents) (i : Nat) : UInt8 :=
  if i < c.size then
    match c.piece? i with
    | some image => byteOf image i
    | none => 0
  else 0

/-- The piece with number `k` of the contents that have the bytes `f`. -/
def pieceWith (f : Nat → UInt8) (k : Nat) : Image := Vector.ofFn fun i ↦ f (k * pageSize + i)

/-- The number of the first piece that lies behind a position. -/
def piecesBefore (position : Nat) : Nat := (position + pageSize - 1) / pageSize

/-- The contents with those pieces only that lie between two positions, from the one that holds
the first of them on. -/
def window (c : Contents) (start stop : Nat) : Contents :=
  { c with pieces := c.pieces.filter fun e ↦
      decide (start / pageSize ≤ e.1) && decide (e.1 < piecesBefore stop) }

/-! ## Reading and writing -/

/-- The `len` bytes from position `start`, fewer where the contents end before. -/
def read (c : Contents) (start len : Nat) : Array UInt8 :=
  let near := c.window start (start + len)
  .ofFn fun i : Fin (min len (c.size - start)) ↦ near.byte (start + i)

/-- The contents with a block written over them. The size does not change. -/
def overwrite (c : Contents) (start : Nat) (block : Array UInt8) : Contents :=
  let stop := start + block.size
  let near := c.window start stop
  let f i := if h : start ≤ i ∧ i - start < block.size then block[i - start] else near.byte i
  let first := start / pageSize
  let touched := List.range' first (piecesBefore stop - first)
  { c with pieces := touched.map (fun k ↦ (k, pieceWith f k)) ++
      c.pieces.filter fun e ↦ !(decide (first ≤ e.1) && decide (e.1 < piecesBefore stop)) }

/-- The contents cut down, or grown by zeros, to a size. -/
def resize (c : Contents) (size : Nat) : Contents :=
  let kept := min size c.size
  { size := size
    pieces := (c.pieces.filter fun e ↦ decide (e.1 * pageSize < kept)).map fun (k, image) ↦
      (k, if (k + 1) * pageSize ≤ kept then image
        else pieceWith (fun i ↦ if i < kept then byteOf image i else 0) k) }

/-- The contents with a list of bytes written over them, grown by zeros if they were too short. -/
def write (c : Contents) (start : Nat) (block : List UInt8) : Contents :=
  let stop := start + block.length
  (if c.size < stop then c.resize stop else c).overwrite start block.toArray

/-- Contents without gaps. -/
def ofArray (bytes : Array UInt8) : Contents :=
  ({ size := bytes.size } : Contents).overwrite 0 bytes

/-- All bytes, with the gaps filled. -/
def toArray (c : Contents) : Array UInt8 := c.read 0 c.size

/-! ## Looking up pieces -/

theorem lookup_filter_number {α : Type} (keep : Nat → Bool) (k : Nat) (l : List (Nat × α)) :
    (l.filter fun e ↦ keep e.1).lookup k = if keep k then l.lookup k else none := by
  induction l with
  | nil => simp
  | cons e l ih =>
    obtain ⟨n, a⟩ := e
    by_cases hk : k = n
    · subst hk
      cases hkeep : keep k <;> simp [hkeep, ih]
    · have hne : (k == n) = false := beq_eq_false_iff_ne.mpr hk
      cases hkeep : keep n <;> simp [hkeep, List.lookup_cons, hne, ih]

private theorem lookup_map_number {α : Type} (f : Nat → α) (k : Nat) (numbers : List Nat) :
    (numbers.map fun n ↦ (n, f n)).lookup k = if k ∈ numbers then some (f k) else none := by
  induction numbers with
  | nil => simp
  | cons n numbers ih =>
    by_cases hk : k = n
    · subst hk
      simp
    · have hne : (k == n) = false := beq_eq_false_iff_ne.mpr hk
      simp [List.lookup_cons, hne, hk, ih]

private theorem lookup_map_image {α : Type} (f : Nat → α → α) (k : Nat) (l : List (Nat × α)) :
    (l.map fun (n, a) ↦ (n, f n a)).lookup k = (l.lookup k).map (f k) := by
  induction l with
  | nil => simp
  | cons e l ih =>
    obtain ⟨n, a⟩ := e
    by_cases hk : k = n
    · subst hk
      simp
    · have hne : (k == n) = false := beq_eq_false_iff_ne.mpr hk
      simp [List.lookup_cons, hne, ih]

theorem byteOf_pieceWith (f : Nat → UInt8) (i : Nat) :
    byteOf (pieceWith f (i / pageSize)) i = f i := by
  simp only [byteOf, pieceWith, Vector.getElem_ofFn, Nat.mul_comm (i / pageSize),
    Nat.div_add_mod]

/-- A position before `stop` is held by one of the pieces before `stop`. -/
theorem div_lt_piecesBefore {i stop : Nat} (h : i < stop) : i / pageSize < piecesBefore stop := by
  unfold piecesBefore pageSize
  omega

/-! ## The size -/

@[simp] theorem size_overwrite (c : Contents) (start : Nat) (block : Array UInt8) :
    (c.overwrite start block).size = c.size := rfl

@[simp] theorem size_resize (c : Contents) (size : Nat) : (c.resize size).size = size := rfl

@[simp] theorem size_write (c : Contents) (start : Nat) (block : List UInt8) :
    (c.write start block).size = max c.size (start + block.length) := by
  by_cases h : c.size < start + block.length
  · simp only [write, if_pos h, size_overwrite, size_resize]
    omega
  · simp only [write, if_neg h, size_overwrite]
    omega

@[simp] theorem size_ofArray (bytes : Array UInt8) : (ofArray bytes).size = bytes.size := rfl

@[simp] theorem size_read (c : Contents) (start len : Nat) :
    (c.read start len).size = min len (c.size - start) := by
  simp [read]

/-! ## The bytes -/

theorem byte_of_size_le (c : Contents) {i : Nat} (h : c.size ≤ i) : c.byte i = 0 := by
  rw [byte, if_neg (by omega)]

/-- The pieces around a stretch hold its bytes. -/
theorem byte_window (c : Contents) {start stop i : Nat}
    (h : start / pageSize ≤ i / pageSize ∧ i / pageSize < piecesBefore stop) :
    (c.window start stop).byte i = c.byte i := by
  have hpiece : (c.window start stop).piece? i = c.piece? i := by
    rw [piece?, window, lookup_filter_number (fun k ↦
      decide (start / pageSize ≤ k) && decide (k < piecesBefore stop))]
    simp [h, piece?]
  rw [byte, byte, hpiece]
  rfl

@[simp] theorem getElem?_read (c : Contents) (start len i : Nat) :
    (c.read start len)[i]? =
      if i < min len (c.size - start) then some (c.byte (start + i)) else none := by
  split
  next h =>
    rw [Array.getElem?_eq_getElem (by rwa [size_read])]
    simp only [read, Array.getElem_ofFn]
    rw [byte_window c ⟨Nat.div_le_div_right (by omega), div_lt_piecesBefore (by omega)⟩]
  next h => rw [Array.getElem?_eq_none (by rw [size_read]; omega)]

/-- Inside the written stretch the contents hold the block, elsewhere what they held before. -/
theorem byte_overwrite (c : Contents) (start : Nat) (block : Array UInt8) {i : Nat}
    (hi : i < c.size) :
    (c.overwrite start block).byte i =
      if h : start ≤ i ∧ i - start < block.size then block[i - start] else c.byte i := by
  have hsize : i < (c.overwrite start block).size := hi
  rw [byte, if_pos hsize]
  by_cases ht : start / pageSize ≤ i / pageSize ∧ i / pageSize < piecesBefore (start + block.size)
  · have hpiece : (c.overwrite start block).piece? i = some (pieceWith (fun i ↦
        if h : start ≤ i ∧ i - start < block.size then block[i - start]
        else (c.window start (start + block.size)).byte i) (i / pageSize)) := by
      rw [piece?, overwrite, List.lookup_append, lookup_map_number, if_pos (by
        rw [List.mem_range'_1]
        omega)]
      rfl
    rw [hpiece]
    simp only [byteOf_pieceWith]
    rw [byte_window c ht]
  · have hout : ¬ (start ≤ i ∧ i - start < block.size) := fun h ↦
      ht ⟨Nat.div_le_div_right h.1, div_lt_piecesBefore (by omega)⟩
    have hpiece : (c.overwrite start block).piece? i = c.piece? i := by
      rw [piece?, overwrite, List.lookup_append, lookup_map_number, if_neg (by
        rw [List.mem_range'_1]
        omega), lookup_filter_number (fun k ↦
          !(decide (start / pageSize ≤ k) && decide (k < piecesBefore (start + block.size))))]
      rw [if_pos (by simp; omega)]
      rfl
    rw [hpiece, dif_neg hout, byte, if_pos hi]

/-- Growing adds zeros, and what is cut off is gone. -/
@[simp] theorem byte_resize (c : Contents) (size i : Nat) :
    (c.resize size).byte i = if i < size then c.byte i else 0 := by
  by_cases hi : size ≤ i
  · rw [if_neg (by omega), byte_of_size_le _ (by simpa using hi)]
  have hi : i < size := by omega
  have hsize : i < (c.resize size).size := hi
  have hpiece : (c.resize size).piece? i =
      if i / pageSize * pageSize < min size c.size then
        (c.piece? i).map fun image ↦
          if (i / pageSize + 1) * pageSize ≤ min size c.size then image
          else pieceWith (fun i ↦ if i < min size c.size then byteOf image i else 0) (i / pageSize)
      else none := by
    rw [piece?, resize, lookup_map_image (fun k image ↦
      if (k + 1) * pageSize ≤ min size c.size then image
      else pieceWith (fun i ↦ if i < min size c.size then byteOf image i else 0) k),
      lookup_filter_number fun k ↦ decide (k * pageSize < min size c.size)]
    by_cases hk : i / pageSize * pageSize < min size c.size
    · rw [if_pos (by simpa using hk), if_pos hk, piece?]
    · rw [if_neg (by simpa using hk), if_neg hk, Option.map_none]
  have hdown : i / pageSize * pageSize ≤ i := Nat.div_mul_le_self i pageSize
  have hup : i < (i / pageSize + 1) * pageSize := by
    unfold pageSize
    omega
  rw [if_pos hi, byte, if_pos hsize, hpiece]
  by_cases hc : i < c.size
  · rw [if_pos (by omega), byte, if_pos hc]
    cases c.piece? i with
    | none => rfl
    | some image =>
      simp only [Option.map_some]
      split
      · rfl
      · rw [byteOf_pieceWith, if_pos (by omega)]
  · rw [byte_of_size_le c (by omega)]
    by_cases hk : i / pageSize * pageSize < min size c.size
    · rw [if_pos hk]
      cases c.piece? i with
      | none => rfl
      | some image =>
        simp only [Option.map_some]
        rw [if_neg (by omega), byteOf_pieceWith, if_neg (by omega)]
    · rw [if_neg hk]

/-- Inside the written stretch the contents hold the block, elsewhere what they held before. -/
@[simp] theorem byte_write (c : Contents) (start : Nat) (block : List UInt8) (i : Nat) :
    (c.write start block).byte i =
      if h : start ≤ i ∧ i - start < block.length then block[i - start] else c.byte i := by
  by_cases hi : i < (c.write start block).size
  · rw [size_write] at hi
    by_cases hgrow : c.size < start + block.length
    · rw [write, if_pos hgrow, byte_overwrite _ _ _ (by simp; omega), byte_resize]
      simp only [List.size_toArray, List.getElem_toArray]
      split
      · rfl
      · rw [if_pos (by omega)]
    · rw [write, if_neg hgrow, byte_overwrite _ _ _ (by omega)]
      simp
  · rw [byte_of_size_le _ (by omega)]
    rw [size_write] at hi
    rw [dif_neg (by omega), byte_of_size_le c (by omega)]

/-- What was written is read back. -/
@[simp] theorem read_write (c : Contents) (start : Nat) (block : List UInt8) :
    (c.write start block).read start block.length = block.toArray := by
  apply Array.ext_getElem?
  intro i
  rw [getElem?_read, size_write, byte_write, List.getElem?_toArray]
  by_cases hi : i < block.length
  · have hsub : start + i - start = i := by omega
    rw [if_pos (by omega), dif_pos ⟨by omega, by omega⟩, List.getElem?_eq_getElem hi]
    simp [hsub]
  · rw [if_neg (by omega), List.getElem?_eq_none (by omega)]

/-- Contents without gaps are the bytes that they were made of. -/
@[simp] theorem toArray_ofArray (bytes : Array UInt8) : (ofArray bytes).toArray = bytes := by
  apply Array.ext_getElem?
  intro i
  rw [toArray, getElem?_read, size_ofArray]
  by_cases hi : i < bytes.size
  · rw [if_pos (by omega), ofArray, byte_overwrite _ _ _ (by simpa using hi),
      dif_pos ⟨by omega, by omega⟩, Array.getElem?_eq_getElem hi]
    simp
  · rw [if_neg (by omega), Array.getElem?_eq_none (by omega)]

end Contents

end PagedStorage
