import Mathlib.Tactic.IntervalCases
import PagedStorage.Heap.Overflow

/-!
# Cutting evenly

A long record is cut into pieces of one size, which is rounded up, so the last piece gets what the
others leave.

## What rounding costs

With few pieces the last one is about as long as the others: rounding up takes less than one byte
from it for each of them. With many the rounding adds up. As long as the size is not the largest one
of a record, the pieces are shorter by a byte than they could be, and this leaves enough for the
last one (`Heap.le_lastPiece`). But where the size is rounded up to the largest size of a record,
nothing of the evenness is left, and the last piece is the remainder of a division by that size,
however small.

`Heap.LeavesScrap` says of which lengths this happens. All other records are cut into pieces that
can be stored.
-/

namespace PagedStorage.Heap

variable {α : Type} {size n d : Nat} {xs : List α} {record : List UInt8}

/-! ## The lengths of pieces -/

theorem map_length_pieces (hsize : 0 < size) (xs : List α) :
    (pieces size xs).map List.length = List.replicate (xs.length / size) size ++
      if xs.length % size = 0 then [] else [xs.length % size] := by
  fun_induction pieces size xs with
  | case1 => simp
  | case2 x rest ih =>
    rw [List.map_cons, ih, List.length_cons, List.length_cons, List.length_take, List.length_drop]
    rcases Nat.lt_or_ge (rest.length + 1) size with hlt | hge
    · have hnone : rest.length - (size - 1) = 0 := by omega
      have hmin : min (size - 1) rest.length = rest.length := by omega
      rw [hnone, hmin, Nat.zero_div, Nat.zero_mod, Nat.div_eq_of_lt hlt, Nat.mod_eq_of_lt hlt]
      simp
    · have hmin : min (size - 1) rest.length + 1 = size := by omega
      have hrest : rest.length - (size - 1) = rest.length + 1 - size := by omega
      have hdiv : (rest.length + 1) / size = (rest.length + 1 - size) / size + 1 :=
        Nat.div_eq_sub_div hsize hge
      rw [hmin, hrest, ← Nat.mod_eq_sub_mod hge, hdiv, List.replicate_succ, List.cons_append]

theorem forall_mem_pieces_iff {P : Nat → Prop} (hsize : 0 < size) (xs : List α) :
    (∀ piece ∈ pieces size xs, P piece.length) ↔
      (xs.length / size ≠ 0 → P size) ∧ (xs.length % size ≠ 0 → P (xs.length % size)) := by
  rw [← List.forall_mem_map, map_length_pieces hsize xs, List.forall_mem_append]
  refine and_congr ?_ ?_
  · simp only [List.mem_replicate, and_imp, forall_eq_apply_imp_iff]
  · by_cases hzero : xs.length % size = 0
    · simp [hzero]
    · simp [hzero]

theorem length_pieces_le (size : Nat) (xs : List α) : (pieces size xs).length ≤ xs.length := by
  fun_induction pieces size xs with
  | case1 => simp
  | case2 x rest ih =>
    rw [List.length_drop] at ih
    rw [List.length_cons, List.length_cons]
    omega

/-! ## The size of pieces -/

private theorem ceilDiv_cases (hd : 0 < d) (hn : 0 < n) :
    ∃ k, ceilDiv n d = k + 1 ∧ d * k < n ∧ n ≤ d * (k + 1) := by
  refine ⟨(n - 1) / d, ?_, ?_, ?_⟩
  · rw [ceilDiv, ← Nat.add_div_right (n - 1) hd]
    congr 1
    omega
  · have hmul := Nat.mul_div_le (n - 1) d
    omega
  · have hlt := Nat.lt_mul_div_succ (n - 1) hd
    omega

/-- The size of the pieces of a record of `n` bytes. -/
def pieceSize (n : Nat) : Nat := ceilDiv n (ceilDiv n maxRecordSize)

/-- The lengths of records of which the last piece is too small to be stored: little is left over
by the largest size, and there are so many pieces that they are of that size. -/
def LeavesScrap (n : Nat) : Prop :=
  0 < n % maxRecordSize ∧ n % maxRecordSize < minRecordSize ∧
    maxRecordSize ≤ n / maxRecordSize + n % maxRecordSize

instance : DecidablePred LeavesScrap := fun _ ↦ inferInstanceAs (Decidable (_ ∧ _ ∧ _))

/-- If the size is not the largest one, at least eight bytes are left for the last piece: with few
pieces since rounding up takes less than one byte from each, with many since the others are at
least a byte shorter than they could be. -/
theorem le_lastPiece {k j : Nat} (hn : minRecordSize ≤ n) (hcount : maxRecordSize * k < n)
    (hlow : (k + 1) * j < n) (hup : n ≤ (k + 1) * (j + 1)) (hj : j + 1 < maxRecordSize) :
    k * (j + 1) + minRecordSize ≤ n := by
  have hmax : maxRecordSize = 8160 := rfl
  have hmin : minRecordSize = 8 := rfl
  rw [hmax] at hcount hj
  rw [hmin] at hn ⊢
  rcases Nat.lt_or_ge k 8 with hfew | hmany
  · interval_cases k <;> omega
  · have hshort : k * (j + 1) ≤ k * 8159 := Nat.mul_le_mul_left k (by omega)
    omega

private theorem leavesScrap_iff {k : Nat} (hcount : maxRecordSize * k < n)
    (hcount' : n ≤ maxRecordSize * (k + 1)) : LeavesScrap n ↔
      n < maxRecordSize * k + minRecordSize ∧ maxRecordSize * (k + 1) ≤ k + n := by
  have hmax : maxRecordSize = 8160 := rfl
  have hmin : minRecordSize = 8 := rfl
  rw [LeavesScrap, hmax, hmin]
  rw [hmax] at hcount hcount'
  omega

theorem pieceSize_cases (hn : minRecordSize ≤ n) :
    (pieceSize n = maxRecordSize ∧
        (n % maxRecordSize = 0 ∨ maxRecordSize ≤ n / maxRecordSize + n % maxRecordSize)) ∨
      (minRecordSize ≤ pieceSize n ∧ pieceSize n < maxRecordSize ∧ ¬ LeavesScrap n ∧
        (n % pieceSize n ≠ 0 → minRecordSize ≤ n % pieceSize n)) := by
  have hpos : 0 < n := Nat.lt_of_lt_of_le (by decide) hn
  have hmax : maxRecordSize = 8160 := rfl
  have hmin : minRecordSize = 8 := rfl
  obtain ⟨k, hk, hcount, hcount'⟩ := ceilDiv_cases (d := maxRecordSize) (by decide) hpos
  obtain ⟨j, hj, hlow, hup⟩ := ceilDiv_cases (Nat.add_one_pos k) hpos
  have hsize : pieceSize n = j + 1 := by rw [pieceSize, hk, hj]
  rw [hsize]
  rcases Nat.lt_or_ge (j + 1) maxRecordSize with hsmall | hlarge
  · have hlast := le_lastPiece hn hcount hlow hup hsmall
    have hshort : (k + 1) * (j + 1) ≤ (k + 1) * 8159 := Nat.mul_le_mul_left (k + 1) (by omega)
    refine .inr ⟨?_, hsmall, ?_, fun hne ↦ ?_⟩
    · rw [Nat.add_mul, Nat.one_mul] at hup
      omega
    · rw [leavesScrap_iff hcount hcount', hmax, hmin]
      omega
    · -- What is left is the remainder, unless it makes up another piece of the same size.
      rw [Nat.add_mul, Nat.one_mul] at hup
      obtain ⟨last, rfl⟩ := Nat.exists_eq_add_of_le (Nat.le_of_add_right_le hlast)
      rw [Nat.mul_add_mod_self_right] at hne ⊢
      rcases Nat.lt_or_eq_of_le (Nat.le_of_add_le_add_left hup) with hlt | heq
      · rw [Nat.mod_eq_of_lt hlt]
        omega
      · rw [heq, Nat.mod_self] at hne
        exact absurd rfl hne
  · have hle : (k + 1) * j < (k + 1) * maxRecordSize := by
      rw [Nat.mul_comm _ maxRecordSize]
      exact Nat.lt_of_lt_of_le hlow hcount'
    have hlt : j < maxRecordSize := Nat.lt_of_mul_lt_mul_left hle
    have heq : j + 1 = maxRecordSize := Nat.le_antisymm hlt hlarge
    refine .inl ⟨heq, ?_⟩
    obtain rfl : j = 8159 := by omega
    rw [hmax] at hcount hcount' ⊢
    omega

/-! ## The pieces of a record -/

theorem overflowPieces_eq (record : List UInt8) :
    overflowPieces record = pieces (pieceSize record.length) record := rfl

theorem pieceSize_pos (hn : minRecordSize ≤ n) : 0 < pieceSize n := by
  obtain ⟨hsize, -⟩ | ⟨hsize, -⟩ := pieceSize_cases hn
  · rw [hsize]
    decide
  · exact Nat.lt_of_lt_of_le (by decide) hsize

theorem length_le_of_mem_overflowPieces {piece : List UInt8} (hn : minRecordSize ≤ record.length)
    (h : piece ∈ overflowPieces record) : piece.length ≤ maxRecordSize := by
  refine Nat.le_trans (length_le_of_mem_pieces (pieceSize_pos hn) h) ?_
  obtain ⟨hsize, -⟩ | ⟨-, hsize, -⟩ := pieceSize_cases hn
  · exact Nat.le_of_eq hsize
  · exact Nat.le_of_lt hsize

theorem length_eq_of_mem_overflowPieces {piece : List UInt8} (hn : minRecordSize ≤ record.length)
    (h : piece ∈ overflowPieces record) (hsmall : piece.length < minRecordSize) :
    LeavesScrap record.length ∧ piece.length = record.length % maxRecordSize := by
  revert hsmall
  refine (forall_mem_pieces_iff (P := fun m ↦ m < minRecordSize →
    LeavesScrap record.length ∧ m = record.length % maxRecordSize) (pieceSize_pos hn) record).2
      ⟨fun _ hsmall ↦ ?_, fun hne hsmall ↦ ?_⟩ piece h
  · obtain ⟨hsize, -⟩ | ⟨hsize, -⟩ := pieceSize_cases hn
    · rw [hsize] at hsmall
      exact absurd hsmall (by decide)
    · exact absurd hsize (Nat.not_le.2 hsmall)
  · obtain ⟨hsize, hrest⟩ | ⟨-, -, -, hrest⟩ := pieceSize_cases hn
    · rw [hsize] at hne hsmall ⊢
      exact ⟨⟨Nat.pos_of_ne_zero hne, hsmall, hrest.resolve_left hne⟩, rfl⟩
    · exact absurd (hrest hne) (Nat.not_le.2 hsmall)

/-- Every piece can be stored, unless the last one is a scrap. -/
theorem forall_storable_iff (hn : minRecordSize ≤ record.length) :
    (∀ piece ∈ overflowPieces record,
      minRecordSize ≤ piece.length ∧ piece.length ≤ maxRecordSize) ↔
      ¬ LeavesScrap record.length := by
  constructor
  · rintro h ⟨hpos, hsmall, hmany⟩
    have hscrap : LeavesScrap record.length := ⟨hpos, hsmall, hmany⟩
    obtain ⟨hsize, -⟩ | ⟨-, -, hnot, -⟩ := pieceSize_cases hn
    · have hlast := ((forall_mem_pieces_iff (P := fun m ↦ minRecordSize ≤ m ∧ m ≤ maxRecordSize)
        (pieceSize_pos hn) record).1 h).2
      rw [hsize] at hlast
      exact absurd (hlast (Nat.ne_of_gt hpos)).1 (Nat.not_le.2 hsmall)
    · exact hnot hscrap
  · intro hnot piece hpiece
    refine ⟨?_, length_le_of_mem_overflowPieces hn hpiece⟩
    by_contra hsmall
    exact hnot (length_eq_of_mem_overflowPieces hn hpiece (Nat.not_le.1 hsmall)).1

/-- The shortest record that leaves a scrap has more than sixty million bytes. -/
theorem le_of_leavesScrap (h : LeavesScrap n) : 66528487 ≤ n := by
  have hmax : maxRecordSize = 8160 := rfl
  have hmin : minRecordSize = 8 := rfl
  rw [LeavesScrap, hmax, hmin] at h
  omega

end PagedStorage.Heap
