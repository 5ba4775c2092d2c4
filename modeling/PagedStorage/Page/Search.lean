import PagedStorage.Page.Basic

/-!
# Finding a record by its key

The directory of a page is ordered by the first `keySize` bytes of the records, so the first
record with a given key is found by halving. The search itself, `partitionPoint`, is stated for
any test on positions: on a test that holds of a first part of the positions and of no later
one, it answers the length of that part. Pages that were read from a store may be out of order,
so the steps of the halving are fixed here and not only their result on ordered input.

Free entries take part in the order, with a key of zeros, and are skipped in the end.
-/

namespace PagedStorage

/-- Halves the `size` positions from `base` until one is left. The lower half is given up exactly
if the test holds at the first position of the upper half. -/
def narrow (test : Nat → Bool) (base size : Nat) : Nat :=
  if size ≤ 1 then base
  else
    let half := size / 2
    if test (base + half) then narrow test (base + half) (size - half)
    else narrow test base (size - half)
termination_by size

/-- Where the positions that pass a test end, if those that pass stand in front. -/
def partitionPoint (test : Nat → Bool) (size : Nat) : Nat :=
  if size = 0 then 0
  else
    let base := narrow test 0 size
    if test base then base + 1 else base

/-- Halving ends at the last position that passes the test, or at the first if none does. -/
theorem narrow_bounds {test : Nat → Bool} {base size stop : Nat} (hpos : 0 < size)
    (hlow : base ≤ stop) (hhigh : stop ≤ base + size)
    (htest : ∀ i < base + size, test i = decide (i < stop)) :
    narrow test base size ≤ stop ∧ stop ≤ narrow test base size + 1 ∧
      narrow test base size < base + size := by
  fun_induction narrow test base size with
  | case1 base size hsize => omega
  | case2 base size hsize half hmid ih =>
    rw [htest _ (by omega), decide_eq_true_eq] at hmid
    have := ih (by omega) (by omega) (by omega) fun i hi ↦ htest i (by omega)
    omega
  | case3 base size hsize half hmid ih =>
    rw [htest _ (by omega), decide_eq_true_eq] at hmid
    have := ih (by omega) (by omega) (by omega) fun i hi ↦ htest i (by omega)
    omega

/-- On a test that the first `stop` positions pass and no later one, the answer is `stop`. -/
theorem partitionPoint_eq {test : Nat → Bool} {size stop : Nat} (hstop : stop ≤ size)
    (htest : ∀ i < size, test i = decide (i < stop)) : partitionPoint test size = stop := by
  by_cases hsize : size = 0
  · rw [partitionPoint, if_pos hsize]
    omega
  · have hbounds : narrow test 0 size ≤ stop ∧ stop ≤ narrow test 0 size + 1 ∧
        narrow test 0 size < 0 + size :=
      narrow_bounds (by omega) (by omega) (by omega) fun i hi ↦ htest i (by omega)
    obtain ⟨hlow, hhigh, hlt⟩ := hbounds
    rw [Nat.zero_add] at hlt
    simp only [partitionPoint, if_neg hsize, htest _ hlt, decide_eq_true_eq]
    split <;> omega

namespace Page

/-- The first stored record, in directory order, whose first `keySize` bytes are `key`. -/
def find (p : Page) (key : List UInt8) : Except Error RecordId :=
  if withinPage p.directory then
    let keys := (p.directory.map (sortKey p.image)).toArray
    let before i := decide (keys.getD i [] < key)
    let candidates := (p.directory.drop (partitionPoint before p.directory.length)).takeWhile
      fun s ↦ sortKey p.image s == key
    match candidates.find? (·.isUsed) with
    | some s => .ok ⟨p.id, s.id⟩
    | none => .error (.recordNotFound p.id)
  else .error (.fault .outOfBounds)

end Page

end PagedStorage
