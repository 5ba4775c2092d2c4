import Mathlib.Data.List.Nodup
import PagedStorage.LruCache

/-!
# The order of uses in the arena

The order of uses is a list with links in both directions, whose nodes lie in the cells of an
arena. `Linked` says this of a stretch of the list, with what stands before it and behind it left
open: a stretch can then be cut anywhere (`linked_append`), and each of the two parts is mended at
its open end without a look at the other one (`relinkBack`, `relinkFront`).

Taking out a node, putting one in front, taking a cell and giving one up are each one equation for
the list of nodes from there on.

## Open ends

A stretch may be empty, and this is where the code has its special cases: the head of the list
changes if nothing stands before the cut, and the tail if nothing stands behind it. `front` and
`back` take the open end for the first and the last cell of an empty stretch, so that the cut is
mended by one equation whether a stretch is empty or not.

## Cells that do not matter

A cell outside a stretch may hold anything, a node of another stretch or one that was given up. So
every lemma on a stretch asks only that the changed cell is none of its own, and for this the cells
of all nodes have to differ from each other.
-/

namespace PagedStorage

/-- A pair with the cell that it lies in. -/
structure CacheNode (κ ν : Type) where
  cell : Nat
  key : κ
  value : ν

def CacheNode.pair {κ ν : Type} (n : CacheNode κ ν) : κ × ν := (n.key, n.value)

namespace LruCache

variable {κ ν : Type} {c d : LruCache κ ν} {e : CacheEntry κ ν} {i j : Nat}

/-! ## Single cells -/

theorem lt_of_occupant? (h : c.occupant? i = some e) : i < c.entries.size := by
  by_contra hi
  rw [occupant?, Array.getD_eq_getD_getElem?, Array.getElem?_eq_none (Nat.le_of_not_lt hi)] at h
  cases h

@[simp] theorem occupant?_put {o : Option (CacheEntry κ ν)} (hi : i < c.entries.size) (j : Nat) :
    (c.put i o).occupant? j = if i = j then o else c.occupant? j := by
  rw [occupant?, occupant?, put, Array.getD_eq_getD_getElem?, Array.getD_eq_getD_getElem?,
    Array.getElem?_setIfInBounds]
  by_cases hij : i = j
  · rw [if_pos hij, if_pos hij, if_pos hi]
    rfl
  · rw [if_neg hij, if_neg hij]

@[simp] theorem size_put (c : LruCache κ ν) (i : Nat) (o : Option (CacheEntry κ ν)) :
    (c.put i o).entries.size = c.entries.size := Array.size_setIfInBounds

theorem change?_some (h : c.occupant? i = some e) (f : CacheEntry κ ν → CacheEntry κ ν) :
    c.change? (some i) f = some (c.put i (some (f e))) := by
  rw [change?, Option.bind_eq_bind, Option.bind_some, h]
  rfl

/-- Nothing differs but what lies in the cells, and where the order begins and ends. -/
structure Relinks (c d : LruCache κ ν) : Prop where
  capacity_eq : d.capacity = c.capacity
  index_eq : d.index = c.index
  vacant_eq : d.vacant = c.vacant
  size_eq : d.entries.size = c.entries.size

private theorem Relinks.refl (c : LruCache κ ν) : Relinks c c := ⟨rfl, rfl, rfl, rfl⟩

theorem Relinks.trans {b : LruCache κ ν} (h : Relinks b c) (h' : Relinks c d) : Relinks b d :=
  ⟨h'.capacity_eq.trans h.capacity_eq, h'.index_eq.trans h.index_eq,
    h'.vacant_eq.trans h.vacant_eq, h'.size_eq.trans h.size_eq⟩

theorem relinks_put (c : LruCache κ ν) (i : Nat) (o : Option (CacheEntry κ ν)) :
    Relinks c (c.put i o) := ⟨rfl, rfl, rfl, size_put c i o⟩

/-! ## Stretches of the order -/

/-- The first cell of a stretch; the one behind it if it is empty. -/
def front : List (CacheNode κ ν) → Option Nat → Option Nat
  | [], after => after
  | n :: _, _ => some n.cell

/-- The last cell of a stretch; the one before it if it is empty. -/
def back : Option Nat → List (CacheNode κ ν) → Option Nat
  | before, [] => before
  | _, n :: rest => back (some n.cell) rest

/-- The nodes lie in their cells, and each of them names its neighbours. -/
def Linked (occupant? : Nat → Option (CacheEntry κ ν)) :
    Option Nat → List (CacheNode κ ν) → Option Nat → Prop
  | _, [], _ => True
  | before, n :: rest, after =>
    occupant? n.cell = some ⟨n.key, n.value, before, front rest after⟩ ∧
      Linked occupant? (some n.cell) rest after

variable {occupant? occupant?' : Nat → Option (CacheEntry κ ν)} {before after : Option Nat}
  {n : CacheNode κ ν} {xs ys nodes : List (CacheNode κ ν)}

@[simp] theorem front_append : front (xs ++ ys) after = front xs (front ys after) := by
  cases xs <;> rfl

@[simp] theorem back_append : back before (xs ++ ys) = back (back before xs) ys := by
  induction xs generalizing before with
  | nil => rfl
  | cons n rest ih => exact ih

theorem linked_append :
    Linked occupant? before (xs ++ ys) after ↔
      Linked occupant? before xs (front ys after) ∧ Linked occupant? (back before xs) ys after := by
  induction xs generalizing before with
  | nil => exact (and_iff_right trivial).symm
  | cons n rest ih =>
    rw [List.cons_append, Linked, Linked, back, ih, front_append, and_assoc]

theorem Linked.congr (h : Linked occupant? before nodes after)
    (hsame : ∀ n ∈ nodes, occupant?' n.cell = occupant? n.cell) :
    Linked occupant?' before nodes after := by
  induction nodes generalizing before with
  | nil => trivial
  | cons n rest ih =>
    obtain ⟨hn, hrest⟩ := List.forall_mem_cons.1 hsame
    exact ⟨hn.trans h.1, ih h.2 hrest⟩

theorem Linked.put {o : Option (CacheEntry κ ν)} (h : Linked c.occupant? before nodes after)
    (hi : i < c.entries.size) (hnot : i ∉ nodes.map (·.cell)) :
    Linked (c.put i o).occupant? before nodes after := by
  refine h.congr fun n hn ↦ ?_
  have hne : i ≠ n.cell := fun heq ↦ hnot (heq ▸ List.mem_map_of_mem hn)
  rw [occupant?_put hi, if_neg hne]

/-! ## Mending a cut -/

/-- What stands behind a stretch is replaced. The head changes with it if the stretch is empty. -/
theorem relinkBack (after' : Option Nat) (h : Linked c.occupant? none xs after)
    (hcells : (xs.map (·.cell)).Nodup) (hhead : c.head = front xs after) :
    let d := (c.change? (back none xs) ({ · with next := after' })).getD { c with head := after' }
    Linked d.occupant? none xs after' ∧ d.head = front xs after' ∧ d.tail = c.tail ∧ Relinks c d ∧
      ∀ j ∉ xs.map (·.cell), d.occupant? j = c.occupant? j := by
  rcases List.eq_nil_or_concat xs with rfl | ⟨ys, n, rfl⟩
  · exact ⟨trivial, rfl, rfl, ⟨rfl, rfl, rfl, rfl⟩, fun _ _ ↦ rfl⟩
  · rw [List.concat_eq_append] at *
    rw [linked_append] at h
    obtain ⟨hys, hn, -⟩ := h
    have hlt := lt_of_occupant? hn
    have hnot : n.cell ∉ ys.map (·.cell) := by
      rw [List.map_append, List.nodup_append] at hcells
      exact fun hmem ↦ hcells.2.2 _ hmem _ (List.mem_singleton_self _) rfl
    have hback : back none (ys ++ [n]) = some n.cell := back_append
    rw [hback, change?_some hn, Option.getD_some]
    refine ⟨linked_append.2 ⟨hys.put hlt hnot, ?_, trivial⟩, ?_, rfl, relinks_put c _ _, ?_⟩
    · rw [occupant?_put hlt, if_pos rfl]
      rfl
    · rw [front_append] at hhead ⊢
      exact hhead
    · intro j hj
      rw [occupant?_put hlt, if_neg]
      rintro rfl
      exact hj (List.mem_map_of_mem (List.mem_append_right _ (List.mem_singleton_self n)))

/-- What stands before a stretch is replaced. The tail changes with it if the stretch is empty. -/
theorem relinkFront (before' : Option Nat) (h : Linked c.occupant? before ys none)
    (hcells : (ys.map (·.cell)).Nodup) (htail : c.tail = back before ys) :
    let d := (c.change? (front ys none) ({ · with prev := before' })).getD
      { c with tail := before' }
    Linked d.occupant? before' ys none ∧ d.tail = back before' ys ∧ d.head = c.head ∧ Relinks c d ∧
      ∀ j ∉ ys.map (·.cell), d.occupant? j = c.occupant? j := by
  cases ys with
  | nil => exact ⟨trivial, rfl, rfl, ⟨rfl, rfl, rfl, rfl⟩, fun _ _ ↦ rfl⟩
  | cons n rest =>
    obtain ⟨hn, hrest⟩ := h
    have hlt := lt_of_occupant? hn
    have hnot : n.cell ∉ rest.map (·.cell) := (List.nodup_cons.1 hcells).1
    rw [front, change?_some hn, Option.getD_some]
    refine ⟨⟨?_, hrest.put hlt hnot⟩, htail, rfl, relinks_put c _ _, ?_⟩
    · rw [occupant?_put hlt, if_pos rfl]
    · intro j hj
      rw [occupant?_put hlt, if_neg]
      rintro rfl
      exact hj List.mem_cons_self

/-! ## The whole order -/

/-- The order of uses runs through the nodes, from the one used last to the one used longest
ago. -/
structure InOrder (c : LruCache κ ν) (nodes : List (CacheNode κ ν)) : Prop where
  linked : Linked c.occupant? none nodes none
  nodup : (nodes.map (·.cell)).Nodup
  head_eq : c.head = front nodes none
  tail_eq : c.tail = back none nodes

theorem InOrder.occupant?_eq (h : c.InOrder (xs ++ n :: ys)) :
    c.occupant? n.cell = some ⟨n.key, n.value, back none xs, front ys none⟩ :=
  (linked_append.1 h.linked).2.1

theorem nodup_middle (h : ((xs ++ n :: ys).map (·.cell)).Nodup) :
    n.cell ∉ (xs ++ ys).map (·.cell) ∧ ((xs ++ ys).map (·.cell)).Nodup := by
  rw [List.map_append, List.map_cons, List.nodup_middle, ← List.map_append] at h
  exact List.nodup_cons.1 h

theorem InOrder.unlink (h : c.InOrder (xs ++ n :: ys)) :
    (c.unlink n.cell).InOrder (xs ++ ys) ∧ Relinks c (c.unlink n.cell) ∧
      (c.unlink n.cell).occupant? n.cell = some ⟨n.key, n.value, none, none⟩ := by
  obtain ⟨hxs, hn, hys⟩ := linked_append.1 h.linked
  obtain ⟨hnot, hnodup⟩ := nodup_middle h.nodup
  have hlt := lt_of_occupant? hn
  rw [List.map_append, List.mem_append, not_or] at hnot
  have hapart := List.nodup_append.1 (List.map_append ▸ hnodup)
  -- The entry itself loses its links. It is in neither of the two stretches that are left.
  let c₀ := c.put n.cell (some ⟨n.key, n.value, none, none⟩)
  have hhead : c₀.head = front xs (some n.cell) := by
    rw [show c₀.head = c.head from rfl, h.head_eq, front_append]
    rfl
  -- The stretch before it is mended, which leaves the stretch behind it as it was,
  obtain ⟨hleft, hhead₁, htail₁, hsame₁, hkeep₁⟩ :=
    relinkBack (front ys none) (hxs.put hlt hnot.1 : Linked c₀.occupant? none xs _)
      hapart.1 hhead
  set c₁ := (c₀.change? (back none xs) ({ · with next := front ys none })).getD
    { c₀ with head := front ys none }
  have hright : Linked c₁.occupant? (some n.cell) ys none := by
    refine (hys.put hlt hnot.2 : Linked c₀.occupant? _ ys _).congr fun m hm ↦ hkeep₁ _ fun hmem ↦ ?_
    exact hapart.2.2 _ hmem _ (List.mem_map_of_mem hm) rfl
  have htail : c₁.tail = back (some n.cell) ys := by
    rw [htail₁, show c₀.tail = c.tail from rfl, h.tail_eq, back_append]
    rfl
  -- and then the stretch behind it, which leaves the mended one alone.
  obtain ⟨hright₂, htail₂, hhead₂, hsame₂, hkeep₂⟩ :=
    relinkFront (back none xs) hright hapart.2.1 htail
  set c₂ := (c₁.change? (front ys none) ({ · with prev := back none xs })).getD
    { c₁ with tail := back none xs }
  have hunlink : c.unlink n.cell = c₂ := by
    rw [LruCache.unlink, hn]
  have hleft₂ : Linked c₂.occupant? none xs (front ys none) := by
    refine hleft.congr fun m hm ↦ hkeep₂ _ fun hmem ↦ ?_
    exact hapart.2.2 _ (List.mem_map_of_mem hm) _ hmem rfl
  rw [hunlink]
  refine ⟨⟨linked_append.2 ⟨hleft₂, hright₂⟩, hnodup, ?_, ?_⟩,
    (relinks_put c _ _).trans (hsame₁.trans hsame₂), ?_⟩
  · rw [hhead₂, hhead₁, front_append]
  · rw [htail₂, back_append]
  · rw [hkeep₂ _ hnot.2, hkeep₁ _ hnot.1, occupant?_put hlt, if_pos rfl]

theorem InOrder.pushFront (h : c.InOrder nodes) (hnot : n.cell ∉ nodes.map (·.cell))
    (he : c.occupant? n.cell = some ⟨n.key, n.value, before, after⟩) :
    (c.pushFront n.cell).InOrder (n :: nodes) ∧ Relinks c (c.pushFront n.cell) := by
  have hlt := lt_of_occupant? he
  let c₀ := c.put n.cell (some ⟨n.key, n.value, none, c.head⟩)
  obtain ⟨hright, htail, -, hsame, hkeep⟩ :=
    relinkFront (some n.cell) (h.linked.put hlt hnot : Linked c₀.occupant? none nodes _)
      h.nodup h.tail_eq
  set c₁ := (c₀.change? (front nodes none) ({ · with prev := some n.cell })).getD
    { c₀ with tail := some n.cell }
  have hpush : c.pushFront n.cell = { c₁ with head := some n.cell } := by
    rw [LruCache.pushFront, change?_some he, Option.getD_some, h.head_eq]
    simp only [c₁, c₀, h.head_eq]
  rw [hpush]
  refine ⟨⟨⟨?_, hright⟩, List.nodup_cons.2 ⟨hnot, h.nodup⟩, rfl, htail⟩,
    (relinks_put c _ _).trans ⟨hsame.capacity_eq, hsame.index_eq, hsame.vacant_eq, hsame.size_eq⟩⟩
  change c₁.occupant? n.cell = _
  rw [hkeep _ hnot, occupant?_put hlt, if_pos rfl, h.head_eq]

/-- A use of a node brings it to the front. -/
theorem InOrder.bump (h : c.InOrder (xs ++ n :: ys)) :
    (c.bump n.cell).InOrder (n :: (xs ++ ys)) ∧ Relinks c (c.bump n.cell) := by
  rw [LruCache.bump]
  split
  next hhead =>
    -- The cells differ, so the cell of the head is the cell of the first node only.
    cases xs with
    | nil => exact ⟨h, .refl c⟩
    | cons m rest =>
      have hcell : m.cell = n.cell := Option.some.inj (h.head_eq.symm.trans hhead)
      exact absurd (List.mem_map_of_mem (List.mem_append_left _ List.mem_cons_self))
        (hcell ▸ (nodup_middle h.nodup).1)
  next =>
    obtain ⟨hrest, hsame, he⟩ := h.unlink
    obtain ⟨hfront, hsame'⟩ := hrest.pushFront (nodup_middle h.nodup).1 he
    exact ⟨hfront, hsame.trans hsame'⟩

/-- A node is taken out of the order and its cell given up. -/
theorem InOrder.vacate (h : c.InOrder (xs ++ n :: ys)) :
    (c.vacate n.cell).1 = some ⟨n.key, n.value, none, none⟩ ∧
      (c.vacate n.cell).2.InOrder (xs ++ ys) ∧
      Relinks { c with vacant := n.cell :: c.vacant } (c.vacate n.cell).2 := by
  obtain ⟨hrest, hsame, he⟩ := h.unlink
  have hnot := (nodup_middle h.nodup).1
  have hput : Linked ((c.unlink n.cell).put n.cell none).occupant? none (xs ++ ys) none :=
    hrest.linked.put (lt_of_occupant? he) hnot
  refine ⟨he, ⟨hput, hrest.nodup, hrest.head_eq, hrest.tail_eq⟩, hsame.capacity_eq, hsame.index_eq,
    congrArg (n.cell :: ·) hsame.vacant_eq, (size_put _ _ _).trans hsame.size_eq⟩

theorem map_key_follow {k : Nat} (h : Linked c.occupant? before nodes none)
    (hk : nodes.length ≤ k) :
    (c.follow k (front nodes none)).map (·.key) = nodes.map (·.key) := by
  induction nodes generalizing k before with
  | nil => cases k <;> rfl
  | cons n rest ih =>
    obtain ⟨k, rfl⟩ : ∃ l, k = l + 1 := ⟨k - 1, by rw [List.length_cons] at hk; omega⟩
    rw [front, follow, Option.bind_some, h.1, List.map_cons, List.map_cons,
      ih h.2 (Nat.le_of_succ_le_succ hk)]

end LruCache

end PagedStorage
