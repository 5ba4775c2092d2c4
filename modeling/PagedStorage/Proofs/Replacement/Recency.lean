import PagedStorage.Proofs.Except
import PagedStorage.Proofs.Replacement.Links

/-!
# What a cache does, as a list

`RecencyList` is a cache without an arena: the pairs stand in a list, from the one used last to
the one used longest ago, and each call says what becomes of the list. A cache that was empty once
answers every sequence of calls as the list does (`LruCache.Mirrors.calls`), and its arena never has
more cells than the capacity.

## From the arena to the list

The bridge is `LruCache.Holds`: the order of uses runs through nodes whose pairs are the list, the
index tells the cells of the same nodes, and the cells of the arena are theirs and the vacant
ones. Each call keeps this up, and reads its answer off the list.

The changes of the order itself, with all that happens to the links, were treated for stretches of
it (`LruCache.Linked`). What comes here is the index and the cells: a node that leaves takes its key
out of the index and gives its cell up, and one that comes gets a cell that was given up before, or
a new one if there is none. So the arena grows only while all its cells are in use, which are at
most as many as the capacity allows.

## The two views of a key

A call looks a key up in the index, and the list looks for it among its pairs. `Holds.cases_key`
joins them: no node has the key, or one has it, and it lies in the cell that the index tells. The
nodes stand on both sides of it, and taking it out leaves the pairs of the other keys.
-/

namespace PagedStorage

/-! ## The list -/

/-- A cache as the list of its pairs, from the one used last to the one used longest ago. -/
structure RecencyList (κ ν : Type) where
  capacity : Nat
  pairs : List (κ × ν) := []

namespace RecencyList

variable {κ ν : Type} [DecidableEq κ]

def keys (l : RecencyList κ ν) : List κ := l.pairs.map (·.1)

def peek? (l : RecencyList κ ν) (key : κ) : Option ν := l.pairs.lookup key

def contains (l : RecencyList κ ν) (key : κ) : Bool := decide (key ∈ l.keys)

/-- The pairs of the other keys. -/
def others (l : RecencyList κ ν) (key : κ) : List (κ × ν) :=
  l.pairs.filter fun pair ↦ pair.1 != key

def get? (l : RecencyList κ ν) (key : κ) : Option ν × RecencyList κ ν :=
  match l.peek? key with
  | some value => (some value, { l with pairs := (key, value) :: l.others key })
  | none => (none, l)

def remove (l : RecencyList κ ν) (key : κ) : Option ν × RecencyList κ ν :=
  (l.peek? key, { l with pairs := l.others key })

def evict (l : RecencyList κ ν) : Option (κ × ν) × RecencyList κ ν :=
  (l.pairs.getLast?, { l with pairs := l.pairs.dropLast })

def insert (l : RecencyList κ ν) (key : κ) (value : ν) : Option (κ × ν) × RecencyList κ ν :=
  if l.contains key then (none, { l with pairs := (key, value) :: l.others key })
  else if l.capacity = 0 then (some (key, value), l)
  else if l.capacity ≤ l.pairs.length then
    (l.pairs.getLast?, { l with pairs := (key, value) :: l.pairs.dropLast })
  else (none, { l with pairs := (key, value) :: l.pairs })

end RecencyList

/-! ## Sequences of calls -/

inductive CacheCall (κ ν : Type) where
  | set (key : κ) (value : ν)
  | get (key : κ)
  | peek (key : κ)
  | contains (key : κ)
  | remove (key : κ)
  | evict

inductive CacheAnswer (κ ν : Type) where
  | pair (dropped : Option (κ × ν))
  | value (value : Option ν)
  | held (held : Bool)
deriving DecidableEq

section Calls

variable {κ ν : Type} [DecidableEq κ]

def LruCache.call (c : LruCache κ ν) : CacheCall κ ν → CacheAnswer κ ν × LruCache κ ν
  | .set key value => let (dropped, c) := c.insert key value; (.pair dropped, c)
  | .get key => let (value, c) := c.get? key; (.value value, c)
  | .peek key => (.value (c.peek? key), c)
  | .contains key => (.held (c.contains key), c)
  | .remove key => let (value, c) := c.remove key; (.value value, c)
  | .evict => let (dropped, c) := c.evict; (.pair dropped, c)

def RecencyList.call (l : RecencyList κ ν) : CacheCall κ ν → CacheAnswer κ ν × RecencyList κ ν
  | .set key value => let (dropped, l) := l.insert key value; (.pair dropped, l)
  | .get key => let (value, l) := l.get? key; (.value value, l)
  | .peek key => (.value (l.peek? key), l)
  | .contains key => (.held (l.contains key), l)
  | .remove key => let (value, l) := l.remove key; (.value value, l)
  | .evict => let (dropped, l) := l.evict; (.pair dropped, l)

/-- The answers to calls made one after the other, and the cache after them. -/
def LruCache.calls (c : LruCache κ ν) :
    List (CacheCall κ ν) → List (CacheAnswer κ ν) × LruCache κ ν
  | [] => ([], c)
  | k :: rest => ((c.call k).1 :: ((c.call k).2.calls rest).1, ((c.call k).2.calls rest).2)

/-- The answers to calls made one after the other, and the list after them. -/
def RecencyList.calls (l : RecencyList κ ν) :
    List (CacheCall κ ν) → List (CacheAnswer κ ν) × RecencyList κ ν
  | [] => ([], l)
  | k :: rest => ((l.call k).1 :: ((l.call k).2.calls rest).1, ((l.call k).2.calls rest).2)

end Calls

/-! ## What a cache holds -/

namespace LruCache

variable {κ ν : Type} {c d : LruCache κ ν} {capacity : Nat}
  {xs ys nodes nodes' : List (CacheNode κ ν)} {n : CacheNode κ ν} {key : κ}

/-- The cache has the capacity and holds the pairs of the nodes, in their cells and in their
order. -/
structure Holds (c : LruCache κ ν) (capacity : Nat) (nodes : List (CacheNode κ ν)) : Prop where
  order : c.InOrder nodes
  index : c.index.Perm (nodes.map fun n ↦ (n.key, n.cell))
  keys_nodup : (nodes.map (·.key)).Nodup
  cells : (c.vacant ++ nodes.map (·.cell)).Perm (List.range c.entries.size)
  size_le : c.entries.size ≤ capacity
  capacity_eq : c.capacity = capacity

theorem holds_empty (capacity : Nat) :
    ({ capacity := capacity } : LruCache κ ν).Holds capacity [] :=
  ⟨⟨trivial, List.nodup_nil, rfl, rfl⟩, .nil, List.nodup_nil, .nil, Nat.zero_le capacity, rfl⟩

/-! ### Views -/

theorem Holds.size_eq (h : c.Holds capacity nodes) : c.size = nodes.length := by
  rw [size, h.index.length_eq, List.length_map]

theorem Holds.length_le_size (h : c.Holds capacity nodes) : nodes.length ≤ c.entries.size := by
  have hlength := h.cells.length_eq
  rw [List.length_append, List.length_map, List.length_range] at hlength
  omega

theorem Holds.keys_eq (h : c.Holds capacity nodes) : c.keys = nodes.map (·.key) := by
  rw [keys, h.order.head_eq, map_key_follow h.order.linked h.length_le_size]

theorem Holds.isEmpty_eq (h : c.Holds capacity nodes) : c.isEmpty = nodes.isEmpty := by
  rw [isEmpty, h.index.isEmpty_eq, List.isEmpty_map]

theorem Holds.index_keys (h : c.Holds capacity nodes) :
    (c.index.map (·.1)).Perm (nodes.map (·.key)) := by
  have hperm := h.index.map (·.1)
  rwa [List.map_map] at hperm

/-- No node has the key, or one has it and lies in the cell that the index tells. -/
theorem Holds.cases_key [DecidableEq κ] (h : c.Holds capacity nodes) (key : κ) :
    c.cell? key = none ∧ key ∉ nodes.map (·.key) ∨
      ∃ xs n ys, nodes = xs ++ n :: ys ∧ n.key = key ∧ c.cell? key = some n.cell := by
  by_cases hkey : key ∈ nodes.map (·.key)
  · obtain ⟨n, hn, rfl⟩ := List.mem_map.1 hkey
    obtain ⟨xs, ys, rfl⟩ := List.append_of_mem hn
    have hmem : (n.key, n.cell) ∈ c.index :=
      h.index.mem_iff.2 (List.mem_map_of_mem (f := fun n ↦ (n.key, n.cell)) hn)
    refine .inr ⟨xs, n, ys, rfl, rfl, (mem_iff_lookup ?_).1 hmem⟩
    exact h.index_keys.nodup_iff.2 h.keys_nodup
  · refine .inl ⟨List.lookup_eq_none_iff.2 fun e he ↦ bne_iff_ne.2 fun heq ↦ hkey ?_, hkey⟩
    exact h.index_keys.mem_iff.1 (heq ▸ List.mem_map_of_mem he)

/-! ### Changes -/

private theorem Relinks.holds (h : Relinks c d) (hc : c.Holds capacity nodes)
    (horder : d.InOrder nodes') (hperm : nodes'.Perm nodes) : d.Holds capacity nodes' where
  order := horder
  index := h.index_eq ▸ hc.index.trans (hperm.map _).symm
  keys_nodup := ((hperm.map _).nodup_iff).2 hc.keys_nodup
  cells := by
    rw [h.vacant_eq, h.size_eq]
    exact ((hperm.map _).append_left _).trans hc.cells
  size_le := Nat.le_trans (Nat.le_of_eq h.size_eq) hc.size_le
  capacity_eq := h.capacity_eq.trans hc.capacity_eq

theorem Holds.bump (h : c.Holds capacity (xs ++ n :: ys)) :
    (c.bump n.cell).Holds capacity (n :: (xs ++ ys)) :=
  h.order.bump.2.holds h h.order.bump.1 List.perm_middle.symm

theorem Holds.setValue (h : c.Holds capacity (xs ++ n :: ys)) (value : ν) :
    ((c.change? (some n.cell) ({ · with value := value })).getD c).Holds capacity
      (xs ++ ⟨n.cell, n.key, value⟩ :: ys) := by
  have hn := h.order.occupant?_eq
  have hlt := lt_of_occupant? hn
  obtain ⟨hxs, -, hys⟩ := linked_append.1 h.order.linked
  obtain ⟨hnot, -⟩ := nodup_middle h.order.nodup
  rw [List.map_append, List.mem_append, not_or] at hnot
  obtain ⟨⟨-, hnodup, hhead, htail⟩, hindex, hkeys, hcells, hsize, hcapacity⟩ := h
  rw [front_append] at hhead
  rw [back_append] at htail
  rw [List.map_append, List.map_cons] at hnodup hindex hkeys hcells
  rw [change?_some hn, Option.getD_some]
  have hlinked : Linked (c.put n.cell (some ⟨n.key, value, back none xs, front ys none⟩)).occupant?
      none (xs ++ ⟨n.cell, n.key, value⟩ :: ys) none := by
    refine linked_append.2 ⟨hxs.put hlt hnot.1, ?_, hys.put hlt hnot.2⟩
    rw [occupant?_put hlt, if_pos rfl]
  exact
    { order := ⟨hlinked, by rwa [List.map_append, List.map_cons], by rwa [front_append],
        by rwa [back_append]⟩
      index := by rwa [List.map_append, List.map_cons]
      keys_nodup := by rwa [List.map_append, List.map_cons]
      cells := by rwa [List.map_append, List.map_cons, size_put]
      size_le := by rwa [size_put]
      capacity_eq := hcapacity }

theorem Holds.without [DecidableEq κ] (h : c.Holds capacity (xs ++ n :: ys))
    (horder : d.InOrder (xs ++ ys)) (hindex : d.index = c.index.filter fun e ↦ e.1 != n.key)
    (hsame : Relinks { c with vacant := n.cell :: c.vacant, index := d.index } d) :
    d.Holds capacity (xs ++ ys) := by
  have hkeys := h.keys_nodup
  rw [List.map_append, List.map_cons, List.nodup_middle, ← List.map_append, List.nodup_cons]
    at hkeys
  have hcells : (c.vacant ++ (xs ++ n :: ys).map (·.cell)).Perm
      (n.cell :: (c.vacant ++ (xs ++ ys).map (·.cell))) := by
    rw [List.map_append, List.map_cons, List.map_append]
    exact (List.perm_middle.append_left _).trans List.perm_middle
  refine ⟨horder, ?_, hkeys.2, ?_, Nat.le_trans (Nat.le_of_eq hsame.size_eq) h.size_le,
    hsame.capacity_eq.trans h.capacity_eq⟩
  · rw [hindex]
    refine (h.index.filter _).trans (.of_eq ?_)
    rw [List.map_append, List.map_cons, List.filter_append, List.filter_cons_of_neg (by simp),
      ← List.filter_append, ← List.map_append, List.filter_eq_self]
    intro e he
    obtain ⟨m, hm, rfl⟩ := List.mem_map.1 he
    exact bne_iff_ne.2 fun heq ↦ hkeys.1 (List.mem_map.2 ⟨m, hm, heq⟩)
  · rw [hsame.vacant_eq, hsame.size_eq]
    exact hcells.symm.trans h.cells

theorem Holds.remove [DecidableEq κ] (h : c.Holds capacity (xs ++ n :: ys))
    (hcell : c.cell? n.key = some n.cell) :
    ∃ d, c.remove n.key = (some n.value, d) ∧ d.Holds capacity (xs ++ ys) := by
  have hforgot : (c.forget n.key).InOrder (xs ++ n :: ys) :=
    ⟨h.order.linked, h.order.nodup, h.order.head_eq, h.order.tail_eq⟩
  obtain ⟨he, horder, hsame⟩ := hforgot.vacate
  refine ⟨((c.forget n.key).vacate n.cell).2, ?_, ?_⟩
  · rw [LruCache.remove, hcell]
    exact Prod.ext (congrArg (·.map (·.value)) he) rfl
  · exact h.without horder hsame.index_eq ⟨hsame.capacity_eq, rfl, hsame.vacant_eq, hsame.size_eq⟩

theorem Holds.evict [DecidableEq κ] (h : c.Holds capacity (xs ++ [n])) :
    ∃ d, c.evict = (some n.pair, d) ∧ d.Holds capacity xs := by
  have htail : c.tail = some n.cell := h.order.tail_eq.trans back_append
  obtain ⟨he, horder, hsame⟩ := h.order.vacate
  have hvacate : c.vacate n.cell = (some ⟨n.key, n.value, none, none⟩, (c.vacate n.cell).2) :=
    Prod.ext he rfl
  refine ⟨(c.vacate n.cell).2.forget n.key, ?_, ?_⟩
  · rw [LruCache.evict, htail]
    simp only
    rw [hvacate]
    rfl
  · rw [List.append_nil] at horder
    rw [← List.append_nil xs] at horder ⊢
    refine h.without ⟨horder.linked, horder.nodup, horder.head_eq, horder.tail_eq⟩ ?_
      ⟨hsame.capacity_eq, rfl, hsame.vacant_eq, hsame.size_eq⟩
    rw [← hsame.index_eq]
    rfl

/-- A cell for one more node, given up before or new. -/
theorem Holds.place (h : c.Holds capacity nodes) (hroom : nodes.length < capacity)
    (e : CacheEntry κ ν) :
    ∃ i d, c.place e = (i, d) ∧ d.InOrder nodes ∧ d.occupant? i = some e ∧
      i ∉ nodes.map (·.cell) ∧ d.capacity = c.capacity ∧ d.index = c.index ∧
      (d.vacant ++ i :: nodes.map (·.cell)).Perm (List.range d.entries.size) ∧
      d.entries.size ≤ capacity := by
  obtain ⟨⟨hlinked, hnodup, hhead, htail⟩, -, -, hcells, hsize, -⟩ := h
  cases hvacant : c.vacant with
  | cons i rest =>
    rw [hvacant] at hcells
    have hlt : i < c.entries.size := List.mem_range.1 (hcells.mem_iff.1 List.mem_cons_self)
    have hnot : i ∉ nodes.map (·.cell) := fun hmem ↦
      (List.nodup_cons.1 (hcells.nodup_iff.2 List.nodup_range)).1 (List.mem_append_right _ hmem)
    refine ⟨i, { c with vacant := rest }.put i (some e), ?_, ⟨hlinked.put hlt hnot, hnodup, hhead,
      htail⟩, (occupant?_put (c := { c with vacant := rest }) hlt i).trans (if_pos rfl), hnot, rfl,
      rfl, ?_, ?_⟩
    · rw [LruCache.place, hvacant]
    · rw [size_put]
      exact List.perm_middle.trans hcells
    · rw [size_put]
      exact hsize
  | nil =>
    -- Every cell of the arena is taken by a node, so there is room for one more cell.
    rw [hvacant, List.nil_append] at hcells
    have hlength : nodes.length = c.entries.size := by
      rw [← List.length_map (f := (·.cell)), hcells.length_eq, List.length_range]
    have hlt : ∀ i ∈ nodes.map (·.cell), i < c.entries.size := fun i hi ↦
      List.mem_range.1 (hcells.mem_iff.1 hi)
    have hkeep : ∀ n ∈ nodes,
        ({ c with entries := c.entries.push (some e) } : LruCache κ ν).occupant? n.cell =
          c.occupant? n.cell := by
      intro n hn
      rw [occupant?, occupant?, Array.getD_eq_getD_getElem?, Array.getD_eq_getD_getElem?,
        Array.getElem?_push, if_neg (Nat.ne_of_lt (hlt _ (List.mem_map_of_mem hn)))]
    refine ⟨c.entries.size, { c with entries := c.entries.push (some e) }, ?_,
      ⟨hlinked.congr hkeep, hnodup, hhead, htail⟩, ?_,
      fun hmem ↦ Nat.lt_irrefl _ (hlt _ hmem), rfl, rfl, ?_, ?_⟩
    · rw [LruCache.place, hvacant]
    · rw [occupant?, Array.getD_eq_getD_getElem?, Array.getElem?_push, if_pos rfl]
      rfl
    · rw [Array.size_push, List.range_succ, show c.vacant = [] from hvacant, List.nil_append]
      exact (hcells.cons _).trans (List.perm_append_singleton _ _).symm
    · rw [Array.size_push, ← hlength]
      exact hroom

theorem Holds.enter (h : c.Holds capacity nodes) (hroom : nodes.length < capacity)
    (hkey : key ∉ nodes.map (·.key)) (value : ν) :
    ∃ i, (c.enter key value).Holds capacity (⟨i, key, value⟩ :: nodes) := by
  obtain ⟨i, d, hplace, horder, he, hnot, hcapacity, hindex, hcells, hsize⟩ :=
    h.place hroom { key := key, value := value }
  have horder' : InOrder { d with index := (key, i) :: d.index } nodes :=
    ⟨horder.linked, horder.nodup, horder.head_eq, horder.tail_eq⟩
  obtain ⟨hfront, hsame⟩ := horder'.pushFront (n := ⟨i, key, value⟩) hnot he
  rw [LruCache.enter, hplace]
  refine ⟨i, hfront, ?_, List.nodup_cons.2 ⟨hkey, h.keys_nodup⟩, ?_,
    Nat.le_trans (Nat.le_of_eq hsame.size_eq) hsize,
    hsame.capacity_eq.trans (hcapacity.trans h.capacity_eq)⟩
  · rw [hsame.index_eq]
    exact (hindex ▸ h.index).cons _
  · rw [hsame.vacant_eq, hsame.size_eq]
    exact hcells

/-! ## Every call does what it does to the list -/

/-- The pairs of nodes as a list. -/
def listOf (capacity : Nat) (nodes : List (CacheNode κ ν)) : RecencyList κ ν :=
  ⟨capacity, nodes.map (·.pair)⟩

/-- The cache has the capacity of the list and holds its pairs in the same order. -/
def Mirrors (c : LruCache κ ν) (capacity : Nat) (l : RecencyList κ ν) : Prop :=
  ∃ nodes, c.Holds capacity nodes ∧ l = listOf capacity nodes

theorem Holds.mirrors (h : c.Holds capacity nodes) : c.Mirrors capacity (listOf capacity nodes) :=
  ⟨nodes, h, rfl⟩

@[simp] theorem keys_listOf (capacity : Nat) (nodes : List (CacheNode κ ν)) :
    (listOf capacity nodes).keys = nodes.map (·.key) := List.map_map

variable {l : RecencyList κ ν}

theorem Mirrors.views (h : c.Mirrors capacity l) :
    c.keys = l.keys ∧ c.size = l.pairs.length ∧ c.isEmpty = l.pairs.isEmpty ∧
      c.entries.size ≤ capacity := by
  obtain ⟨nodes, hc, rfl⟩ := h
  refine ⟨hc.keys_eq.trans (keys_listOf capacity nodes).symm, ?_, ?_, hc.size_le⟩
  · exact hc.size_eq.trans (List.length_map _).symm
  · exact hc.isEmpty_eq.trans List.isEmpty_map.symm

variable [DecidableEq κ]

theorem peek?_listOf (hkeys : ((xs ++ n :: ys).map (·.key)).Nodup) :
    (listOf capacity (xs ++ n :: ys)).peek? n.key = some n.value := by
  refine (mem_iff_lookup ?_).1 (List.mem_map.2 ⟨n, ?_, rfl⟩)
  · rwa [listOf, List.map_map]
  · exact List.mem_append_right _ List.mem_cons_self

theorem others_listOf (hkeys : ((xs ++ n :: ys).map (·.key)).Nodup) :
    (listOf capacity (xs ++ n :: ys)).others n.key = (xs ++ ys).map (·.pair) := by
  rw [List.map_append, List.map_cons, List.nodup_middle, ← List.map_append, List.nodup_cons]
    at hkeys
  rw [RecencyList.others, listOf, List.map_append, List.map_cons, List.filter_append,
    List.filter_cons_of_neg (by simp [CacheNode.pair]), ← List.filter_append, ← List.map_append,
    List.filter_eq_self]
  intro pair hpair
  obtain ⟨m, hm, rfl⟩ := List.mem_map.1 hpair
  exact bne_iff_ne.2 fun heq ↦ hkeys.1 (List.mem_map.2 ⟨m, hm, heq⟩)

theorem peek?_listOf_of_not_mem (hkey : key ∉ nodes.map (·.key)) :
    (listOf capacity nodes).peek? key = none := by
  refine List.lookup_eq_none_iff.2 fun pair hpair ↦ bne_iff_ne.2 fun heq ↦ ?_
  obtain ⟨m, hm, rfl⟩ := List.mem_map.1 hpair
  exact hkey (List.mem_map.2 ⟨m, hm, heq.symm⟩)

private theorem others_listOf_of_not_mem (hkey : key ∉ nodes.map (·.key)) :
    (listOf capacity nodes).others key = nodes.map (·.pair) := by
  refine List.filter_eq_self.2 fun pair hpair ↦ bne_iff_ne.2 fun heq ↦ ?_
  obtain ⟨m, hm, rfl⟩ := List.mem_map.1 hpair
  exact hkey (List.mem_map.2 ⟨m, hm, heq⟩)

@[simp] theorem contains_listOf : (listOf capacity nodes).contains key = true ↔
    key ∈ nodes.map (·.key) := by
  rw [RecencyList.contains, keys_listOf, decide_eq_true_iff]

theorem Mirrors.peek?_eq (h : c.Mirrors capacity l) (key : κ) : c.peek? key = l.peek? key := by
  obtain ⟨nodes, hc, rfl⟩ := h
  rw [LruCache.peek?]
  obtain ⟨hnone, hkey⟩ | ⟨xs, n, ys, rfl, rfl, hcell⟩ := hc.cases_key key
  · rw [hnone, peek?_listOf_of_not_mem hkey]
    rfl
  · rw [hcell, Option.bind_some, hc.order.occupant?_eq, peek?_listOf hc.keys_nodup]
    rfl

theorem Mirrors.contains_eq (h : c.Mirrors capacity l) (key : κ) :
    c.contains key = l.contains key := by
  obtain ⟨nodes, hc, rfl⟩ := h
  rw [LruCache.contains, Bool.eq_iff_iff, contains_listOf]
  obtain ⟨hnone, hkey⟩ | ⟨xs, n, ys, rfl, rfl, hcell⟩ := hc.cases_key key
  · rw [hnone]
    exact iff_of_false Bool.false_ne_true hkey
  · rw [hcell]
    exact iff_of_true rfl (List.mem_map_of_mem (List.mem_append_right _ List.mem_cons_self))

theorem Mirrors.get? (h : c.Mirrors capacity l) (key : κ) :
    (c.get? key).1 = (l.get? key).1 ∧ (c.get? key).2.Mirrors capacity (l.get? key).2 := by
  obtain ⟨nodes, hc, rfl⟩ := h
  rw [LruCache.get?, RecencyList.get?]
  obtain ⟨hnone, hkey⟩ | ⟨xs, n, ys, rfl, rfl, hcell⟩ := hc.cases_key key
  · rw [hnone, peek?_listOf_of_not_mem hkey]
    exact ⟨rfl, hc.mirrors⟩
  · rw [hcell, peek?_listOf hc.keys_nodup, others_listOf hc.keys_nodup]
    exact ⟨congrArg (·.map (·.value)) hc.bump.order.linked.1, hc.bump.mirrors⟩

theorem Mirrors.remove (h : c.Mirrors capacity l) (key : κ) :
    (c.remove key).1 = (l.remove key).1 ∧ (c.remove key).2.Mirrors capacity (l.remove key).2 := by
  obtain ⟨nodes, hc, rfl⟩ := h
  rw [RecencyList.remove]
  obtain ⟨hnone, hkey⟩ | ⟨xs, n, ys, rfl, rfl, hcell⟩ := hc.cases_key key
  · rw [LruCache.remove, hnone, peek?_listOf_of_not_mem hkey, others_listOf_of_not_mem hkey]
    exact ⟨rfl, hc.mirrors⟩
  · obtain ⟨d, hd, hholds⟩ := hc.remove hcell
    rw [hd, peek?_listOf hc.keys_nodup, others_listOf hc.keys_nodup]
    exact ⟨rfl, hholds.mirrors⟩

theorem Mirrors.evict (h : c.Mirrors capacity l) :
    c.evict.1 = l.evict.1 ∧ c.evict.2.Mirrors capacity l.evict.2 := by
  obtain ⟨nodes, hc, rfl⟩ := h
  rw [RecencyList.evict, listOf]
  rcases List.eq_nil_or_concat nodes with rfl | ⟨xs, n, rfl⟩
  · have htail : c.tail = none := hc.order.tail_eq
    rw [LruCache.evict, htail]
    exact ⟨rfl, hc.mirrors⟩
  · rw [List.concat_eq_append] at *
    obtain ⟨d, hd, hholds⟩ := hc.evict
    rw [hd, List.map_append, List.map_singleton, List.getLast?_concat, List.dropLast_concat]
    exact ⟨rfl, hholds.mirrors⟩

/-- A key that is there already keeps its cell and comes to the front with the new value. -/
theorem Mirrors.insert_of_contains (h : c.Mirrors capacity l) (hkey : c.contains key) (value : ν) :
    (c.insert key value).1 = (l.insert key value).1 ∧
      (c.insert key value).2.Mirrors capacity (l.insert key value).2 := by
  have hlist : l.contains key = true := h.contains_eq key ▸ hkey
  obtain ⟨nodes, hc, rfl⟩ := h
  obtain ⟨hnone, -⟩ | ⟨xs, n, ys, rfl, rfl, hcell⟩ := hc.cases_key key
  · rw [LruCache.contains, hnone] at hkey
    cases hkey
  · rw [LruCache.insert, RecencyList.insert, if_pos hlist, hcell, others_listOf hc.keys_nodup]
    exact ⟨rfl, (hc.setValue value).bump.mirrors⟩

theorem insert_of_lt (hcell : c.cell? key = none) (hroom : c.size < c.capacity) (value : ν) :
    c.insert key value = (none, c.enter key value) := by
  rw [LruCache.insert, hcell]
  simp only
  rw [if_neg (by omega), if_neg (by omega)]

/-- A new key comes to the front. If the cache is full, the last pair makes room for it. -/
theorem Mirrors.insert_of_not_contains (h : c.Mirrors capacity l) (hkey : ¬c.contains key)
    (value : ν) :
    (c.insert key value).1 = (l.insert key value).1 ∧
      (c.insert key value).2.Mirrors capacity (l.insert key value).2 := by
  have hcell : c.cell? key = none := Option.not_isSome_iff_eq_none.1 hkey
  rw [h.contains_eq] at hkey
  obtain ⟨nodes, hc, rfl⟩ := h
  obtain rfl := hc.capacity_eq
  rw [RecencyList.insert, if_neg hkey]
  rw [contains_listOf] at hkey
  simp only [listOf, List.length_map]
  by_cases hroom : nodes.length < c.capacity
  · rw [insert_of_lt hcell (by rwa [hc.size_eq]), if_neg (by omega), if_neg (by omega)]
    obtain ⟨i, henter⟩ := hc.enter hroom hkey value
    exact ⟨rfl, henter.mirrors⟩
  rw [LruCache.insert, hcell]
  simp only [hc.size_eq]
  by_cases hzero : c.capacity = 0
  · rw [if_pos hzero, if_pos hzero]
    exact ⟨rfl, hc.mirrors⟩
  rw [if_neg hzero, if_neg hzero, if_pos (Nat.le_of_not_lt hroom), if_pos (Nat.le_of_not_lt hroom)]
  have hlength := Nat.le_trans hc.length_le_size hc.size_le
  rcases List.eq_nil_or_concat nodes with rfl | ⟨xs, n, rfl⟩
  · exact absurd (Nat.pos_of_ne_zero hzero) hroom
  rw [List.concat_eq_append] at *
  rw [List.map_append, List.mem_append, not_or] at hkey
  rw [List.length_append, List.length_singleton] at hlength
  obtain ⟨d, hd, hholds⟩ := hc.evict
  obtain ⟨i, henter⟩ := hholds.enter hlength hkey.1 value
  rw [hd, List.map_append, List.map_singleton, List.getLast?_concat, List.dropLast_concat]
  exact ⟨rfl, henter.mirrors⟩

theorem Mirrors.insert (h : c.Mirrors capacity l) (key : κ) (value : ν) :
    (c.insert key value).1 = (l.insert key value).1 ∧
      (c.insert key value).2.Mirrors capacity (l.insert key value).2 := by
  by_cases hkey : c.contains key
  · exact h.insert_of_contains hkey value
  · exact h.insert_of_not_contains hkey value

/-! ## Sequences of calls -/

theorem Mirrors.call (h : c.Mirrors capacity l) (k : CacheCall κ ν) :
    (c.call k).1 = (l.call k).1 ∧ (c.call k).2.Mirrors capacity (l.call k).2 := by
  cases k with
  | set key value => exact ⟨congrArg _ (h.insert key value).1, (h.insert key value).2⟩
  | get key => exact ⟨congrArg _ (h.get? key).1, (h.get? key).2⟩
  | peek key => exact ⟨congrArg _ (h.peek?_eq key), h⟩
  | contains key => exact ⟨congrArg _ (h.contains_eq key), h⟩
  | remove key => exact ⟨congrArg _ (h.remove key).1, (h.remove key).2⟩
  | evict => exact ⟨congrArg _ h.evict.1, h.evict.2⟩

theorem Mirrors.calls (h : c.Mirrors capacity l) (ks : List (CacheCall κ ν)) :
    (c.calls ks).1 = (l.calls ks).1 ∧ (c.calls ks).2.Mirrors capacity (l.calls ks).2 := by
  induction ks generalizing c l with
  | nil => exact ⟨rfl, h⟩
  | cons k rest ih =>
    obtain ⟨hanswer, hnext⟩ := h.call k
    obtain ⟨hanswers, hlast⟩ := ih hnext
    exact ⟨congrArg₂ List.cons hanswer hanswers, hlast⟩

/-- An empty cache answers every sequence of calls as the list does, and looks like the list
afterwards. Its arena never outgrows the capacity. -/
theorem calls_eq_list (capacity : Nat) (ks : List (CacheCall κ ν)) :
    let (answers, c) := ({ capacity := capacity } : LruCache κ ν).calls ks
    let (answers', l) := ({ capacity := capacity } : RecencyList κ ν).calls ks
    answers = answers' ∧ c.keys = l.keys ∧ c.size = l.pairs.length ∧
      c.isEmpty = l.pairs.isEmpty ∧ c.entries.size ≤ capacity := by
  obtain ⟨hanswers, hlast⟩ := (holds_empty (κ := κ) (ν := ν) capacity).mirrors.calls ks
  obtain ⟨hkeys, hsize, hempty, harena⟩ := hlast.views
  exact ⟨hanswers, hkeys, hsize, hempty, harena⟩

end LruCache

end PagedStorage
