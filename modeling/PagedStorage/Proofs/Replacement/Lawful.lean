import Mathlib.Data.Finset.Card
import Mathlib.Data.Finset.Image
import PagedStorage.Proofs.Replacement.Recency
import PagedStorage.Replacement.Kind

/-!
# Policies that keep to what they are told

A lawful policy has a set of candidates, the frames on offer. Offering a frame adds it, taking
the offer back removes it, and the frame to give up is a candidate, which is none afterwards.
There is a frame to give up unless there are no candidates at all.

A pool is proved right for every lawful policy, and needs no more of one. Which candidate is given
up, and so all that makes a policy good or bad, is not part of it.

## Fitting policies

Both policies that a configuration can ask for are lawful as long as they were made for all the
frames they are told about, `LawfulReplacer.Fits`. A policy that was made for fewer frames is not: a
frame that it does not know may never come on offer, and a pool may then find no frame although one
is out of use.

For the cache behind `LruReplacer` this means that it is never full when a new frame is offered, so
that it drops nothing. For the circle of `ClockReplacer` it is the statement that two rounds
suffice: a candidate the hand has passed is not referenced, so the hand stops there in the next
round at the latest (`ClockReplacer.exists_of_sweep`).

## Policies by name

A configuration names a policy, and a policy by name is lawful as the one that it stands for. A
policy with a fixed order, which gives up frames as it was told in advance, is not lawful.
-/

namespace PagedStorage

class LawfulReplacer (ρ : Type) [Replacer ρ] where
  /-- The frames on offer. -/
  offered : ρ → Finset Nat
  /-- The policy is in order and takes all frames below a number. -/
  Fits : Nat → ρ → Prop
  size_eq {n : Nat} {r : ρ} : Fits n r → Replacer.size r = (offered r).card
  pin {n : Nat} {r : ρ} (f : Nat) : Fits n r →
    Fits n (Replacer.pin r f) ∧ offered (Replacer.pin r f) = (offered r).erase f
  unpin {n f : Nat} {r : ρ} : Fits n r → f < n →
    Fits n (Replacer.unpin r f) ∧ offered (Replacer.unpin r f) = insert f (offered r)
  evict_none {n : Nat} {r s : ρ} : Fits n r → Replacer.evict r = (none, s) →
    s = r ∧ offered r = ∅
  evict_some {n f : Nat} {r s : ρ} : Fits n r → Replacer.evict r = (some f, s) →
    Fits n s ∧ f ∈ offered r ∧ offered s = (offered r).erase f

/-! ## First out of use, first given up -/

namespace LruReplacer

variable {n f : Nat} {r s : LruReplacer} {capacity : Nat} {nodes : List (CacheNode Nat Unit)}

/-- The keys of the cache. -/
def offered (r : LruReplacer) : Finset Nat := (r.frames.index.map (·.1)).toFinset

/-- The cache is in order, and its keys are frames below a number that it has room for. -/
structure Fits (n : Nat) (r : LruReplacer) : Prop where
  exists_holds : ∃ nodes, r.frames.Holds r.frames.capacity nodes
  lt : ∀ f ∈ r.offered, f < n
  le_capacity : n ≤ r.frames.capacity

theorem mem_offered (h : r.frames.Holds capacity nodes) :
    f ∈ r.offered ↔ f ∈ nodes.map (·.key) := by
  rw [offered, List.mem_toFinset, h.index_keys.mem_iff]

theorem size_eq (h : r.Fits n) : r.size = r.offered.card := by
  obtain ⟨nodes, hnodes⟩ := h.exists_holds
  rw [offered, List.toFinset_card_of_nodup (hnodes.index_keys.nodup_iff.2 hnodes.keys_nodup),
    List.length_map]
  rfl

/-- A policy with some of the frames on offer. -/
theorem Fits.of_subset (h : r.Fits n) (hs : s.frames.Holds r.frames.capacity nodes)
    (hsub : s.offered ⊆ r.offered) : s.Fits n :=
  ⟨⟨nodes, hs.capacity_eq.symm ▸ hs⟩, fun f hf ↦ h.lt f (hsub hf), hs.capacity_eq ▸ h.le_capacity⟩

theorem offered_of_without {xs ys : List (CacheNode Nat Unit)} {node : CacheNode Nat Unit}
    (hr : r.frames.Holds capacity (xs ++ node :: ys)) (hs : s.frames.Holds capacity (xs ++ ys)) :
    s.offered = r.offered.erase node.key := by
  have hkeys := hr.keys_nodup
  rw [List.map_append, List.map_cons, List.nodup_middle, ← List.map_append, List.nodup_cons]
    at hkeys
  ext g
  rw [Finset.mem_erase, mem_offered hs, mem_offered hr, List.map_append, List.map_append,
    List.map_cons, List.perm_middle.mem_iff, List.mem_cons, ← List.map_append]
  constructor
  · exact fun hg ↦ ⟨fun heq ↦ hkeys.1 (heq ▸ hg), .inr hg⟩
  · exact fun ⟨hne, hg⟩ ↦ hg.resolve_left hne

theorem fits_pin (h : r.Fits n) (f : Nat) :
    (r.pin f).Fits n ∧ (r.pin f).offered = r.offered.erase f := by
  obtain ⟨nodes, hnodes⟩ := h.exists_holds
  obtain ⟨hnone, hkey⟩ | ⟨xs, node, ys, rfl, rfl, hcell⟩ := hnodes.cases_key f
  · have hsame : r.pin f = r := by
      rw [pin, LruCache.remove, hnone]
    rw [hsame, Finset.erase_eq_of_notMem fun hmem ↦ hkey ((mem_offered hnodes).1 hmem)]
    exact ⟨h, rfl⟩
  · obtain ⟨d, hd, hholds⟩ := hnodes.remove hcell
    have hpin : r.pin node.key = ⟨d⟩ := by
      rw [pin, hd]
    have hoffered := offered_of_without (s := ⟨d⟩) hnodes hholds
    rw [hpin, hoffered]
    exact ⟨h.of_subset (s := ⟨d⟩) hholds (hoffered ▸ Finset.erase_subset _ _), rfl⟩

private theorem size_lt_capacity (h : r.Fits n) (hf : f < n) (hnew : f ∉ r.offered) :
    r.frames.size < r.frames.capacity := by
  have hsub : insert f r.offered ⊆ Finset.range n := by
    intro g hg
    rw [Finset.mem_range]
    rcases Finset.mem_insert.1 hg with rfl | hg
    · exact hf
    · exact h.lt g hg
  have hcard := Finset.card_le_card hsub
  rw [Finset.card_insert_of_notMem hnew, Finset.card_range, ← size_eq h] at hcard
  exact Nat.lt_of_lt_of_le hcard h.le_capacity

theorem fits_unpin (h : r.Fits n) (hf : f < n) :
    (r.unpin f).Fits n ∧ (r.unpin f).offered = insert f r.offered := by
  obtain ⟨nodes, hnodes⟩ := h.exists_holds
  obtain ⟨hnone, hkey⟩ | ⟨xs, node, ys, rfl, rfl, hcell⟩ := hnodes.cases_key f
  · -- A new key goes into a cache with room, so no other key has to leave it.
    have hlt := size_lt_capacity h hf fun hmem ↦ hkey ((mem_offered hnodes).1 hmem)
    have hunpin : r.unpin f = ⟨r.frames.enter f ()⟩ := by
      rw [unpin, LruCache.contains, hnone, if_pos (by simpa using hlt),
        LruCache.insert_of_lt hnone hlt]
    obtain ⟨i, henter⟩ := hnodes.enter (by rwa [← hnodes.size_eq]) hkey ()
    have hoffered : (r.unpin f).offered = insert f r.offered := by
      ext g
      rw [hunpin, mem_offered (r := ⟨r.frames.enter f ()⟩) henter, Finset.mem_insert,
        mem_offered hnodes, List.map_cons, List.mem_cons]
    refine ⟨⟨?_, ?_, ?_⟩, hoffered⟩
    · rw [hunpin]
      exact ⟨_, henter.capacity_eq.symm ▸ henter⟩
    · rw [hoffered]
      exact (Finset.forall_mem_insert _ _ _).2 ⟨hf, h.lt⟩
    · rw [hunpin, henter.capacity_eq]
      exact h.le_capacity
  · have hsame : r.unpin node.key = r := by
      rw [unpin, LruCache.contains, hcell]
      rfl
    have hmem : node.key ∈ r.offered := (mem_offered hnodes).2
      (List.mem_map_of_mem (List.mem_append_right _ List.mem_cons_self))
    rw [hsame, Finset.insert_eq_of_mem hmem]
    exact ⟨h, rfl⟩

/-- A policy gives up nothing, or the frame of the last node. -/
theorem evict_cases (h : r.Fits n) :
    r.evict = (none, r) ∧ r.offered = ∅ ∨
      ∃ f s, r.evict = (some f, s) ∧ s.Fits n ∧ f ∈ r.offered ∧ s.offered = r.offered.erase f := by
  obtain ⟨nodes, hnodes⟩ := h.exists_holds
  rcases List.eq_nil_or_concat nodes with rfl | ⟨xs, node, rfl⟩
  · have htail : r.frames.tail = none := hnodes.order.tail_eq
    refine .inl ⟨?_, ?_⟩
    · rw [evict, LruCache.evict, htail]
      rfl
    · ext f
      rw [mem_offered hnodes]
      exact iff_of_false List.not_mem_nil (Finset.notMem_empty f)
  · rw [List.concat_eq_append] at hnodes
    obtain ⟨d, hd, hholds⟩ := hnodes.evict
    have hoffered : (⟨d⟩ : LruReplacer).offered = r.offered.erase node.key :=
      offered_of_without hnodes (by rwa [List.append_nil])
    refine .inr ⟨node.key, ⟨d⟩, ?_, ?_, ?_, hoffered⟩
    · rw [evict, hd]
      rfl
    · exact h.of_subset (s := ⟨d⟩) hholds (hoffered ▸ Finset.erase_subset _ _)
    · exact (mem_offered hnodes).2
        (List.mem_map_of_mem (List.mem_append_right _ (List.mem_singleton_self _)))

theorem evict_eq_none (h : r.Fits n) (he : r.evict = (none, s)) : s = r ∧ r.offered = ∅ := by
  obtain ⟨hevict, hoffered⟩ | ⟨f, t, hevict, -⟩ := evict_cases h
  · exact ⟨(congrArg Prod.snd (hevict.symm.trans he)).symm, hoffered⟩
  · cases hevict.symm.trans he

theorem evict_eq_some (h : r.Fits n) (he : r.evict = (some f, s)) :
    s.Fits n ∧ f ∈ r.offered ∧ s.offered = r.offered.erase f := by
  obtain ⟨hevict, -⟩ | ⟨g, t, hevict, hfits, hmem, hoffered⟩ := evict_cases h
  · cases hevict.symm.trans he
  · cases hevict.symm.trans he
    exact ⟨hfits, hmem, hoffered⟩

instance : LawfulReplacer LruReplacer where
  offered := offered
  Fits := Fits
  size_eq := size_eq
  pin f h := fits_pin h f
  unpin := fits_unpin
  evict_none := evict_eq_none
  evict_some := evict_eq_some

theorem fits_ofCapacity (h : n ≤ capacity) : (ofCapacity capacity).Fits n :=
  ⟨⟨[], LruCache.holds_empty capacity⟩, fun _ hf ↦ absurd hf (Finset.notMem_empty _), h⟩

end LruReplacer

/-! ## Second chance -/

namespace ClockReplacer

/-- The entry of a frame; a frame outside the circle is no candidate. -/
def entry (c : ClockReplacer) (f : Nat) : ClockEntry := c.entries.getD f {}

/-- The frames whose entry says that they are candidates. -/
def offered (c : ClockReplacer) : Finset Nat :=
  (Finset.range c.entries.size).filter fun f ↦ (c.entry f).candidate

/-- The circle has all frames below a number, the hand is on it, and the candidates are counted
right. -/
structure Fits (n : Nat) (c : ClockReplacer) : Prop where
  le_size : n ≤ c.entries.size
  hand_lt : 0 < c.entries.size → c.hand < c.entries.size
  count_eq : c.candidates = c.offered.card

variable {n f : Nat} {c d : ClockReplacer}

theorem mem_offered : f ∈ c.offered ↔ f < c.entries.size ∧ (c.entry f).candidate := by
  rw [offered, Finset.mem_filter, Finset.mem_range]

/-! ### Changing an entry -/

theorem entry_of_set {e : ClockEntry} (hd : d.entries = c.entries.setIfInBounds f e)
    (hf : f < c.entries.size) (g : Nat) : d.entry g = if f = g then e else c.entry g := by
  rw [entry, entry, hd, Array.getD_eq_getD_getElem?, Array.getD_eq_getD_getElem?,
    Array.getElem?_setIfInBounds]
  by_cases hg : f = g
  · rw [if_pos hg, if_pos hg, if_pos hf]
    rfl
  · rw [if_neg hg, if_neg hg]

theorem offered_of_set {e : ClockEntry} (hd : d.entries = c.entries.setIfInBounds f e)
    (hf : f < c.entries.size) :
    d.offered = if e.candidate then insert f c.offered else c.offered.erase f := by
  have hsize : d.entries.size = c.entries.size := by rw [hd, Array.size_setIfInBounds]
  ext g
  rw [mem_offered, hsize, entry_of_set hd hf]
  by_cases hg : f = g
  · subst hg
    rw [if_pos rfl]
    by_cases he : e.candidate
    · rw [if_pos he]
      exact iff_of_true ⟨hf, he⟩ (Finset.mem_insert_self f _)
    · rw [if_neg he]
      exact iff_of_false (fun h ↦ he h.2) (Finset.notMem_erase f _)
  · rw [if_neg hg, ← mem_offered]
    split
    · rw [Finset.mem_insert, or_iff_right (Ne.symm hg)]
    · rw [Finset.mem_erase, and_iff_right (Ne.symm hg)]

theorem entry_of_getElem? {e : ClockEntry} (h : c.entries[f]? = some e) :
    f < c.entries.size ∧ c.entry f = e := by
  refine ⟨(Array.getElem?_eq_some_iff.1 h).1, ?_⟩
  rw [entry, Array.getD_eq_getD_getElem?, h]
  rfl

theorem fits_pin (h : c.Fits n) (f : Nat) :
    (c.pin f).Fits n ∧ (c.pin f).offered = c.offered.erase f := by
  cases he : c.entries[f]? with
  | none =>
    have hf : f ∉ c.offered := fun hmem ↦ by
      rw [Array.getElem?_eq_none_iff] at he
      exact absurd (mem_offered.1 hmem).1 (Nat.not_lt.2 he)
    have hpin : c.pin f = c := by rw [pin, he]
    rw [hpin, Finset.erase_eq_of_notMem hf]
    exact ⟨h, rfl⟩
  | some e =>
    obtain ⟨hf, hentry⟩ := entry_of_getElem? he
    have hpin : c.pin f = { c with
        entries := c.entries.setIfInBounds f {}
        candidates := if e.candidate then c.candidates - 1 else c.candidates } := by
      rw [pin, he]
    have hoffered : (c.pin f).offered = c.offered.erase f := by
      rw [offered_of_set (c := c) (f := f) (e := {}) (by rw [hpin]) hf, if_neg (by decide)]
    have hsize : (c.pin f).entries.size = c.entries.size := by
      rw [hpin, Array.size_setIfInBounds]
    refine ⟨⟨by rw [hsize]; exact h.le_size, ?_, ?_⟩, hoffered⟩
    · rw [hsize, hpin]
      exact h.hand_lt
    · rw [hoffered, hpin]
      by_cases hc : e.candidate
      · have hmem : f ∈ c.offered := mem_offered.2 ⟨hf, by rw [hentry]; exact hc⟩
        rw [Finset.card_erase_of_mem hmem, ← h.count_eq, if_pos hc]
      · have hmem : f ∉ c.offered := fun hmem ↦ hc (by rw [← hentry]; exact (mem_offered.1 hmem).2)
        rw [Finset.erase_eq_of_notMem hmem, ← h.count_eq, if_neg hc]

theorem fits_unpin (h : c.Fits n) (hn : f < n) :
    (c.unpin f).Fits n ∧ (c.unpin f).offered = insert f c.offered := by
  have hf : f < c.entries.size := Nat.lt_of_lt_of_le hn h.le_size
  obtain ⟨e, he⟩ : ∃ e, c.entries[f]? = some e := ⟨_, Array.getElem?_eq_getElem hf⟩
  obtain ⟨-, hentry⟩ := entry_of_getElem? he
  have hunpin : c.unpin f = { c with
      entries := c.entries.setIfInBounds f ⟨true, true⟩
      candidates := if e.candidate then c.candidates else c.candidates + 1 } := by
    rw [unpin, he]
  have hoffered : (c.unpin f).offered = insert f c.offered := by
    rw [offered_of_set (c := c) (f := f) (e := ⟨true, true⟩) (by rw [hunpin]) hf, if_pos rfl]
  have hsize : (c.unpin f).entries.size = c.entries.size := by
    rw [hunpin, Array.size_setIfInBounds]
  refine ⟨⟨by rw [hsize]; exact h.le_size, ?_, ?_⟩, hoffered⟩
  · rw [hsize, hunpin]
    exact h.hand_lt
  · rw [hoffered, hunpin]
    by_cases hc : e.candidate
    · have hmem : f ∈ c.offered := mem_offered.2 ⟨hf, by rw [hentry]; exact hc⟩
      rw [Finset.insert_eq_of_mem hmem, ← h.count_eq, if_pos hc]
    · have hmem : f ∉ c.offered := fun hmem ↦ hc (by rw [← hentry]; exact (mem_offered.1 hmem).2)
      rw [Finset.card_insert_of_notMem hmem, ← h.count_eq, if_neg hc]

/-! ### Moving the hand -/

/-- The circle after one step of the hand. -/
def advance (c : ClockReplacer) : ClockReplacer := { c with hand := (c.hand + 1) % c.entries.size }

/-- The circle after the hand has passed a frame and taken its mark away. -/
def pass (c : ClockReplacer) : ClockReplacer :=
  { c.advance with entries := c.entries.setIfInBounds c.hand ⟨true, false⟩ }

/-- The circle after the hand has taken a frame. -/
def take (c : ClockReplacer) : ClockReplacer :=
  { c.advance with
    entries := c.entries.setIfInBounds c.hand {}
    candidates := c.candidates - 1 }

theorem sweep_succ (c : ClockReplacer) (steps : Nat) :
    c.sweep (steps + 1) =
      if !(c.entry c.hand).candidate then c.advance.sweep steps
      else if (c.entry c.hand).referenced then c.pass.sweep steps
      else (some c.hand, c.take) := rfl

theorem hand_advance_lt (hpos : 0 < c.entries.size) : c.advance.hand < c.entries.size :=
  Nat.mod_lt _ hpos

theorem fits_advance (h : c.Fits n) (hpos : 0 < c.entries.size) : c.advance.Fits n :=
  ⟨h.le_size, fun _ ↦ hand_advance_lt hpos, h.count_eq⟩

@[simp] theorem size_pass (c : ClockReplacer) : c.pass.entries.size = c.entries.size :=
  Array.size_setIfInBounds

theorem offered_pass (h : c.hand ∈ c.offered) : c.pass.offered = c.offered := by
  rw [offered_of_set (d := c.pass) rfl (mem_offered.1 h).1, if_pos rfl, Finset.insert_eq_of_mem h]

theorem fits_pass (h : c.Fits n) (hmem : c.hand ∈ c.offered) : c.pass.Fits n := by
  have hpos : 0 < c.entries.size := Nat.zero_lt_of_lt (mem_offered.1 hmem).1
  constructor
  · rw [size_pass]
    exact h.le_size
  · intro _
    rw [size_pass]
    exact hand_advance_lt hpos
  · rw [offered_pass hmem]
    exact h.count_eq

theorem fits_take (h : c.Fits n) (hmem : c.hand ∈ c.offered) :
    c.take.Fits n ∧ c.take.offered = c.offered.erase c.hand := by
  have hlt := (mem_offered.1 hmem).1
  have hsize : c.take.entries.size = c.entries.size := Array.size_setIfInBounds
  have hoffered : c.take.offered = c.offered.erase c.hand := by
    rw [offered_of_set (d := c.take) rfl hlt, if_neg (by decide)]
  refine ⟨?_, hoffered⟩
  constructor
  · rw [hsize]
    exact h.le_size
  · intro _
    rw [hsize]
    exact hand_advance_lt (Nat.zero_lt_of_lt hlt)
  · rw [hoffered, Finset.card_erase_of_mem hmem, ← h.count_eq]
    rfl

/-- How many frames the hand passes before it comes to a frame. -/
def ahead (c : ClockReplacer) (f : Nat) : Nat :=
  if c.hand ≤ f then f - c.hand else f + c.entries.size - c.hand

/-- A step of the hand brings every frame closer, but for the one it was on, which is the last
one now. -/
theorem ahead_of_hand {c d : ClockReplacer} {f : Nat} (hhand : c.hand < c.entries.size)
    (hf : f < c.entries.size) (hsize : d.entries.size = c.entries.size)
    (hstep : d.hand = (c.hand + 1) % c.entries.size) :
    d.hand < c.entries.size ∧
      if c.hand = f then c.ahead f = 0 ∧ d.ahead f + 1 = c.entries.size
      else d.ahead f + 1 = c.ahead f := by
  rw [ahead, ahead, hsize, hstep]
  by_cases hlast : c.hand + 1 = c.entries.size
  · rw [hlast, Nat.mod_self]
    split <;> split <;> split <;> omega
  · rw [Nat.mod_eq_of_lt (by omega)]
    split <;> split <;> split <;> omega

/-- The hand stops within the steps it takes to a candidate that is not referenced, and within
one round more than it takes to any candidate. -/
theorem exists_of_sweep {steps : Nat} (hhand : c.hand < c.entries.size)
    (hf : f ∈ c.offered)
    (hsteps : (c.entry f).referenced = false ∧ c.ahead f < steps ∨
      c.ahead f + c.entries.size < steps) : ∃ g d, c.sweep steps = (some g, d) := by
  -- One candidate is watched. Each step brings the hand closer to it, or is on it and takes its
  -- mark away; then it is a round away again, and the first alternative holds from there on.
  induction steps generalizing c with
  | zero => omega
  | succ steps ih =>
    obtain ⟨hlt, hcand⟩ := mem_offered.1 hf
    rw [sweep_succ]
    by_cases hnot : (c.entry c.hand).candidate
    · rw [hnot]
      by_cases href : (c.entry c.hand).referenced
      · have hset := entry_of_set (d := c.pass) rfl hhand f
        have hoffered := offered_pass (mem_offered.2 ⟨hhand, hnot⟩)
        obtain ⟨hhand', hahead⟩ := ahead_of_hand (d := c.pass) hhand hlt c.size_pass rfl
        rw [if_neg (by simp), if_pos href]
        refine ih (by rw [size_pass]; exact hhand') (by rw [hoffered]; exact hf) ?_
        rw [size_pass, hset]
        split at hahead
        next heq =>
          rw [heq] at href
          rw [if_pos heq]
          rw [href] at hsteps
          refine .inl ⟨rfl, ?_⟩
          obtain ⟨⟨⟩, -⟩ | hround := hsteps
          omega
        next hne =>
          rw [if_neg hne]
          obtain ⟨hunmarked, hnear⟩ | hround := hsteps
          · exact .inl ⟨hunmarked, by omega⟩
          · exact .inr (by omega)
      · rw [if_neg (by simp), if_neg href]
        exact ⟨_, _, rfl⟩
    · have hne : c.hand ≠ f := by
        rintro rfl
        exact hnot hcand
      obtain ⟨hhand', hahead⟩ := ahead_of_hand (d := c.advance) hhand hlt rfl rfl
      rw [if_neg hne] at hahead
      rw [if_pos (by simpa using hnot)]
      refine ih hhand' hf ?_
      obtain ⟨hunmarked, hnear⟩ | hround := hsteps
      · exact .inl ⟨hunmarked, by omega⟩
      · refine .inr ?_
        change c.advance.ahead f + c.entries.size < steps
        omega

/-- The hand stops at a candidate. The others stay candidates. -/
theorem fits_of_sweep {steps : Nat} (h : c.Fits n) (hpos : 0 < c.entries.size)
    (hs : c.sweep steps = (some f, d)) :
    d.Fits n ∧ f ∈ c.offered ∧ d.offered = c.offered.erase f := by
  induction steps generalizing c with
  | zero => cases hs
  | succ steps ih =>
    rw [sweep_succ] at hs
    split at hs
    next hnot => exact ih (c := c.advance) (fits_advance h hpos) hpos hs
    next hcand =>
      have hmem : c.hand ∈ c.offered := mem_offered.2 ⟨h.hand_lt hpos, by simpa using hcand⟩
      split at hs
      next href =>
        rw [← offered_pass hmem]
        exact ih (fits_pass h hmem) (by rw [size_pass]; exact hpos) hs
      next =>
        cases hs
        have htake := fits_take h hmem
        exact ⟨htake.1, hmem, htake.2⟩

theorem evict_eq_none (h : c.Fits n) (he : c.evict = (none, d)) : d = c ∧ c.offered = ∅ := by
  rw [evict] at he
  split at he
  next hzero =>
    cases he
    rw [h.count_eq] at hzero
    exact ⟨rfl, Finset.card_eq_zero.1 hzero⟩
  next hcount =>
    rw [h.count_eq, Finset.card_eq_zero] at hcount
    obtain ⟨f, hf⟩ := Finset.nonempty_iff_ne_empty.2 hcount
    have hlt := (mem_offered.1 hf).1
    have hhand := h.hand_lt (by omega)
    have hahead : c.ahead f < c.entries.size := by
      rw [ahead]
      split <;> omega
    obtain ⟨g, e, hsome⟩ : ∃ g e, c.sweep (2 * c.entries.size) = (some g, e) :=
      exists_of_sweep hhand hf (.inr (by omega))
    rw [hsome] at he
    cases he

theorem evict_eq_some (h : c.Fits n) (he : c.evict = (some f, d)) :
    d.Fits n ∧ f ∈ c.offered ∧ d.offered = c.offered.erase f := by
  rw [evict] at he
  split at he
  next => cases he
  next hcount =>
    rw [h.count_eq, Finset.card_eq_zero] at hcount
    obtain ⟨g, hg⟩ := Finset.nonempty_iff_ne_empty.2 hcount
    have hlt := (mem_offered.1 hg).1
    exact fits_of_sweep h (by omega) he

theorem size_eq (h : c.Fits n) : c.size = c.offered.card := h.count_eq

instance : LawfulReplacer ClockReplacer where
  offered := offered
  Fits := Fits
  size_eq := size_eq
  pin f h := fits_pin h f
  unpin := fits_unpin
  evict_none := evict_eq_none
  evict_some := evict_eq_some

@[simp] theorem offered_ofFrames (frames : Nat) : (ofFrames frames).offered = ∅ := by
  refine Finset.eq_empty_of_forall_notMem fun f hf ↦ ?_
  obtain ⟨hlt, hcand⟩ := mem_offered.1 hf
  rw [entry, ofFrames, Array.getD_eq_getD_getElem?, Array.getElem?_replicate] at hcand
  split at hcand <;> cases hcand

theorem fits_ofFrames {frames : Nat} (h : n ≤ frames) : (ofFrames frames).Fits n where
  le_size := by rwa [ofFrames, Array.size_replicate]
  hand_lt h := h
  count_eq := by
    rw [offered_ofFrames]
    rfl

end ClockReplacer

/-! ## Policies by name -/

namespace Policy

def offered : Policy → Finset Nat
  | lru r => r.offered
  | clock r => r.offered
  | scripted r => r.frames.toFinset

/-- A policy with a fixed order is not lawful. -/
def Fits (n : Nat) : Policy → Prop
  | lru r => r.Fits n
  | clock r => r.Fits n
  | scripted _ => False

instance : LawfulReplacer Policy where
  offered := offered
  Fits := Fits
  size_eq {n r} h :=
    match r with
    | lru _ => LruReplacer.size_eq h
    | clock _ => ClockReplacer.size_eq h
  pin {n r} f h :=
    match r with
    | lru _ => LruReplacer.fits_pin h f
    | clock _ => ClockReplacer.fits_pin h f
  unpin {n f r} h hf :=
    match r with
    | lru _ => LruReplacer.fits_unpin h hf
    | clock _ => ClockReplacer.fits_unpin h hf
  evict_none {n r s} h he := by
    obtain ⟨hnone, rfl⟩ := Prod.mk.inj he
    match r with
    | lru r =>
      obtain ⟨hr, hempty⟩ := LruReplacer.evict_eq_none h (Prod.ext hnone rfl)
      exact ⟨congrArg lru hr, hempty⟩
    | clock r =>
      obtain ⟨hr, hempty⟩ := ClockReplacer.evict_eq_none h (Prod.ext hnone rfl)
      exact ⟨congrArg clock hr, hempty⟩
  evict_some {n f r s} h he := by
    obtain ⟨hsome, rfl⟩ := Prod.mk.inj he
    match r with
    | lru r => exact LruReplacer.evict_eq_some h (Prod.ext hsome rfl)
    | clock r => exact ClockReplacer.evict_eq_some h (Prod.ext hsome rfl)

/-- A policy that a configuration asks for starts without candidates, in order for as many frames
as it was made for. -/
theorem fits_ofKind {n capacity : Nat} (h : n ≤ capacity) (kind : ReplacerKind) :
    (ofKind capacity kind).Fits n ∧ (ofKind capacity kind).offered = ∅ := by
  cases kind with
  | lru => exact ⟨LruReplacer.fits_ofCapacity h, rfl⟩
  | clock => exact ⟨ClockReplacer.fits_ofFrames h, ClockReplacer.offered_ofFrames capacity⟩

end Policy

end PagedStorage
