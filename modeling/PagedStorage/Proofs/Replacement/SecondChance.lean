import Mathlib.Data.List.Rotate
import PagedStorage.Proofs.Replacement.Calls
import PagedStorage.Proofs.Replacement.Lawful

/-!
# The rule of second chance

Seen from the hand, the frames stand in a row, `ClockReplacer.circle`. The rule looks along this row
for the first candidate without a mark, and unmarks the frames before it; if all candidates are
marked it unmarks the whole row and takes the first of them (`ClockReplacer.secondChance`).

## The loop

The loop does the same step by step, and changes the row as it goes. One fact joins the two: as long
as it meets no candidate without a mark, moving the hand past the front of the row only unmarks this
front and puts it at the end (`ClockReplacer.sweep_add`). The first round of the loop over a row
without such a candidate is the case in which the front is the whole row. The row is back in place
then, nobody is marked, and what is left of the bound is another round.

## Marks of frames that are no candidates

The rule unmarks all frames that it passes, and the loop the candidates only. This is the same
because nobody else is marked, which is kept by all calls (`ClockReplacer.Orderly`): a frame is
marked when it is offered and loses its mark when the offer is taken back.

## Calls in a row

A policy that was made for some number of frames is orderly after any calls, also after calls that
name a frame which it was not made for. Such a frame is outside the circle and the call changes
nothing. `ClockReplacer.KeepsRule` collects what is known at any time: the rule, the marks, where
the hand stands and that two rounds suffice.
-/

namespace PagedStorage

namespace ClockReplacer

variable {c d : ClockReplacer} {f g : Nat} {passed rest : List Nat}

/-! ## The circle, seen from the hand -/

/-- The frames in the order in which the hand comes to them. -/
def circle (c : ClockReplacer) : List Nat := (List.range c.entries.size).rotate c.hand

/-- The hand stops at a candidate without a mark. -/
def unmarked (c : ClockReplacer) (f : Nat) : Bool :=
  (c.entry f).candidate && !(c.entry f).referenced

@[simp] theorem mem_circle : f ∈ c.circle ↔ f < c.entries.size := by
  rw [circle, List.mem_rotate, List.mem_range]

private theorem nodup_circle (c : ClockReplacer) : c.circle.Nodup :=
  List.nodup_rotate.2 List.nodup_range

@[simp] theorem length_circle (c : ClockReplacer) : c.circle.length = c.entries.size := by
  rw [circle, List.length_rotate, List.length_range]

theorem hand_of_circle (h : c.circle = f :: rest) (hhand : c.hand < c.entries.size) :
    c.hand = f := by
  have hhead : c.circle.head? = (List.range c.entries.size)[c.hand]? :=
    List.head?_rotate (by rwa [List.length_range])
  rw [h, List.getElem?_range hhand] at hhead
  exact (Option.some.inj hhead).symm

theorem ext_entry (hsize : c.entries.size = d.entries.size) (hentry : ∀ g, c.entry g = d.entry g)
    (hhand : c.hand = d.hand) (hcount : c.candidates = d.candidates) : c = d := by
  have hentries : c.entries = d.entries := by
    refine Array.ext hsize fun i hc hd ↦ ?_
    have hi := hentry i
    rwa [entry, entry, Array.getD_eq_getD_getElem?, Array.getD_eq_getD_getElem?,
      Array.getElem?_eq_getElem hc, Array.getElem?_eq_getElem hd] at hi
  cases c
  cases d
  simp_all

/-! ## The rule -/

/-- The entries once some frames have lost their marks. -/
def unmark (c : ClockReplacer) (passed : List Nat) : Array ClockEntry :=
  c.entries.mapIdx fun g e ↦ if g ∈ passed then { e with referenced := false } else e

/-- The hand goes over some frames in a row. -/
def passing (c : ClockReplacer) (passed : List Nat) : ClockReplacer :=
  { c with
    entries := c.unmark passed
    hand := (c.hand + passed.length) % c.entries.size }

/-- The hand goes over some frames and takes the next one. -/
def giveUp (c : ClockReplacer) (passed : List Nat) (f : Nat) : ClockReplacer where
  entries := (c.unmark passed).setIfInBounds f {}
  hand := (f + 1) % c.entries.size
  candidates := c.candidates - 1

/-- Takes the first candidate without a mark. If there is none, all candidates have lost their marks
when the hand comes round, and it takes the first of them. -/
def secondChance (c : ClockReplacer) : Option Nat × ClockReplacer :=
  match c.circle.find? c.unmarked with
  | some f => (some f, c.giveUp (c.circle.takeWhile fun g ↦ !c.unmarked g) f)
  | none =>
    match c.circle.find? fun g ↦ (c.entry g).candidate with
    | some f => (some f, c.giveUp c.circle f)
    | none => (none, c)

@[simp] theorem size_passing (c : ClockReplacer) (passed : List Nat) :
    (c.passing passed).entries.size = c.entries.size := Array.size_mapIdx

@[simp] theorem entry_passing (c : ClockReplacer) (passed : List Nat) (g : Nat) :
    (c.passing passed).entry g =
      if g ∈ passed then { c.entry g with referenced := false } else c.entry g := by
  rw [entry, entry, passing, unmark, Array.getD_eq_getD_getElem?, Array.getD_eq_getD_getElem?,
    Array.getElem?_mapIdx]
  cases c.entries[g]? with
  | none => exact (ite_self _).symm
  | some e => rfl

@[simp] theorem offered_passing (c : ClockReplacer) (passed : List Nat) :
    (c.passing passed).offered = c.offered := by
  ext g
  rw [mem_offered, mem_offered, size_passing, entry_passing]
  split <;> rfl

/-- A hand that has passed the front of the row has this front at the end of its row. -/
theorem circle_passing (h : c.circle = passed ++ rest) :
    (c.passing passed).circle = rest ++ passed := by
  have hhand : (c.passing passed).hand = (c.hand + passed.length) % c.entries.size := rfl
  have hmod := List.rotate_mod (List.range c.entries.size) (c.hand + passed.length)
  rw [List.length_range] at hmod
  rw [circle, size_passing, hhand, hmod, ← List.rotate_rotate, ← circle, h,
    List.rotate_append_length_eq]

@[simp] theorem size_giveUp (c : ClockReplacer) (passed : List Nat) (f : Nat) :
    (c.giveUp passed f).entries.size = c.entries.size :=
  Array.size_setIfInBounds.trans (c.size_passing passed)

theorem entry_giveUp (hf : f < c.entries.size) (passed : List Nat) (g : Nat) :
    (c.giveUp passed f).entry g =
      if f = g then {} else if g ∈ passed then { c.entry g with referenced := false }
      else c.entry g := by
  rw [entry_of_set (c := c.passing passed) (d := c.giveUp passed f) rfl (by rwa [size_passing]),
    entry_passing]

theorem offered_giveUp (hf : f < c.entries.size) (passed : List Nat) :
    (c.giveUp passed f).offered = c.offered.erase f := by
  rw [offered_of_set (c := c.passing passed) (d := c.giveUp passed f) (f := f) rfl
    (by rwa [size_passing]), if_neg (by decide), offered_passing]

private theorem passing_nil (h : c.hand < c.entries.size) : c.passing [] = c := by
  refine ext_entry (c.size_passing []) (fun g ↦ ?_) (Nat.mod_eq_of_lt h) rfl
  rw [entry_passing, if_neg List.not_mem_nil]

private theorem passing_passing (c : ClockReplacer) (passed more : List Nat) :
    (c.passing passed).passing more = c.passing (passed ++ more) := by
  refine ext_entry (by simp only [size_passing]) (fun g ↦ ?_) ?_ rfl
  · rw [entry_passing, entry_passing, entry_passing]
    by_cases hpassed : g ∈ passed <;> by_cases hmore : g ∈ more <;> simp [hpassed, hmore]
  · change ((c.hand + passed.length) % c.entries.size + more.length) %
      (c.passing passed).entries.size = (c.hand + (passed ++ more).length) % c.entries.size
    rw [size_passing, Nat.mod_add_mod, List.length_append, Nat.add_assoc]

/-- The hand takes the frame that it has come to. -/
theorem take_passing (hf : f < c.entries.size) (hhand : (c.passing passed).hand = f) :
    (c.passing passed).take = c.giveUp passed f := by
  refine ext_entry ?_ (fun g ↦ ?_) ?_ rfl
  · exact Array.size_setIfInBounds.trans ((c.size_passing _).trans (c.size_giveUp _ _).symm)
  · rw [entry_of_set (d := (c.passing passed).take) rfl (by rwa [hhand, size_passing]), hhand,
      entry_passing, entry_giveUp hf]
  · change ((c.passing passed).hand + 1) % (c.passing passed).entries.size = _
    rw [hhand, size_passing]
    rfl

private theorem giveUp_passing {more : List Nat} (hf : f < c.entries.size) (hsub : more ⊆ passed) :
    (c.passing passed).giveUp more f = c.giveUp passed f := by
  refine ext_entry (by simp only [size_giveUp, size_passing]) (fun g ↦ ?_) ?_ rfl
  · rw [entry_giveUp (by rwa [size_passing]), entry_giveUp hf, entry_passing]
    by_cases hg : g ∈ passed
    · simp [hg]
    · simp [hg, mt (@hsub g) hg]
  · exact congrArg ((f + 1) % ·) (c.size_passing _)

/-! ## What all calls keep -/

/-- The hand is on the circle, the candidates are counted right, and only candidates are marked. -/
structure Orderly (c : ClockReplacer) : Prop where
  fits : c.Fits c.entries.size
  candidate_of_referenced : ∀ f, (c.entry f).referenced → (c.entry f).candidate

namespace Orderly

theorem ofFrames (frames : Nat) : (ofFrames frames).Orderly where
  fits := { fits_ofFrames (Nat.zero_le frames) with le_size := Nat.le_refl _ }
  candidate_of_referenced f h := by
    rw [entry, ClockReplacer.ofFrames, Array.getD_eq_getD_getElem?, Array.getElem?_replicate] at h
    split at h <;> cases h

theorem of_set {n : Nat} {e : ClockEntry} (h : c.Orderly) (hfits : d.Fits n)
    (hd : d.entries = c.entries.setIfInBounds f e) (hf : f < c.entries.size)
    (he : e.referenced → e.candidate) : d.Orderly where
  fits := { hfits with le_size := Nat.le_refl _ }
  candidate_of_referenced g := by
    rw [entry_of_set hd hf]
    split
    · exact he
    · exact h.candidate_of_referenced g

theorem pin (h : c.Orderly) (f : Nat) : (c.pin f).Orderly := by
  have hfits := (fits_pin h.fits f).1
  cases he : c.entries[f]? with
  | none =>
    rw [ClockReplacer.pin, he]
    exact h
  | some e =>
    exact h.of_set (e := {}) hfits (by rw [ClockReplacer.pin, he]) (entry_of_getElem? he).1
      (by simp)

theorem unpin (h : c.Orderly) (f : Nat) : (c.unpin f).Orderly := by
  cases he : c.entries[f]? with
  | none =>
    rw [ClockReplacer.unpin, he]
    exact h
  | some e =>
    have hf := (entry_of_getElem? he).1
    exact h.of_set (e := ⟨true, true⟩) (fits_unpin h.fits hf).1 (by rw [ClockReplacer.unpin, he]) hf
      fun _ ↦ rfl

theorem passing (h : c.Orderly) (hpos : 0 < c.entries.size) (passed : List Nat) :
    (c.passing passed).Orderly where
  fits := {
    le_size := Nat.le_refl _
    hand_lt _ := (Nat.mod_lt _ hpos).trans_eq (c.size_passing passed).symm
    count_eq := by
      rw [offered_passing]
      exact h.fits.count_eq }
  candidate_of_referenced f := by
    rw [entry_passing]
    split
    · exact fun hf ↦ absurd hf Bool.false_ne_true
    · exact h.candidate_of_referenced f

end Orderly

/-! ## The loop follows the rule -/

private theorem pass_eq_passing (hhand : c.hand < c.entries.size)
    (hcand : (c.entry c.hand).candidate) : c.pass = c.passing [c.hand] := by
  refine ext_entry (c.size_pass.trans (c.size_passing _).symm) (fun g ↦ ?_) rfl rfl
  rw [entry_of_set (d := c.pass) rfl hhand, entry_passing]
  by_cases hg : c.hand = g
  · subst hg
    simp [← hcand]
  · simp [hg, Ne.symm hg]

private theorem advance_eq_passing (href : (c.entry c.hand).referenced = false) :
    c.advance = c.passing [c.hand] := by
  refine ext_entry (c.size_passing _).symm (fun g ↦ ?_) rfl rfl
  rw [entry_passing]
  split
  next hg =>
    rw [List.mem_singleton.1 hg, ← href]
    rfl
  next => rfl

private theorem sweep_succ_of_passed (h : c.Orderly) (hpos : 0 < c.entries.size)
    (hpass : c.unmarked c.hand = false) (steps : Nat) :
    c.sweep (steps + 1) = (c.passing [c.hand]).sweep steps := by
  rw [sweep_succ]
  by_cases hcand : (c.entry c.hand).candidate
  · have href : (c.entry c.hand).referenced := by simpa [unmarked, hcand] using hpass
    rw [if_neg (by simp [hcand]), if_pos href, pass_eq_passing (h.fits.hand_lt hpos) hcand]
  · have href : (c.entry c.hand).referenced = false :=
      Bool.eq_false_iff.2 fun href ↦ hcand (h.candidate_of_referenced _ href)
    rw [if_pos (by simp [hcand]), advance_eq_passing href]

/-- The hand passes the front of the row if nobody there stops it. -/
theorem sweep_add (h : c.Orderly) (hpos : 0 < c.entries.size) (hcircle : c.circle = passed ++ rest)
    (hpass : ∀ g ∈ passed, c.unmarked g = false) (steps : Nat) :
    c.sweep (passed.length + steps) = (c.passing passed).sweep steps := by
  induction passed generalizing c rest with
  | nil => rw [List.length_nil, Nat.zero_add, passing_nil (h.fits.hand_lt hpos)]
  | cons f passed ih =>
    have hhand : c.hand = f := hand_of_circle hcircle (h.fits.hand_lt hpos)
    have hfront : c.circle = [f] ++ (passed ++ rest) := hcircle
    have hnext : (c.passing [f]).circle = passed ++ (rest ++ [f]) := by
      rw [circle_passing hfront, List.append_assoc]
    -- The frame that goes to the end of the row is not met again.
    have hfresh : f ∉ passed := fun hf ↦ by
      have hnodup := c.nodup_circle
      rw [hcircle, List.cons_append, List.nodup_cons] at hnodup
      exact hnodup.1 (List.mem_append_left _ hf)
    have hunmarked : ∀ g ∈ passed, (c.passing [f]).unmarked g = false := fun g hg ↦ by
      have hne : g ∉ [f] := fun hgf ↦ hfresh (List.mem_singleton.1 hgf ▸ hg)
      rw [unmarked, entry_passing, if_neg hne]
      exact hpass g (List.mem_cons_of_mem f hg)
    have hstep := sweep_succ_of_passed h hpos
      (by rw [hhand]; exact hpass f List.mem_cons_self) (passed.length + steps)
    rw [List.length_cons, Nat.add_right_comm, hstep, hhand,
      ih (h.passing hpos [f]) (by rwa [size_passing]) hnext hunmarked, passing_passing,
      List.singleton_append]

/-- The hand stops at the first candidate without a mark. -/
theorem sweep_of_unmarked (h : c.Orderly) (hcircle : c.circle = passed ++ f :: rest)
    (hpass : ∀ g ∈ passed, c.unmarked g = false) (hf : c.unmarked f) {steps : Nat}
    (hsteps : passed.length < steps) : c.sweep steps = (some f, c.giveUp passed f) := by
  have hlt : f < c.entries.size := mem_circle.1 (by simp [hcircle])
  have hpos := Nat.zero_lt_of_lt hlt
  have hhand : (c.passing passed).hand = f :=
    hand_of_circle (circle_passing hcircle) (by rw [size_passing]; exact Nat.mod_lt _ hpos)
  have hentry : (c.passing passed).entry f = c.entry f := by
    have hfresh : f ∉ passed := fun hmem ↦ by
      rw [hpass f hmem] at hf
      cases hf
    rw [entry_passing, if_neg hfresh]
  obtain ⟨hcand, hmark⟩ : (c.entry f).candidate = true ∧ (c.entry f).referenced = false := by
    simpa [unmarked] using hf
  obtain ⟨k, rfl⟩ := Nat.exists_eq_add_of_lt hsteps
  rw [Nat.add_assoc, sweep_add h hpos hcircle hpass, sweep_succ, hhand, hentry,
    if_neg (by simp [hcand]), if_neg (by simp [hmark]), take_passing hlt hhand]

/-- If all candidates are marked, the hand comes round and takes the first of them. -/
theorem sweep_of_marked (h : c.Orderly) (hcircle : c.circle = passed ++ f :: rest)
    (hmarked : ∀ g ∈ c.circle, c.unmarked g = false)
    (hpass : ∀ g ∈ passed, (c.entry g).candidate = false) (hf : (c.entry f).candidate) :
    c.sweep (2 * c.entries.size) = (some f, c.giveUp c.circle f) := by
  have hmem (g : Nat) (hg : g ∈ passed ++ f :: rest) : g ∈ c.circle := hcircle ▸ hg
  have hlt : f < c.entries.size := mem_circle.1 (hmem f (by simp))
  have hpos := Nat.zero_lt_of_lt hlt
  have hall : c.circle = c.circle ++ [] := (List.append_nil _).symm
  have hround := sweep_add h hpos hall hmarked c.entries.size
  rw [length_circle, ← Nat.two_mul] at hround
  have hsame : (c.passing c.circle).circle = passed ++ f :: rest :=
    (circle_passing hall).trans hcircle
  have hentry (g : Nat) (hg : g ∈ passed ++ f :: rest) :
      (c.passing c.circle).entry g = { c.entry g with referenced := false } := by
    rw [entry_passing, if_pos (hmem g hg)]
  have hshort : passed.length < c.entries.size := by
    rw [← c.length_circle, hcircle]
    simp
  rw [hround, sweep_of_unmarked (h.passing hpos c.circle) hsame
    (fun g hg ↦ by simp [unmarked, hentry g (by simp [hg]), hpass g hg])
    (by simp [unmarked, hentry f (by simp), hf]) hshort]
  -- What the second round passes, the first one has unmarked.
  rw [giveUp_passing hlt fun g hg ↦ hmem g (by simp [hg])]

theorem evict_eq_secondChance (h : c.Orderly) : c.evict = c.secondChance := by
  have hnone : c.candidates = 0 ↔ ∀ f ∈ c.circle, (c.entry f).candidate = false := by
    rw [h.fits.count_eq, Finset.card_eq_zero, Finset.eq_empty_iff_forall_notMem]
    refine forall_congr' fun f ↦ ?_
    rw [mem_offered, mem_circle, not_and, Bool.not_eq_true]
  have hstart (f : Nat) (hf : f ∈ c.circle) (hcand : (c.entry f).candidate) :
      c.evict = c.sweep (2 * c.entries.size) :=
    if_neg fun hzero ↦ by simp [hnone.1 hzero f hf] at hcand
  rw [secondChance]
  cases hfree : c.circle.find? c.unmarked with
  | some f =>
    obtain ⟨hf, passed, rest, hcircle, hpass⟩ := List.find?_eq_some_iff_append.1 hfree
    have hstop : passed = c.circle.takeWhile fun g ↦ !c.unmarked g := by
      rw [hcircle, List.takeWhile_append_of_pos hpass, List.takeWhile_cons_of_neg (by simp [hf]),
        List.append_nil]
    have hlong : passed.length < 2 * c.entries.size := by
      rw [← c.length_circle, hcircle, List.length_append, List.length_cons]
      omega
    have hcand : (c.entry f).candidate := by
      rw [unmarked, Bool.and_eq_true] at hf
      exact hf.1
    rw [hstart f (by simp [hcircle]) hcand, ← hstop]
    exact sweep_of_unmarked h hcircle (fun g hg ↦ by simpa using hpass g hg) hf hlong
  | none =>
    have hmarked (g : Nat) (hg : g ∈ c.circle) : c.unmarked g = false := by
      simpa using List.find?_eq_none.1 hfree g hg
    cases hfirst : c.circle.find? fun g ↦ (c.entry g).candidate with
    | some f =>
      obtain ⟨hf, passed, rest, hcircle, hpass⟩ := List.find?_eq_some_iff_append.1 hfirst
      rw [hstart f (by simp [hcircle]) hf]
      exact sweep_of_marked h hcircle hmarked (fun g hg ↦ by simpa using hpass g hg) hf
    | none => exact if_pos (hnone.2 fun f hf ↦ by simpa using List.find?_eq_none.1 hfirst f hf)

private theorem secondChance_cases (c : ClockReplacer) :
    c.secondChance = (none, c) ∨
      ∃ passed f, c.secondChance = (some f, c.giveUp passed f) := by
  rw [secondChance]
  split
  · exact .inr ⟨_, _, rfl⟩
  · split
    · exact .inr ⟨_, _, rfl⟩
    · exact .inl rfl

/-- All that `evict` can do. -/
theorem evict_cases (h : c.Orderly) :
    c.evict = (none, c) ∧ c.offered = ∅ ∨
      ∃ passed f, c.evict = (some f, c.giveUp passed f) ∧ f ∈ c.offered := by
  obtain hnone | ⟨passed, f, hsome⟩ := c.secondChance_cases
  · have he := (evict_eq_secondChance h).trans hnone
    exact .inl ⟨he, (evict_eq_none h.fits he).2⟩
  · have he := (evict_eq_secondChance h).trans hsome
    exact .inr ⟨passed, f, he, (evict_eq_some h.fits he).2.1⟩

/-! ## Calls in a row -/

theorem Orderly.evict (h : c.Orderly) : c.evict.2.Orderly := by
  obtain ⟨he, -⟩ | ⟨passed, f, he, hf⟩ := evict_cases h
  · rw [he]
    exact h
  · have hlt := (mem_offered.1 hf).1
    rw [he]
    have hpassed := h.passing (Nat.zero_lt_of_lt hlt) passed
    exact hpassed.of_set (e := {}) (evict_eq_some h.fits he).1 rfl (by rwa [size_passing]) (by simp)

theorem Orderly.call (h : c.Orderly) (k : ReplacerCall) : (Replacer.call c k).2.Orderly := by
  cases k with
  | evict => exact h.evict
  | pin frame => exact h.pin frame
  | unpin frame => exact h.unpin frame

theorem Orderly.after (h : c.Orderly) (ks : List ReplacerCall) : (Replacer.after c ks).Orderly :=
  Replacer.after_induct (fun _ k h ↦ h.call k) h ks

private theorem notMem_offered_call {k : ReplacerCall} (h : c.Orderly) (hf : f ∉ c.offered)
    (hk : k ≠ .unpin f) : f ∉ (Replacer.call c k).2.offered := by
  cases k with
  | evict =>
    change f ∉ c.evict.2.offered
    obtain ⟨he, -⟩ | ⟨passed, g, he, hg⟩ := evict_cases h
    · rwa [he]
    · rw [he, offered_giveUp (mem_offered.1 hg).1]
      exact fun hmem ↦ hf (Finset.mem_of_mem_erase hmem)
  | pin g =>
    change f ∉ (c.pin g).offered
    rw [(fits_pin h.fits g).2]
    exact fun hmem ↦ hf (Finset.mem_of_mem_erase hmem)
  | unpin g =>
    change f ∉ (c.unpin g).offered
    by_cases hg : g < c.entries.size
    · rw [(fits_unpin h.fits hg).2, Finset.mem_insert]
      rintro (rfl | hmem)
      · exact hk rfl
      · exact hf hmem
    · rw [unpin, Array.getElem?_eq_none (Nat.not_lt.1 hg)]
      exact hf

private theorem notMem_offered_after {ks : List ReplacerCall} (h : c.Orderly) (hf : f ∉ c.offered)
    (hks : .unpin f ∉ ks) : f ∉ (Replacer.after c ks).offered := by
  induction ks generalizing c with
  | nil => exact hf
  | cons k rest ih =>
    rw [List.mem_cons, not_or] at hks
    exact ih (h.call k) (notMem_offered_call h hf (Ne.symm hks.1)) hks.2

/-- What is known of a policy that keeps to the rule. -/
structure KeepsRule (c : ClockReplacer) : Prop where
  size_eq : c.size = c.offered.card
  mem_of_referenced : ∀ f, (c.entry f).referenced → f ∈ c.offered
  evict_eq : c.evict = c.secondChance
  evict_eq_none : c.evict.1 = none ↔ c.offered = ∅
  /-- A policy that gives up nothing stays as it is. -/
  evict_of_empty : c.offered = ∅ → c.evict = (none, c)
  /-- The frame to be given up leaves the candidates, and the hand stops behind it. -/
  evict_of_some : ∀ f, c.evict.1 = some f →
    f ∈ c.offered ∧ c.evict.2.offered = c.offered.erase f ∧
      c.evict.2.hand = (f + 1) % c.entries.size
  /-- Two rounds of the hand are enough. -/
  sweep_isSome : c.offered.Nonempty → (c.sweep (2 * c.entries.size)).1.isSome
  /-- A frame in use is not given up until it has gone out of use. -/
  evict_after_pin : ∀ f ks, .unpin f ∉ ks → (Replacer.after (c.pin f) ks).evict.1 ≠ some f

private theorem lt_of_candidate (h : (c.entry f).candidate) : f < c.entries.size := by
  by_contra hf
  rw [entry, Array.getD_eq_getD_getElem?, Array.getElem?_eq_none (Nat.not_lt.1 hf)] at h
  cases h

theorem Orderly.evict_of_some (h : c.Orderly) (he : c.evict.1 = some f) :
    f ∈ c.offered ∧ c.evict.2.offered = c.offered.erase f ∧
      c.evict.2.hand = (f + 1) % c.entries.size := by
  obtain ⟨hnone, -⟩ | ⟨passed, g, hsome, hg⟩ := evict_cases h
  · rw [hnone] at he
    cases he
  · rw [hsome] at he ⊢
    cases he
    exact ⟨hg, offered_giveUp (mem_offered.1 hg).1 passed, rfl⟩

theorem Orderly.evict_of_empty (h : c.Orderly) (hempty : c.offered = ∅) :
    c.evict = (none, c) := by
  obtain ⟨hnone, -⟩ | ⟨passed, f, -, hf⟩ := evict_cases h
  · exact hnone
  · rw [hempty] at hf
    cases hf

theorem Orderly.evict_eq_none (h : c.Orderly) : c.evict.1 = none ↔ c.offered = ∅ := by
  constructor
  · intro he
    exact (ClockReplacer.evict_eq_none h.fits (Prod.ext he rfl)).2
  · intro hempty
    rw [h.evict_of_empty hempty]

theorem Orderly.sweep_isSome (h : c.Orderly) (hcand : c.offered.Nonempty) :
    (c.sweep (2 * c.entries.size)).1.isSome := by
  have hcount : c.candidates ≠ 0 := by
    rw [h.fits.count_eq]
    exact hcand.card_ne_zero
  have hsweep : c.evict = c.sweep (2 * c.entries.size) := if_neg hcount
  rw [← hsweep, Option.isSome_iff_ne_none, ne_eq, h.evict_eq_none]
  exact hcand.ne_empty

theorem Orderly.keepsRule (h : c.Orderly) : c.KeepsRule where
  size_eq := ClockReplacer.size_eq h.fits
  mem_of_referenced f hf :=
    have hcand := h.candidate_of_referenced f hf
    mem_offered.2 ⟨lt_of_candidate hcand, hcand⟩
  evict_eq := evict_eq_secondChance h
  evict_eq_none := h.evict_eq_none
  evict_of_empty := h.evict_of_empty
  evict_of_some _ := h.evict_of_some
  sweep_isSome := h.sweep_isSome
  evict_after_pin f ks hks he := by
    have hout : f ∉ (c.pin f).offered := by
      rw [(fits_pin h.fits f).2]
      exact Finset.notMem_erase f _
    exact notMem_offered_after (h.pin f) hout hks (((h.pin f).after ks).evict_of_some he).1

/-- A policy made for any number of frames keeps to the rule, whatever it is called with. -/
theorem keepsRule_after (frames : Nat) (ks : List ReplacerCall) :
    (Replacer.after (ofFrames frames) ks).KeepsRule :=
  ((Orderly.ofFrames frames).after ks).keepsRule

/-- The frame that was offered again since the hand passed it gets its second chance. -/
example : (Replacer.answers (ofFrames 3)
    [.unpin 0, .unpin 1, .unpin 2, .evict, .unpin 1, .evict]).map (·.1) =
      [none, none, none, some 0, none, some 2] := by decide

end ClockReplacer

end PagedStorage
