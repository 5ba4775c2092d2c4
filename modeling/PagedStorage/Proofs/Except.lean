import Mathlib.Data.List.Forall2
import Mathlib.Data.List.Nodup
import PagedStorage.Error

/-!
# Results that may be errors, and association lists

How the success of a compound step is taken apart: a sequence of two steps succeeds if both do,
and a step made for each member of a list succeeds if it does for each. The lemmas are equivalences,
so a proof about code with many steps is a rewriting with them, which leaves the values between the
steps as witnesses.

## Kinds of errors

For the errors it is enough to know which kind they are of, `FailsWith`, and that goes from the
parts to the whole. The kinds are the layers that an error comes from: a page in memory, a stored
page, a file, a pool. A layer passes errors of the layers below on and adds its own.

## Association lists

Tables are lists of pairs, in which an entry is replaced by putting a new one in front of the
others, `lookup_filter_ne`; without a key that is there twice, finding is membership,
`mem_iff_lookup`.
-/

namespace PagedStorage

variable {ε α β : Type}

theorem error_ne_ok {e : ε} {a : α} : (.error e : Except ε α) ≠ .ok a := nofun

@[simp] theorem ok_bind (a : α) (f : α → Except ε β) : (.ok a : Except ε α) >>= f = f a := rfl

@[simp] theorem bind_eq_ok_iff {x : Except ε α} {f : α → Except ε β} {b : β} :
    (x >>= f) = .ok b ↔ ∃ a, x = .ok a ∧ f a = .ok b := by
  cases x with
  | error e =>
    constructor
    · intro h
      cases h
    · rintro ⟨a, ha, -⟩
      cases ha
  | ok a =>
    constructor
    · intro h
      exact ⟨a, rfl, h⟩
    · rintro ⟨a', ha, h⟩
      cases ha
      exact h

theorem check_bind_eq_ok_iff {x : Except ε Unit} {f : Unit → Except ε β} {b : β} :
    (x >>= f) = .ok b ↔ x = .ok () ∧ f () = .ok b := by
  rw [bind_eq_ok_iff]
  exact ⟨fun ⟨(), hx, hf⟩ ↦ ⟨hx, hf⟩, fun ⟨hx, hf⟩ ↦ ⟨(), hx, hf⟩⟩

theorem ite_error_eq_ok_iff {c : Prop} [Decidable c] {e : ε} {x : Except ε α} {a : α} :
    (if c then .error e else x) = .ok a ↔ ¬ c ∧ x = .ok a := by
  by_cases hc : c
  · rw [if_pos hc]
    exact iff_of_false nofun fun h ↦ h.1 hc
  · rw [if_neg hc, and_iff_right hc]

theorem ite_ok_eq_ok_iff {c : Prop} [Decidable c] {e : ε} :
    (if c then .ok () else .error e : Except ε Unit) = .ok () ↔ c := by
  by_cases hc : c
  · rw [if_pos hc]
    exact iff_of_true rfl hc
  · rw [if_neg hc]
    exact iff_of_false nofun hc

theorem bind_eq_error_iff {x : Except ε α} {f : α → Except ε β} {e : ε} :
    (x >>= f) = .error e ↔ x = .error e ∨ ∃ a, x = .ok a ∧ f a = .error e := by
  cases x with
  | error d =>
    constructor
    · intro h
      cases h
      exact .inl rfl
    · rintro (h | ⟨a, ha, -⟩)
      · cases h
        rfl
      · cases ha
  | ok a =>
    constructor
    · intro h
      exact .inr ⟨a, rfl, h⟩
    · rintro (h | ⟨a', ha, h⟩)
      · cases h
      · cases ha
        exact h

@[simp] theorem map_eq_ok_iff {x : Except ε α} {f : α → β} {b : β} :
    x.map f = .ok b ↔ ∃ a, x = .ok a ∧ f a = b := by
  cases x with
  | error d => exact ⟨nofun, nofun⟩
  | ok a =>
    constructor
    · rintro ⟨⟩
      exact ⟨a, rfl, rfl⟩
    · rintro ⟨_, ⟨⟩, rfl⟩
      rfl

@[simp] theorem map_eq_error_iff {x : Except ε α} {f : α → β} {e : ε} :
    x.map f = .error e ↔ x = .error e := by
  cases x with
  | error d => exact ⟨fun h ↦ congrArg Except.error (Except.error.inj h),
      fun h ↦ congrArg Except.error (Except.error.inj h)⟩
  | ok a => exact ⟨nofun, nofun⟩

theorem mapM_eq_ok_iff {f : α → Except ε β} {l : List α} {r : List β} :
    l.mapM f = .ok r ↔ List.Forall₂ (fun a b ↦ f a = .ok b) l r := by
  induction l generalizing r with
  | nil =>
    rw [List.mapM_nil, List.forall₂_nil_left_iff]
    exact ⟨fun h ↦ by cases h; rfl, fun h ↦ by rw [h]; rfl⟩
  | cons a l ih =>
    rw [List.mapM_cons, bind_eq_ok_iff, List.forall₂_cons_left_iff]
    constructor
    · rintro ⟨b, hb, hrest⟩
      obtain ⟨rest, hl, heq⟩ := bind_eq_ok_iff.1 hrest
      cases heq
      exact ⟨b, rest, hb, ih.1 hl, rfl⟩
    · rintro ⟨b, rest, hb, hl, rfl⟩
      exact ⟨b, hb, bind_eq_ok_iff.2 ⟨rest, ih.2 hl, rfl⟩⟩

/-- A step made for each number below `n`. -/
theorem mapM_range_eq_ok_iff {f : Nat → Except ε β} {n : Nat} {r : List β} :
    (List.range n).mapM f = .ok r ↔
      r.length = n ∧ ∀ (i : Nat) (hi : i < r.length), f i = .ok r[i] := by
  rw [mapM_eq_ok_iff, List.forall₂_iff_get]
  constructor
  · rintro ⟨hlen, hget⟩
    rw [List.length_range] at hlen
    exact ⟨hlen.symm, fun i hi ↦ by simpa using hget i (by simpa [hlen] using hi) hi⟩
  · rintro ⟨hlen, hget⟩
    refine ⟨by rw [List.length_range, hlen], fun i _ hi ↦ ?_⟩
    simpa using hget i hi

/-! ## Kinds of errors -/

/-- Every error of the result is of a kind. -/
def FailsWith (P : ε → Prop) (x : Except ε α) : Prop := ∀ e, x = .error e → P e

section FailsWith

variable {P : ε → Prop}

@[simp] theorem failsWith_ok (a : α) : FailsWith P (.ok a : Except ε α) := by
  rintro e ⟨⟩

theorem failsWith_error {e : ε} (h : P e) : FailsWith P (.error e : Except ε α) := by
  rintro e' ⟨⟩
  exact h

theorem FailsWith.ite {c : Prop} [Decidable c] {x y : Except ε α} (hx : FailsWith P x)
    (hy : FailsWith P y) : FailsWith P (if c then x else y) := by
  split
  · exact hx
  · exact hy

theorem FailsWith.bind {x : Except ε α} {f : α → Except ε β} (hx : FailsWith P x)
    (hf : ∀ a, FailsWith P (f a)) : FailsWith P (x >>= f) := by
  intro e he
  obtain hfirst | ⟨a, -, hsecond⟩ := bind_eq_error_iff.1 he
  · exact hx e hfirst
  · exact hf a e hsecond

theorem FailsWith.map {x : Except ε α} (hx : FailsWith P x) (f : α → β) :
    FailsWith P (x.map f) := fun e he ↦ hx e (map_eq_error_iff.1 he)

theorem FailsWith.imp {Q : ε → Prop} {x : Except ε α} (hx : FailsWith P x)
    (h : ∀ e, P e → Q e) : FailsWith Q x := fun e he ↦ h e (hx e he)

theorem FailsWith.mapM {f : α → Except ε β} {l : List α} (hf : ∀ a, FailsWith P (f a)) :
    FailsWith P (l.mapM f) := by
  induction l with
  | nil => exact failsWith_ok []
  | cons a l ih =>
    rw [List.mapM_cons]
    exact (hf a).bind fun b ↦ ih.bind fun bs ↦ failsWith_ok (b :: bs)

end FailsWith

/-- Errors that tell of the file or of what is stored in it. -/
def Error.OfFile : Error → Prop
  | pageNotFound _ | writeFailed _ _ | deleteFailed _ _ | badPageSize _ _ | corruptedPage _ _
  | io _ => True
  | _ => False

/-- Errors of a write: those of a file, and the fault if no page can be entered any more. -/
def Error.OfWrite : Error → Prop
  | fault .counterOverflow => True
  | e => e.OfFile

/-- Errors that tell that a stored page is unusable. -/
def Error.CorruptionOf (page : PageId) (e : Error) : Prop :=
  ∃ reason, e = .corruptedPage page reason

/-- Errors of a page in memory: what it refuses, and what should not happen on it. -/
def Error.OfPage : Error → Prop
  | recordTooSmall _ _ | recordTooLarge _ _ | noRoomInPage _ _ | invalidRecordId _ | recordFreed _
  | recordNotFound _ | violation _ | fault _ => True
  | _ => False

/-- Errors of a file, and those that say what a pool does not do for its user. -/
def Error.OfPool : Error → Prop
  | pageNotInPool _ | pagePinned _ | pageNotPinned _ | poolExhausted => True
  | e => e.OfWrite

theorem Error.OfFile.ofWrite {e : Error} (h : e.OfFile) : e.OfWrite := by
  unfold OfFile at h
  split at h <;> first | exact trivial | exact h.elim

theorem Error.OfWrite.ofPool {e : Error} (h : e.OfWrite) : e.OfPool := by
  cases e <;> first | exact trivial | exact h

/-! ## Association lists -/

/-- What is found once the entries with one key are taken out. -/
theorem lookup_filter_ne {κ : Type} [BEq κ] [LawfulBEq κ] [DecidableEq κ] (l : List (κ × β))
    (i j : κ) :
    (l.filter fun e ↦ e.1 != i).lookup j = if j = i then none else l.lookup j := by
  induction l with
  | nil =>
    rw [List.filter_nil, List.lookup_nil]
    split <;> rfl
  | cons e l ih =>
    obtain ⟨k, b⟩ := e
    rw [List.filter_cons]
    by_cases hk : k = i
    · subst hk
      rw [if_neg (by simp), ih]
      by_cases hj : j = k
      · rw [if_pos hj, if_pos hj]
      · rw [if_neg hj, if_neg hj, List.lookup_cons, beq_eq_false_iff_ne.2 hj]
    · rw [if_pos (by simpa using hk), List.lookup_cons, List.lookup_cons]
      by_cases hj : j = k
      · subst hj
        rw [beq_self_eq_true, if_neg hk]
      · rw [beq_eq_false_iff_ne.2 hj]
        exact ih

/-- Nothing is found that is not in the list, and everything that is, if no key is there twice. -/
theorem mem_iff_lookup {κ : Type} [BEq κ] [LawfulBEq κ] {l : List (κ × β)}
    (h : (l.map (·.1)).Nodup) {i : κ} {b : β} : (i, b) ∈ l ↔ l.lookup i = some b := by
  rw [List.lookup_eq_some_iff]
  constructor
  · intro hmem
    obtain ⟨xs, ys, rfl⟩ := List.append_of_mem hmem
    refine ⟨xs, ys, rfl, fun e he ↦ bne_iff_ne.2 fun heq ↦ ?_⟩
    rw [List.map_append, List.map_cons, List.nodup_middle, List.nodup_cons, List.mem_append] at h
    exact h.1 (.inl (List.mem_map.2 ⟨e, he, heq.symm⟩))
  · rintro ⟨xs, ys, rfl, -⟩
    exact List.mem_append_right _ List.mem_cons_self

end PagedStorage
