import PagedStorage.Replacement.Basic

/-!
# Sequences of calls

Whoever uses a policy sees which frames it gives up and how many it has on offer,
`Replacer.answers`. Two policies cannot be told apart as soon as some relation between them survives
every call and leaves nothing to be seen, `Replacer.Simulates`; the relation says what the one keeps
in place of what the other one keeps.

What every call keeps, sequences of calls keep (`Replacer.after_induct`). The calls may name any
frames, in any order: nothing is asked of whoever makes them.
-/

namespace PagedStorage

inductive ReplacerCall where
  | evict
  | pin (frame : Nat)
  | unpin (frame : Nat)

namespace Replacer

variable {ρ σ : Type} [Replacer ρ] [Replacer σ]

/-- A call, with the frame that it gives up. Only `evict` gives one up. -/
def call (r : ρ) : ReplacerCall → Option Nat × ρ
  | .evict => evict r
  | .pin frame => (none, pin r frame)
  | .unpin frame => (none, unpin r frame)

/-- The policy after calls made one after the other. -/
def after (r : ρ) (ks : List ReplacerCall) : ρ := ks.foldl (fun r k ↦ (call r k).2) r

/-- What is seen of calls made one after the other: the frame that each call gives up, and how many
frames are on offer after it. -/
def answers (r : ρ) : List ReplacerCall → List (Option Nat × Nat)
  | [] => []
  | k :: rest => ((call r k).1, size (call r k).2) :: answers (call r k).2 rest

/-- What every call keeps, sequences of calls keep. -/
theorem after_induct {P : ρ → Prop} (hcall : ∀ r k, P r → P (call r k).2) {r : ρ} (hr : P r)
    (ks : List ReplacerCall) : P (after r ks) := by
  induction ks generalizing r with
  | nil => exact hr
  | cons k rest ih => exact ih (hcall r k hr)

/-- Policies in this relation look the same, before and after every call. -/
structure Simulates (R : ρ → σ → Prop) : Prop where
  size_eq : ∀ {r s}, R r s → size r = size s
  call : ∀ {r s} (k : ReplacerCall), R r s →
    (call r k).1 = (call s k).1 ∧ R (call r k).2 (call s k).2

namespace Simulates

variable {R : ρ → σ → Prop} {r : ρ} {s : σ}

theorem answers_eq (h : Simulates R) (hrs : R r s) (ks : List ReplacerCall) :
    answers r ks = answers s ks := by
  induction ks generalizing r s with
  | nil => rfl
  | cons k rest ih =>
    obtain ⟨hanswer, hnext⟩ := h.call k hrs
    rw [answers, answers, hanswer, h.size_eq hnext, ih hnext]

theorem after (h : Simulates R) (hrs : R r s) (ks : List ReplacerCall) :
    R (after r ks) (Replacer.after s ks) := by
  induction ks generalizing r s with
  | nil => exact hrs
  | cons k rest ih => exact ih (h.call k hrs).2

end Simulates

end Replacer

end PagedStorage
