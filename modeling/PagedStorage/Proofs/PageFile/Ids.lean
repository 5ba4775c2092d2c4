import PagedStorage.Proofs.PageFile.Stored

/-!
# Ids in ascending order

A counter is meant to give out each id once. What it promises for this is more: the ids ascend, and
they stay above all ids that it was told to skip, `IdCounter.Ascends`.

## The largest id

There are finitely many ids, and nothing can be given out above the largest one. A counter that has
given out this id starts again at 0, and one that was told to skip it stops there and gives it out
once more, as it cannot refuse. This is all that can go wrong: every call that is not about the
largest id leaves a counter above its id (`IdCounter.step_of_lt`), so the promise is kept up to the
first allocation after the largest id, and is broken by it (`IdCounter.ascends_iff`).

A counter that was told to skip the largest id and is asked for an id after that stands at the end,
`IdCounter.not_ascends_skipLast`.
-/

namespace PagedStorage

inductive IdCall where
  | allocate
  | advancePast (id : PageId)

/-- An id that was given out or skipped. -/
structure IdEvent where
  id : PageId
  given : Bool
deriving DecidableEq, Repr

namespace IdCounter

variable {c : IdCounter} {k : IdCall} {ks : List IdCall} {e : IdEvent}

def call (c : IdCounter) : IdCall → IdEvent × IdCounter
  | .allocate => (⟨c.allocate.1, true⟩, c.allocate.2)
  | .advancePast id => (⟨id, false⟩, c.advancePast id)

/-- What is seen of calls made one after the other. -/
def events (c : IdCounter) : List IdCall → List IdEvent
  | [] => []
  | k :: rest => (c.call k).1 :: (c.call k).2.events rest

/-- Each id that is given out is larger than all that were given out or skipped before. -/
def Ascends (es : List IdEvent) : Prop := es.Pairwise fun e later ↦ later.given → e.id < later.id

/-- No id is given out once the largest one was given out or skipped. -/
def StopsAtLast (es : List IdEvent) : Prop :=
  es.Pairwise fun e later ↦ later.given → e.id.toNat + 1 < UInt32.size

instance (es : List IdEvent) : Decidable (Ascends es) :=
  inferInstanceAs (Decidable (es.Pairwise fun e later ↦ later.given → e.id < later.id))

/-- A call that is not about the largest id takes the counter forward, past its id. -/
theorem step_of_lt (h : (c.call k).1.id.toNat + 1 < UInt32.size) :
    c.next ≤ (c.call k).2.next ∧ (c.call k).1.id < (c.call k).2.next := by
  rw [UInt32.le_iff_toNat_le, UInt32.lt_iff_toNat_lt]
  cases k with
  | allocate =>
    have hnext : (c.call .allocate).2.next.toNat = c.next.toNat + 1 := toNat_next_allocate h
    have hid : (c.call .allocate).1.id = c.next := rfl
    rw [hnext, hid]
    omega
  | advancePast id =>
    have hid : (c.call (.advancePast id)).1.id = id := rfl
    rw [hid] at h ⊢
    refine ⟨c.next_le_next_advancePast id, ?_⟩
    have hcovers := c.covers_advancePast id
    rw [Covers] at hcovers
    change id.toNat < (c.advancePast id).next.toNat
    omega

private theorem id_of_given (h : (c.call k).1.given) : (c.call k).1.id = c.next := by
  cases k with
  | allocate => rfl
  | advancePast id => cases h

private theorem next_le_of_given (h : StopsAtLast (c.events ks)) (he : e ∈ c.events ks)
    (hgiven : e.given) : c.next ≤ e.id := by
  induction ks generalizing c with
  | nil => cases he
  | cons k rest ih =>
    obtain ⟨hfirst, hrest⟩ := List.pairwise_cons.1 h
    rcases List.mem_cons.1 he with rfl | he
    · exact UInt32.le_of_eq (id_of_given hgiven).symm
    · exact UInt32.le_trans (step_of_lt (hfirst e he hgiven)).1 (ih hrest he)

/-- From any start and with any calls, the ids that are given out ascend exactly as long as none is
given out after the largest id. -/
theorem ascends_iff (c : IdCounter) (ks : List IdCall) :
    Ascends (c.events ks) ↔ StopsAtLast (c.events ks) := by
  constructor
  · intro h
    refine h.imp fun {e later} hlt hgiven ↦ ?_
    have hlater := later.id.toNat_lt
    have hlt := UInt32.lt_iff_toNat_lt.1 (hlt hgiven)
    rw [UInt32.size]
    omega
  · intro h
    induction ks generalizing c with
    | nil => exact List.Pairwise.nil
    | cons k rest ih =>
      obtain ⟨hfirst, hrest⟩ := List.pairwise_cons.1 h
      refine List.pairwise_cons.2 ⟨fun later hlater hgiven ↦ ?_, ih _ hrest⟩
      exact UInt32.lt_of_lt_of_le (step_of_lt (hfirst later hlater hgiven)).2
        (next_le_of_given hrest hlater hgiven)

/-- The largest id is skipped, and given out all the same. -/
theorem not_ascends_skipLast : ¬Ascends (events {} [.advancePast 4294967295, .allocate]) := by
  decide

end IdCounter

end PagedStorage
