import PagedStorage.Replacement.Basic

/-!
# Second chance

The frames stand in a circle, and a hand points at one of them. A frame is a candidate while it
is on offer, and being offered also marks it as referenced. To find a frame to give up, the hand
moves round the circle: a referenced candidate loses its mark and is passed by, and the first
candidate without a mark is taken. After one round no candidate is marked, so two rounds always
suffice.
-/

namespace PagedStorage

structure ClockEntry where
  /-- The frame may be given up. -/
  candidate : Bool := false
  /-- The frame was offered since the hand last passed. -/
  referenced : Bool := false
deriving DecidableEq, Repr, Inhabited

structure ClockReplacer where
  entries : Array ClockEntry
  hand : Nat := 0
  /-- The number of candidates. -/
  candidates : Nat := 0
deriving DecidableEq, Repr

namespace ClockReplacer

/-- A circle of `frames` frames, none of them on offer. -/
def ofFrames (frames : Nat) : ClockReplacer := { entries := .replicate frames {} }

/-- Moves the hand by at most `steps` frames, to the first one that can be taken. -/
def sweep (c : ClockReplacer) : Nat → Option Nat × ClockReplacer
  | 0 => (none, c)
  | steps + 1 =>
    let frame := c.hand
    let c := { c with hand := (frame + 1) % c.entries.size }
    let entry := c.entries.getD frame {}
    if !entry.candidate then sweep c steps
    else if entry.referenced then
      sweep { c with entries := c.entries.setIfInBounds frame ⟨true, false⟩ } steps
    else
      (some frame, { c with
        entries := c.entries.setIfInBounds frame {}
        candidates := c.candidates - 1 })

def evict (c : ClockReplacer) : Option Nat × ClockReplacer :=
  if c.candidates = 0 then (none, c) else c.sweep (2 * c.entries.size)

def pin (c : ClockReplacer) (frame : Nat) : ClockReplacer :=
  match c.entries[frame]? with
  | some entry => { c with
      entries := c.entries.setIfInBounds frame {}
      candidates := if entry.candidate then c.candidates - 1 else c.candidates }
  | none => c

def unpin (c : ClockReplacer) (frame : Nat) : ClockReplacer :=
  match c.entries[frame]? with
  | some entry => { c with
      entries := c.entries.setIfInBounds frame ⟨true, true⟩
      candidates := if entry.candidate then c.candidates else c.candidates + 1 }
  | none => c

def size (c : ClockReplacer) : Nat := c.candidates

instance : Replacer ClockReplacer := ⟨evict, pin, unpin, size⟩

end ClockReplacer

end PagedStorage
