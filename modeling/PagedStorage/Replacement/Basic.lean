/-!
# Replacement policies

A policy decides which frame of a pool is given up when a frame is needed. The pool tells it
which frames may be given up at all: `unpin` offers a frame, `pin` takes the offer back, and
`evict` asks for one of the frames on offer.

A policy holds no laws here. The pool checks what it is told, so even a policy that answers nonsense
does no harm to the pages. What it can do is to leave the pool without a frame, and for the
statements that a frame is found a law is asked for where it is needed.
-/

namespace PagedStorage

class Replacer (ρ : Type) where
  /-- The frame to give up, if there is one. -/
  evict : ρ → Option Nat × ρ
  /-- A frame is in use from now on. -/
  pin : ρ → Nat → ρ
  /-- A frame is out of use from now on. -/
  unpin : ρ → Nat → ρ
  /-- The number of frames on offer. -/
  size : ρ → Nat

end PagedStorage
