import PagedStorage.Replacement.Clock
import PagedStorage.Replacement.Lru
import PagedStorage.Replacement.Scripted

/-!
# Policies by name

The policies that can be asked for by name, and a type for whichever of the known policies was
chosen. Names are compared without regard to the case of ASCII letters, and only of those.
-/

namespace PagedStorage

inductive ReplacerKind where
  | lru
  | clock
deriving DecidableEq, Repr, Inhabited

namespace ReplacerKind

def name : ReplacerKind → String
  | lru => "lru"
  | clock => "clock"

/-- A text with its ASCII capitals made small. -/
def asciiLower (text : String) : String := text.map Char.toLower

/-- The kind with a name, or the complaint that there is none. -/
def ofName (text : String) : Except String ReplacerKind :=
  let lower := asciiLower text
  if lower = lru.name then .ok lru
  else if lower = clock.name then .ok clock
  else .error ("unknown replacer '" ++ lower ++ "', expected lru or clock")

private theorem asciiLower_name (k : ReplacerKind) : asciiLower k.name = k.name := by
  cases k <;> decide +kernel

/-- A name is read back as the kind it belongs to. -/
theorem ofName_name (k : ReplacerKind) : ofName k.name = .ok k := by
  rw [ofName, asciiLower_name]
  cases k <;> simp [name]

end ReplacerKind

/-- One of the known policies. -/
inductive Policy where
  | lru (r : LruReplacer)
  | clock (r : ClockReplacer)
  | scripted (r : ScriptedReplacer)

namespace Policy

/-- The policy of a kind for a pool of `frames` frames. -/
def ofKind (frames : Nat) : ReplacerKind → Policy
  | .lru => .lru (.ofCapacity frames)
  | .clock => .clock (.ofFrames frames)

def evict : Policy → Option Nat × Policy
  | lru r => let (frame, r) := r.evict; (frame, lru r)
  | clock r => let (frame, r) := r.evict; (frame, clock r)
  | scripted r => let (frame, r) := r.evict; (frame, scripted r)

def pin : Policy → Nat → Policy
  | lru r, frame => lru (r.pin frame)
  | clock r, frame => clock (r.pin frame)
  | scripted r, frame => scripted (Replacer.pin r frame)

def unpin : Policy → Nat → Policy
  | lru r, frame => lru (r.unpin frame)
  | clock r, frame => clock (r.unpin frame)
  | scripted r, frame => scripted (Replacer.unpin r frame)

def size : Policy → Nat
  | lru r => r.size
  | clock r => r.size
  | scripted r => Replacer.size r

instance : Replacer Policy := ⟨evict, pin, unpin, size⟩

end Policy

end PagedStorage
