import PagedStorage.Error
import PagedStorage.Replacement.Kind

/-!
# Pool configurations

How many frames a pool has and which policy it uses. A configuration can be read from the fields
of a document, each of which may be missing; fields of other names are ignored, and a field of
the right name must hold exactly the right kind of value.
-/

namespace PagedStorage

structure PoolConfig where
  frames : Nat := 64
  replacer : ReplacerKind := .lru
deriving DecidableEq, Repr, Inhabited

/-- A value in a document, as far as a configuration tells values apart. -/
inductive ConfigValue where
  | integer (n : Int)
  | text (s : String)
  | other
deriving DecidableEq, Repr, Inhabited

namespace PoolConfig

/-- A pool needs a frame. -/
def validate (c : PoolConfig) : Except Error Unit :=
  if c.frames = 0 then .error (.violation .poolWithoutFrames) else .ok ()

/-- A number of frames: any integer from 0 that fits 64 bits. -/
def framesOf? : ConfigValue → Option Nat
  | .integer n => if 0 ≤ n ∧ n < UInt64.size then some n.toNat else none
  | _ => none

/-- A policy, by its exact name. -/
def replacerOf? : ConfigValue → Option ReplacerKind
  | .text s =>
    if s = ReplacerKind.lru.name then some .lru
    else if s = ReplacerKind.clock.name then some .clock
    else none
  | _ => none

/-- A field that may be missing, but if it is there must be readable. -/
def field? {α : Type} (fields : List (String × ConfigValue)) (name : String) (missing : α)
    (read : ConfigValue → Option α) : Option α :=
  match fields.lookup name with
  | none => some missing
  | some value => read value

/-- The configuration in the fields of a document. -/
def ofFields? (fields : List (String × ConfigValue)) : Option PoolConfig := do
  let standard : PoolConfig := {}
  let frames ← field? fields "pool_size" standard.frames framesOf?
  let replacer ← field? fields "replacer" standard.replacer replacerOf?
  some { frames := frames, replacer := replacer }

end PoolConfig

end PagedStorage
