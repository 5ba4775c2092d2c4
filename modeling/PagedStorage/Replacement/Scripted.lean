import PagedStorage.Replacement.Basic

/-!
# A fixed order

A policy that gives up frames in an order fixed beforehand and takes no notice of what it is
told. It is the plainest policy that may offer frames in use, and so puts a pool to the test.
-/

namespace PagedStorage

structure ScriptedReplacer where
  /-- The frames still to be given up. -/
  frames : List Nat
deriving DecidableEq, Repr

namespace ScriptedReplacer

def evict (r : ScriptedReplacer) : Option Nat × ScriptedReplacer :=
  (r.frames.head?, ⟨r.frames.tail⟩)

instance : Replacer ScriptedReplacer where
  evict := evict
  pin r _ := r
  unpin r _ := r
  size r := r.frames.length

end ScriptedReplacer

end PagedStorage
