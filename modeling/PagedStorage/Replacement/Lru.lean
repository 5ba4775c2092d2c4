import PagedStorage.LruCache
import PagedStorage.Replacement.Basic

/-!
# First out of use, first given up

The frames on offer are the keys of a cache, whose uses are the moments at which frames went out
of use. A frame that is on offer already keeps its place, and a frame offered while the cache is
full is not taken in, so the cache never drops a key by itself.
-/

namespace PagedStorage

structure LruReplacer where
  frames : LruCache Nat Unit

namespace LruReplacer

/-- A policy for at most `capacity` frames on offer. -/
def ofCapacity (capacity : Nat) : LruReplacer := ⟨{ capacity := capacity }⟩

def evict (r : LruReplacer) : Option Nat × LruReplacer :=
  match r.frames.evict with
  | (dropped, frames) => (dropped.map (·.1), ⟨frames⟩)

def pin (r : LruReplacer) (frame : Nat) : LruReplacer := ⟨(r.frames.remove frame).2⟩

def unpin (r : LruReplacer) (frame : Nat) : LruReplacer :=
  if !r.frames.contains frame && decide (r.frames.size < r.frames.capacity) then
    ⟨(r.frames.insert frame ()).2⟩
  else r

def size (r : LruReplacer) : Nat := r.frames.size

instance : Replacer LruReplacer := ⟨evict, pin, unpin, size⟩

end LruReplacer

end PagedStorage
