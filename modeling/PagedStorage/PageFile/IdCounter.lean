import PagedStorage.Layout

/-!
# Page ids

Ids of new pages come from a counter. An id that was given out is not taken back, so an id that
is never written leaves a gap in the file. Past the largest id the counter starts again at 0.

An id can be skipped as well, when a page is written that nobody asked an id for. Skipping stops at
the largest id instead of starting again.
-/

namespace PagedStorage

/-- The source of ids for new pages. -/
structure IdCounter where
  /-- The id that is given out next. -/
  next : PageId := 0
deriving DecidableEq, Repr, Inhabited

namespace IdCounter

/-- Gives out an id. -/
def allocate (c : IdCounter) : PageId × IdCounter := (c.next, ⟨c.next + 1⟩)

/-- Skips all ids up to `id`, if they were not given out yet. The largest id cannot be skipped. -/
def advancePast (c : IdCounter) (id : PageId) : IdCounter :=
  let after := if id.toNat + 1 < UInt32.size then id + 1 else id
  ⟨if c.next < after then after else c.next⟩

end IdCounter

end PagedStorage
