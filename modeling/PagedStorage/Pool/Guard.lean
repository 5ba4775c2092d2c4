import PagedStorage.Pool.Access

/-!
# Guards

A guard is a pinned page together with a note whether it was changed. Dropping the guard unpins
the page and passes the note on, so a user of guards cannot forget either. A guard whose page was
unpinned behind its back is dropped without complaint.
-/

namespace PagedStorage

structure Guard where
  page : PageId
  handle : Handle
  dirty : Bool := false
deriving DecidableEq, Repr, Inhabited

namespace Pool

variable {ρ : Type} [Replacer ρ]

/-- Pins a page under a guard. -/
def guard (pool : Pool ρ) (id : PageId) : Except Error Guard × Pool ρ :=
  match pool.fetch id with
  | (.ok handle, pool) => (.ok { page := id, handle := handle }, pool)
  | (.error e, pool) => (.error e, pool)

/-- Pins a new page under a guard, which counts as changed. -/
def guardNew (pool : Pool ρ) : Except Error Guard × Pool ρ :=
  match pool.newPage with
  | (.ok (id, handle), pool) => (.ok { page := id, handle := handle, dirty := true }, pool)
  | (.error e, pool) => (.error e, pool)

/-- Ends a guard. -/
def release (pool : Pool ρ) (g : Guard) : Pool ρ := (pool.unpin g.page g.dirty).2

/-- Ends a guard, if there is one. -/
def release? (pool : Pool ρ) : Option Guard → Pool ρ
  | some g => pool.release g
  | none => pool

end Pool

end PagedStorage
