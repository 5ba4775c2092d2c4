import PagedStorage.Pool.Basic

/-!
# Using a pool

A user asks for a page and gets it pinned: as long as it is pinned it stays in its frame. When
the user is done, the page is unpinned, and the user says whether the page was changed. A page
without pins may be given up when its frame is needed; its changes are written at that time, or
before, when they are flushed.

An operation that fails leaves every pin as it was. It leaves every page as it was as well, but
for a page that could not be deleted from the file: it has left its frame by then, with the
changes that were not written.
-/

namespace PagedStorage.Pool

variable {ρ : Type} [Replacer ρ]

/-! ## Pinning -/

/-- Pins a page, reading it from the file if it is in no frame. -/
def fetch (pool : Pool ρ) (id : PageId) : Except Error Handle × Pool ρ :=
  match pool.lookup id with
  | .busy => (.error (.fault .waitsForever), pool)
  | .hit f =>
    match pool.addPin f with
    | .error e => (.error e, pool)
    | .ok pool => (.ok { frame := f, copy := (pool.frame f).copy }, pool.pinFrame f)
  | .miss => pool.install id false (·.readPage id)

/-- Pins a new page with an id of its own. It counts as changed until it is written. -/
def newPage (pool : Pool ρ) : Except Error (PageId × Handle) × Pool ρ :=
  -- The id is drawn before a frame is looked for, so a failure uses it up.
  match pool.file.allocate with
  | (page, file) =>
    match { pool with file := file }.install page.id true fun file ↦ (.ok page, file) with
    | (.ok handle, pool) => (.ok (page.id, handle), pool)
    | (.error e, pool) => (.error e, pool)

/-- Takes one pin off a page and notes whether its user changed it. -/
def unpin (pool : Pool ρ) (id : PageId) (dirty : Bool) : Except Error Unit × Pool ρ :=
  match pool.residentFrame? id with
  | none => (.error (.pageNotInPool id), pool)
  | some f =>
    let pins := (pool.frame f).pins
    if pins = 0 then (.error (.pageNotPinned id), pool)
    else
      let pool := pool.modifyFrame f fun frame ↦
        { frame with pins := frame.pins - 1, dirty := frame.dirty || dirty }
      (.ok (), if pins = 1 then pool.unpinFrame f else pool)

/-! ## Writing back -/

/-- Makes a frame count as in use while its page is written. -/
def beginFlush (pool : Pool ρ) (f : Nat) : Except Error (Pool ρ) := do
  let pool ← pool.addPin f
  .ok ((pool.modifyFrame f fun frame ↦ { frame with dirty := false }).pinFrame f)

/-- Gives up a frame whose page was written, or was not. -/
def endFlush (pool : Pool ρ) (f : Nat) (failed : Bool) : Pool ρ :=
  let pool := pool.modifyFrame f fun frame ↦
    { frame with pins := frame.pins - 1, dirty := frame.dirty || failed }
  if (pool.frame f).pins = 0 then pool.unpinFrame f else pool

/-- Writes a page to the file, changed or not. The page stays in its frame. -/
def flush (pool : Pool ρ) (id : PageId) : Except Error Unit × Pool ρ :=
  match pool.residentFrame? id with
  | none => (.error (.pageNotInPool id), pool)
  | some f =>
    match pool.beginFlush f with
    | .error e => (.error e, pool)
    | .ok pool =>
      match pool.writeBack (pool.frame f).page with
      | (result, pool) => (result, pool.endFlush f (!result.toBool))

/-- Flushes pages in order, until one fails. Pages that are in no frame need no flushing. -/
def flushEach (pool : Pool ρ) : List PageId → Except Error Unit × Pool ρ
  | [] => (.ok (), pool)
  | id :: rest =>
    match pool.flush id with
    | (.ok (), pool) => pool.flushEach rest
    | (.error (.pageNotInPool _), pool) => pool.flushEach rest
    | (.error e, pool) => (.error e, pool)

/-- Writes all changed pages and syncs the file. -/
def flushAll (pool : Pool ρ) : Except Error Unit × Pool ρ :=
  match pool.flushEach pool.dirtyPages with
  | (.error e, pool) => (.error e, pool)
  | (.ok (), pool) =>
    match pool.file.sync with
    | (result, file) => (result, { pool with file := file })

/-! ## Deleting -/

/-- Takes a page that nobody uses out of its frame, and with it the changes that were not
written. -/
def drop (pool : Pool ρ) (id : PageId) : Except Error Unit × Pool ρ :=
  match pool.table.find? id with
  | none => (.ok (), pool)
  | some f =>
    if 0 < (pool.frame f).pins then (.error (.pagePinned id), pool)
    else
      let pool := { pool with table := pool.table.erase id }
      (.ok (), (pool.pinFrame f).releaseFrame f)

/-- Makes a page empty, in the pool and in the file. A page in use is not deleted. -/
def delete (pool : Pool ρ) (id : PageId) : Except Error Unit × Pool ρ :=
  if pool.lookup id = .busy then (.error (.fault .waitsForever), pool)
  else
    match pool.drop id with
    | (.error e, pool) => (.error e, pool)
    | (.ok (), pool) =>
      let pool := { pool with inFlight := id :: pool.inFlight }
      match pool.file.deletePage id with
      | (result, file) => (result, { pool with file := file }.land id)

end PagedStorage.Pool
