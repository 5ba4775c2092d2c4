import PagedStorage.PageFile.Basic
import PagedStorage.Pool.Config
import PagedStorage.Pool.Frame

/-!
# Buffer pools

A pool keeps some pages of a file in memory, one per frame. Its state is the frames, the table of
the pages in them, the queue of free frames, the policy that chooses victims, and the ids of the
pages that are on their way out. This file holds the state, its views, and the steps in which
frames change hands; the operations for users of the pool are in `Pool.Access`.

## Giving up a page

A page that has to leave its frame is detached first: it is out of the table and in flight while
its changes are written. If they cannot be written, the page goes back to where it was, so a
failing medium never costs a change.

A frame for another page is a free one, if there is any, and otherwise that of the victim which the
policy names. The pool does not trust the policy. A frame that is named but has no page, or one that
is in use, is a broken promise and is answered as such, and no page leaves its frame.

## The state is a value

Every operation gives back the pool along with its result, also when it fails. Each step changes
one frame at most, so most of what is said of an operation is about the one frame that it touches.
-/

namespace PagedStorage

structure Pool (ρ : Type) where
  frames : Array Frame
  table : PageTable := []
  /-- The free frames, the one to be used next in front. -/
  freeFrames : List Nat
  replacer : ρ
  /-- Pages on their way to the file that are in no frame of their own. -/
  inFlight : List PageId := []
  file : PageFile
  /-- The number of copies made so far. -/
  copies : Nat := 0
  /-- Copies that left their frame while somebody held a handle on them. -/
  retired : List (Handle × Page) := []

/-- A page that has to leave its frame. -/
structure Victim where
  page : PageId
  dirty : Bool
deriving DecidableEq, Repr

/-- What the table says about a page that is asked for. -/
inductive Lookup where
  | hit (frame : Nat)
  /-- The page is being moved, and will be for as long as nobody else acts. -/
  | busy
  | miss
deriving DecidableEq, Repr

namespace Pool

variable {ρ : Type}

/-- A pool over a file, with all frames free. -/
def ofFile (file : PageFile) (replacer : ρ) (frames : Nat) : Pool ρ where
  frames := .replicate frames {}
  freeFrames := List.range frames
  replacer := replacer
  file := file

/-- The pool that a configuration asks for. -/
def ofConfig (file : PageFile) (config : PoolConfig) : Except Error (Pool Policy) := do
  config.validate
  .ok (ofFile file (.ofKind config.frames config.replacer) config.frames)

/-! ## Views -/

def capacity (pool : Pool ρ) : Nat := pool.frames.size

/-- A frame by its number; a number out of range names a free frame. -/
def frame (pool : Pool ρ) (f : Nat) : Frame := pool.frames.getD f {}

def freeFrameCount (pool : Pool ρ) : Nat := pool.freeFrames.length

/-- The number of frames that the policy may give up. -/
def evictableCount [Replacer ρ] (pool : Pool ρ) : Nat := Replacer.size pool.replacer

/-- The frame that holds a page. -/
def residentFrame? (pool : Pool ρ) (id : PageId) : Option Nat :=
  (pool.table.find? id).filter fun f ↦ (pool.frame f).isResident

def pinCount? (pool : Pool ρ) (id : PageId) : Option Nat :=
  (pool.residentFrame? id).map fun f ↦ (pool.frame f).pins.toNat

def isDirty? (pool : Pool ρ) (id : PageId) : Option Bool :=
  (pool.residentFrame? id).map fun f ↦ (pool.frame f).dirty

/-- The pages in the frames, in ascending order. -/
def residentPages (pool : Pool ρ) : List PageId :=
  ((pool.frames.toList.filter (·.isResident)).filterMap (·.pageId)).mergeSort
    fun a b ↦ decide (a ≤ b)

/-- The pages in the frames that were changed since they were last written, in frame order. -/
def dirtyPages (pool : Pool ρ) : List PageId :=
  (pool.frames.toList.filter fun f ↦ f.isResident && f.dirty).filterMap (·.pageId)

def lookup (pool : Pool ρ) (id : PageId) : Lookup :=
  if id ∈ pool.inFlight then .busy
  else
    match pool.table.find? id with
    | none => .miss
    | some f => if (pool.frame f).status = .loading then .busy else .hit f

/-- One line for those who look for a fault. -/
def details (pool : Pool ρ) : String :=
  "BufferPoolManager \x7b pool_size: " ++ toString pool.capacity ++ ", resident: " ++
    toString pool.residentPages.length ++ " \x7d"

/-! ## Pages behind handles -/

/-- The copy that a handle refers to. -/
def page? (pool : Pool ρ) (h : Handle) : Option Page :=
  if (pool.frame h.frame).copy = h.copy then some (pool.frame h.frame).page
  else pool.retired.lookup h

/-- The copy that a handle refers to, which is there for every handle the pool gave out. -/
def page (pool : Pool ρ) (h : Handle) : Page := (pool.page? h).getD (.fresh 0)

def modifyFrame (pool : Pool ρ) (f : Nat) (change : Frame → Frame) : Pool ρ :=
  { pool with frames := pool.frames.modify f change }

/-- Changes the copy that a handle refers to. Whether the frame counts as dirty is told by
whoever unpins it. -/
def setPage (pool : Pool ρ) (h : Handle) (page : Page) : Pool ρ :=
  if (pool.frame h.frame).copy = h.copy then
    pool.modifyFrame h.frame fun f ↦ { f with page := page }
  else
    { pool with retired := pool.retired.map fun (k, old) ↦ (k, if k = h then page else old) }

/-- Keeps the copy that a handle refers to within reach of the handle, also once it has left its
frame. Without this a handle is of use only while its page is pinned. -/
def lend (pool : Pool ρ) (h : Handle) : Pool ρ :=
  if (pool.frame h.frame).copy = h.copy then
    pool.modifyFrame h.frame fun f ↦ { f with lent := true }
  else pool

/-- Counts one more user of the page in a frame. -/
def addPin (pool : Pool ρ) (f : Nat) : Except Error (Pool ρ) :=
  if (pool.frame f).isFull then .error (.fault .counterOverflow)
  else .ok (pool.modifyFrame f fun frame ↦ { frame with pins := frame.pins + 1 })

/-! ## Frames changing hands -/

variable [Replacer ρ]

def pinFrame (pool : Pool ρ) (f : Nat) : Pool ρ :=
  { pool with replacer := Replacer.pin pool.replacer f }

def unpinFrame (pool : Pool ρ) (f : Nat) : Pool ρ :=
  { pool with replacer := Replacer.unpin pool.replacer f }

/-- Takes a frame from the queue of free frames, or detaches a victim from its page. The choice of
the policy is checked: only a frame with a page that nobody uses may be taken. -/
def acquireFrame (pool : Pool ρ) : Except Error (Nat × Option Victim) × Pool ρ :=
  match pool.freeFrames with
  | f :: rest => (.ok (f, none), { pool with freeFrames := rest })
  | [] =>
    match Replacer.evict pool.replacer with
    | (none, replacer) => (.error .poolExhausted, { pool with replacer := replacer })
    | (some f, replacer) =>
      let pool := { pool with replacer := replacer }
      let frame := pool.frame f
      match frame.pageId with
      | some id =>
        if frame.isIdle then
          (.ok (f, some { page := id, dirty := frame.dirty }),
            { pool with table := pool.table.erase id, inFlight := id :: pool.inFlight })
        else (.error (.violation (.unusableVictim f)), pool)
      | none => (.error (.violation (.unusableVictim f)), pool)

/-- A page is no longer on its way out. -/
def land (pool : Pool ρ) (id : PageId) : Pool ρ :=
  { pool with inFlight := pool.inFlight.filter (· != id) }

/-- Puts a victim back into its frame, which still holds its copy. -/
def restoreVictim (pool : Pool ρ) (f : Nat) (victim : Victim) : Pool ρ :=
  let pool := pool.land victim.page
  let pool := { pool with table := pool.table.insert victim.page f }
  let pool := pool.modifyFrame f fun frame ↦
    { frame with status := .resident, pageId := some victim.page, pins := 0, dirty := true }
  pool.unpinFrame f

/-- Makes a frame free. -/
def releaseFrame (pool : Pool ρ) (f : Nat) : Pool ρ :=
  let pool := pool.modifyFrame f Frame.clear
  { pool with freeFrames := pool.freeFrames ++ [f] }

/-- Writes a page to the file. -/
def writeBack (pool : Pool ρ) (page : Page) : Except Error Unit × Pool ρ :=
  match pool.file.writePage page with
  | (result, file) => (result, { pool with file := file })

/-- Sets a frame aside for a page that is about to be loaded. -/
def reserveFrame (pool : Pool ρ) (f : Nat) (id : PageId) : Pool ρ :=
  let pool := { pool with table := pool.table.insert id f }
  pool.modifyFrame f (·.reserve id)

/-- Sees off the victim in a frame that is set aside for page `id`. If its changes cannot be
written, the victim gets its frame back. -/
def dismiss (pool : Pool ρ) (f : Nat) (id : PageId) : Option Victim → Except Error Unit × Pool ρ
  | none => (.ok (), pool)
  | some victim =>
    if victim.dirty then
      match pool.writeBack (pool.frame f).page with
      | (.ok (), pool) => (.ok (), pool.land victim.page)
      | (.error e, pool) =>
        let pool := { pool with table := pool.table.erase id }
        (.error e, pool.restoreVictim f victim)
    else (.ok (), pool.land victim.page)

/-- Puts a new copy into the frame that was set aside for it. A copy on which somebody holds a
handle is kept for that handle. -/
def settleFrame (pool : Pool ρ) (f : Nat) (page : Page) (dirty : Bool) : Handle × Pool ρ :=
  let old := pool.frame f
  let handle : Handle := { frame := f, copy := pool.copies + 1 }
  let pool := { pool with
    copies := handle.copy
    retired :=
      if old.lent then ({ frame := f, copy := old.copy }, old.page) :: pool.retired
      else pool.retired }
  let pool := pool.modifyFrame f fun frame ↦ { frame with
    status := .resident, pins := 1, dirty := dirty, page := page, copy := handle.copy
    lent := false }
  (handle, pool.pinFrame f)

/-- Finds a frame for page `id` and fills it with what `load` brings. -/
def install (pool : Pool ρ) (id : PageId) (dirty : Bool)
    (load : PageFile → Except Error Page × PageFile) : Except Error Handle × Pool ρ :=
  match pool.acquireFrame with
  | (.error e, pool) => (.error e, pool)
  | (.ok (f, victim), pool) =>
    match (pool.reserveFrame f id).dismiss f id victim with
    | (.error e, pool) => (.error e, pool)
    | (.ok (), pool) =>
      match load pool.file with
      | (.error e, file) =>
        let pool := { pool with file := file, table := pool.table.erase id }
        (.error e, pool.releaseFrame f)
      | (.ok page, file) =>
        match { pool with file := file }.settleFrame f page dirty with
        | (handle, pool) => (.ok handle, pool)

end Pool

end PagedStorage
