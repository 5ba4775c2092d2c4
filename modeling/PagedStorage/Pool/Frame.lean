import PagedStorage.Page.Basic

/-!
# Frames

A frame is a place in memory for one page. This file holds the frame itself, the handle by which
a caller refers to a page in a frame, and the table that says which page is in which frame.

A frame holds one *copy* of a page after another, and copies are numbered: a page that is loaded
again is another copy, even in the same frame. A handle names a frame and the number of a copy,
so it never refers to a page that came into the frame later.

## Users

The users of a page are counted in 32 bits. One user more than can be counted is a fault: the
program stops there, so the pool that comes with the fault is the one from before the call. The
numbers of copies belong to the model alone and have no bound.
-/

namespace PagedStorage

/-! ## Frames and handles -/

inductive FrameStatus where
  | free
  /-- Set aside for a page that is being read. -/
  | loading
  | resident
deriving DecidableEq, Repr, Inhabited

structure Frame where
  status : FrameStatus := .free
  /-- The page that the frame holds or is set aside for. -/
  pageId : Option PageId := none
  /-- How many users the page has. -/
  pins : UInt32 := 0
  /-- Whether the page was changed since it was last written. -/
  dirty : Bool := false
  page : Page := .fresh 0
  /-- The number of the copy in the frame, 0 before the first. -/
  copy : Nat := 0
  /-- Whether somebody holds a handle on the copy that may outlive its stay. -/
  lent : Bool := false

namespace Frame

instance : Inhabited Frame := ⟨{}⟩

def isResident (f : Frame) : Bool := f.status == .resident

/-- A frame that holds a page nobody uses. -/
def isIdle (f : Frame) : Bool := f.isResident && f.pins == 0

/-- A frame whose page has as many users as can be counted. -/
def isFull (f : Frame) : Bool := f.pins.toNat + 1 == UInt32.size

/-- The frame set aside for a page. The old page stays in place until the new one is there. -/
def reserve (f : Frame) (id : PageId) : Frame :=
  { f with status := .loading, pageId := some id, pins := 0, dirty := false }

/-- The frame without a page. -/
def clear (f : Frame) : Frame :=
  { f with status := .free, pageId := none, pins := 0, dirty := false }

end Frame

/-- One copy of a page in a frame. -/
structure Handle where
  frame : Nat
  copy : Nat
deriving DecidableEq, Repr, Inhabited

/-! ## The page table -/

/-- Which frame a page is in, as a list without repeated pages. -/
abbrev PageTable := List (PageId × Nat)

namespace PageTable

def find? (t : PageTable) (id : PageId) : Option Nat := t.lookup id

def erase (t : PageTable) (id : PageId) : PageTable := t.filter fun entry ↦ entry.1 != id

def insert (t : PageTable) (id : PageId) (frame : Nat) : PageTable := (id, frame) :: t.erase id

end PageTable

end PagedStorage
