import PagedStorage.Error
import PagedStorage.Store.Contents

/-!
# Byte stores

A store is a growing sequence of bytes that is read and written at any position. There are two
media, memory and a file, which differ where a request does not fit the contents: memory names the
range it could not read, a file only says that it ended, and a request for no bytes is fine with a
file wherever a file could have bytes.

## Limits

Memory has no limit. A file may have one, which comes from where it lies and not from the program,
so it is a parameter of the medium. A write across the limit fails after writing what still fits:
this is how a call that fails can change bytes. Where there is no limit, every page id has a place
in the file.

## Refusals

A store may fail. For each kind of call a `Gate` holds a schedule that says which of the calls to
come are refused, and counts the calls made. A refused call leaves the contents as they are. A
store that refuses nothing is one whose schedules are constantly `false`, so every statement about
a failing medium is a statement about all schedules.
-/

namespace PagedStorage

/-! ## Schedules of failure -/

/-- Which calls of one kind are refused, by their number, and how many were made. -/
structure Gate where
  refuses : Nat → Bool := fun _ ↦ false
  calls : Nat := 0

namespace Gate

instance : Inhabited Gate := ⟨{}⟩

/-- A gate that lets `n` more calls pass and refuses all later ones. -/
def closingAfter (n : Nat) : Gate := { refuses := fun i ↦ decide (n ≤ i) }

/-- Whether the next call passes, and the gate after it. -/
def attempt (g : Gate) : Bool × Gate := (!g.refuses g.calls, { g with calls := g.calls + 1 })

end Gate

/-! ## Stores -/

inductive Medium where
  | memory
  /-- A file, with the most bytes that it can have if there is such a limit. -/
  | file (limit? : Option Nat)
deriving DecidableEq, Repr, Inhabited

structure Store where
  medium : Medium := .memory
  contents : Contents := {}
  writes : Gate := {}
  reads : Gate := {}
  sizes : Gate := {}
  syncs : Gate := {}
deriving Inhabited

namespace Store

/-- A store in memory with given contents. -/
def inMemory (contents : Contents) : Store := { contents := contents }

/-- An open file with given contents. -/
def onFile (limit? : Option Nat) (contents : Contents) : Store :=
  { medium := .file limit?, contents := contents }

/-- The store with another schedule for one kind of call. -/
def setGate (s : Store) : StoreCall → Gate → Store
  | .write, g => { s with writes := g }
  | .read, g => { s with reads := g }
  | .size, g => { s with sizes := g }
  | .sync, g => { s with syncs := g }

/-- The most bytes that the medium can hold, if there is a limit. -/
def limit? (s : Store) : Option Nat :=
  match s.medium with
  | .memory => none
  | .file limit? => limit?

/-- Whether a size or a position lies beyond what the medium can hold. -/
def isBeyond (s : Store) (position : Nat) : Bool :=
  s.limit?.any fun limit ↦ decide (limit < position)

/-- Whether all of a write was done, and the contents after it. A file takes no notice of a write
of no bytes, and leaves out what would lie beyond its limit. -/
def written (s : Store) (offset : Nat) (block : List UInt8) : Except IoFault Unit × Contents :=
  match s.medium with
  | .memory => (.ok (), s.contents.write offset block)
  | .file limit? =>
    if s.isBeyond offset then (.error .badPosition, s.contents)
    else
      let fitting := limit?.elim block fun limit ↦ block.take (limit - offset)
      let contents := if fitting = [] then s.contents else s.contents.write offset fitting
      (if fitting.length = block.length then .ok () else .error .fileTooLarge, contents)

/-- The `len` bytes at `offset`, or why there are none. -/
def stretch (s : Store) (offset len : Nat) : Except IoFault (Array UInt8) :=
  if s.isBeyond offset then .error .badPosition
  else if offset + len ≤ s.contents.size then .ok (s.contents.read offset len)
  else
    match s.medium with
    | .memory => .error (.pastEnd offset (offset + len) s.contents.size)
    | .file _ => if len = 0 then .ok #[] else .error .endOfFile

/-! ## Calls that may be refused -/

/-- Reads `len` bytes at `offset`. -/
def read (s : Store) (offset len : Nat) : Except IoFault (Array UInt8) × Store :=
  match s.reads.attempt with
  | (true, gate) => (s.stretch offset len, { s with reads := gate })
  | (false, gate) => (.error (.refused .read), { s with reads := gate })

/-- Writes `block` at `offset`, growing the store if it must. -/
def write (s : Store) (offset : Nat) (block : List UInt8) : Except IoFault Unit × Store :=
  match s.writes.attempt with
  | (true, gate) =>
    let (done, contents) := s.written offset block
    (done, { s with contents := contents, writes := gate })
  | (false, gate) => (.error (.refused .write), { s with writes := gate })

/-- The number of bytes in the store. -/
def size (s : Store) : Except IoFault Nat × Store :=
  match s.sizes.attempt with
  | (true, gate) => (.ok s.contents.size, { s with sizes := gate })
  | (false, gate) => (.error (.refused .size), { s with sizes := gate })

/-- Makes what was written last. Bytes are never lost here, so only the call can fail. -/
def sync (s : Store) : Except IoFault Unit × Store :=
  match s.syncs.attempt with
  | (true, gate) => (.ok (), { s with syncs := gate })
  | (false, gate) => (.error (.refused .sync), { s with syncs := gate })

/-- Cuts the store down, or grows it by zeros, to a size. -/
def truncate (s : Store) (size : Nat) : Except IoFault Unit × Store :=
  if s.medium ≠ .memory ∧ UInt64.size / 2 ≤ size then (.error .sizeOutOfRange, s)
  else if s.isBeyond size then (.error .fileTooLarge, s)
  else (.ok (), { s with contents := s.contents.resize size })

end Store

end PagedStorage
