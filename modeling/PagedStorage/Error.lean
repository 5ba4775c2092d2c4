import PagedStorage.Layout

/-!
# Errors and their causes

Every failure is a value that says what was wrong, not how to word it: the numbers, the page, the
record or the inner cause. The wording is one function per type, `message`, and nothing else in
the library builds an error text.

The inner causes have types of their own. `IoFault` is a failure of the medium under a store,
`Corruption` is what makes a stored page unusable, `Violation` is a broken promise between two
parts of the library, and `Fault` is a step that has no sensible result at all. Violations and
faults are no answers to bad input; they are what the theorems about reachable states rule out.
-/

namespace PagedStorage

/-! ## Failures of the medium -/

/-- The calls that a store can be asked for. -/
inductive StoreCall where
  | write
  | read
  | size
  | sync
deriving DecidableEq, Repr, Inhabited

def StoreCall.name : StoreCall → String
  | write => "write"
  | read => "read"
  | size => "size"
  | sync => "sync"

inductive IoFault where
  /-- A read of `[start, stop)` in a block of `size` bytes. -/
  | pastEnd (start stop size : Nat)
  /-- A file ended before a read was complete. -/
  | endOfFile
  | notFound
  | isDirectory
  | alreadyExists
  | notADirectory
  /-- A path, or a name in it, has too many bytes. -/
  | nameTooLong
  /-- A path has a NUL character in it. -/
  | nulInPath
  /-- A position at which no file can have a byte. -/
  | badPosition
  /-- A file cannot become as large as this. -/
  | fileTooLarge
  /-- A size that no file position can express. -/
  | sizeOutOfRange
  /-- More bytes than memory can hold. -/
  | outOfMemory
  /-- The medium refused a call. -/
  | refused (call : StoreCall)
  /-- A failure known by its text alone. -/
  | described (text : String)
deriving DecidableEq, Repr, Inhabited

def IoFault.message : IoFault → String
  | pastEnd start stop size =>
    "read of [" ++ toString start ++ ", " ++ toString stop ++ ") past end " ++ toString size
  | endOfFile => "failed to fill whole buffer"
  | notFound => "No such file or directory (os error 2)"
  | isDirectory => "Is a directory (os error 21)"
  | alreadyExists => "File exists (os error 17)"
  | notADirectory => "Not a directory (os error 20)"
  | nameTooLong => "File name too long (os error 36)"
  | nulInPath => "file name contained an unexpected NUL byte"
  | badPosition => "Invalid argument (os error 22)"
  | fileTooLarge => "File too large (os error 27)"
  | sizeOutOfRange => "number too large to fit in target type"
  | outOfMemory => "out of memory"
  | refused call => "injected " ++ call.name ++ " failure"
  | described text => text

/-! ## Unusable pages -/

/-- What makes a page, or a chain of pages, unusable. -/
inductive Corruption where
  /-- The directory is longer than the block it is read from. -/
  | slotOutsidePage (index : Nat)
  | badStatus (index : Nat) (code : UInt16)
  | badFreeSpace (lower upper : UInt16) (slotCount : Nat)
  /-- A slot id that is too large or was seen before. -/
  | badSlotId (id : SlotId)
  | badBounds (id : SlotId) (start stop : Nat)
  | slotInFreeSpace (id : SlotId)
  | badFreeSlotCount (reported found : Nat)
  | recordsOverlap
  /-- The page found at one id says it is another. -/
  | foreignHeader (carried : PageId)
  | chainLoop (head : PageId)
  | described (text : String)
deriving DecidableEq, Repr, Inhabited

def Corruption.message : Corruption → String
  | slotOutsidePage index => "slot " ++ toString index ++ " lies outside the page"
  | badStatus index code => "slot " ++ toString index ++ " has status " ++ toString code
  | badFreeSpace lower upper slotCount =>
    "free space bounds [" ++ toString lower ++ ", " ++ toString upper ++ ") do not fit " ++
      toString slotCount ++ " slots"
  | badSlotId id => "slot id " ++ toString id ++ " is out of range or duplicated"
  | badBounds id start stop =>
    "slot " ++ toString id ++ " has bad bounds " ++ toString start ++ ".." ++ toString stop
  | slotInFreeSpace id => "slot " ++ toString id ++ " overlaps free space"
  | badFreeSlotCount reported found =>
    "header reports " ++ toString reported ++ " free slots, directory has " ++ toString found
  | recordsOverlap => "record ranges overlap"
  | foreignHeader carried => "header carries page id " ++ toString carried
  | chainLoop head => "overflow chain from page " ++ toString head ++ " loops"
  | described text => text

/-! ## Broken promises -/

/-- A promise between two parts of the library that did not hold. -/
inductive Violation where
  /-- The header counts free slots but the directory has none. -/
  | noFreeSlot (page : PageId) (count : UInt16)
  /-- Free pages are counted but none is indexed. -/
  | noFreePage (count : Nat)
  /-- The replacement policy offered a frame that may not be taken. -/
  | unusableVictim (frame : Nat)
  | poolWithoutFrames
  /-- An overflow record was stored on no page at all. -/
  | emptyChain
  | described (text : String)
deriving DecidableEq, Repr, Inhabited

def Violation.message : Violation → String
  | noFreeSlot page count =>
    "page " ++ toString page ++ " reports " ++ toString count ++ " free slots but none is free"
  | noFreePage count => toString count ++ " free pages counted but none found"
  | unusableVictim frame =>
    "replacer chose frame " ++ toString frame ++ " which is not an unpinned resident page"
  | poolWithoutFrames => "buffer pool needs at least one frame"
  | emptyChain => "overflow record produced no pages"
  | described text => text

/-- A step without a sensible result. -/
inductive Fault where
  /-- A stretch of a page that does not lie inside it. -/
  | outOfBounds
  /-- A counter at the end of its width. -/
  | counterOverflow
  /-- A page that another operation has claimed, and that nobody will release. -/
  | waitsForever
deriving DecidableEq, Repr, Inhabited

def Fault.message : Fault → String
  | outOfBounds => "range outside the page"
  | counterOverflow => "counter overflow"
  | waitsForever => "page is claimed by another operation"

/-! ## Errors -/

inductive Error where
  | recordTooSmall (size min : Nat)
  | recordTooLarge (size max : Nat)
  | noRoomInPage (required available : Nat)
  | invalidRecordId (id : RecordId)
  | recordFreed (id : RecordId)
  | recordNotFound (page : PageId)
  | pageNotFound (page : PageId)
  | notOverflowPage (page : PageId)
  | writeFailed (page : PageId) (cause : IoFault)
  | deleteFailed (page : PageId) (cause : IoFault)
  | pageNotInPool (page : PageId)
  | pagePinned (page : PageId)
  | pageNotPinned (page : PageId)
  | poolExhausted
  | badPageSize (expected actual : Nat)
  | corruptedPage (page : PageId) (reason : Corruption)
  | io (cause : IoFault)
  | violation (reason : Violation)
  | fault (reason : Fault)
deriving DecidableEq, Repr, Inhabited

namespace Error

def message : Error → String
  | recordTooSmall size min =>
    "Record too small: " ++ toString size ++ " bytes (min: " ++ toString min ++ ")"
  | recordTooLarge size max =>
    "Record too large: " ++ toString size ++ " bytes (max: " ++ toString max ++ ")"
  | noRoomInPage required available =>
    "No room in page: requires " ++ toString required ++ " bytes but only " ++
      toString available ++ " available"
  | invalidRecordId id => "Invalid record ID: " ++ id.text
  | recordFreed id => "Record " ++ id.text ++ " has been freed"
  | recordNotFound page => "Record not found in page " ++ toString page
  | pageNotFound page => "Page not found: " ++ toString page
  | notOverflowPage page => "Page " ++ toString page ++ " is not an overflow page"
  | writeFailed page cause => "Writing page " ++ toString page ++ " failed: " ++ cause.message
  | deleteFailed page cause => "Deleting page " ++ toString page ++ " failed: " ++ cause.message
  | pageNotInPool page => "Page " ++ toString page ++ " is not in the buffer pool"
  | pagePinned page => "Page " ++ toString page ++ " is pinned"
  | pageNotPinned page => "Page " ++ toString page ++ " is not pinned"
  | poolExhausted => "Buffer pool exhausted: every frame is pinned"
  | badPageSize expected actual =>
    "Bad page size: expected " ++ toString expected ++ " bytes, got " ++ toString actual
  | corruptedPage page reason => "Page " ++ toString page ++ " is corrupted: " ++ reason.message
  | io cause => "IO error: " ++ cause.message
  | violation reason => "Internal invariant violated: " ++ reason.message
  | fault reason => "Internal fault: " ++ reason.message

/-- Size and room errors, after which another page or another record may still do. -/
def isRecoverable : Error → Bool
  | recordTooSmall .. | recordTooLarge .. | noRoomInPage .. => true
  | _ => false

/-- Errors that no input alone should be able to cause. -/
def isInternal : Error → Bool
  | violation _ | fault _ => true
  | _ => false

/-- The failure of the medium that an error passes on, if there is one. -/
def ioCause? : Error → Option IoFault
  | writeFailed _ cause | deleteFailed _ cause | io cause => some cause
  | _ => none

end Error

end PagedStorage
