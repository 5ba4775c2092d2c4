import PagedStorage.Bytes

/-!
# The layout of a page

A page is `pageSize` bytes: a header of `headerSize` bytes, then the slot directory growing
upward, then free space, then the records growing downward from the end of the page.

```text
0        24                   lower          upper                8192
| header | entry 0 | entry 1 | ... free ... | record 1 | record 0 |
```

Header and directory entries are fixed-width fields, all little-endian, so each is a structure
with an encoder into a list of bytes and a reader that takes the fields out of a block. The
reader of a header is total on every block; whether what it finds is a sound page is decided
where pages are decoded.
-/

namespace PagedStorage

/-! ## Sizes -/

def pageSize : Nat := 8192

def headerSize : Nat := 24

/-- The size of one directory entry. -/
def slotSize : Nat := 8

/-- The number of leading record bytes that the directory is ordered by. -/
def keySize : Nat := 8

def minRecordSize : Nat := slotSize

/-- A record that fills an empty page, next to its one directory entry. -/
def maxRecordSize : Nat := pageSize - headerSize - slotSize

/-- The position of the `n`-th directory entry. -/
def slotPosition (n : Nat) : Nat := headerSize + n * slotSize

/-! ## Identifiers -/

abbrev PageId := UInt32

abbrev SlotId := UInt16

/-- The address of a record: its page and its slot on that page. -/
structure RecordId where
  page : PageId
  slot : SlotId
deriving DecidableEq, Repr, Inhabited

/-- The address as it is shown: `(page, slot)`. -/
def RecordId.text (id : RecordId) : String :=
  "(" ++ toString id.page ++ ", " ++ toString id.slot ++ ")"

/-! ## The header -/

/-- The first `headerSize` bytes of a page. -/
structure Header where
  page : PageId
  /-- The next page of an overflow chain, 0 at its end. -/
  next : PageId
  /-- The page before this one on an overflow chain, 0 at its head. -/
  prev : PageId
  /-- Where the free space starts. -/
  lower : UInt16
  /-- Where the free space ends and the records start. -/
  upper : UInt16
  slotCount : UInt16
  freeSlotCount : UInt16
  /-- Nonzero on a page of an overflow chain. -/
  overflow : UInt16
  reserved : UInt16
deriving DecidableEq, Repr, Inhabited

namespace Header

/-- The header of a page without records. -/
def fresh (page : PageId) : Header where
  page := page
  next := 0
  prev := 0
  lower := .ofNat headerSize
  upper := .ofNat pageSize
  slotCount := 0
  freeSlotCount := 0
  overflow := 0
  reserved := 0

/-- The bytes between the directory and the records. -/
def freeSpace (h : Header) : Nat := h.upper.toNat - h.lower.toNat

/-- A page is free once every slot it ever gave out is free again. -/
def isFree (h : Header) : Bool := h.freeSlotCount == h.slotCount

def encode (h : Header) : List UInt8 :=
  Bytes.littleEndian 4 h.page.toNat ++ Bytes.littleEndian 4 h.next.toNat ++
  Bytes.littleEndian 4 h.prev.toNat ++ Bytes.littleEndian 2 h.lower.toNat ++
  Bytes.littleEndian 2 h.upper.toNat ++ Bytes.littleEndian 2 h.slotCount.toNat ++
  Bytes.littleEndian 2 h.freeSlotCount.toNat ++ Bytes.littleEndian 2 h.overflow.toNat ++
  Bytes.littleEndian 2 h.reserved.toNat

/-- The fields at the start of a block. -/
def ofBytes (bytes : Array UInt8) : Header where
  page := .ofNat (Bytes.numberAt bytes 0 4)
  next := .ofNat (Bytes.numberAt bytes 4 4)
  prev := .ofNat (Bytes.numberAt bytes 8 4)
  lower := .ofNat (Bytes.numberAt bytes 12 2)
  upper := .ofNat (Bytes.numberAt bytes 14 2)
  slotCount := .ofNat (Bytes.numberAt bytes 16 2)
  freeSlotCount := .ofNat (Bytes.numberAt bytes 18 2)
  overflow := .ofNat (Bytes.numberAt bytes 20 2)
  reserved := .ofNat (Bytes.numberAt bytes 22 2)

/-- Whether a block starts with a header of zeros, which marks a page that was never written. -/
def isBlank (bytes : Array UInt8) : Bool :=
  decide (headerSize ≤ bytes.size) && (Bytes.slice bytes 0 headerSize).all (· == 0)

@[simp] theorem length_encode (h : Header) : h.encode.length = headerSize := by
  simp [encode, headerSize]

/-- A block that starts with the encoding of a header has that header. -/
theorem ofBytes_eq {h : Header} {bytes : Array UInt8}
    (hfront : Bytes.slice bytes 0 headerSize = h.encode) : ofBytes bytes = h := by
  have hread (skip width : Nat) (hw : skip + width ≤ headerSize) :
      Bytes.numberAt bytes skip width = Bytes.value ((h.encode.drop skip).take width) := by
    rw [Bytes.numberAt, ← hfront, ← Bytes.slice_add bytes 0 skip hw, Nat.zero_add]
  unfold headerSize at hread
  simp [ofBytes, hread, encode, List.drop_append, List.drop_of_length_le,
    List.take_of_length_le, Bytes.value_littleEndian, Bytes.capacity]

end Header

/-! ## Directory entries -/

inductive SlotStatus where
  | free
  | used
deriving DecidableEq, Repr, Inhabited

namespace SlotStatus

def code : SlotStatus → UInt16
  | free => 0
  | used => 1

def ofCode? (code : UInt16) : Option SlotStatus :=
  if code = 0 then some free else if code = 1 then some used else none

theorem ofCode?_eq_some_iff {code : UInt16} {status : SlotStatus} :
    ofCode? code = some status ↔ code = status.code := by
  unfold ofCode?
  split
  · next h => cases status <;> simp [h, SlotStatus.code]
  · next h =>
    split
    · next h1 => cases status <;> simp [h1, SlotStatus.code]
    · next h1 => cases status <;> simp [SlotStatus.code, h, h1]

end SlotStatus

/-- A directory entry: the slot it describes and the stretch of the page that belongs to it. -/
structure Slot where
  id : SlotId
  status : SlotStatus
  offset : UInt16
  length : UInt16
deriving DecidableEq, Repr, Inhabited

namespace Slot

def start (s : Slot) : Nat := s.offset.toNat

/-- The position after the last byte of the slot. -/
def stop (s : Slot) : Nat := s.offset.toNat + s.length.toNat

def isFree (s : Slot) : Bool := s.status == .free

def isUsed (s : Slot) : Bool := s.status == .used

def encode (s : Slot) : List UInt8 :=
  Bytes.littleEndian 2 s.id.toNat ++ Bytes.littleEndian 2 s.status.code.toNat ++
  Bytes.littleEndian 2 s.offset.toNat ++ Bytes.littleEndian 2 s.length.toNat

@[simp] theorem length_encode (s : Slot) : s.encode.length = slotSize := by
  simp [encode, slotSize]

end Slot

/-- The bytes of a header and of a directory, as they stand at the start of a page. -/
def encodeLayout (header : Header) (directory : List Slot) : List UInt8 :=
  header.encode ++ directory.flatMap Slot.encode

@[simp] theorem length_encodeLayout (header : Header) (directory : List Slot) :
    (encodeLayout header directory).length = slotPosition directory.length := by
  have hflat : (directory.flatMap Slot.encode).length = directory.length * slotSize := by
    induction directory with
    | nil => simp
    | cons s rest ih => simp [ih, Nat.succ_mul, Nat.add_comm]
  simp [encodeLayout, slotPosition, hflat]

end PagedStorage
