import PagedStorage.Page.Basic

/-!
# Reading pages from blocks

A block of bytes is a page if it has the size of one, its header and directory can be read, and
what they say fits together. The checks are made in a fixed order, and the first that fails
gives the error, so each is a function of its own and `Page.decode` is their sequence.

What is not checked is as much a part of the format: free entries may point anywhere in the
page, and the directory is kept in the order in which it is stored, sorted or not.
-/

namespace PagedStorage

/-- Accepts exactly the blocks that have the size of a page. -/
def checkPageSize (bytes : Array UInt8) : Except Error Unit :=
  if bytes.size = pageSize then .ok () else .error (.badPageSize pageSize bytes.size)

/-- The header at the start of a block that is long enough to have one. -/
def Header.decode (bytes : Array UInt8) : Except Error Header :=
  if bytes.size < headerSize then .error (.badPageSize headerSize bytes.size)
  else .ok (.ofBytes bytes)

/-- The `n`-th directory entry of a block. The page id is the one that errors name. -/
def Slot.decode (bytes : Array UInt8) (n : Nat) (page : PageId) : Except Error Slot :=
  let position := slotPosition n
  if bytes.size < position + slotSize then .error (.corruptedPage page (.slotOutsidePage n))
  else
    let code : UInt16 := .ofNat (Bytes.numberAt bytes (position + 2) 2)
    match SlotStatus.ofCode? code with
    | none => .error (.corruptedPage page (.badStatus n code))
    | some status =>
      .ok {
        id := .ofNat (Bytes.numberAt bytes position 2)
        status := status
        offset := .ofNat (Bytes.numberAt bytes (position + 4) 2)
        length := .ofNat (Bytes.numberAt bytes (position + 6) 2) }

/-- A block that holds the encoding of an entry has that entry there. -/
theorem Slot.decode_eq {s : Slot} {bytes : Array UInt8} {n : Nat} (page : PageId)
    (hentry : Bytes.slice bytes (slotPosition n) slotSize = s.encode) :
    Slot.decode bytes n page = .ok s := by
  have hread (skip width : Nat) (hw : skip + width ≤ slotSize) :
      Bytes.numberAt bytes (slotPosition n + skip) width =
        Bytes.value ((s.encode.drop skip).take width) := by
    rw [Bytes.numberAt, ← hentry, ← Bytes.slice_add bytes _ skip hw]
  have hid := hread 0 2 (by decide)
  rw [Nat.add_zero] at hid
  have hcode : SlotStatus.ofCode? s.status.code = some s.status :=
    SlotStatus.ofCode?_eq_some_iff.2 rfl
  have hlen := congrArg List.length hentry
  rw [Bytes.length_slice, s.length_encode] at hlen
  unfold slotSize at hread hlen
  have hroom : ¬ bytes.size < slotPosition n + 8 := by omega
  simp [Slot.decode, slotSize, hroom, hid, hread, encode, List.drop_append,
    List.drop_of_length_le, List.take_of_length_le, Bytes.value_littleEndian, Bytes.capacity, hcode]

namespace Page

/-! ## The checks -/

/-- The free space lies between the directory and the end of the page. -/
def checkFreeSpace (header : Header) : Except Error Unit :=
  if pageSize < header.upper.toNat ∨ header.upper < header.lower ∨
      header.lower.toNat < slotPosition header.slotCount.toNat then
    .error (.corruptedPage header.page
      (.badFreeSpace header.lower header.upper header.slotCount.toNat))
  else .ok ()

/-- One entry, given the slot ids of the entries before it. -/
def checkEntry (header : Header) (seen : List SlotId) (s : Slot) : Except Error Unit :=
  let fail reason := .error (.corruptedPage header.page reason)
  if header.slotCount ≤ s.id ∨ s.id ∈ seen then fail (.badSlotId s.id)
  else if pageSize < s.stop ∨ s.length.toNat < keySize then
    fail (.badBounds s.id s.start s.stop)
  else if s.isUsed ∧ s.offset < header.upper then fail (.slotInFreeSpace s.id)
  else .ok ()

/-- All entries, in stored order. -/
def checkEntries (header : Header) : List SlotId → List Slot → Except Error Unit
  | _, [] => .ok ()
  | seen, s :: rest => do
    checkEntry header seen s
    checkEntries header (s.id :: seen) rest

/-- The header counts the free entries right. -/
def checkFreeSlotCount (header : Header) (directory : List Slot) : Except Error Unit :=
  let found := directory.countP (·.isFree)
  if found = header.freeSlotCount.toNat then .ok ()
  else .error (.corruptedPage header.page
    (.badFreeSlotCount header.freeSlotCount.toNat found))

/-- Whether each stretch of an ordered list ends before the next one starts. -/
def separated : List Slot → Bool
  | a :: b :: rest => decide (a.stop ≤ b.start) && separated (b :: rest)
  | _ => true

/-- No two stored records share a byte. -/
def checkRecords (header : Header) (directory : List Slot) : Except Error Unit :=
  let used := directory.filter (·.isUsed)
  if separated (used.mergeSort fun a b ↦ decide (a.start ≤ b.start)) then .ok ()
  else .error (.corruptedPage header.page .recordsOverlap)

/-! ## Decoding and encoding -/

/-- The page that a block of bytes holds. -/
def decode (bytes : Array UInt8) : Except Error Page := do
  match Image.ofBytes? bytes with
  | none => .error (.badPageSize pageSize bytes.size)
  | some image =>
    let header ← Header.decode bytes
    let directory ← (List.range header.slotCount.toNat).mapM (Slot.decode bytes · header.page)
    checkFreeSpace header
    checkEntries header [] directory
    checkFreeSlotCount header directory
    checkRecords header directory
    .ok ⟨header, directory, image⟩

/-- The bytes of a page, for a block that has room for exactly one. -/
def encode (p : Page) (room : Nat) : Except Error (Array UInt8) :=
  if room = pageSize then .ok p.image.toArray else .error (.badPageSize pageSize room)

end Page

end PagedStorage
