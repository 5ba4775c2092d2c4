import PagedStorage.Page.Basic

/-!
# Records on a page

Storing, reading and deleting the records of one page. A record is stored in two steps. First a
`Placement` is chosen: the entry it will have, together with the header and the directory that
go with it, either by taking over the first free entry of the directory or by adding an entry at
the end. Then the record is copied into the image and the page is settled. No step changes a
page in place, so a call that fails leaves nothing behind.

A deleted record keeps its stretch of the page: its bytes become zeros and its entry becomes
free, to be taken over by a later record.
-/

namespace PagedStorage.Page

/-! ## Admission -/

/-- Whether a record of a size may be stored, by its size alone and by the room on the page. -/
def checkRecord (p : Page) (size : Nat) : Except Error Unit :=
  if size < minRecordSize then .error (.recordTooSmall size minRecordSize)
  else if maxRecordSize < size then .error (.recordTooLarge size maxRecordSize)
  else if p.freeSpace ≤ size then .error (.noRoomInPage size p.freeSpace)
  else .ok ()

/-! ## Choosing a place -/

/-- Where a record goes, and the header and directory that say so. -/
structure Placement where
  slot : Slot
  header : Header
  directory : List Slot

/-- The directory with the entry of one slot exchanged. -/
def replaceSlot (directory : List Slot) (slot : Slot) : List Slot :=
  directory.map fun s ↦ if s.id = slot.id then slot else s

/-- Takes over the first free entry. Its old stretch is kept if the record fits into it, otherwise
a new stretch is cut off the free space. -/
def reuseSlot (p : Page) (size : UInt16) : Except Error Placement :=
  match p.directory.find? (·.isFree) with
  | none => .error (.violation (.noFreeSlot p.id p.header.freeSlotCount))
  | some old =>
    let upper := if old.length < size then p.header.upper - size else p.header.upper
    let offset := if old.length < size then upper else old.offset
    let slot : Slot := { id := old.id, status := .used, offset := offset, length := size }
    .ok {
      slot := slot
      header := { p.header with upper := upper, freeSlotCount := p.header.freeSlotCount - 1 }
      directory := replaceSlot p.directory slot }

/-- Adds an entry, for which the free space must also have room. -/
def appendSlot (p : Page) (size : UInt16) : Except Error Placement :=
  let required := size.toNat + slotSize
  if p.freeSpace < required then .error (.noRoomInPage required p.freeSpace)
  else if p.header.slotCount.toNat + 1 = UInt16.size then .error (.fault .counterOverflow)
  else
    let upper := p.header.upper - size
    let slot : Slot :=
      { id := p.header.slotCount, status := .used, offset := upper, length := size }
    .ok {
      slot := slot
      header := { p.header with
        lower := p.header.lower + .ofNat slotSize
        upper := upper
        slotCount := p.header.slotCount + 1 }
      directory := p.directory ++ [slot] }

/-- The place of a record of an admitted size. -/
def place (p : Page) (size : UInt16) : Except Error Placement :=
  if 0 < p.header.freeSlotCount then p.reuseSlot size else p.appendSlot size

/-! ## Storing, reading, deleting -/

/-- Stores a record and answers its address. -/
def add (p : Page) (record : List UInt8) : Except Error (RecordId × Page) := do
  p.checkRecord record.length
  let placement ← p.place (.ofNat record.length)
  if placement.slot.stop ≤ pageSize then
    -- The record is in place before the directory is sorted by what the image holds.
    let image := p.image.overwrite placement.slot.start record
    let page ← settle placement.header placement.directory image
    .ok (⟨p.id, placement.slot.id⟩, page)
  else .error (.fault .outOfBounds)

/-- The entry of a record address, which must name this page and one of its slots. -/
def entry (p : Page) (id : RecordId) : Except Error Slot :=
  if id.page = p.id then
    match p.slot? id.slot with
    | some s => .ok s
    | none => .error (.invalidRecordId id)
  else .error (.invalidRecordId id)

/-- The bytes of a record. -/
def get (p : Page) (id : RecordId) : Except Error (List UInt8) := do
  let s ← p.entry id
  if s.isFree then .error (.recordFreed id)
  else if s.stop ≤ pageSize then .ok (p.image.slice s.start s.length.toNat)
  else .error (.fault .outOfBounds)

/-- Deletes a record: its bytes become zeros and its entry becomes free. To delete a record twice
is the same as to delete it once. -/
def delete (p : Page) (id : RecordId) : Except Error Page := do
  let s ← p.entry id
  if s.isFree then .ok p
  else if pageSize < s.stop then .error (.fault .outOfBounds)
  else if p.header.freeSlotCount.toNat + 1 = UInt16.size then .error (.fault .counterOverflow)
  else
    let image := p.image.overwrite s.start (List.replicate s.length.toNat 0)
    let directory := replaceSlot p.directory { s with status := .free }
    settle { p.header with freeSlotCount := p.header.freeSlotCount + 1 } directory image

/-- All stored records with their addresses, in directory order. -/
def records (p : Page) : Except Error (List (RecordId × List UInt8)) :=
  p.recordIds.mapM fun id ↦ do
    let record ← p.get id
    pure (id, record)

/-! ## Visiting -/

/-- Passes the addresses of the stored records to `f`, in directory order, until `f` answers
`false`. -/
def visit {σ : Type} (p : Page) (f : σ → RecordId → σ × Bool) (start : σ) : σ :=
  go start p.recordIds
where
  go (state : σ) : List RecordId → σ
    | [] => state
    | id :: rest =>
      match f state id with
      | (state, true) => go state rest
      | (state, false) => state

end PagedStorage.Page
