import PagedStorage.Error
import PagedStorage.Page.Image

/-!
# Slotted pages

A page in memory is its header, its slot directory and its image. The directory is the list of
entries in the order in which they are stored; an entry carries the id of its slot, so the list
is at the same time the table that a slot id is looked up in. The image always starts with the
encoding of header and directory, which is why writing a page out is a plain copy.

Every change of the directory ends in `Page.settle`: the entries are put in the order of the
records they point to, and the encoded header and directory are written to the front of the
image. The order is read off the image before the front is written, when a record that was just
stored is already in place.
-/

namespace PagedStorage

structure Page where
  header : Header
  directory : List Slot
  image : Image
deriving DecidableEq

namespace Page

/-- A page without records. -/
def fresh (id : PageId) : Page where
  header := .fresh id
  directory := []
  image := Image.zero.overwrite 0 (Header.fresh id).encode

instance : Inhabited Page := ⟨fresh 0⟩

/-! ## What a page says about itself -/

def id (p : Page) : PageId := p.header.page

def next (p : Page) : PageId := p.header.next

def prev (p : Page) : PageId := p.header.prev

/-- Whether the page belongs to an overflow chain. -/
def isOverflow (p : Page) : Bool := p.header.overflow != 0

def freeSpace (p : Page) : Nat := p.header.freeSpace

def isFree (p : Page) : Bool := p.header.isFree

/-- The directory entry of a slot. -/
def slot? (p : Page) (id : SlotId) : Option Slot := p.directory.find? (·.id == id)

/-- The addresses of the stored records, in directory order. -/
def recordIds (p : Page) : List RecordId :=
  (p.directory.filter (·.isUsed)).map fun s ↦ ⟨p.id, s.id⟩

/-- The record bytes an entry is ordered by, read off an image. -/
def sortKey (image : Image) (s : Slot) : List UInt8 := image.slice s.start keySize

/-! ## Bringing image and directory in line -/

/-- The entries in the order of the first `keySize` bytes of their records. Entries with equal
keys keep their order. -/
def sortDirectory (image : Image) (directory : List Slot) : List Slot :=
  ((directory.map fun s ↦ (sortKey image s, s)).mergeSort fun a b ↦ decide (a.1 ≤ b.1)).map (·.2)

/-- Whether the directory fits in front of the records and each entry points to a whole key. -/
def withinPage (directory : List Slot) : Bool :=
  decide (slotPosition directory.length ≤ pageSize) &&
    directory.all fun s ↦ decide (s.start + keySize ≤ pageSize)

/-- The page with a given header and directory over a given image: the directory sorted, and both
written to the front of the image. -/
def settle (header : Header) (directory : List Slot) (image : Image) : Except Error Page :=
  if withinPage directory then
    let sorted := sortDirectory image directory
    .ok ⟨header, sorted, image.overwrite 0 (encodeLayout header sorted)⟩
  else .error (.fault .outOfBounds)

/-- The page with another header, whose fields are written to the front of the image. -/
def withHeader (p : Page) (header : Header) : Page :=
  { p with header := header, image := p.image.overwrite 0 header.encode }

/-! ## Overflow chains -/

/-- Flags the page as part of an overflow chain, as for a chain of one page. -/
def markOverflow (p : Page) : Page := p.withHeader { p.header with overflow := 1 }

/-- Makes `q` the next page of an overflow chain after `p`. -/
def link (p q : Page) : Page × Page :=
  (p.withHeader { p.header with next := q.id, overflow := 1 },
    q.withHeader { q.header with prev := p.id, overflow := 1 })

/-- The page without its records and links. -/
def reset (p : Page) : Page := fresh p.id

end Page

end PagedStorage
