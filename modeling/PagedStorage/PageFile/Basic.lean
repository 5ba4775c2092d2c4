import PagedStorage.Page.Decode
import PagedStorage.PageFile.IdCounter
import PagedStorage.Store.Basic

/-!
# Files of pages

A page file is a store cut into pages: the page with id `n` lies at `n * pageSize`. In memory it
keeps the header of every page, so that free pages are found without reading, and the headers
form an array because the pages of a file have no gaps. A page that was skipped over by a write
further out reads as zeros, and a header of zeros stands for a page without records.

A free page may be handed out again. Between being handed out and being written it is *claimed*:
its header still says that it is free, but nobody else gets it. The number of free pages that are
not claimed is kept as a counter.

A call that fails leaves the index as it was. The store is part of the value in every case, since
it counts the calls made on it.

## The last id

Ids have 32 bits, and the index is extended from the first id behind its pages on. When the page
with the largest id is in the file there is no such id, and then no page can be entered any more:
writing ends in a fault. A fault is no answer, the program stops there; the file that comes with it
has the bytes and the index from before the call.
-/

namespace PagedStorage

structure PageFile where
  store : Store
  /-- The header of each page, by id. -/
  headers : Array Header := #[]
  /-- Free pages that were handed out and not written since. -/
  claimed : List PageId := []
  /-- The number of free pages that are not claimed. -/
  freePages : Nat := 0
  ids : IdCounter := {}
deriving Inhabited

namespace PageFile

/-- A file without pages, in memory. -/
def empty : PageFile := { store := .inMemory {} }

/-- Where a page starts in the store. -/
def position (id : PageId) : Nat := id.toNat * pageSize

/-- The header of a page that is in the file. -/
def header? (f : PageFile) (id : PageId) : Option Header := f.headers[id.toNat]?

/-- The number of pages in the file, free ones included. -/
def pageCount (f : PageFile) : Nat := f.headers.size

/-- Whether a page with this header may be handed out again. -/
def isAvailable (f : PageFile) (id : PageId) (h : Header) : Bool :=
  h.isFree && !f.claimed.contains id

/-- The ids of the pages whose header says they are free, claimed ones included. -/
def freePageIds (f : PageFile) : List PageId :=
  ((List.range f.headers.size).map UInt32.ofNat).filter fun id ↦
    (f.header? id).any (·.isFree)

/-! ## Opening -/

/-- The header of the page with a given id, from the first bytes of the page. -/
def headerOf (id : PageId) (bytes : Array UInt8) : Except Error Header :=
  if Header.isBlank bytes then .ok (.fresh id)
  else do
    let header ← Header.decode bytes
    if header.page = id then .ok header
    else .error (.corruptedPage id (.foreignHeader header.page))

/-- Reads `count` headers from page `first` on, in order. -/
def readHeaders (store : Store) (headers : Array Header) (first : Nat) :
    Nat → Except Error (Array Header) × Store
  | 0 => (.ok headers, store)
  | count + 1 =>
    let id := UInt32.ofNat first
    match store.read (position id) headerSize with
    | (.error cause, store) => (.error (.io cause), store)
    | (.ok bytes, store) =>
      match headerOf id bytes with
      | .error e => (.error e, store)
      | .ok header => readHeaders store (headers.push header) (first + 1) count

/-- Opens the file that a store holds, reading the header of every page. Bytes after the last
whole page are ignored. -/
def load (store : Store) : Except Error PageFile × Store :=
  match store.size with
  | (.error cause, store) => (.error (.io cause), store)
  | (.ok size, store) =>
    let count := size / pageSize
    match readHeaders store #[] 0 count with
    | (.error e, store) => (.error e, store)
    | (.ok headers, store) =>
      let file : PageFile :=
        { store := store, headers := headers, freePages := headers.countP (·.isFree)
          ids := ⟨.ofNat count⟩ }
      (.ok file, store)

/-! ## Reading -/

/-- Reads the bytes of a page into a block of `room` bytes, which must be the size of a page. -/
def readBytes (f : PageFile) (id : PageId) (room : Nat) :
    Except Error (Array UInt8) × PageFile :=
  if room ≠ pageSize then (.error (.badPageSize pageSize room), f)
  else
    match f.store.size with
    | (.error cause, store) => (.error (.io cause), { f with store := store })
    | (.ok size, store) =>
      if size < position id + pageSize then (.error (.pageNotFound id), { f with store := store })
      else
        match store.read (position id) pageSize with
        | (.error cause, store) => (.error (.io cause), { f with store := store })
        | (.ok bytes, store) => (.ok bytes, { f with store := store })

/-- The page with a given id, from its bytes. -/
def pageOf (id : PageId) (bytes : Array UInt8) : Except Error Page :=
  if Header.isBlank bytes then .ok (.fresh id)
  else do
    let page ← Page.decode bytes
    if page.id = id then .ok page
    else .error (.corruptedPage id (.foreignHeader page.id))

def readPage (f : PageFile) (id : PageId) : Except Error Page × PageFile :=
  match f.readBytes id pageSize with
  | (.error e, f) => (.error e, f)
  | (.ok bytes, f) => (pageOf id bytes, f)

/-! ## Handing out pages -/

/-- A new page with an id of its own. Nothing is written yet. -/
def allocate (f : PageFile) : Page × PageFile :=
  let (id, ids) := f.ids.allocate
  (.fresh id, { f with ids := ids })

/-- The first page that may be handed out again. -/
def firstAvailable? (f : PageFile) : Option PageId :=
  ((List.range f.headers.size).map UInt32.ofNat).find? fun id ↦
    (f.header? id).any (f.isAvailable id)

/-- A free page, which is claimed by this, or a new page if there is none. -/
def freeOrAllocate (f : PageFile) : Except Error Page × PageFile :=
  if f.freePages = 0 then
    let (page, f) := f.allocate
    (.ok page, f)
  else
    match f.firstAvailable? with
    | none => (.error (.violation (.noFreePage f.freePages)), f)
    | some id =>
      match f.readPage id with
      | (.error e, f) => (.error e, f)
      | (.ok page, f) =>
        (.ok page, { f with claimed := id :: f.claimed, freePages := f.freePages - 1 })

/-! ## Writing -/

/-- The first id behind the pages of the file. -/
def firstUnknown (f : PageFile) : Except Error PageId :=
  if f.headers.size < UInt32.size then .ok (.ofNat f.headers.size)
  else .error (.fault .counterOverflow)

/-- Adds fresh pages under ids behind the last one. An id that was given out may still be written
by whoever got it, so it is claimed; the others are free at once. -/
def addFresh (f : PageFile) (skipped : List PageId) : PageFile :=
  let (givenOut, unknown) := skipped.partition (· < f.ids.next)
  { f with
    headers := f.headers ++ (skipped.map Header.fresh).toArray
    claimed := givenOut ++ f.claimed
    freePages := f.freePages + unknown.length }

/-- The ids from one on, as far as to another. -/
def idsBetween (first last : PageId) : List PageId :=
  (List.range' first.toNat (last.toNat - first.toNat)).map UInt32.ofNat

/-- Indexes the pages that a write of page `id` skips over. -/
def trackGap (f : PageFile) (id : PageId) : Except Error PageFile := do
  let known ← f.firstUnknown
  .ok (f.addFresh (idsBetween known id))

/-- Enters the header of a page that was just written. -/
def updateHeader (f : PageFile) (header : Header) : PageFile :=
  let id := header.page
  let before := (f.header? id).any (f.isAvailable id)
  let freePages := if before then f.freePages - 1 else f.freePages
  { f with
    headers :=
      if id.toNat < f.headers.size then f.headers.setIfInBounds id.toNat header
      else f.headers.push header
    claimed := f.claimed.filter (· != id)
    freePages := if header.isFree then freePages + 1 else freePages }

/-- Brings the index up to date after a page was written. -/
def enter (f : PageFile) (header : Header) : Except Error PageFile := do
  let f ← f.trackGap header.page
  .ok { f.updateHeader header with ids := f.ids.advancePast header.page }

/-- Enters a page that the store has taken. -/
def finishWrite (f : PageFile) (store : Store) (header : Header) : Except Error Unit × PageFile :=
  match { f with store := store }.enter header with
  | .error e => (.error e, { f with store := { store with contents := f.store.contents } })
  | .ok f => (.ok (), f)

/-- Writes a page to its place in the store. -/
def writePage (f : PageFile) (page : Page) : Except Error Unit × PageFile :=
  match f.store.write (position page.id) page.image.toList with
  | (.error cause, store) => (.error (.writeFailed page.id cause), { f with store := store })
  | (.ok (), store) => f.finishWrite store page.header

/-- Writes pages in order, until one fails. -/
def writePages (f : PageFile) : List Page → Except Error Unit × PageFile
  | [] => (.ok (), f)
  | page :: rest =>
    match f.writePage page with
    | (.error e, f) => (.error e, f)
    | (.ok (), f) => writePages f rest

/-- Writes an empty page in place of a page, which makes it free. The file does not shrink. -/
def deletePage (f : PageFile) (id : PageId) : Except Error Unit × PageFile :=
  let page := Page.fresh id
  match f.store.write (position id) page.image.toList with
  | (.error cause, store) => (.error (.deleteFailed id cause), { f with store := store })
  | (.ok (), store) => f.finishWrite store page.header

def sync (f : PageFile) : Except Error Unit × PageFile :=
  match f.store.sync with
  | (.error cause, store) => (.error (.io cause), { f with store := store })
  | (.ok (), store) => (.ok (), { f with store := store })

/-- Gives up the file. All that is left to do is to sync the store. -/
def close (f : PageFile) : Except Error Unit × Store :=
  match f.sync with
  | (result, f) => (result, f.store)

end PageFile

end PagedStorage
