import PagedStorage.Page.Records
import PagedStorage.Pool.Guard

/-!
# Record heaps

A heap is a collection of records without an order of its own, spread over pages of a pool. All
it keeps is the list of its pages. A record goes to the last page, or to a new page if the last
one is full.

Every operation takes the pool and gives it back. It pins one page at a time and has unpinned it
when it is done, whether it succeeded or not.

A heap that is opened over a file takes every page with records for one of its own. Nothing in a
page says to which heap it belongs, so there is one heap to a file, and pages that were written by
somebody else become pages of it.
-/

namespace PagedStorage

structure Heap where
  /-- The pages of the heap, in the order in which they were added. -/
  pages : List PageId := []
deriving DecidableEq, Repr, Inhabited

namespace Heap

variable {ρ : Type} [Replacer ρ]

/-- Stores a record on a page of the heap. A full page is no failure, but an answer: `none`. The
page counts as changed in any case. -/
def insertInto (pool : Pool ρ) (id : PageId) (record : List UInt8) :
    Except Error (Option RecordId) × Pool ρ :=
  match pool.guard id with
  | (.error e, pool) => (.error e, pool)
  | (.ok g, pool) =>
    let g := { g with dirty := true }
    match (pool.page g.handle).add record with
    | .ok (rid, page) => (.ok (some rid), (pool.setPage g.handle page).release g)
    | .error e => (if e.isRecoverable then .ok none else .error e, pool.release g)

/-- Adds a page to the heap and stores a record on it. -/
def insertNew (h : Heap) (pool : Pool ρ) (record : List UInt8) :
    Except Error RecordId × Heap × Pool ρ :=
  match pool.guardNew with
  | (.error e, pool) => (.error e, h, pool)
  | (.ok g, pool) =>
    match (pool.page g.handle).add record with
    | .error e => (.error e, h, pool.release g)
    | .ok (rid, page) =>
      (.ok rid, ⟨h.pages ++ [g.page]⟩, (pool.setPage g.handle page).release g)

/-- Whether a record has a size that fits some page. -/
def checkSize (size : Nat) : Except Error Unit :=
  if size < minRecordSize then .error (.recordTooSmall size minRecordSize)
  else if maxRecordSize < size then .error (.recordTooLarge size maxRecordSize)
  else .ok ()

/-- Stores a record and answers its address. -/
def insert (h : Heap) (pool : Pool ρ) (record : List UInt8) :
    Except Error RecordId × Heap × Pool ρ :=
  match checkSize record.length with
  | .error e => (.error e, h, pool)
  | .ok () =>
    match h.pages.getLast? with
    | none => h.insertNew pool record
    | some last =>
      match insertInto pool last record with
      | (.ok (some rid), pool) => (.ok rid, h, pool)
      | (.ok none, pool) => h.insertNew pool record
      | (.error e, pool) => (.error e, h, pool)

/-- The bytes of a record, or `none` if it was deleted or never stored. -/
def get (pool : Pool ρ) (id : RecordId) : Except Error (Option (List UInt8)) × Pool ρ :=
  match pool.guard id.page with
  | (.error e, pool) => (.error e, pool)
  | (.ok g, pool) =>
    let result :=
      match (pool.page g.handle).get id with
      | .ok record => .ok (some record)
      | .error (.recordFreed _) => .ok none
      | .error (.invalidRecordId _) => .ok none
      | .error e => .error e
    (result, pool.release g)

/-- Deletes a record. The page counts as changed in any case. -/
def delete (pool : Pool ρ) (id : RecordId) : Except Error Unit × Pool ρ :=
  match pool.guard id.page with
  | (.error e, pool) => (.error e, pool)
  | (.ok g, pool) =>
    let g := { g with dirty := true }
    match (pool.page g.handle).delete id with
    | .ok page => (.ok (), (pool.setPage g.handle page).release g)
    | .error e => (.error e, pool.release g)

/-- The records of some pages, page by page in directory order. -/
def scanPages (pool : Pool ρ) : List PageId → Except Error (List (RecordId × List UInt8)) × Pool ρ
  | [] => (.ok [], pool)
  | id :: rest =>
    match pool.guard id with
    | (.error e, pool) => (.error e, pool)
    | (.ok g, pool) =>
      match (pool.page g.handle).records with
      | .error e => (.error e, pool.release g)
      | .ok records =>
        match scanPages (pool.release g) rest with
        | (.error e, pool) => (.error e, pool)
        | (.ok more, pool) => (.ok (records ++ more), pool)

/-- All records of the heap. -/
def scan (h : Heap) (pool : Pool ρ) : Except Error (List (RecordId × List UInt8)) × Pool ρ :=
  scanPages pool h.pages

/-- The heap of a file: every page that is not free belongs to it. -/
def ofFile (file : PageFile) : Heap where
  pages := ((List.range file.pageCount).map UInt32.ofNat).filter fun id ↦
    (file.header? id).any fun h ↦ !h.isFree

end Heap

end PagedStorage
