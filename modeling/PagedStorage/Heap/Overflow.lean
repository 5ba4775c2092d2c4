import PagedStorage.Heap.Basic

/-!
# Overflow records

A record of any size can be stored on a chain of new pages, one piece on each. The pieces are of
one size but for the last, and that size is chosen so that the last piece is not too small: a
record is cut into as few pieces as possible, and these are made as even as possible.

The pages of a chain do not belong to the heap. They are found again from the id of the first.

## Pages and pins

A chain is made from its first page on. The page before stays pinned until the next one is joined to
it, so storing has two pages pinned at a time, and a chain that breaks off is a row of new pages of
which the last one leads nowhere. Such pages keep their pieces: nothing is undone.

To delete a chain is to walk along it to the end first, and to delete its pages then, from the first
one on. A walk that fails has deleted nothing.
-/

namespace PagedStorage.Heap

variable {ρ : Type} [Replacer ρ]

/-! ## Cutting -/

/-- The least number of times `d` that covers `n`. -/
def ceilDiv (n d : Nat) : Nat := (n + (d - 1)) / d

/-- A list cut into pieces of `size` elements, at least one, of which the last may be shorter. -/
def pieces {α : Type} (size : Nat) : List α → List (List α)
  | [] => []
  | x :: rest => (x :: rest.take (size - 1)) :: pieces size (rest.drop (size - 1))
termination_by xs => xs.length
decreasing_by simp only [List.length_drop, List.length_cons]; omega

/-- Nothing is lost by cutting. -/
theorem flatten_pieces {α : Type} (size : Nat) (xs : List α) :
    (pieces size xs).flatten = xs := by
  fun_induction pieces size xs with
  | case1 => rfl
  | case2 x rest ih => rw [List.flatten_cons, ih, List.cons_append, List.take_append_drop]

theorem length_le_of_mem_pieces {α : Type} {size : Nat} (hsize : 0 < size) {xs piece : List α}
    (h : piece ∈ pieces size xs) : piece.length ≤ size := by
  fun_induction pieces size xs with
  | case1 => simp at h
  | case2 x rest ih =>
    rcases List.mem_cons.1 h with rfl | h
    · rw [List.length_cons, List.length_take]
      omega
    · exact ih h

/-- The pieces of an overflow record. -/
def overflowPieces (record : List UInt8) : List (List UInt8) :=
  let count := ceilDiv record.length maxRecordSize
  pieces (ceilDiv record.length count) record

/-! ## Storing -/

/-- Joins a new page to the chain: it follows `prev`, or is flagged as the head of a chain. -/
def joinChain (pool : Pool ρ) (prev : Option Guard) (g : Guard) : Pool ρ :=
  match prev with
  | some prev =>
    let (before, after) := (pool.page prev.handle).link (pool.page g.handle)
    (pool.setPage prev.handle before).setPage g.handle after
  | none => pool.setPage g.handle (pool.page g.handle).markOverflow

/-- Stores pieces on new pages, each joined to the one before. The page of the last piece stays
pinned until the next one is joined. Answers the first new page. -/
def storePieces (pool : Pool ρ) (prev : Option Guard) :
    List (List UInt8) → Except Error (Option PageId) × Pool ρ
  | [] => (.ok none, pool.release? prev)
  | piece :: rest =>
    match pool.guardNew with
    | (.error e, pool) => (.error e, pool.release? prev)
    | (.ok g, pool) =>
      let pool := joinChain pool prev g
      match (pool.page g.handle).add piece with
      | .error e => (.error e, (pool.release g).release? prev)
      | .ok (_, page) =>
        match storePieces ((pool.setPage g.handle page).release? prev) (some g) rest with
        | (.error e, pool) => (.error e, pool)
        | (.ok _, pool) => (.ok (some g.page), pool)

/-- Stores a record of any size and answers the first page of its chain. -/
def insertOverflow (pool : Pool ρ) (record : List UInt8) : Except Error PageId × Pool ρ :=
  if record.length < minRecordSize then
    (.error (.recordTooSmall record.length minRecordSize), pool)
  else
    match storePieces pool none (overflowPieces record) with
    | (.error e, pool) => (.error e, pool)
    | (.ok (some head), pool) => (.ok head, pool)
    | (.ok none, pool) => (.error (.violation .emptyChain), pool)

/-! ## Walking a chain -/

/-- Visits the pages of a chain from page `id` on, behind the pages in `visited`, pinning one page
at a time. Answers what was seen on each. -/
def walkChain {α : Type} (pool : Pool ρ) (see : Page → Except Error α) (head : PageId)
    (visited : List PageId) (id : PageId) : Nat → Except Error (List α) × Pool ρ
  | 0 => (.error (.corruptedPage id (.chainLoop head)), pool)
  | budget + 1 =>
    if id ∈ visited then (.error (.corruptedPage id (.chainLoop head)), pool)
    else
      match pool.guard id with
      | (.error e, pool) => (.error e, pool)
      | (.ok g, pool) =>
        let page := pool.page g.handle
        let pool := pool.release g
        if page.isOverflow then
          match see page with
          | .error e => (.error e, pool)
          | .ok seen =>
            if page.next = 0 then (.ok [seen], pool)
            else
              match walkChain pool see head (id :: visited) page.next budget with
              | (.error e, pool) => (.error e, pool)
              | (.ok rest, pool) => (.ok (seen :: rest), pool)
        else (.error (.notOverflowPage id), pool)

/-- Visits the pages of the chain that starts at page `head`. There are no more of them than page
ids, since none is visited twice. -/
def walkOverflow {α : Type} (pool : Pool ρ) (see : Page → Except Error α) (head : PageId) :
    Except Error (List α) × Pool ρ :=
  walkChain pool see head [] head (UInt32.size + 1)

/-- The bytes of all records of a page, in directory order. -/
def recordBytes (page : Page) : Except Error (List UInt8) :=
  page.records.map fun records ↦ records.flatMap (·.2)

/-- The record on the chain that starts at page `head`. -/
def readOverflow (pool : Pool ρ) (head : PageId) : Except Error (List UInt8) × Pool ρ :=
  match walkOverflow pool recordBytes head with
  | (.error e, pool) => (.error e, pool)
  | (.ok parts, pool) => (.ok parts.flatten, pool)

/-- Deletes pages in order, until one fails. -/
def deletePages (pool : Pool ρ) : List PageId → Except Error Unit × Pool ρ
  | [] => (.ok (), pool)
  | id :: rest =>
    match pool.delete id with
    | (.error e, pool) => (.error e, pool)
    | (.ok (), pool) => deletePages pool rest

/-- Deletes every page of the chain that starts at page `head`. -/
def deleteOverflow (pool : Pool ρ) (head : PageId) : Except Error Unit × Pool ρ :=
  match walkOverflow pool (fun page ↦ .ok page.id) head with
  | (.error e, pool) => (.error e, pool)
  | (.ok ids, pool) => deletePages pool ids

end PagedStorage.Heap
