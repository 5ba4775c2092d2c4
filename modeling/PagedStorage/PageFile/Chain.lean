import PagedStorage.PageFile.Basic

/-!
# Overflow chains in a file

A record too large for one page lies on a chain of pages, each naming the next, and 0 ends the
chain. Following a chain means following numbers found in a file, so a page that was already
visited is an error. Hence no chain that is read without error has more pages than there are
page ids, and that number bounds the walk.
-/

namespace PagedStorage.PageFile

/-- Follows a chain from page `id` on, behind the pages in `visited`. -/
def followChain (f : PageFile) (head : PageId) (visited : List PageId) (id : PageId) :
    Nat → Except Error (List Page) × PageFile
  | 0 => (.error (.corruptedPage id (.chainLoop head)), f)
  | budget + 1 =>
    if id = 0 then (.ok [], f)
    else if id ∈ visited then (.error (.corruptedPage id (.chainLoop head)), f)
    else
      match f.readPage id with
      | (.error e, f) => (.error e, f)
      | (.ok page, f) =>
        match f.followChain head (id :: visited) page.next budget with
        | (.error e, f) => (.error e, f)
        | (.ok rest, f) => (.ok (page :: rest), f)

/-- The pages of the overflow chain that starts at page `head`. -/
def readChain (f : PageFile) (head : PageId) : Except Error (List Page) × PageFile :=
  match f.readPage head with
  | (.error e, f) => (.error e, f)
  | (.ok first, f) =>
    if first.isOverflow then
      match f.followChain head [head] first.next (UInt32.size + 1) with
      | (.error e, f) => (.error e, f)
      | (.ok rest, f) => (.ok (first :: rest), f)
    else (.error (.notOverflowPage head), f)

end PagedStorage.PageFile
