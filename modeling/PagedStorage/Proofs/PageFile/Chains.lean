import PagedStorage.PageFile.Chain
import PagedStorage.Proofs.PageFile.Serving

/-!
# Chains in a file

To follow a chain is to read one page after the other, and reading changes no byte. So what is
answered depends on the stored pages alone: on a store that refuses no call it is `chainAt` of
them.

## The end of a chain

A chain ends where a page names no next one. It may come back to a page where it has been, and this
is answered as damage to that page. A page that was met before is told by the list of those that
were. The walk has a bound on its steps as well, which plays no part: it is that of the walk in the
file, so the two are taken step by step together.

The flag of an overflow page is asked of the head and of no other page, so any page may stand
further down a chain, even one that nobody has written.
-/

namespace PagedStorage.PageFile

variable {c : PageId → Except Error Page} {f g : PageFile} {head id : PageId}
  {visited : List PageId} {n : Nat} {page : Page} {pages : List Page}

/-- The pages of a chain from page `id` on, where the pages are `c`. -/
def chainFrom (c : PageId → Except Error Page) (head : PageId) (visited : List PageId)
    (id : PageId) : Nat → Except Error (List Page)
  | 0 => .error (.corruptedPage id (.chainLoop head))
  | budget + 1 =>
    if id = 0 then .ok []
    else if id ∈ visited then .error (.corruptedPage id (.chainLoop head))
    else do
      let page ← c id
      let rest ← chainFrom c head (id :: visited) page.next budget
      .ok (page :: rest)

/-- The pages of the chain that starts at page `head`, where the pages are `c`. -/
def chainAt (c : PageId → Except Error Page) (head : PageId) : Except Error (List Page) := do
  let first ← c head
  if first.isOverflow then
    let rest ← chainFrom c head [head] first.next (UInt32.size + 1)
    .ok (first :: rest)
  else .error (.notOverflowPage head)

theorem readPage_of_willing (hf : f.store.Willing) (hc : f.stored = c) (id : PageId) :
    ∃ g, f.readPage id = (c id, g) ∧ g.store.Willing ∧ g.stored = c := by
  obtain ⟨hread, hg⟩ := willing_of_readPage hf (r := (f.readPage id).1) rfl
  have hsame := (readPage_cases (r := (f.readPage id).1) rfl).1
  refine ⟨(f.readPage id).2, Prod.ext ?_ rfl, hg, ?_⟩
  · rw [hread, hc]
  · rw [← hc]
    exact funext hsame.stored_eq

theorem followChain_of_willing (hf : f.store.Willing) (hc : f.stored = c) :
    (f.followChain head visited id n).1 = chainFrom c head visited id n := by
  induction n generalizing f visited id with
  | zero => rfl
  | succ n ih =>
    rw [followChain, chainFrom]
    split
    next => rfl
    next =>
      split
      next => rfl
      next =>
        obtain ⟨g, hread, hg, hgc⟩ := readPage_of_willing hf hc id
        rw [hread]
        cases c id with
        | error e => rfl
        | ok page =>
          simp only [ok_bind]
          rw [← ih hg hgc]
          cases g.followChain head (id :: visited) page.next n with
          | mk res g => cases res <;> rfl

theorem readChain_of_willing (hf : f.store.Willing) (head : PageId) :
    (f.readChain head).1 = chainAt f.stored head := by
  obtain ⟨g, hread, hg, hgc⟩ := readPage_of_willing hf rfl head
  rw [readChain, chainAt, hread]
  cases f.stored head with
  | error e => rfl
  | ok first =>
    simp only [ok_bind]
    split
    next =>
      rw [← followChain_of_willing hg hgc]
      cases g.followChain head [head] first.next (UInt32.size + 1) with
      | mk res g => cases res <;> rfl
    next => rfl

end PagedStorage.PageFile
