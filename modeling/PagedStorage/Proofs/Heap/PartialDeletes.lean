import PagedStorage.Proofs.Heap.ChainRuns
import PagedStorage.Proofs.Heap.Seeing
import PagedStorage.Proofs.Heap.StoringInFull

/-!
# Chains that are deleted in part

The pages of a chain are deleted one after the other, and nobody brings those back that are gone
when one is refused: because it is in use, or because its place cannot be written. Then the pages
before it are fresh ones, and all others are as they were, `Heap.StopsAt`.

## What can be read afterwards

If the first page is refused, the record on the chain can still be read. If a later one is, then
no walk begins at the head any more, and the rest of the chain is out of reach. One pin is enough
for that (`Heap.deleteOverflow_of_pinned`).

The page that is refused may be lost itself: it has left its frame by then, so if it waited to be
written, what the file has of it is older. `StopsAt` leaves this open, and the record can be read
only if the head was in use or did not wait.

## Once the medium fails no call

To say that the record can be read takes a pool that can read it. So what is read afterwards is
asked of `Pool.obliging`, the same pool over the same bytes and without a schedule of failures. What
waits there must be able to be written, because a walk may need the frame. What is in sight is the
same in both pools, so the walk before the deletion and the one after it can be compared.
-/

namespace PagedStorage

namespace Pool

variable {ρ : Type} {p q t : Pool ρ} {id i : PageId} {u : Finset PageId} {e : Error}

section Deleting

variable [Replacer ρ]

end Deleting

/-! ## Once the medium fails no call -/

private theorem Faithful.obliging (hp : p.Faithful u) : p.obliging.Faithful u :=
  have hbytes : p.file.SameBytes p.obliging.file := ⟨rfl, rfl⟩
  (faithful_of_spares (p := p) (q := p.obliging)
    (hp.toSound.congr rfl rfl rfl rfl (fun _ hn ↦ hn) (hbytes.ahead rfl rfl hp.ahead))
    fun i ↦ (hp.at i).congr rfl rfl (hbytes.stored_eq i)).1

variable [Replacer ρ] [LawfulReplacer ρ]

end Pool

namespace Heap

open Pool

variable {ρ : Type} {p q t : Pool ρ} {head id i : PageId} {u : Finset PageId} {e : Error}
  {ids gone : List PageId} {data : List UInt8} {res : Except Error Unit}

/-! ## Deletions that stop -/

/-- The pages in `gone` were deleted, and page `i` was refused. A page that had changes to be
written may be lost by that. -/
structure StopsAt (p : Pool ρ) (gone : List PageId) (i : PageId) (e : Error) (q : Pool ρ) :
    Prop where
  unused : ∀ j ∈ gone, p.users j = 0
  fresh : ∀ j ∈ gone, q.content j = .ok (.fresh j)
  kept : ∀ j ∉ gone, j ≠ i → p.Holds j → q.content j = p.content j
  stays : 0 < p.users i ∨ ¬ p.Marked i → p.Holds i → q.content i = p.content i
  refused : 0 < p.users i ∧ e = .pagePinned i ∨ p.users i = 0 ∧ PageFile.FailsToDelete i e

variable [Replacer ρ]

theorem StopsAt.of_errand (h : StopsAt t gone i e q) (hp : p.Faithful u)
    (herrand : p.Errand ∅ [] ∅ t) (hmarked : ∀ j, t.Marked j → p.Marked j) :
    StopsAt p gone i e q := by
  have husers (j : PageId) : t.users j = p.users j := herrand.users_eq hp.toSound j
  have hcontent (j : PageId) (hj : p.Holds j) : t.content j = p.content j :=
    (herrand.spares hp.toSound (hp.at j) (Set.notMem_empty j)).content_eq hj
  have hholds (j : PageId) (hj : p.Holds j) : t.Holds j := hj.congr (hcontent j hj)
  refine ⟨fun j hj ↦ (husers j).symm.trans (h.unused j hj), h.fresh, fun j hj hne hold ↦ ?_,
    fun hstays hold ↦ ?_, husers i ▸ h.refused⟩
  · exact (h.kept j hj hne (hholds j hold)).trans (hcontent j hold)
  · refine (h.stays ?_ (hholds i hold)).trans (hcontent i hold)
    rw [husers]
    exact hstays.imp_right fun hclean hi ↦ hclean (hmarked i hi)

theorem StopsAt.cons (h : StopsAt t gone i e q) (hp : p.Faithful u) (hid : id ∉ gone) (hne : i ≠ id)
    (hdelete : p.delete id = (.ok (), t)) : StopsAt p (id :: gone) i e q := by
  have husers (j : PageId) : t.users j = p.users j := users_of_delete hp.toSound hdelete
  have hcontent (j : PageId) (hj : p.Holds j) (hne : j ≠ id) : t.content j = p.content j :=
    content_of_delete_ne hp.toSteady hne hj hdelete
  have hfresh := content_of_delete hp.toSound hdelete
  refine ⟨List.forall_mem_cons.2 ⟨?_, fun j hj ↦ (husers j).symm.trans (h.unused j hj)⟩,
    List.forall_mem_cons.2 ⟨?_, h.fresh⟩, fun j hj hji hold ↦ ?_, fun hstays hold ↦ ?_,
    husers i ▸ h.refused⟩
  · by_contra hused
    cases (eq_of_delete_used hp.toSteady (Nat.pos_of_ne_zero hused) hdelete).1
  · rw [h.kept id hid hne.symm (holds_of_content hfresh), hfresh]
  · rw [List.mem_cons, not_or] at hj
    have hsame := hcontent j hold hj.1
    exact (h.kept j hj.2 hji (hold.congr hsame)).trans hsame
  · have hsame := hcontent i hold hne
    refine (h.stays ?_ (hold.congr hsame)).trans hsame
    rw [husers]
    exact hstays.imp_right fun hclean hi ↦ hclean (marked_of_delete hp.toSteady hdelete hi)

variable [LawfulReplacer ρ]

section Beheaded

variable {record : List UInt8}

end Beheaded

end Heap

end PagedStorage
