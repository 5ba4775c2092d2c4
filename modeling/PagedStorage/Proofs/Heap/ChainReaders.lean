import PagedStorage.Proofs.Heap.Walks
import PagedStorage.Proofs.PageFile.ChainWalks
import PagedStorage.Proofs.Pool.Settled

/-!
# Two readers of a chain

A chain can be read from the file, page by page, and it can be walked in a pool. Both go the same
way and both refuse a page that they have seen before, but the file asks the head alone whether it
is an overflow page, and the pool asks every page. So the walk succeeds exactly if the file reads
the chain and all pages on it are overflow pages, and then both see the same pages
(`Heap.walkOverflow_eq_ok_iff`). A chain that runs into another page is read from the file only
(`Heap.strayChain_onlyRead`).

## Steps

The walk counts its steps from the head and the file from the page behind it, up to the same
number. That is why the two are compared at budgets that differ by one. The budget is never what
stops either of them, but it is in the definitions, so it is in the induction.

## The pool

In a pool in which no page waits, what is shown is what the file has. To walk takes a frame, and one
more pin on each page. A page may be in use by others meanwhile, but it must not have all the users
that can be counted, since the program stops then.
-/

namespace PagedStorage.Heap

open Pool PageFile

variable {α ρ : Type} {see : Page → Except Error α} {head id : PageId} {visited : List PageId}
  {n : Nat} {c : PageId → Except Error Page} {seen : List α}

/-! ## On contents -/

/-- What is seen on pages, all of which are overflow pages. -/
def AllSeen (see : Page → Except Error α) (pages : List Page) (seen : List α) : Prop :=
  List.Forall₂ (fun page a ↦ page.isOverflow = true ∧ see page = .ok a) pages seen

private theorem allSeen_iff {pages : List Page} : AllSeen see pages seen ↔
    (∀ page ∈ pages, page.isOverflow = true) ∧ pages.mapM see = .ok seen := by
  rw [mapM_eq_ok_iff]
  exact List.forall₂_and_left _ _

theorem not_allSeen_of_error {e : Error} :
    ¬ ∃ pages, (.error e : Except Error (List Page)) = .ok pages ∧ AllSeen see pages seen := by
  rintro ⟨_, hread, -⟩
  exact error_ne_ok hread

theorem rest_eq_ok_iff {rest : List α} (h : id ≠ 0 →
      (follow c see head visited id n = .ok rest ↔
        ∃ pages, chainFrom c head visited id (n + 1) = .ok pages ∧ AllSeen see pages rest)) :
    (if id = 0 then rest = [] else follow c see head visited id n = .ok rest) ↔
      ∃ pages, chainFrom c head visited id (n + 1) = .ok pages ∧ AllSeen see pages rest := by
  by_cases hid : id = 0
  · rw [if_pos hid, chainFrom, if_pos hid]
    constructor
    · rintro rfl
      exact ⟨[], rfl, .nil⟩
    · rintro ⟨_, ⟨⟩, hrest⟩
      exact List.forall₂_nil_left_iff.1 hrest
  · rw [if_neg hid]
    exact h hid

theorem allSeen_cons_iff {page : Page} {read : Except Error (List Page)} :
    (∃ pages, (do let rest ← read; .ok (page :: rest)) = .ok pages ∧ AllSeen see pages seen) ↔
      ∃ a rest, (page.isOverflow = true ∧ see page = .ok a) ∧ seen = a :: rest ∧
        ∃ pages, read = .ok pages ∧ AllSeen see pages rest := by
  constructor
  · rintro ⟨_, hread, hseen⟩
    obtain ⟨pages, hok, ⟨⟩⟩ := bind_eq_ok_iff.1 hread
    obtain ⟨a, rest, hpage, hrest, rfl⟩ := List.forall₂_cons_left_iff.1 hseen
    exact ⟨a, rest, hpage, rfl, pages, hok, hrest⟩
  · rintro ⟨a, rest, hpage, rfl, pages, rfl, hrest⟩
    exact ⟨page :: pages, rfl, .cons hpage hrest⟩

/-- Behind the head both readers go on in the same way. -/
theorem follow_eq_ok_iff (hid : id ≠ 0) :
    follow c see head visited id n = .ok seen ↔
      ∃ pages, chainFrom c head visited id (n + 1) = .ok pages ∧ AllSeen see pages seen := by
  induction n generalizing visited id seen with
  | zero =>
    -- The file has a step left for the page, but none for what is behind it.
    refine iff_of_false error_ne_ok ?_
    rintro ⟨pages, hread, -⟩
    rw [chainFrom, if_neg hid] at hread
    split at hread
    · cases hread
    · obtain ⟨page, -, hrest⟩ := bind_eq_ok_iff.1 hread
      cases hrest
  | succ n ih =>
    rw [chainFrom, if_neg hid]
    by_cases hnew : id ∈ visited
    · rw [follow, if_pos hnew, if_pos hnew]
      exact iff_of_false error_ne_ok not_allSeen_of_error
    rw [if_neg hnew]
    cases hc : c id with
    | error e =>
      rw [follow, if_neg hnew, hc]
      exact iff_of_false error_ne_ok not_allSeen_of_error
    | ok page =>
      rw [ok_bind, allSeen_cons_iff, follow_succ_eq_ok_iff hnew hc]
      refine exists_congr fun a ↦ exists_congr fun rest ↦ and_congr_right fun _ ↦
        and_congr_right fun _ ↦ rest_eq_ok_iff ih

theorem follow_head_eq_ok_iff :
    follow c see head [] head (UInt32.size + 1) = .ok seen ↔
      ∃ pages, chainAt c head = .ok pages ∧ AllSeen see pages seen := by
  have hnew : head ∉ ([] : List PageId) := List.not_mem_nil
  rw [chainAt]
  cases hc : c head with
  | error e =>
    rw [follow, if_neg hnew, hc]
    exact iff_of_false error_ne_ok not_allSeen_of_error
  | ok first =>
    rw [ok_bind, follow_succ_eq_ok_iff hnew hc]
    by_cases hover : first.isOverflow
    · rw [if_pos hover, allSeen_cons_iff]
      refine exists_congr fun a ↦ exists_congr fun rest ↦ and_congr_right fun _ ↦
        and_congr_right fun _ ↦ rest_eq_ok_iff follow_eq_ok_iff
    · rw [if_neg hover]
      refine iff_of_false ?_ not_allSeen_of_error
      rintro ⟨a, rest, ⟨hover', -⟩, -⟩
      exact hover hover'

/-! ## On pools -/

variable [Replacer ρ] [LawfulReplacer ρ] {p : Pool ρ}

theorem walkOverflow_of_settled (hp : p.Settled c) (see : Page → Except Error α)
    (head : PageId) :
    (walkOverflow p see head).1 = follow c see head [] head (UInt32.size + 1) := by
  have hclosed : Closed c Set.univ := ⟨fun _ _ _ _ _ ↦ Set.mem_univ _⟩
  exact (walkOverflow_of_ready hp.ready hclosed
    (fun i _ ↦ ⟨hp.exact i, congrFun hp.content_eq i⟩) (Set.mem_univ head) see).1

/-- Over a willing store, a pool in which no page waits, some frame is to be had and every page can
take one more user walks a chain with success exactly if the file reads the chain and all its pages
are overflow pages. Both then see the same pages in the same order. -/
theorem walkOverflow_eq_ok_iff {file : PageFile} {kind : ReplacerKind} {k capacity : Nat}
    {p : Pool Policy} (hfile : file.Ahead) (hcapacity : k ≤ capacity)
    (hp : Pool.Reached Pool.Permits (Pool.ofFile file (.ofKind capacity kind) k) p)
    (hclean : p.Clean) (hvacant : ¬ p.Crowded) (hcount : ∀ i, ¬ p.Full i)
    (hwilling : p.file.store.Willing)
    (see : Page → Except Error α) (head : PageId) (seen : List α) :
    (walkOverflow p see head).1 = .ok seen ↔
      ∃ pages, (p.file.readChain head).1 = .ok pages ∧
        (∀ page ∈ pages, page.isOverflow = true) ∧ pages.mapM see = .ok seen := by
  have hstart : (Pool.ofFile file (Policy.ofKind capacity kind) k).Sound := sound_ofFile hfile
  have hsettled : p.Settled p.file.stored := hclean.settled (hp.sound hstart)
    (hp.inStep hstart.toSteady (inStep_ofFile hcapacity)) hvacant hwilling hcount
  rw [walkOverflow_of_settled hsettled, readChain_of_willing hwilling, follow_head_eq_ok_iff]
  exact exists_congr fun pages ↦ and_congr_right fun _ ↦ allSeen_iff

/-! ### Chains of two pages -/

/-- A file of two pages. -/
def pairFile (first second : Page) : PageFile :=
  ((PageFile.empty.writePage first).2.writePage second).2

/-- A new page, and another one that is joined to it. -/
def joinedPages : Page × Page := (Page.fresh 0).link (.fresh 1)

section Pair

variable {first second : Page}

private theorem willing_pairFile (first second : Page) : (pairFile first second).store.Willing := by
  rcases hfirst : PageFile.empty.writePage first with ⟨r, f⟩
  rcases hsecond : f.writePage second with ⟨r', g⟩
  rw [pairFile, hfirst, hsecond]
  exact willing_of_writePage (willing_of_writePage willing_empty hfirst) hsecond

private theorem writes_pairFile (hzero : first.id = 0) (second : Page) :
    PageFile.empty.writePage first = (.ok (), (PageFile.empty.writePage first).2) ∧
      (PageFile.empty.writePage first).2.writePage second = (.ok (), pairFile first second) := by
  rcases hfirst : PageFile.empty.writePage first with ⟨r, f⟩
  have hmedium : f.store.medium = .memory := (writePage_cases hfirst).2.medium_eq
  have hext : f.Extensible := extensible_empty.writePage (by rw [hzero]; decide) hfirst
  have hwilling := willing_of_writePage willing_empty hfirst
  have hok : r = .ok () := (congrArg Prod.fst hfirst).symm.trans (fst_writePage_eq_ok_iff.2
    ⟨⟨rfl, Store.canHold_of_memory rfl _⟩, extensible_empty⟩)
  have hok' : (f.writePage second).1 = .ok () := fst_writePage_eq_ok_iff.2
    ⟨⟨hwilling.writes _ (Nat.le_refl _), Store.canHold_of_memory hmedium _⟩, hext⟩
  refine ⟨by rw [hok], Prod.ext hok' ?_⟩
  rw [pairFile, hfirst]

private theorem ahead_pairFile (hzero : first.id = 0) (second : Page) :
    (pairFile first second).Ahead :=
  have hwrites := writes_pairFile hzero second
  ahead_of_writePage hwrites.2 (ahead_of_writePage hwrites.1 ahead_empty)

private theorem stored_pairFile (hfirst : first.Readable) (hzero : first.id = 0)
    (hsecond : second.Readable) (hone : second.id = 1) :
    (pairFile first second).stored 0 = .ok first ∧
      (pairFile first second).stored 1 = .ok second := by
  obtain ⟨hwrite, hwrite'⟩ := writes_pairFile hzero second
  have hstored := stored_of_writePage hwrite
  rw [hzero, pageOf_image_iff.2 ⟨hfirst, hzero⟩] at hstored
  have hstored' := stored_of_writePage hwrite'
  rw [hone, pageOf_image_iff.2 ⟨hsecond, hone⟩] at hstored'
  refine ⟨?_, hstored'⟩
  rw [(exchanges_of_writePage hwrite').stored_eq 0 (by rw [hone]; decide) (has_of_stored hstored)]
  exact hstored

/-- The file reads a second page of any kind. -/
theorem chainAt_pair (hzero : c 0 = .ok first) (hone : c 1 = .ok second)
    (hover : first.isOverflow = true) (hnext : first.next = 1) (hlast : second.next = 0) :
    chainAt c 0 = .ok [first, second] := by
  have hwalk : ChainWalk c 0 first [1] [second] 0 := by
    refine ⟨hzero, hover, ?_, by decide, by decide⟩
    rw [hnext]
    exact .step hone (by rw [hlast]; exact .refl 0)
  exact chainAt_eq_iff.2 (.whole hwalk)

/-- The walk stops at a second page that is no overflow page. -/
theorem follow_pair (hzero : c 0 = .ok first) (hone : c 1 = .ok second)
    (hover : first.isOverflow = true) (hnext : first.next = 1)
    (hstray : ¬ second.isOverflow = true) :
    follow c .ok 0 [] 0 (UInt32.size + 1) = .error (.notOverflowPage 1) := by
  have hbudget : UInt32.size = (UInt32.size - 1) + 1 := rfl
  rw [follow, if_neg (by decide), hzero, ok_bind, if_pos hover, ok_bind, hnext,
    if_neg (by decide), hbudget, follow, if_neg (by decide), hone, ok_bind, if_neg hstray]
  rfl

end Pair

private theorem readable_joinedPages : joinedPages.1.Readable ∧ joinedPages.2.Readable :=
  ⟨(Page.Edit.tidy_apply (e := .linkTo (.fresh 1)) (Page.tidy_fresh 0) rfl).readable,
    (Page.Edit.tidy_apply (e := .linkFrom (.fresh 0)) (Page.tidy_fresh 1) rfl).readable⟩

theorem walkOverflow_eq_ok_iff_pair :
    let p := Pool.ofFile (pairFile joinedPages.1 joinedPages.2) (Policy.ofKind 2 .lru) 2
    p.Clean ∧ ¬ p.Crowded ∧ (∀ i, ¬ p.Full i) ∧ p.file.store.Willing ∧
      (walkOverflow p .ok 0).1 = .ok [joinedPages.1, joinedPages.2] := by
  intro p
  have hfile : (pairFile joinedPages.1 joinedPages.2).Ahead := ahead_pairFile rfl _
  have hwilling : (pairFile joinedPages.1 joinedPages.2).store.Willing := willing_pairFile _ _
  have hvacant : ¬ p.Crowded := (atRest_ofFile hfile (by decide) (Nat.le_refl 2)).vacant
  obtain ⟨hzero, hone⟩ := stored_pairFile readable_joinedPages.1 rfl readable_joinedPages.2 rfl
  have hcount (i : PageId) : ¬ p.Full i := not_full_of_unused users_ofFile
  refine ⟨clean_ofFile, hvacant, hcount, hwilling, ?_⟩
  refine (walkOverflow_eq_ok_iff hfile (Nat.le_refl 2) .start clean_ofFile hvacant hcount hwilling
    .ok 0 _).2 ⟨[joinedPages.1, joinedPages.2], ?_, ?_, rfl⟩
  · exact (readChain_of_willing hwilling 0).trans (chainAt_pair hzero hone rfl rfl rfl)
  · exact List.forall_mem_cons.2 ⟨rfl, List.forall_mem_singleton.2 rfl⟩

/-- A chain that runs into a page of another kind can be read from the file, and cannot be walked
in a pool over that file. -/
theorem strayChain_onlyRead :
    let p := Pool.ofFile (pairFile joinedPages.1 (.fresh 1)) (Policy.ofKind 2 .lru) 2
    p.Clean ∧ ¬ p.Crowded ∧ p.file.store.Willing ∧
      (p.file.readChain 0).1 = .ok [joinedPages.1, .fresh 1] ∧
      (walkOverflow p .ok 0).1 = .error (.notOverflowPage 1) := by
  intro p
  have hfile : (pairFile joinedPages.1 (.fresh 1)).Ahead := ahead_pairFile rfl _
  have hwilling : (pairFile joinedPages.1 (.fresh 1)).store.Willing := willing_pairFile _ _
  have hsettled : p.Settled (pairFile joinedPages.1 (.fresh 1)).stored :=
    settled_ofFile hfile hwilling (by decide) (Nat.le_refl 2)
  obtain ⟨hzero, hone⟩ :=
    stored_pairFile readable_joinedPages.1 rfl (Page.tidy_fresh 1).readable rfl
  refine ⟨clean_ofFile, hsettled.ready.vacant, hwilling, ?_, ?_⟩
  · exact (readChain_of_willing hwilling 0).trans (chainAt_pair hzero hone rfl rfl rfl)
  · rw [walkOverflow_of_settled hsettled]
    exact follow_pair hzero hone rfl rfl (by decide)

end PagedStorage.Heap
