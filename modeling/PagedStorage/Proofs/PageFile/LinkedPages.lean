import Mathlib.Data.List.FinRange
import PagedStorage.Proofs.Page.Admission
import PagedStorage.Proofs.PageFile.ChainWalks

/-!
# Pages that are linked and written

To make a chain of pages, each page is linked to the next one, records are added to the pages, and
all of them are written. Neither the order of the links nor that of the writes matters, and records
may come at any time: what is read from the first page on are the pages in the order of the links,
with all their records (`PageFile.readsBack_of_writePages`).

## Links

Two pages that are linked learn the id of each other and nothing else. Ids never change, so a link
is what it has to be as soon as it is made, whatever comes after it (`ChainStep.linked_perform`). It
is a field of the header, and records do not touch it. `ChainStep.Turns` says what one step makes of
one page, and that the page is tidy, has its id, leads where it did and has its records follows for
each step from there.

## Writes

In the file it is the same once more: a page that was written stays as it is while others are
written, in front of it or behind the end of the file (`PageFile.exists_writePages`). The file may
have had any pages before. So the chain is read by the pages that it has, and what else the file
holds is not looked at.
-/

namespace PagedStorage

/-- What is done to the pages number 0 to `n` of a chain before they are written. -/
inductive ChainStep (n : Nat) where
  /-- Links page number `i` to the next one. -/
  | link (i : Fin n)
  /-- Adds a record to page number `i`, if the page takes it. -/
  | add (i : Fin (n + 1)) (record : List UInt8)
deriving DecidableEq

namespace ChainStep

variable {n : Nat}

/-- The pages after a step, with the record that it stored. -/
def perform (pages : Fin (n + 1) → Page) :
    ChainStep n → (Fin (n + 1) → Page) × List (RecordId × List UInt8)
  | link i =>
    let (page, next) := (pages i.castSucc).link (pages i.succ)
    (Function.update (Function.update pages i.castSucc page) i.succ next, [])
  | add i record =>
    match (pages i).add record with
    | .ok (id, page) => (Function.update pages i page, [(id, record)])
    | .error _ => (pages, [])

/-- The pages after steps made one after the other, with the records that were stored. -/
def run (pages : Fin (n + 1) → Page) :
    List (ChainStep n) → (Fin (n + 1) → Page) × List (RecordId × List UInt8)
  | [] => (pages, [])
  | s :: rest =>
    let (pages, stored) := s.perform pages
    let (pages, more) := run pages rest
    (pages, stored ++ more)

end ChainStep

/-- Pages that a chain can be made of. -/
structure Chainable {n : Nat} (pages : Fin (n + 1) → Page) : Prop where
  tidy : ∀ j, (pages j).Tidy
  injective : Function.Injective fun j ↦ (pages j).id
  /-- The link 0 ends a chain, so page 0 can only be the first. -/
  ne_zero : ∀ i : Fin n, (pages i.succ).id ≠ 0
  last_next : (pages (Fin.last n)).next = 0

/-- Page number `i` leads to the next one. -/
def Linked {n : Nat} (pages : Fin (n + 1) → Page) (i : Fin n) : Prop :=
  (pages i.castSucc).isOverflow ∧ (pages i.castSucc).next = (pages i.succ).id

namespace ChainStep

variable {n : Nat} {pages : Fin (n + 1) → Page} {s : ChainStep n} {steps : List (ChainStep n)}
  {i : Fin n}

/-! ## One step -/

/-- What a step makes of one of the pages. -/
inductive Turns (pages : Fin (n + 1) → Page) (s : ChainStep n) (j : Fin (n + 1)) : Page → Prop where
  | same : (∀ i, s = link i → j ≠ i.castSucc) → Turns pages s j (pages j)
  | linkTo (i : Fin n) : s = link i → j = i.castSucc →
    Turns pages s j ((pages j).link (pages i.succ)).1
  | linkFrom (i : Fin n) : s = link i → j = i.succ →
    Turns pages s j ((pages i.castSucc).link (pages j)).2
  | add {record : List UInt8} {id : RecordId} {page : Page} : s = add j record →
    (pages j).add record = .ok (id, page) → Turns pages s j page

theorem turns_perform (pages : Fin (n + 1) → Page) (s : ChainStep n) (j : Fin (n + 1)) :
    Turns pages s j ((s.perform pages).1 j) := by
  cases s with
  | link i =>
    rw [perform]
    dsimp only
    rw [Function.update_apply]
    split
    next hj =>
      subst hj
      exact .linkFrom i rfl rfl
    next hsucc =>
      rw [Function.update_apply]
      split
      next hj =>
        subst hj
        exact .linkTo i rfl rfl
      next hj =>
        refine .same fun k hk ↦ ?_
        cases hk
        exact hj
  | add i record =>
    rw [perform]
    cases hadd : (pages i).add record with
    | error e => exact .same (by rintro k ⟨⟩)
    | ok result =>
      obtain ⟨id, page⟩ := result
      dsimp only
      rw [Function.update_apply]
      split
      next hj =>
        subst hj
        exact .add rfl hadd
      next hj => exact .same (by rintro k ⟨⟩)

namespace Turns

variable {j : Fin (n + 1)} {page : Page}

private theorem id_eq (h : Turns pages s j page) : page.id = (pages j).id := by
  cases h with
  | same | linkTo | linkFrom => rfl
  | add _ hadd => exact Page.Edit.id_apply (Page.Edit.apply_add hadd)

private theorem tidy (h : Turns pages s j page) (hp : (pages j).Tidy) : page.Tidy := by
  cases h with
  | same => exact hp
  | linkTo i => exact Page.Edit.tidy_apply (e := .linkTo (pages i.succ)) hp rfl
  | linkFrom i => exact Page.Edit.tidy_apply (e := .linkFrom (pages i.castSucc)) hp rfl
  | add _ hadd => exact Page.Edit.tidy_apply hp (Page.Edit.apply_add hadd)

theorem links (h : Turns pages s j page) (hp : (pages j).Tidy) :
    ((∀ i, s = link i → j ≠ i.castSucc) → page.next = (pages j).next) ∧
      ((pages j).isOverflow → page.isOverflow) := by
  cases h with
  | same => exact ⟨fun _ ↦ rfl, id⟩
  | linkTo i hs hj => exact ⟨fun hne ↦ absurd hj (hne i hs), fun _ ↦ rfl⟩
  | linkFrom => exact ⟨fun _ ↦ rfl, fun _ ↦ rfl⟩
  | add _ hadd =>
    obtain ⟨hnext, hover⟩ := Page.links_of_add hp.readable.describes hadd
    exact ⟨fun _ ↦ hnext, fun hflag ↦ hover.trans hflag⟩

end Turns

theorem id_perform (pages : Fin (n + 1) → Page) (s : ChainStep n) (j : Fin (n + 1)) :
    ((s.perform pages).1 j).id = (pages j).id := (turns_perform pages s j).id_eq

theorem chainable_perform (h : Chainable pages) (s : ChainStep n) :
    Chainable (s.perform pages).1 where
  tidy j := (turns_perform pages s j).tidy (h.tidy j)
  injective a b hab := h.injective (by simpa only [id_perform] using hab)
  ne_zero i := by
    rw [id_perform]
    exact h.ne_zero i
  last_next := by
    have hnext := ((turns_perform pages s (Fin.last n)).links (h.tidy _)).1
    rw [hnext fun i _ ↦ Fin.ne_of_gt (Fin.castSucc_lt_last i)]
    exact h.last_next

theorem linked_perform (h : Chainable pages) (hi : s = link i ∨ Linked pages i) :
    Linked (s.perform pages).1 i := by
  rw [Linked, id_perform]
  by_cases hs : s = link i
  · subst hs
    have hpage : ((link i).perform pages).1 i.castSucc =
        ((pages i.castSucc).link (pages i.succ)).1 := by
      rw [perform]
      dsimp only
      rw [Function.update_of_ne (Fin.ne_of_lt Fin.castSucc_lt_succ), Function.update_self]
    rw [hpage]
    exact ⟨rfl, rfl⟩
  · obtain ⟨hflag, hnext⟩ := hi.resolve_left hs
    obtain ⟨hkeeps, hflags⟩ := (turns_perform pages s i.castSucc).links (h.tidy _)
    refine ⟨hflags hflag, (hkeeps fun k hk heq ↦ hs ?_).trans hnext⟩
    rw [hk, Fin.castSucc_inj.1 heq]

theorem get_perform (h : Chainable pages) (s : ChainStep n) (j : Fin (n + 1)) (id : RecordId)
    (record : List UInt8) : ((s.perform pages).1 j).get id = .ok record ↔
      (pages j).get id = .ok record ∨
        id.page = (pages j).id ∧ (id, record) ∈ (s.perform pages).2 := by
  cases s with
  | link i =>
    have hmap := Page.actsAsRecordMap_of_tidy (h.tidy j)
    have hget : (((link i).perform pages).1 j).get = (pages j).get := by
      generalize hpage : ((link i).perform pages).1 j = page
      cases hpage ▸ turns_perform pages (link i) j with
      | same => rfl
      | linkTo k => exact hmap.link_left _
      | linkFrom k => exact hmap.link_right _
      | add hs => cases hs
    have hstored : ((link i).perform pages).2 = [] := rfl
    simp [hget, hstored]
  | add i stored =>
    rw [perform]
    cases hadd : (pages i).add stored with
    | error e => simp
    | ok result =>
      obtain ⟨new, page⟩ := result
      have hnew := ((Page.actsAsRecordMap_of_tidy (h.tidy i)).add_ok _ _ _ hadd).1
      simp only [List.mem_singleton, Prod.mk.injEq]
      by_cases hj : j = i
      · subst hj
        rw [Function.update_self, Page.get_of_add_iff (h.tidy j) hadd]
        refine or_congr_right (and_iff_right_of_imp ?_).symm
        rintro ⟨rfl, -⟩
        exact hnew
      · rw [Function.update_of_ne hj]
        refine (or_iff_left ?_).symm
        rintro ⟨hpage, rfl, -⟩
        exact hj (h.injective (hpage.symm.trans hnew))

/-! ## Runs -/

private theorem chainable_run (h : Chainable pages) (steps : List (ChainStep n)) :
    Chainable (run pages steps).1 := by
  induction steps generalizing pages with
  | nil => exact h
  | cons s rest ih => exact ih (chainable_perform h s)

private theorem id_run (pages : Fin (n + 1) → Page) (steps : List (ChainStep n)) (j : Fin (n + 1)) :
    ((run pages steps).1 j).id = (pages j).id := by
  induction steps generalizing pages with
  | nil => rfl
  | cons s rest ih => exact (ih _).trans (id_perform pages s j)

theorem linked_run (h : Chainable pages) (hi : link i ∈ steps ∨ Linked pages i) :
    Linked (run pages steps).1 i := by
  induction steps generalizing pages with
  | nil => exact hi.resolve_left List.not_mem_nil
  | cons s rest ih =>
    refine ih (chainable_perform h s) ?_
    obtain hmem | hlinked := hi
    · obtain hs | hmem := List.mem_cons.1 hmem
      · exact .inr (linked_perform h (.inl hs.symm))
      · exact .inl hmem
    · exact .inr (linked_perform h (.inr hlinked))

private theorem get_run (h : Chainable pages) (steps : List (ChainStep n)) (j : Fin (n + 1))
    (id : RecordId) (record : List UInt8) : ((run pages steps).1 j).get id = .ok record ↔
      (pages j).get id = .ok record ∨
        id.page = (pages j).id ∧ (id, record) ∈ (run pages steps).2 := by
  induction steps generalizing pages with
  | nil => simp [run]
  | cons s rest ih =>
    have hrun : (run pages (s :: rest)).2 =
      (s.perform pages).2 ++ (run (s.perform pages).1 rest).2 := rfl
    have hrest := ih (chainable_perform h s)
    rw [id_perform, get_perform h] at hrest
    rw [hrun, List.mem_append, and_or_left, ← or_assoc]
    exact hrest

end ChainStep

namespace PageFile

variable {n : Nat} {pages : Fin (n + 1) → Page} {steps : List (ChainStep n)} {f g : PageFile}
  {written : List Page} {c : PageId → Except Error Page}

/-! ## Writing in any order -/

/-- Pages with different ids are all in the file once they were written, and a page that was in the
file and is none of them is as it was. -/
theorem exists_writePages (hf : f.store.Willing) (hext : f.Extensible)
    (hfits : ∀ p ∈ written, f.Fits p.id) (hreadable : ∀ p ∈ written, p.Readable)
    (hids : (written.map (·.id)).Nodup) :
    ∃ g, f.writePages written = (.ok (), g) ∧ g.store.Willing ∧
      (∀ p ∈ written, g.stored p.id = .ok p) ∧
        ∀ i, i ∉ written.map (·.id) → f.Has i → g.stored i = f.stored i := by
  induction written generalizing f with
  | nil => exact ⟨f, rfl, hf, fun p hp ↦ absurd hp List.not_mem_nil, fun _ _ _ ↦ rfl⟩
  | cons p rest ih =>
    obtain ⟨hfit, hfits⟩ := List.forall_mem_cons.1 hfits
    obtain ⟨hread, hreadable⟩ := List.forall_mem_cons.1 hreadable
    rw [List.map_cons, List.nodup_cons] at hids
    have hwrite : f.writePage p = (.ok (), (f.writePage p).2) :=
      Prod.ext (fst_writePage_of_canHold hf hext hfit.1) rfl
    have hmedium := (writePage_cases hwrite).2.medium_eq
    have hstored : (f.writePage p).2.stored p.id = .ok p :=
      (stored_of_writePage hwrite).trans (pageOf_image_iff.2 ⟨hread, rfl⟩)
    obtain ⟨g, hrest, hg, hwritten, hothers⟩ := ih (willing_of_writePage hf hwrite)
      (hext.writePage hfit.2 hwrite)
      (fun q hq ↦ (hfits q hq).imp_left (Store.canHold_congr hmedium).2) hreadable hids.2
    have hex := exchanges_of_writePage hwrite
    refine ⟨g, ?_, hg, ?_, fun i hi hhas ↦ ?_⟩
    · rw [writePages, hwrite]
      exact hrest
    · refine List.forall_mem_cons.2 ⟨?_, hwritten⟩
      rw [hothers p.id hids.1 (has_of_stored hstored), hstored]
    · rw [List.map_cons, List.mem_cons, not_or] at hi
      rw [hothers i hi.2 (hex.has_of_has i hhas), hex.stored_eq i hi.1 hhas]

/-! ## Reading in the order of the links -/

private theorem route_of_linked (hread : ∀ j, c (pages j).id = .ok (pages j))
    (hlinks : ∀ i, Linked pages i) (hlast : (pages (Fin.last n)).next = 0) :
    Route c (pages 0).next (List.ofFn fun i : Fin n ↦ (pages i.succ).id)
      (List.ofFn fun i : Fin n ↦ pages i.succ) 0 := by
  induction n with
  | zero =>
    have hnext : (pages 0).next = 0 := hlast
    rw [hnext]
    exact .refl 0
  | succ n ih =>
    have hfirst : (pages 0).next = (pages (Fin.succ 0)).id := (hlinks 0).2
    rw [List.ofFn_succ, List.ofFn_succ, hfirst]
    exact .step (hread _) (@ih (fun j ↦ pages j.succ) (fun j ↦ hread j.succ)
      (fun i ↦ hlinks i.succ) hlast)

/-- Linked pages that are in the file are read from the first one on. -/
theorem chainAt_of_linked (hn : 0 < n) (h : Chainable pages)
    (hread : ∀ j, c (pages j).id = .ok (pages j)) (hlinks : ∀ i, Linked pages i) :
    chainAt c (pages 0).id = .ok (List.ofFn pages) := by
  have hroute := route_of_linked hread hlinks h.last_next
  have hids : ((pages 0).id :: List.ofFn fun i : Fin n ↦ (pages i.succ).id).Nodup := by
    have hcons : (List.ofFn fun j ↦ (pages j).id) =
        (pages 0).id :: List.ofFn fun i : Fin n ↦ (pages i.succ).id := List.ofFn_succ
    rw [← hcons]
    exact List.nodup_ofFn.2 h.injective
  have hzero : 0 ∉ List.ofFn fun i : Fin n ↦ (pages i.succ).id := fun hmem ↦ by
    obtain ⟨i, hi⟩ := List.mem_ofFn.1 hmem
    exact h.ne_zero i hi
  rw [List.ofFn_succ]
  exact chainAt_eq_iff.2 (.whole ⟨hread 0, (hlinks ⟨0, hn⟩).1, hroute, hids, hzero⟩)

/-- The pages `last`, which were made of `pages`, are read back from the file. -/
structure ReadsBack (g : PageFile) (pages last : Fin (n + 1) → Page)
    (stored : List (RecordId × List UInt8)) : Prop where
  readChain_eq : (g.readChain (pages 0).id).1 = .ok (List.ofFn last)
  id_eq : ∀ j, (last j).id = (pages j).id
  /-- A page has the records that it had before, and those that were added to it. -/
  get_iff : ∀ j id record, (last j).get id = .ok record ↔
    (pages j).get id = .ok record ∨ id.page = (pages j).id ∧ (id, record) ∈ stored

/-- Two or more pages are linked, each to the next one, and take records; then they are written.
Whatever the order of the links and the records is, and that of the writes, and whatever file they
are written to, they are read back in the order of the chain. The page with the last id may not be
among them or in the file. -/
theorem readsBack_of_writePages (hn : 0 < n) (h : Chainable pages)
    (hlinks : ∀ i, ChainStep.link i ∈ steps)
    (hwritten : written.Perm (List.ofFn (ChainStep.run pages steps).1))
    (hf : f.store.Willing) (hext : f.Extensible) (hfits : ∀ j, f.Fits (pages j).id) :
    ∃ g, f.writePages written = (.ok (), g) ∧
      g.ReadsBack pages (ChainStep.run pages steps).1 (ChainStep.run pages steps).2 := by
  have hlast := ChainStep.chainable_run h steps
  have hid := ChainStep.id_run pages steps
  have hmem (p : Page) : p ∈ written ↔ ∃ j, (ChainStep.run pages steps).1 j = p := by
    rw [hwritten.mem_iff, List.mem_ofFn]
  have hfits' : ∀ p ∈ written, f.Fits p.id := fun p hp ↦ by
    obtain ⟨j, rfl⟩ := (hmem p).1 hp
    rw [hid]
    exact hfits j
  have hreadable : ∀ p ∈ written, p.Readable := fun p hp ↦ by
    obtain ⟨j, rfl⟩ := (hmem p).1 hp
    exact (hlast.tidy j).readable
  have hids : (written.map (·.id)).Nodup := by
    rw [(hwritten.map _).nodup_iff, List.map_ofFn]
    exact List.nodup_ofFn.2 hlast.injective
  obtain ⟨g, hwrites, hg, hstored, -⟩ := exists_writePages hf hext hfits' hreadable hids
  refine ⟨g, hwrites, ?_, hid, ChainStep.get_run h steps⟩
  rw [readChain_of_willing hg, ← hid 0]
  exact chainAt_of_linked hn hlast (fun j ↦ hstored _ ((hmem _).2 ⟨j, rfl⟩))
    fun i ↦ ChainStep.linked_run h (.inl (hlinks i))

/-- Three new pages, the second of which has the largest id. -/
def threePages : Fin 3 → Page := fun j ↦ .fresh ([0, 5, 2][j])

/-- The links are made from the end, and a record comes in between. -/
def threeSteps : List (ChainStep 2) := [.link 1, .add 1 (List.replicate 9 7), .link 0]

private theorem chainable_threePages : Chainable threePages where
  tidy j := Page.tidy_fresh _
  injective := (by decide : ∀ a b, (threePages a).id = (threePages b).id → a = b)
  ne_zero := by decide
  last_next := rfl

/-- The last page is written first, to an empty file. -/
theorem readsBack_of_writePages_reverse :
    Chainable threePages ∧ (∀ i, ChainStep.link i ∈ threeSteps) ∧
      (ChainStep.run threePages threeSteps).2 = [(⟨5, 0⟩, List.replicate 9 7)] ∧
      ∃ g, empty.writePages (List.ofFn (ChainStep.run threePages threeSteps).1).reverse =
          (.ok (), g) ∧
        g.ReadsBack threePages (ChainStep.run threePages threeSteps).1
          (ChainStep.run threePages threeSteps).2 := by
  have hlinks : ∀ i, ChainStep.link i ∈ threeSteps := by decide
  have hids : ∀ j, (threePages j).id.toNat + 1 < UInt32.size := by decide
  exact ⟨chainable_threePages, hlinks, by decide +kernel,
    readsBack_of_writePages (by decide) chainable_threePages hlinks (List.reverse_perm _)
      willing_empty extensible_empty fun j ↦ ⟨Store.canHold_of_memory rfl _, hids j⟩⟩

end PageFile

end PagedStorage
