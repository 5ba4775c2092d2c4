import PagedStorage.Proofs.Pool.Readiness

/-!
# Settled pools

A pool is at rest if nobody uses it and no page in it waits to be written, `Pool.AtRest`. Then the
pool shows what the file has, page by page. A pool over a file that was just opened is at rest, and
so is one that was flushed without failure and has no users. So the one shows after the file was
opened again what the other one showed before.

## Settled

If in addition the medium does not fail, the pool is settled, `Pool.Settled`, and who only looks
things up leaves it settled. For this it does not matter that pages are in use, as long as they
all are as the file has them, `Pool.Clean`, and none of them has all users that can be counted.

The pages that a settled pool shows are a parameter, so that two settled pools over different files
can be compared, and a pool of the next opening with one of the last.
-/

namespace PagedStorage.Pool

variable {ρ : Type} {p q : Pool ρ} {id : PageId} {u : Finset PageId}
  {c : PageId → Except Error Page}

theorem Faithful.content_eq_stored (hp : p.Faithful ∅) (hclean : ∀ i, ¬ p.Marked i) (id : PageId) :
    p.content id = p.file.stored id :=
  (hp.at id).content_eq_stored hp.toSteady (Finset.notMem_empty id) (hclean id)

theorem not_crowded_of_unused (hp : p.Sound) (hpos : 0 < p.capacity)
    (hunused : ∀ i, p.users i = 0) : ¬ p.Crowded := by
  intro hcrowded
  obtain ⟨hresident, hpins⟩ := hcrowded 0 hpos
  obtain ⟨i, hi⟩ := (hp.frameOk 0).exists_pageId hresident
  have hfound := hp.find?_iff.2 ⟨hresident, hi⟩
  exact Nat.ne_of_gt ((users_pos_iff hp.toSteady).2 ⟨0, hfound, hpins⟩) (hunused i)

/-! ## Clean pools -/

/-- No page waits to be written: none counts as changed, and each one is as the file has it. -/
structure Clean (p : Pool ρ) : Prop where
  unmarked : ∀ id, ¬ p.Marked id
  stored_eq : ∀ id f, p.table.find? id = some f → p.file.stored id = .ok (p.frame f).page

theorem Clean.faithful (hclean : p.Clean) (hp : p.Sound) : p.Faithful ∅ :=
  ⟨hp, fun f id hf ↦ ⟨(PageFile.readable_of_stored (hclean.stored_eq id f hf)).1,
    fun _ _ ↦ hclean.stored_eq id f hf⟩, fun id hid ↦ absurd hid (Finset.notMem_empty id)⟩

theorem Faithful.clean (hp : p.Faithful ∅) (hunmarked : ∀ i, ¬ p.Marked i) : p.Clean := by
  refine ⟨hunmarked, fun id f hf ↦ ?_⟩
  rw [← hp.content_eq_stored hunmarked, content_of_find? hp.toSteady hf]

theorem clean_ofFile {file : PageFile} {s : ρ} {n : Nat} : (ofFile file s n).Clean := by
  constructor
  · rintro id ⟨f, ⟨⟩, -⟩
  · rintro id f ⟨⟩

variable [Replacer ρ] [LawfulReplacer ρ]

/-! ## Pools at rest -/

/-- A pool that nobody uses and in which no page waits to be written. -/
structure AtRest (p : Pool ρ) : Prop where
  faithful : p.Faithful ∅
  inStep : p.InStep
  vacant : ¬ p.Crowded
  unused : ∀ i, p.users i = 0
  clean : ∀ i, ¬ p.Marked i

theorem AtRest.content_eq_stored (hp : p.AtRest) : p.content = p.file.stored :=
  funext (hp.faithful.content_eq_stored hp.clean)

theorem atRest_of_flushAll (hp : p.Faithful ∅) (hs : p.InStep) (hpos : 0 < p.capacity)
    (hunused : ∀ i, p.users i = 0) (h : p.flushAll = (.ok (), q)) : q.AtRest := by
  have hq := (faithful_of_spares (sound_of_flushAll hp.toSound h)
    fun i ↦ spares_of_flushAll hp.toSound (hp.at i) h).1
  have hunused' (i : PageId) : q.users i = 0 :=
    (users_of_flushAll hp.toSteady h).trans (hunused i)
  refine ⟨hq, inStep_of_flushAll hs h, not_crowded_of_unused hq.toSound ?_ hunused', hunused',
    not_marked_of_flushAll hp.toSound h⟩
  rwa [(steady_of_flushAll hp.toSteady h).2]

theorem atRest_ofFile {file : PageFile} {kind : ReplacerKind} {n capacity : Nat}
    (hfile : file.Ahead) (hpos : 0 < n) (hcapacity : n ≤ capacity) :
    (ofFile file (Policy.ofKind capacity kind) n).AtRest := by
  have hp := faithful_ofFile (s := Policy.ofKind capacity kind) (n := n) hfile
  refine ⟨hp, inStep_ofFile hcapacity, ?_, fun i ↦ users_ofFile, clean_ofFile.unmarked⟩
  refine not_crowded_of_unused hp.toSound ?_ fun i ↦ users_ofFile
  exact hpos.trans_eq Array.size_replicate.symm

/-! ## Settled pools -/

/-- A pool that shows the pages `c`, all of which the file has. -/
structure Settled (c : PageId → Except Error Page) (p : Pool ρ) : Prop where
  ready : p.Ready ∅
  countable : ∀ i, ¬ p.Full i
  clean : ∀ i, ¬ p.Marked i
  content_eq : p.content = c

theorem AtRest.settled (hp : p.AtRest) (hwilling : p.file.store.Willing) : p.Settled p.content :=
  ⟨⟨hp.faithful, hp.inStep, hwilling, fun i hi ↦ absurd hi (hp.clean i), hp.vacant⟩,
    fun i ↦ not_full_of_unused (hp.unused i), hp.clean, rfl⟩

/-- A pool may be settled while its pages are in use. -/
theorem Clean.settled (hclean : p.Clean) (hp : p.Sound) (hs : p.InStep) (hvacant : ¬ p.Crowded)
    (hwilling : p.file.store.Willing) (hcount : ∀ i, ¬ p.Full i) : p.Settled p.file.stored :=
  ⟨⟨hclean.faithful hp, hs, hwilling, fun i hi ↦ absurd hi (hclean.unmarked i), hvacant⟩, hcount,
    hclean.unmarked, funext ((hclean.faithful hp).content_eq_stored hclean.unmarked)⟩

theorem Settled.exact (hp : p.Settled c) (id : PageId) : p.Exact id :=
  ⟨hp.countable id, .inr hp.clean⟩

theorem Settled.of_reads (hp : p.Settled c) (h : p.Reads ∅ q) : q.Settled c :=
  ⟨h.ready, fun i ↦ not_full_congr h.users_eq (hp.countable i),
    fun i hi ↦ hp.clean i (h.marked i hi),
    funext fun i ↦ (h.content_eq i (hp.exact i)).trans (congrFun hp.content_eq i)⟩

theorem settled_ofFile {file : PageFile} {kind : ReplacerKind} {n capacity : Nat}
    (hfile : file.Ahead) (hwilling : file.store.Willing) (hpos : 0 < n) (hcapacity : n ≤ capacity) :
    (ofFile file (Policy.ofKind capacity kind) n).Settled file.stored := by
  have hp : (ofFile file (Policy.ofKind capacity kind) n).AtRest :=
    atRest_ofFile hfile hpos hcapacity
  have hsettled := hp.settled hwilling
  rwa [hp.content_eq_stored] at hsettled

/-! ## Errands that are flushed -/

section Flushing

variable {file : PageFile} {kind : ReplacerKind} {n capacity : Nat} {touched : Set PageId}
  {p q : Pool Policy} {page : Page}

/-- A pool over a file that was just opened is at rest again when an errand is over and was
flushed. -/
theorem Errand.atRest_of_flush
    (h : (ofFile file (Policy.ofKind capacity kind) n).Errand touched [] ∅ p) (hfile : file.Ahead)
    (hpos : 0 < n) (hcapacity : n ≤ capacity) (hflush : p.flushAll = (.ok (), q)) : q.AtRest := by
  have hstart := faithful_ofFile (s := Policy.ofKind capacity kind) (n := n) hfile
  refine atRest_of_flushAll (h.faithful_over hstart)
    (h.inStep hstart.toSound (inStep_ofFile hcapacity)) ?_ (fun i ↦ ?_) hflush
  · rw [h.capacity_eq hstart.toSound]
    exact hpos.trans_eq Array.size_replicate.symm
  · rw [h.users_eq hstart.toSound, users_ofFile, List.count_nil]

theorem Errand.medium_of_flush
    (h : (ofFile file (Policy.ofKind capacity kind) n).Errand touched [] ∅ p) (hfile : file.Ahead)
    (hflush : p.flushAll = (.ok (), q)) : q.file.store.medium = file.store.medium := by
  have hstart := faithful_ofFile (s := Policy.ofKind capacity kind) (n := n) hfile
  exact (served_of_flushAll (h.faithful_over hstart) hflush).medium_eq.trans (h.medium_eq hstart)

/-- The file has the pages that the errand left, and those that it did not touch. -/
theorem Errand.stored_of_flush
    (h : (ofFile file (Policy.ofKind capacity kind) n).Errand touched [] ∅ p) (hfile : file.Ahead)
    (hpos : 0 < n) (hcapacity : n ≤ capacity) (hflush : p.flushAll = (.ok (), q))
    (hpage : p.content id = .ok page ∨ id ∉ touched ∧ file.stored id = .ok page) :
    q.file.stored id = .ok page := by
  have hstart := faithful_ofFile (s := Policy.ofKind capacity kind) (n := n) hfile
  have hcontent : p.content id = .ok page := by
    obtain hpage | ⟨hnot, hpage⟩ := hpage
    · exact hpage
    · have hbefore : (ofFile file (Policy.ofKind capacity kind) n).content id = .ok page :=
        (content_of_absent rfl).trans hpage
      rw [(h.spares hstart.toSound (hstart.at id) hnot).content_eq (holds_of_content hbefore)]
      exact hbefore
  have hp := h.faithful_over hstart
  rw [← (h.atRest_of_flush hfile hpos hcapacity hflush).content_eq_stored,
    (spares_of_flushAll hp.toSound (hp.at id) hflush).content_eq (holds_of_content hcontent)]
  exact hcontent

end Flushing

end PagedStorage.Pool
