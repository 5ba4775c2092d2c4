import PagedStorage.Proofs.Heap.Walks
import PagedStorage.Proofs.Pool.Appearing

/-!
# What is in sight

Into a pool all frames of which have pages in use no other page can be brought. There only those
pages are in sight, and in any other pool all pages are, unless a page has so many users that no
more can be counted, `Pool.sight`.

## Before and after

Whatever the medium fails and whatever is written back meanwhile: what is seen on a walk that comes
to its end was in sight before, since the pages that appear on the way are fresh ones and belong to
no chain (`follow_of_walkChain`). And once the medium fails no call, what is in sight can be seen,
as long as the pages that give up their frames can be written back, `Heap.readOverflow_eq_ok_iff`.

So a record that could be read once can be read later if its pages are still in sight. Neither
direction asks that the pool shows a page under every id in advance: a walk that comes to its end
has seen pages of a chain only, and these do not appear on the way.
-/

namespace PagedStorage

namespace Pool

variable {ρ : Type} {p q t : Pool ρ} {id i : PageId} {u : Finset PageId} {touched : Set PageId}
  {page : Page} {g : Guard}

/-- What users get to see, if the medium lets them: with all frames in use, the pages in use, and
no page that has as many users as can be counted. -/
def sight (p : Pool ρ) (id : PageId) : Except Error Page :=
  if p.Full id then .error (.fault .counterOverflow)
  else if p.Crowded ∧ p.users id = 0 then .error .poolExhausted
  else p.content id

theorem sight_eq_ok_iff : p.sight id = .ok page ↔
    ¬ p.Full id ∧ (p.Crowded → 0 < p.users id) ∧ p.content id = .ok page := by
  rw [sight]
  split
  next hfull => exact iff_of_false error_ne_ok fun h ↦ h.1 hfull
  next hfull =>
    rw [and_iff_right hfull]
    split
    next h => exact iff_of_false error_ne_ok fun hused ↦ Nat.ne_of_gt (hused.1 h.1) h.2
    next h =>
      refine (and_iff_right fun hcrowded ↦ ?_).symm
      exact Nat.pos_of_ne_zero fun hnone ↦ h ⟨hcrowded, hnone⟩

variable [Replacer ρ]

/-- What is in sight stays there while somebody works on other pages. -/
theorem Errand.sight_eq_ok (h : p.Errand touched [] ∅ q) (hp : p.Faithful u) (hi : i ∉ touched)
    (hpage : p.sight i = .ok page) : q.sight i = .ok page := by
  obtain ⟨hfull, hused, hcontent⟩ := sight_eq_ok_iff.1 hpage
  rw [sight_eq_ok_iff, h.crowded_iff hp.toSound, h.users_eq hp.toSound,
    (h.spares hp.toSound (hp.at i) hi).content_eq (holds_of_content hcontent)]
  exact ⟨not_full_congr (h.users_eq hp.toSound) hfull, hused, hcontent⟩

theorem Errand.sight_of_isOverflow (h : p.Errand touched [] ∅ q) (hp : p.Faithful u)
    (hwhole : p.file.Whole) (hi : i ∉ touched) (hpage : q.sight i = .ok page)
    (hover : page.isOverflow = true) : p.sight i = .ok page := by
  obtain ⟨hfull, hused, hcontent⟩ := sight_eq_ok_iff.1 hpage
  have husers (j : PageId) : q.users j = p.users j := h.users_eq hp.toSound j
  rw [h.crowded_iff hp.toSound, husers] at hused
  refine sight_eq_ok_iff.2 ⟨not_full_congr (fun j ↦ (husers j).symm) hfull, hused, ?_⟩
  by_cases hholds : p.Holds i
  · rw [← (h.spares hp.toSound (hp.at i) hi).content_eq hholds]
    exact hcontent
  · obtain rfl := h.blank hp hwhole hi (blank_of_not_holds hholds) page hcontent
    cases hover

variable [LawfulReplacer ρ]

private theorem sight_of_guard (hp : p.Faithful u) (hs : p.InStep) (hwhole : p.file.Whole)
    (h : p.guard id = (.ok g, t)) (hover : (t.page g.handle).isOverflow = true) :
    p.sight id = .ok (t.page g.handle) := by
  obtain ⟨hfetch, rfl, -⟩ := fetch_of_guard h
  refine sight_eq_ok_iff.2 ⟨not_full_of_fetch hp.toSteady hfetch,
    fun hcrowded ↦ Nat.pos_of_ne_zero fun hunused ↦ ?_, ?_⟩
  · have hfails := fetch_of_crowded hp.toSteady hs hcrowded hunused
    rw [hfetch] at hfails
    cases hfails
  · by_cases hholds : p.Holds g.page
    · exact Heap.shows_of_guard hp.toSound h u (hp.at _) hholds
    · have hcontent := (grips_of_guard hp.toSound h).content_eq
        (sound_of_fetch hp.toSound hfetch).toSteady
      rw [blank_of_fetch hp.toSound hwhole hholds hfetch _ hcontent] at hover
      cases hover

/-! ## Pools that can write back -/

/-- A page in sight can be pinned. -/
theorem CanWriteBack.guard_ok (hback : p.CanWriteBack) (hp : p.Faithful u)
    (hpage : p.sight id = .ok page) :
    ∃ g t, p.guard id = (.ok g, t) ∧ t.page g.handle = page ∧ p.Errand ∅ [] ∅ (t.release g) ∧
      (t.release g).CanWriteBack := by
  obtain ⟨hfull, hused, hcontent⟩ := sight_eq_ok_iff.1 hpage
  have hholds := holds_of_content hcontent
  rcases hguard : p.guard id with ⟨r, t⟩
  cases r with
  | error e =>
    have hfetch := fetch_of_guard_error hguard
    by_cases hcrowded : p.Crowded
    · obtain ⟨f, hf, -⟩ := (users_pos_iff hp.toSteady).1 (hused hcrowded)
      obtain ⟨hcount, -⟩ | ⟨-, -, -, ⟨⟩, -⟩ | ⟨hnew, -⟩ := fetch_cases hp.toSteady hfetch
      · exact absurd hcount hfull
      · cases hnew.symm.trans hf
    · have hready : p.Ready u := CanInstall.ready ⟨hback, hcrowded⟩ hp
      have hsame := hready.fetch_eq ⟨hfull, .inl hholds⟩ hfetch
      rw [hcontent] at hsame
      cases hsame
  | ok g =>
    have hvisit : p.Errand ∅ [] ∅ (t.release g) := Heap.errand_of_visit hguard g.dirty
    refine ⟨g, t, rfl, ?_, hvisit, hback.of_visit hguard⟩
    exact Except.ok.inj ((Heap.shows_of_guard hp.toSound hguard u (hp.at id) hholds).symm.trans
      hcontent)

end Pool

namespace Heap

open Pool

variable {α β ρ : Type} {see : Page → Except Error α} {head id i : PageId} {visited : List PageId}
  {n : Nat} {seen : List α} {p q : Pool ρ} {u : Finset PageId} {data : List UInt8}

/-! ## Walks that come to their end -/

section Walks

variable [Replacer ρ]

theorem walkChain_succ_eq_ok_iff :
    walkChain p see head visited id (n + 1) = (.ok seen, q) ↔
      id ∉ visited ∧ ∃ g t a rest, p.guard id = (.ok g, t) ∧
        ((t.page g.handle).isOverflow = true ∧ see (t.page g.handle) = .ok a) ∧ seen = a :: rest ∧
        if (t.page g.handle).next = 0 then rest = [] ∧ t.release g = q
        else walkChain (t.release g) see head (id :: visited) (t.page g.handle).next n =
          (.ok rest, q) := by
  constructor
  · intro h
    rw [walkChain] at h
    split at h
    next => cases h
    next hnew =>
    refine ⟨hnew, ?_⟩
    split at h
    next => cases h
    next g t hguard =>
    simp only at h
    split at h
    next hover =>
      split at h
      next => cases h
      next a hsee =>
        split at h
        next hlast =>
          cases h
          exact ⟨g, t, a, [], hguard, ⟨hover, hsee⟩, rfl, by rw [if_pos hlast]; exact ⟨rfl, rfl⟩⟩
        next hlast =>
          split at h
          next => cases h
          next rest s hrest =>
            cases h
            exact ⟨g, t, a, rest, hguard, ⟨hover, hsee⟩, rfl, by rw [if_neg hlast]; exact hrest⟩
    next => cases h
  · rintro ⟨hnew, g, t, a, rest, hguard, ⟨hover, hsee⟩, rfl, hrest⟩
    rw [walkChain, if_neg hnew, hguard]
    simp only [if_pos hover, hsee]
    split at hrest
    next hlast =>
      obtain ⟨rfl, rfl⟩ := hrest
      rw [if_pos hlast]
    next hlast => rw [if_neg hlast, hrest]

variable [LawfulReplacer ρ]

theorem follow_of_walkChain (hp : p.Faithful u) (hs : p.InStep) (hwhole : p.file.Whole)
    (h : walkChain p see head visited id n = (.ok seen, q)) :
    follow p.sight see head visited id n = .ok seen := by
  induction n generalizing p visited id seen with
  | zero => cases h
  | succ n ih =>
    obtain ⟨hnew, g, t, a, rest, hguard, ⟨hover, hsee⟩, hseen, hrest⟩ :=
      walkChain_succ_eq_ok_iff.1 h
    have hvisit : p.Errand ∅ [] ∅ (t.release g) := errand_of_visit hguard g.dirty
    refine (follow_succ_eq_ok_iff hnew (sight_of_guard hp hs hwhole hguard hover)).2
      ⟨a, rest, ⟨hover, hsee⟩, hseen, ?_⟩
    split at hrest
    next hlast =>
      rw [if_pos hlast]
      exact hrest.1
    next hlast =>
      rw [if_neg hlast]
      have hfollow := ih (hvisit.faithful_over hp) (hvisit.inStep hp.toSound hs)
        (hvisit.whole hp hwhole) hrest
      exact follow_mono (fun i page ↦ hvisit.sight_of_isOverflow hp hwhole (Set.notMem_empty i))
        hfollow

/-- All that is in sight is seen if pages can be written back. -/
theorem walkChain_of_sight (hp : p.Faithful u) (hback : p.CanWriteBack)
    (h : follow p.sight see head visited id n = .ok seen) :
    ∃ q, walkChain p see head visited id n = (.ok seen, q) := by
  induction n generalizing p visited id seen with
  | zero => exact absurd h error_ne_ok
  | succ n ih =>
    obtain ⟨hnew, page, a, rest, hpage, hsee, hseen, hrest⟩ := exists_of_follow h
    obtain ⟨g, t, hguard, rfl, hvisit, hback'⟩ := hback.guard_ok hp hpage
    split at hrest
    next hlast =>
      refine ⟨t.release g, walkChain_succ_eq_ok_iff.2
        ⟨hnew, g, t, a, rest, hguard, hsee, hseen, ?_⟩⟩
      rw [if_pos hlast]
      exact ⟨hrest, rfl⟩
    next hlast =>
      have hfollow := follow_mono (fun i page hi _ ↦
        hvisit.sight_eq_ok hp (Set.notMem_empty i) hi) hrest
      obtain ⟨q, hq⟩ := ih (hvisit.faithful_over hp) hback' hfollow
      refine ⟨q, walkChain_succ_eq_ok_iff.2 ⟨hnew, g, t, a, rest, hguard, hsee, hseen, ?_⟩⟩
      rw [if_neg hlast]
      exact hq

end Walks

/-! ## Records that can be read -/

variable [Replacer ρ]

theorem readOverflow_eq_ok :
    readOverflow p head = (.ok data, q) ↔ ∃ parts,
      walkOverflow p recordBytes head = (.ok parts, q) ∧ parts.flatten = data := by
  rw [readOverflow]
  split
  next e t hwalk =>
    rw [show walkOverflow p recordBytes head = (.error e, t) from hwalk]
    simp only [Prod.mk.injEq, reduceCtorEq, false_and, exists_false]
  next parts t hwalk =>
    rw [show walkOverflow p recordBytes head = (.ok parts, t) from hwalk]
    constructor
    · rintro ⟨⟩
      exact ⟨parts, rfl, rfl⟩
    · rintro ⟨_, ⟨⟩, rfl⟩
      rfl

variable [LawfulReplacer ρ]

theorem recordAt_of_readOverflow (hp : p.Faithful u) (hs : p.InStep) (hwhole : p.file.Whole)
    (h : readOverflow p head = (.ok data, q)) : recordAt p.sight head = .ok data := by
  obtain ⟨parts, hwalk, hparts⟩ := readOverflow_eq_ok.1 h
  exact recordAt_eq_ok_iff_follow.2 ⟨parts, follow_of_walkChain hp hs hwhole hwalk, hparts⟩

theorem readOverflow_of_sight (hp : p.Faithful u) (hback : p.CanWriteBack)
    (h : recordAt p.sight head = .ok data) : (readOverflow p head).1 = .ok data := by
  obtain ⟨parts, hfollow, hparts⟩ := recordAt_eq_ok_iff_follow.1 h
  obtain ⟨q, hwalk⟩ := walkChain_of_sight hp hback hfollow
  exact congrArg Prod.fst (readOverflow_eq_ok.2 ⟨parts, hwalk, hparts⟩)

/-- What is read is what is in sight, if pages can be written back. -/
theorem readOverflow_eq_ok_iff (hp : p.Faithful u) (hback : p.CanWriteBack)
    (hwhole : p.file.Whole) :
    (readOverflow p head).1 = .ok data ↔ recordAt p.sight head = .ok data :=
  ⟨fun h ↦ recordAt_of_readOverflow hp hback.inStep hwhole (Prod.ext h rfl),
    readOverflow_of_sight hp hback⟩

end Heap

end PagedStorage
