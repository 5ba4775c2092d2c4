import PagedStorage.Proofs.Pool.Candidates
import PagedStorage.Proofs.Pool.Transparency

/-!
# The users of a page

How many pins a page has is a number that belongs to the page and not to a frame: a page in no
frame has none. Only pinning and unpinning change it, `Pool.users`, since no page leaves its frame
while it has a user. In particular a pool is as crowded after some calls as it was before if every
page has as many users as before, whichever frames the pages are in.

## Counting frames by pages

Different frames in use hold different pages in use, if the pool is sound. So the frames in use can
be counted by pages (`card_busyFrames_le_add`), and this is how two pools are compared whose pages
are in different frames. It is what makes "as many frames as before" follow from "as many users as
before".

## Deleting

A page that is deleted has no user. What is there under all other ids stays, and the page itself
reads as a fresh one if the file did it. The page is taken out of its frame first, `Pool.Drops`,
and this does not depend on whether the file can do its part. If the file fails, the page is in no
frame and is what the file has of it, which is why a deletion is not among the calls that keep
contents.

## Usage

`Usage` is `Session` with deletions and without the claim that contents stay: the pools that careful
users reach who may also delete pages. They are faithful and in step, and that is what calls of
heaps start from.
-/

namespace PagedStorage.Pool

variable {ρ : Type} {p q t : Pool ρ} {f : Nat} {id i : PageId} {u : Finset PageId}

/-- The number of pins of a page. -/
def users (p : Pool ρ) (id : PageId) : Nat := (p.pinCount? id).getD 0

theorem users_of_find? (hp : p.Steady) (hf : p.table.find? id = some f) :
    p.users id = (p.frame f).pins.toNat := by
  have hresident := ((hp.frameOk f).of_find? id hf).1
  rw [users, pinCount?, residentFrame?_eq_some_iff.2 ⟨hf, hresident⟩]
  rfl

/-- A page is full with all users that can be counted. -/
theorem full_iff_users : p.Full id ↔ p.users id + 1 = UInt32.size := by
  rw [Full, users]
  cases p.pinCount? id with
  | none => exact iff_of_false (Option.some_ne_none _).symm (by decide)
  | some n =>
    rw [Option.some_inj, Option.getD_some]
    unfold UInt32.size
    omega

theorem not_full_of_unused (h : p.users id = 0) : ¬ p.Full id := by
  rw [full_iff_users, h]
  decide

theorem not_full_congr (h : ∀ i, q.users i = p.users i) (hid : ¬ p.Full id) : ¬ q.Full id := by
  rwa [full_iff_users, h, ← full_iff_users]

theorem users_of_absent (hid : p.table.find? id = none) : p.users id = 0 := by
  rw [users, pinCount?, residentFrame?, hid]
  rfl

theorem users_pos_iff (hp : p.Steady) :
    0 < p.users id ↔ ∃ f, p.table.find? id = some f ∧ 0 < (p.frame f).pins := by
  cases hf : p.table.find? id with
  | none =>
    rw [users_of_absent hf]
    exact iff_of_false (Nat.lt_irrefl 0) (by rintro ⟨f, ⟨⟩, -⟩)
  | some f =>
    rw [users_of_find? hp hf]
    exact ⟨fun hpins ↦ ⟨f, rfl, hpins⟩, fun ⟨g, hg, hpins⟩ ↦ Option.some.inj hg ▸ hpins⟩

theorem pinCount?_ne_some_one (h : p.users id ≠ 1) : p.pinCount? id ≠ some 1 := by
  rintro heq
  rw [users, heq] at h
  exact h rfl

theorem users_ofFile {file : PageFile} {s : ρ} {n : Nat} : (ofFile file s n).users id = 0 :=
  users_of_absent rfl

theorem users_congr (hframes : q.frames = p.frames) (htable : q.table = p.table) :
    q.users i = p.users i := by
  rw [users, users, pinCount?, pinCount?, residentFrame?, residentFrame?, htable]
  simp only [frame, hframes]

/-! ## Crowded pools -/

/-- The frames with a page in use. -/
def busyFrames (p : Pool ρ) : Finset Nat :=
  {f ∈ Finset.range p.capacity | (p.frame f).isResident ∧ 0 < (p.frame f).pins}

@[simp] theorem mem_busyFrames :
    f ∈ p.busyFrames ↔ (p.frame f).isResident ∧ 0 < (p.frame f).pins := by
  rw [busyFrames, Finset.mem_filter, Finset.mem_range, and_iff_right_iff_imp]
  exact fun h ↦ lt_capacity_of_isResident h.1

theorem crowded_iff : p.Crowded ↔ p.capacity ≤ p.busyFrames.card := by
  have hsub : p.busyFrames ⊆ Finset.range p.capacity := Finset.filter_subset _ _
  constructor
  · intro hcrowded
    have heq : p.busyFrames = Finset.range p.capacity := Finset.filter_true_of_mem fun f hf ↦
      hcrowded f (Finset.mem_range.1 hf)
    rw [heq, Finset.card_range]
  · intro hle f hf
    have heq := Finset.eq_of_subset_of_card_le hsub (by rwa [Finset.card_range])
    exact mem_busyFrames.1 (heq ▸ Finset.mem_range.2 hf)

/-- Different frames in use hold different pages in use, so there are no more of them than frames
in use elsewhere, with the pages that are in use here only. -/
theorem card_busyFrames_le_add (hp : p.Sound) (hq : q.Sound) (s : Finset PageId)
    (h : ∀ i, 0 < p.users i → 0 < q.users i ∨ i ∈ s) :
    p.busyFrames.card ≤ q.busyFrames.card + s.card := by
  have hpage : ∀ f ∈ p.busyFrames, ∃ i, p.table.find? i = some f ∧
      (i ∉ s → ∃ g ∈ q.busyFrames, q.table.find? i = some g) := by
    intro f hf
    obtain ⟨hresident, hpins⟩ := mem_busyFrames.1 hf
    obtain ⟨i, hi⟩ := (hp.frameOk f).exists_pageId hresident
    have hfound := hp.find?_iff.2 ⟨hresident, hi⟩
    refine ⟨i, hfound, fun hnot ↦ ?_⟩
    have hpos := (h i ((users_pos_iff hp.toSteady).2 ⟨f, hfound, hpins⟩)).resolve_right hnot
    obtain ⟨g, hg, hused⟩ := (users_pos_iff hq.toSteady).1 hpos
    exact ⟨g, mem_busyFrames.2 ⟨(hq.find?_iff.1 hg).1, hused⟩, hg⟩
  choose! page hfound frame' hframe' using hpage
  have hinj : Set.InjOn page p.busyFrames := fun f hf g hg heq ↦
    Option.some.inj ((hfound f hf).symm.trans (heq ▸ hfound g hg))
  rw [← Finset.card_filter_add_card_filter_not (fun f ↦ page f ∉ s)]
  refine Nat.add_le_add ?_ ?_
  · refine Finset.card_le_card_of_injOn frame' (fun f hf ↦ ?_) fun f hf g hg heq ↦ ?_
    · obtain ⟨hmem, hnot⟩ := Finset.mem_filter.1 hf
      exact (hframe' f hmem hnot).1
    · obtain ⟨hf, hfnot⟩ := Finset.mem_filter.1 hf
      obtain ⟨hg, hgnot⟩ := Finset.mem_filter.1 hg
      exact hinj hf hg (hq.eq_of_find? (hframe' f hf hfnot).2
        ((hframe' g hg hgnot).2.trans (congrArg some heq.symm)))
  · refine Finset.card_le_card_of_injOn page (fun f hf ↦ ?_) fun f hf g hg heq ↦ ?_
    · exact not_not.1 (Finset.mem_filter.1 hf).2
    · exact hinj (Finset.mem_filter.1 hf).1 (Finset.mem_filter.1 hg).1 heq

theorem card_busyFrames_le (hp : p.Sound) (hq : q.Sound)
    (h : ∀ i, 0 < p.users i → 0 < q.users i) : p.busyFrames.card ≤ q.busyFrames.card :=
  card_busyFrames_le_add hp hq ∅ fun i hi ↦ .inl (h i hi)

/-- Whether there is a frame to be had depends on the pages in use alone. -/
theorem crowded_congr (hp : p.Sound) (hq : q.Sound) (hcapacity : q.capacity = p.capacity)
    (h : ∀ i, q.users i = p.users i) : q.Crowded ↔ p.Crowded := by
  have hle := card_busyFrames_le hp hq fun i hi ↦ by rwa [h]
  have hge := card_busyFrames_le hq hp fun i hi ↦ by rwa [← h]
  rw [crowded_iff, crowded_iff, hcapacity, Nat.le_antisymm hle hge]

theorem fetch_of_crowded [Replacer ρ] [LawfulReplacer ρ] (hp : p.Steady) (hs : p.InStep)
    (hcrowded : p.Crowded) (hunused : p.users id = 0) :
    (p.fetch id).1 = .error .poolExhausted := by
  refine (fetch_eq_poolExhausted_iff hp hs ?_).2 hcrowded
  refine Option.eq_none_iff_forall_ne_some.2 fun f hf ↦ ?_
  obtain ⟨hfound, hresident⟩ := residentFrame?_eq_some_iff.1 hf
  rw [users_of_find? hp hfound] at hunused
  exact Nat.ne_of_gt (hcrowded f (lt_capacity_of_isResident hresident)).2 hunused

/-! ## One frame changes -/

theorem users_eq_of_frames (hp : p.Sound) (hq : q.Sound)
    (hframe : ∀ g, g ≠ f → q.frame g = p.frame g) (hbefore : p.table.find? id ≠ some f)
    (hafter : q.table.find? id ≠ some f) : q.users id = p.users id := by
  cases hfound : p.table.find? id with
  | some g =>
    have hg : g ≠ f := fun heq ↦ hbefore (heq ▸ hfound)
    have hheld := hp.find?_iff.1 hfound
    rw [← hframe g hg] at hheld
    rw [users_of_find? hp.toSteady hfound, users_of_find? hq.toSteady (hq.find?_iff.2 hheld),
      hframe g hg]
  | none =>
    rw [users_of_absent hfound]
    cases hfound' : q.table.find? id with
    | none => exact users_of_absent hfound'
    | some g =>
      have hg : g ≠ f := fun heq ↦ hafter (heq ▸ hfound')
      have hheld := hq.find?_iff.1 hfound'
      rw [hframe g hg] at hheld
      cases hfound.symm.trans (hp.find?_iff.2 hheld)

theorem Taken.users_eq (ht : p.Taken f t) (hp : p.Sound) (hq : q.Sound)
    (hframe : ∀ g, g ≠ f → q.frame g = t.frame g) (hafter : q.table.find? id ≠ some f) :
    q.users id = p.users id := by
  have hframe : ∀ g, g ≠ f → q.frame g = p.frame g :=
    fun g hg ↦ (hframe g hg).trans (ht.frame_eq g hg)
  by_cases hbefore : p.table.find? id = some f
  · rw [users_of_find? hp.toSteady hbefore, ht.unpinned (hp.find?_iff.1 hbefore).1]
    refine users_of_absent (Option.eq_none_iff_forall_ne_some.2 fun g hg ↦ ?_)
    have hne : g ≠ f := fun heq ↦ hafter (heq ▸ hg)
    have hheld := hq.find?_iff.1 hg
    rw [hframe g hne] at hheld
    exact hne (Option.some.inj ((hp.find?_iff.2 hheld).symm.trans hbefore))
  · exact users_eq_of_frames hp hq hframe hbefore hafter

theorem Taken.users_of_release (ht : p.Taken f t) (hp : p.Sound) (hq : q.Sound)
    (h : t.Refills f (t.frame f).clear q) : q.users id = p.users id := by
  refine ht.users_eq hp hq h.frame_eq fun hfound ↦ ?_
  have hresident := (hq.find?_iff.1 hfound).1
  rw [h.frame_self] at hresident
  cases hresident

theorem Taken.users_of_fill {page : Page} {dirty : Bool} {copy : Nat} (ht : p.Taken f t)
    (hp : p.Sound) (hq : q.Sound) (h : t.Refills f (loadedFrame id page dirty copy) q)
    (hnew : p.table.find? id = none) : q.users i = p.users i + if i = id then 1 else 0 := by
  by_cases hi : i = id
  · subst hi
    have hframe := h.frame_self
    have hfound := hq.find?_iff.2 ⟨(by rw [hframe]; rfl), (by rw [hframe]; rfl)⟩
    rw [users_of_find? hq.toSteady hfound, hframe, users_of_absent hnew, if_pos rfl]
    rfl
  · rw [if_neg hi, Nat.add_zero]
    refine ht.users_eq hp hq h.frame_eq fun hfound ↦ hi ?_
    have hheld := (hq.find?_iff.1 hfound).2
    rw [h.frame_self] at hheld
    exact (Option.some.inj hheld).symm

theorem Restores.users_eq {v w : PageId} (h : p.Restores f v w q) (hp : p.Sound) (hq : q.Sound) :
    q.users id = p.users id := by
  refine users_eq_of_frames (f := p.capacity) hp hq (fun g _ ↦ h.frame_eq g) (fun hi ↦ ?_)
    fun hi ↦ ?_
  · exact Nat.lt_irrefl _ (lt_capacity_of_isResident (hp.find?_iff.1 hi).1)
  · have hlt := lt_capacity_of_isResident (hq.find?_iff.1 hi).1
    rw [h.capacity_eq] at hlt
    exact Nat.lt_irrefl _ hlt

theorem Adjusts.users_eq {fr : Frame} (h : p.Adjusts f fr q) (hp : p.Steady) :
    q.users id = if p.table.find? id = some f then fr.pins.toNat else p.users id := by
  have hq := (h.steady hp).1
  cases hfound : p.table.find? id with
  | none =>
    rw [users_of_absent hfound, users_of_absent (h.table_eq ▸ hfound), if_neg (by rintro ⟨⟩)]
  | some g =>
    rw [users_of_find? hq (h.table_eq ▸ hfound), users_of_find? hp hfound]
    by_cases hg : g = f
    · rw [hg, if_pos rfl, h.frame_self]
    · rw [if_neg fun heq ↦ hg (Option.some.inj heq), h.frame_eq g hg]

theorem users_of_edit {e : Page.Edit} {r : Except Error Unit} (hp : p.Steady)
    (h : p.edit id e = (r, q)) : q.users i = p.users i := by
  obtain ⟨-, rfl⟩ | ⟨f, page, hf, -, -, -, hadjusts, -, -⟩ := edit_cases h
  · rfl
  · rw [hadjusts.users_eq hp]
    split
    next hi => exact (users_of_find? hp hi).symm
    next => rfl

variable [Replacer ρ]

/-- A page that is brought in has one user. -/
theorem Installs.users_eq {dirty : Bool} {load : PageFile → Except Error Page × PageFile}
    {r : Except Error Handle} (hp : p.Sound) (hnew : p.table.find? id = none)
    (hload : p.Loads id load) (h : p.Installs id dirty load r q) :
    q.users i = p.users i + if i = id ∧ r.toBool then 1 else 0 := by
  have hq := h.sound hp hnew hload
  cases h with
  | exhausted | unusable =>
    rw [if_neg (by rintro ⟨-, ⟨⟩⟩)]
    exact users_congr rfl rfl
  | restored _ _ hidle hpage hdirty hwrite =>
    rw [if_neg (by rintro ⟨-, ⟨⟩⟩), Nat.add_zero]
    exact (restores_of_restoreVictim hp.toSteady hidle hpage hdirty).users_eq hp hq
  | unloaded htakes herror =>
    have ht := taken_of_takes hp.toSteady htakes
    rw [if_neg (by rintro ⟨-, ⟨⟩⟩), Nat.add_zero]
    exact ht.users_of_release hp hq (refills_of_releaseFrame ht.lt)
  | loaded htakes hok =>
    have ht := taken_of_takes hp.toSteady htakes
    rw [ht.users_of_fill hp hq (refills_of_settleFrame ht.lt) hnew]
    exact congrArg _ (if_congr (and_iff_left rfl).symm rfl rfl)

theorem users_of_fetch {r : Except Error Handle} (hp : p.Sound) (h : p.fetch id = (r, q)) :
    q.users i = p.users i + if i = id ∧ r.toBool then 1 else 0 := by
  obtain ⟨-, rfl, rfl⟩ | ⟨f, hf, hlt, rfl, hadjusts, -⟩ | ⟨hnew, hinstalls⟩ :=
    fetch_cases hp.toSteady h
  · rw [if_neg (by rintro ⟨-, ⟨⟩⟩), Nat.add_zero]
  · rw [hadjusts.users_eq hp.toSteady]
    by_cases hi : i = id
    · subst hi
      rw [if_pos hf, if_pos ⟨rfl, rfl⟩, users_of_find? hp.toSteady hf]
      exact toNat_pins_add_one hlt
    · rw [if_neg fun hif ↦ hi (hp.eq_of_find? hif hf), if_neg fun h ↦ hi h.1, Nat.add_zero]
  · exact hinstalls.users_eq hp hnew (p.loads_readPage id)

theorem users_of_newPage {r : Except Error (PageId × Handle)} (hp : p.Sound)
    (hnext : p.file.ids.next.toNat + 1 < UInt32.size) (h : p.newPage = (r, q)) :
    q.users i = p.users i + if i = p.file.ids.next ∧ r.toBool then 1 else 0 := by
  obtain ⟨r', rfl, hinstalls⟩ := newPage_cases hp.inFlight_eq h
  have hbool : (r'.map (Prod.mk p.file.ids.next)).toBool = r'.toBool := by cases r' <;> rfl
  have hstart : ({ p with file := p.file.allocate.2 } : Pool ρ).users i = p.users i :=
    users_congr rfl rfl
  rw [hbool, ← hstart]
  refine hinstalls.users_eq (hp.allocate hnext) (hp.find?_next hnext) (loads_fresh (.inl ?_))
  exact Nat.le_of_eq (IdCounter.toNat_next_allocate hnext).symm

theorem users_of_unpin {dirty : Bool} {r : Except Error Unit} (hp : p.Steady)
    (h : p.unpin id dirty = (r, q)) :
    q.users i = p.users i - if i = id then 1 else 0 := by
  by_cases hi : i = id
  · subst hi
    rw [if_pos rfl]
    obtain ⟨hnone, -, rfl⟩ | ⟨f, hf, ⟨hpins, -, rfl⟩ | ⟨hpins, -, hadjusts, -⟩⟩ := unpin_cases h
    · rw [users, pinCount?, hnone]
      rfl
    · rw [users_of_find? hp (residentFrame?_eq_some_iff.1 hf).1, hpins]
      rfl
    · have hf := (residentFrame?_eq_some_iff.1 hf).1
      rw [hadjusts.users_eq hp, if_pos hf, users_of_find? hp hf]
      exact toNat_pins_sub_one hpins
  · rw [if_neg hi, Nat.sub_zero]
    obtain ⟨-, -, rfl⟩ | ⟨f, hf, ⟨-, -, rfl⟩ | ⟨-, -, hadjusts, -⟩⟩ := unpin_cases h
    · rfl
    · rfl
    · have hf := (residentFrame?_eq_some_iff.1 hf).1
      rw [hadjusts.users_eq hp, if_neg fun hif ↦ hi (hp.eq_of_find? hif hf)]

theorem users_of_flush {r : Except Error Unit} (hp : p.Steady) (h : p.flush id = (r, q)) :
    q.users i = p.users i := by
  obtain ⟨-, rfl⟩ | ⟨f, -, -, hadjusts, -⟩ := flush_cases h
  · rfl
  · rw [hadjusts.users_eq hp]
    split
    next hi => exact (users_of_find? hp hi).symm
    next => rfl

theorem users_of_flushAll {r : Except Error Unit} (hp : p.Steady) (h : p.flushAll = (r, q)) :
    q.users i = p.users i :=
  (flushAll_induction (I := fun q ↦ q.Steady ∧ q.users i = p.users i)
    (fun ht hflush ↦ ⟨(steady_of_flush ht.1 hflush).1, (users_of_flush ht.1 hflush).trans ht.2⟩)
    (fun ht _ ↦ ⟨ht.1.congr rfl rfl rfl rfl, (users_congr rfl rfl).trans ht.2⟩) ⟨hp, rfl⟩ h).2

/-! ## Deleting -/

theorem Drops.find?_eq (h : p.Drops id q) (hp : p.Steady) :
    q.table.find? id = none ∧ q.users id = p.users id := by
  cases h with
  | absent hnone => exact ⟨hnone, rfl⟩
  | @idle f hf hpins =>
    have hgone : (p.table.erase id).find? id = none := PageTable.find?_erase.trans (if_pos rfl)
    refine ⟨hgone, ?_⟩
    rw [users_of_find? hp hf, hpins]
    exact users_of_absent hgone

theorem Drops.users_eq (h : p.Drops id q) (hp : p.Sound) : q.users i = p.users i := by
  by_cases hi : i = id
  · subst hi
    exact (h.find?_eq hp.toSteady).2
  · have hq := h.sound hp
    obtain rfl | ⟨f, t, hidle, hpage, ht, -, hrefills, -⟩ := h.taken hp.toSteady
    · rfl
    · exact ht.users_of_release hp hq hrefills

theorem Drops.content_eq (h : p.Drops id t) (hp : p.Steady) (hne : i ≠ id) :
    t.content i = p.content i := by
  have ht := (h.leads hp).steady
  obtain rfl | ⟨f, s, hidle, hpage, htaken, herase, hrefills, -, htable, -, hfile⟩ := h.taken hp
  · rfl
  · have hfind : t.table.find? i = p.table.find? i := by
      rw [htable, herase, PageTable.find?_erase, if_neg hne]
    cases hfound : p.table.find? i with
    | none => rw [content_of_absent hfound, content_of_absent (hfind.trans hfound), hfile]
    | some g =>
      have hg : g ≠ f := by
        rintro rfl
        have hheld := ((hp.frameOk g).of_find? i hfound).2
        exact hne (Option.some.inj (hheld.symm.trans hpage))
      rw [content_of_find? hp hfound, content_of_find? ht (hfind.trans hfound),
        hrefills.frame_eq g hg, htaken.frame_eq g hg]

theorem Drops.spares (h : p.Drops id q) (hp : p.Sound) (hi : p.FaithfulAt u i) (hne : i ≠ id) :
    p.Spares q u i := by
  have hq := h.sound hp
  have hleads := h.leads hp.toSteady
  obtain rfl | ⟨f, t, hidle, hpage, ht, -, hrefills, -, -, -, hfile⟩ := h.taken hp.toSteady
  · exact hi.spares
  · have hm : p.Moves f q := ⟨hq, fun g hg ↦ (hrefills.frame_eq g hg).trans (ht.frame_eq g hg),
      fun j _ _ ↦ by rw [hfile]⟩
    have hempty : q.table.find? i ≠ some f := by
      intro hfound
      have hresident := (hq.find?_iff.1 hfound).1
      rw [hrefills.frame_self] at hresident
      cases hresident
    exact ⟨hm.faithfulAt hp hi (fun hfound ↦ absurd hfound hempty) (fun _ hu ↦ hu)
      fun hu ↦ hleads.inUse hp hq (hi.inUse hu), fun _ ↦ h.content_eq hp.toSteady hne⟩

section Deleting

variable {r : Except Error Unit}

theorem users_of_delete (hp : p.Sound) (h : p.delete id = (r, q)) : q.users i = p.users i := by
  obtain ⟨-, -, -, -, rfl⟩ | ⟨t, file, hdrops, -, rfl⟩ := delete_cases hp.inFlight_eq
    hp.not_loading h
  · rfl
  · exact (users_congr rfl rfl).trans (hdrops.users_eq hp)

/-- What is there under another id stays, whether the deletion succeeds, fails or is cut off. -/
theorem content_of_delete_ne (hp : p.Steady) (hne : i ≠ id) (hi : p.Holds i)
    (h : p.delete id = (r, q)) : q.content i = p.content i := by
  obtain ⟨-, -, -, -, rfl⟩ | ⟨t, file, hdrops, hdelete, rfl⟩ := delete_cases hp.inFlight_eq
    hp.not_loading h
  · rfl
  · have hcontent := hdrops.content_eq hp hne
    have ht := (hdrops.leads hp).steady
    have hex : t.file.Exchanges id file := PageFile.exchanges_of_deletePage hdelete
    rw [← hcontent]
    cases hfound : t.table.find? i with
    | some g =>
      rw [content_of_find? ht hfound]
      exact content_of_find? (ht.congr rfl rfl rfl rfl) hfound
    | none =>
      have hhas : t.file.Has i := has_of_holds hfound (hi.congr hcontent)
      rw [content_of_absent hfound]
      exact (content_of_absent (p := { t with file := file }) hfound).trans
        (hex.stored_eq i hne hhas)

/-- No other page is concerned, also if the page is deleted in part. -/
theorem spares_of_delete (hp : p.Sound) (hi : p.FaithfulAt u i) (hne : i ≠ id)
    (h : p.delete id = (r, q)) : p.Spares q u i := by
  obtain ⟨-, -, -, -, rfl⟩ | ⟨t, file, hdrops, hdelete, rfl⟩ := delete_cases hp.inFlight_eq
    hp.not_loading h
  · exact hi.spares
  · have hspares := hdrops.spares hp hi hne
    have hex : t.file.Exchanges id file := PageFile.exchanges_of_deletePage hdelete
    refine ⟨⟨fun g hg ↦ ?_, hspares.inUse⟩, fun hid ↦ content_of_delete_ne hp.toSteady hne hid h⟩
    obtain ⟨hreadable, hback⟩ := hspares.backed g hg
    refine ⟨hreadable, fun hclean hu ↦ ?_⟩
    have hstored := hback hclean hu
    exact (hex.stored_eq i hne (PageFile.has_of_stored hstored)).trans hstored

/-- The page itself is in use, and nothing happens, or it is in no frame afterwards. -/
theorem faithfulAt_of_delete (hp : p.Sound) (hid : p.FaithfulAt u id)
    (h : p.delete id = (r, q)) : q.FaithfulAt u id := by
  obtain ⟨-, -, -, -, rfl⟩ | ⟨t, file, hdrops, hdelete, rfl⟩ := delete_cases hp.inFlight_eq
    hp.not_loading h
  · exact hid
  · have hgone := (hdrops.find?_eq hp.toSteady).1
    refine ⟨fun f hf ↦ ?_, fun hu ↦ ?_⟩
    · cases hgone.symm.trans hf
    · have hpos := (users_pos_iff hp.toSteady).2 (hid.inUse hu)
      rw [← hdrops.users_eq hp, users_of_absent hgone] at hpos
      exact absurd hpos (Nat.lt_irrefl 0)

/-- A page that was deleted is a fresh one. -/
theorem content_of_delete (hp : p.Sound) (h : p.delete id = (.ok (), q)) :
    q.content id = .ok (.fresh id) := by
  obtain ⟨-, -, -, ⟨⟩, -⟩ | ⟨t, file, hdrops, hdelete, rfl⟩ := delete_cases hp.inFlight_eq
    hp.not_loading h
  obtain ⟨hwrite, -⟩ | ⟨e, e', -, ⟨⟩, -⟩ := PageFile.deletePage_cases hdelete
  have hgone := (hdrops.find?_eq hp.toSteady).1
  refine (content_of_absent (p := { t with file := file }) hgone).trans ?_
  exact (PageFile.stored_of_writePage hwrite).trans
    (PageFile.pageOf_image_iff.2 ⟨(Page.tidy_fresh id).readable, rfl⟩)

end Deleting

/-! ## Usage -/

variable {c : PoolCall}

theorem spares_of_permitted (hp : p.Sound) (hc : p.Permits c) (hid : p.FaithfulAt ∅ id)
    (hne : c ≠ .delete id) : p.Spares (p.call c).2 ∅ id := by
  match c with
  | .fetch _ => exact spares_of_fetch hp hid rfl
  | .newPage => exact spares_of_newPage hp hc hid rfl
  | .unpin _ _ =>
    exact spares_of_unpin hp hid (fun _ ↦ Iff.rfl) (fun h ↦ h)
      (fun _ h ↦ absurd h (Finset.notMem_empty id))
      (fun _ h ↦ absurd h (Finset.notMem_empty id)) rfl
  | .flush _ => exact spares_of_flush hp hid rfl
  | .flushAll => exact spares_of_flushAll hp hid rfl
  | .delete i => exact spares_of_delete hp hid (fun heq ↦ hne (heq ▸ rfl)) rfl

/-- The pools that careful users reach, who may also delete pages. -/
inductive Usage (start : Pool ρ) : Pool ρ → Finset PageId → Prop
  | start : Usage start start ∅
  | call {p : Pool ρ} {u : Finset PageId} (c : PoolCall) : Usage start p u → p.Careful u c →
      Usage start (p.call c).2 (c.untold u)
  | delete {p : Pool ρ} {u : Finset PageId} (id : PageId) : Usage start p u →
      p.Permits (.delete id) → Usage start (p.call (.delete id)).2 u
  | edit {p q : Pool ρ} {u : Finset PageId} {id : PageId} {e : Page.Edit} : Usage start p u →
      (∀ page, p.content id = .ok page → e.Safe page) → p.edit id e = (.ok (), q) →
      Usage start q (insert id u)

theorem Usage.faithful {start : Pool ρ} (hstart : start.Faithful ∅) (h : Usage start p u) :
    p.Faithful u := by
  induction h with
  | start => exact hstart
  | call c _ hc ih => exact (faithful_of_call ih hc).1
  | delete id _ hc ih =>
    refine faithful_iff.2 ⟨sound_of_call ih.toSound hc, fun i ↦ ?_⟩
    by_cases hi : i = id
    · subst hi
      exact faithfulAt_of_delete ih.toSound (ih.at i) rfl
    · exact (spares_of_delete ih.toSound (ih.at i) hi rfl).toFaithfulAt
  | edit _ hsafe hedit ih => exact faithful_of_edit ih hsafe hedit

theorem Usage.inStep [LawfulReplacer ρ] {start : Pool ρ} (hstart : start.Faithful ∅)
    (hs : start.InStep) (h : Usage start p u) : p.InStep := by
  induction h with
  | start => exact hs
  | call c hp _ ih => exact inStep_of_call (hp.faithful hstart).toSteady ih c
  | delete id hp _ ih => exact inStep_of_call (hp.faithful hstart).toSteady ih (.delete id)
  | edit _ _ hedit ih => exact inStep_of_edit ih hedit

end PagedStorage.Pool
