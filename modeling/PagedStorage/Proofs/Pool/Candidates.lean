import PagedStorage.Proofs.Pool.Calls
import PagedStorage.Proofs.Replacement.Lawful

/-!
# The frames on offer

A pool tells its policy of every frame that comes into use or out of use. With a lawful policy the
frames on offer are then, between two calls, exactly those whose page nobody uses,
`Pool.InStep`. So the pool finds no frame only if all its pages are in use, and what the policy
offers can always be taken.

## During a call

During a call the two differ, but never at more than one frame: the policy forgets a frame when it
gives it up, which is before the pool writes the page in it. What is known on the way is that all
other frames are still accounted for, `Pool.OffersOthers`, and at the end the one frame is looked
at (`OffersOthers.inStep`). A victim that could not be written is on offer again; a frame that was
filled is not, since its page has a user.

## What it does not depend on

The ids play no part. Two frames may hold the same page and the pool is in step all the same, so
none of the conditions on calls is needed, and neither is any on the medium. The policy has to have
room for all frames of the pool.
-/

namespace PagedStorage.Pool

variable {ρ : Type} {p q t : Pool ρ} {f : Nat} {id : PageId}

/-! ## Frames that nobody uses -/

theorem not_isIdle_of_pins {fr : Frame} (h : 0 < fr.pins) : ¬ fr.isIdle := fun hidle ↦
  absurd (isIdle_iff.1 hidle).2 (UInt32.pos_iff_ne_zero.1 h)

/-- Every frame holds a page in use. -/
def Crowded (p : Pool ρ) : Prop :=
  ∀ f < p.capacity, (p.frame f).isResident ∧ 0 < (p.frame f).pins

instance (p : Pool ρ) : Decidable p.Crowded :=
  inferInstanceAs (Decidable (∀ f < p.capacity, (p.frame f).isResident ∧ 0 < (p.frame f).pins))

/-- The frames whose page nobody uses. -/
def idleFrames (p : Pool ρ) : Finset Nat := {f ∈ Finset.range p.capacity | (p.frame f).isIdle}

private theorem mem_idleFrames : f ∈ p.idleFrames ↔ (p.frame f).isIdle := by
  rw [idleFrames, Finset.mem_filter, Finset.mem_range, and_iff_right_iff_imp]
  exact fun hidle ↦ lt_capacity_of_isResident (isIdle_iff.1 hidle).1

theorem crowded_of_exhausted (hp : p.Steady) (hfree : p.freeFrames = [])
    (hidle : ∀ f, ¬ (p.frame f).isIdle) : p.Crowded := by
  intro f hf
  obtain hresident | hstatus := (hp.frameOk f).status_cases
  · refine ⟨hresident, UInt32.pos_iff_ne_zero.2 fun hpins ↦ ?_⟩
    exact hidle f (isIdle_iff.2 ⟨hresident, hpins⟩)
  · have hmem := (hp.frameOk f).mem_free_iff.2 ⟨hf, hstatus⟩
    rw [hfree] at hmem
    cases hmem

theorem Crowded.not_isIdle (h : p.Crowded) (f : Nat) : ¬ (p.frame f).isIdle := by
  intro hidle
  have hresident := (isIdle_iff.1 hidle).1
  exact not_isIdle_of_pins (h f (lt_capacity_of_isResident hresident)).2 hidle

variable [Replacer ρ]

theorem Crowded.not_takes (h : p.Crowded) (hp : p.Steady) : ¬ p.Takes f t := by
  rintro (hfree | ⟨-, -, hidle, -, -⟩ | ⟨-, -, hidle, -, -, -⟩)
  · have hmem := (hp.frameOk f).mem_free_iff.1 (hfree ▸ List.mem_cons_self)
    have hresident := isResident_iff.1 (h f hmem.1).1
    cases hresident.symm.trans hmem.2
  · exact h.not_isIdle f hidle
  · exact h.not_isIdle f hidle

variable [LawfulReplacer ρ]

/-! ## Pools in step with their policy -/

/-- The frames on offer are those whose page nobody uses. -/
structure InStep (p : Pool ρ) : Prop where
  fits : LawfulReplacer.Fits p.capacity p.replacer
  mem_offered_iff : ∀ g, g ∈ LawfulReplacer.offered p.replacer ↔ (p.frame g).isIdle

/-- The same of all frames but one, for a policy on its way. -/
structure OffersOthers (p : Pool ρ) (f : Nat) (r : ρ) : Prop where
  fits : LawfulReplacer.Fits p.capacity r
  mem_offered_iff : ∀ g, g ≠ f → (g ∈ LawfulReplacer.offered r ↔ (p.frame g).isIdle)

theorem InStep.offersOthers (h : p.InStep) (f : Nat) : p.OffersOthers f p.replacer :=
  ⟨h.fits, fun g _ ↦ h.mem_offered_iff g⟩

theorem OffersOthers.pin {r : ρ} (h : p.OffersOthers f r) :
    p.OffersOthers f (Replacer.pin r f) ∧
      f ∉ LawfulReplacer.offered (Replacer.pin r f) := by
  obtain ⟨hfits, hoffered⟩ := LawfulReplacer.pin f h.fits
  refine ⟨⟨hfits, fun g hg ↦ ?_⟩, ?_⟩
  · rw [hoffered, Finset.mem_erase, and_iff_right hg]
    exact h.mem_offered_iff g hg
  · rw [hoffered]
    exact Finset.notMem_erase f _

theorem OffersOthers.unpin {r : ρ} (h : p.OffersOthers f r) (hf : f < p.capacity) :
    p.OffersOthers f (Replacer.unpin r f) ∧
      f ∈ LawfulReplacer.offered (Replacer.unpin r f) := by
  obtain ⟨hfits, hoffered⟩ := LawfulReplacer.unpin h.fits hf
  refine ⟨⟨hfits, fun g hg ↦ ?_⟩, ?_⟩
  · rw [hoffered, Finset.mem_insert, or_iff_right hg]
    exact h.mem_offered_iff g hg
  · rw [hoffered]
    exact Finset.mem_insert_self f _

theorem InStep.evict {s : ρ} (h : p.InStep)
    (hevict : Replacer.evict p.replacer = (some f, s)) :
    (p.frame f).isIdle ∧ p.OffersOthers f s ∧ f ∉ LawfulReplacer.offered s := by
  obtain ⟨hfits, hf, hoffered⟩ := LawfulReplacer.evict_some h.fits hevict
  refine ⟨(h.mem_offered_iff f).1 hf, ⟨hfits, fun g hg ↦ ?_⟩, ?_⟩
  · rw [hoffered, Finset.mem_erase, and_iff_right hg]
    exact h.mem_offered_iff g
  · rw [hoffered]
    exact Finset.notMem_erase f _

/-- The pool is in step again once it is right about the one frame that differed. -/
theorem OffersOthers.inStep (h : p.OffersOthers f q.replacer) (hcapacity : q.capacity = p.capacity)
    (hframe : ∀ g, g ≠ f → q.frame g = p.frame g)
    (hf : f ∈ LawfulReplacer.offered q.replacer ↔ (q.frame f).isIdle) : q.InStep := by
  refine ⟨hcapacity ▸ h.fits, fun g ↦ ?_⟩
  by_cases hg : g = f
  · rw [hg]
    exact hf
  · rw [hframe g hg]
    exact h.mem_offered_iff g hg

theorem InStep.congr (h : p.InStep) (hframes : q.frames = p.frames)
    (hreplacer : q.replacer = p.replacer) : q.InStep := by
  refine (hreplacer ▸ h.offersOthers 0 : p.OffersOthers 0 q.replacer).inStep ?_ ?_ ?_
  · rw [capacity, capacity, hframes]
  · intro g _
    rw [frame, frame, hframes]
  · rw [hreplacer, h.mem_offered_iff, frame, frame, hframes]

theorem InStep.allocate (h : p.InStep) :
    ({ p with file := p.file.allocate.2 } : Pool ρ).InStep := h.congr rfl rfl

/-! ## Bringing in a page -/

theorem InStep.offersOthers_of_takes (hs : p.InStep) (hp : p.Steady) (h : p.Takes f t) :
    p.OffersOthers f t.replacer ∧ f ∉ LawfulReplacer.offered t.replacer := by
  cases h with
  | @free rest hfree =>
    refine ⟨hs.offersOthers f, fun hf ↦ ?_⟩
    have hresident := (isIdle_iff.1 ((hs.mem_offered_iff f).1 hf)).1
    have hmem : f ∈ p.freeFrames := hfree ▸ List.mem_cons_self
    have hstatus := ((hp.frameOk f).mem_free_iff.1 hmem).2
    rw [isResident_iff.1 hresident] at hstatus
    cases hstatus
  | clean _ hevict _ _ _ => exact (hs.evict hevict).2
  | written _ hevict _ _ _ _ => exact (hs.evict hevict).2

/-- A lawful policy offers no frame that may not be taken. -/
theorem InStep.not_misled (hs : p.InStep) (hp : p.Steady) : ¬ p.Misled := by
  rintro ⟨f, s, hevict, hnone⟩
  obtain ⟨hidle, -⟩ := hs.evict hevict
  obtain ⟨id, hid⟩ := (hp.frameOk f).exists_pageId (isIdle_iff.1 hidle).1
  cases (hnone hidle).symm.trans hid

theorem Taken.inStep {fr : Frame} (ht : p.Taken f t) (h : t.Refills f fr q)
    (ho : p.OffersOthers f q.replacer)
    (hf : f ∈ LawfulReplacer.offered q.replacer ↔ fr.isIdle) : q.InStep :=
  ho.inStep (h.capacity_eq.trans ht.capacity_eq)
    (fun g hg ↦ (h.frame_eq g hg).trans (ht.frame_eq g hg)) (h.frame_self ▸ hf)

/-- A victim that is put back is on offer again. -/
theorem Restores.inStep {v : PageId} {s : ρ} (h : p.Restores f v id q)
    (ho : p.OffersOthers f s) (hreplacer : q.replacer = Replacer.unpin s f)
    (hidle : (p.frame f).isIdle) : q.InStep := by
  obtain ⟨hothers, hoffered⟩ := ho.unpin (lt_capacity_of_isResident (isIdle_iff.1 hidle).1)
  refine (hreplacer ▸ hothers : p.OffersOthers f q.replacer).inStep h.capacity_eq
    (fun g _ ↦ h.frame_eq g) ?_
  rw [h.frame_eq, hreplacer]
  exact iff_of_true hoffered hidle

theorem Installs.inStep {dirty : Bool} {load : PageFile → Except Error Page × PageFile}
    {r : Except Error Handle} (hp : p.Steady) (hs : p.InStep)
    (h : p.Installs id dirty load r q) : q.InStep := by
  cases h with
  | exhausted _ hevict =>
    obtain ⟨rfl, -⟩ := LawfulReplacer.evict_none hs.fits hevict
    exact hs.congr rfl rfl
  | unusable _ hevict hnone => exact absurd ⟨_, _, hevict, hnone⟩ (hs.not_misled hp)
  | restored _ hevict hidle hpage hdirty _ =>
    exact (restores_of_restoreVictim hp hidle hpage hdirty).inStep (hs.evict hevict).2.1 rfl hidle
  | unloaded htakes _ =>
    have ht := taken_of_takes hp htakes
    obtain ⟨hothers, hoffered⟩ := hs.offersOthers_of_takes hp htakes
    exact ht.inStep (refills_of_releaseFrame ht.lt) hothers
      (iff_of_false hoffered (by rintro ⟨⟩))
  | loaded htakes _ =>
    have ht := taken_of_takes hp htakes
    obtain ⟨hothers, hoffered⟩ := (hs.offersOthers_of_takes hp htakes).1.pin
    exact ht.inStep (refills_of_settleFrame ht.lt) hothers
      (iff_of_false hoffered (not_isIdle_of_pins Nat.one_pos))

/-! ## Calls keep a pool in step -/

theorem Adjusts.inStep {fr : Frame} (h : p.Adjusts f fr q) (ho : p.OffersOthers f q.replacer)
    (hf : f ∈ LawfulReplacer.offered q.replacer ↔ fr.isIdle) : q.InStep :=
  ho.inStep h.capacity_eq h.frame_eq (h.frame_self ▸ hf)

theorem inStep_of_fetch {r : Except Error Handle} (hp : p.Steady) (hs : p.InStep)
    (h : p.fetch id = (r, q)) : q.InStep := by
  obtain ⟨-, -, rfl⟩ | ⟨f, -, hlt, -, hadjusts, hreplacer, -⟩ | ⟨-, hinstalls⟩ := fetch_cases hp h
  · exact hs
  · obtain ⟨hothers, hoffered⟩ := (hs.offersOthers f).pin
    refine hadjusts.inStep (hreplacer ▸ hothers) (hreplacer ▸ ?_)
    exact iff_of_false hoffered (not_isIdle_of_pins (pins_add_one_pos hlt))
  · exact hinstalls.inStep hp hs

theorem inStep_of_newPage {r : Except Error (PageId × Handle)} (hp : p.Steady) (hs : p.InStep)
    (h : p.newPage = (r, q)) : q.InStep := by
  obtain ⟨r', -, hinstalls⟩ := newPage_cases hp.inFlight_eq h
  exact hinstalls.inStep hp.allocate hs.allocate

theorem inStep_of_unpin {dirty : Bool} {r : Except Error Unit} (hs : p.InStep)
    (h : p.unpin id dirty = (r, q)) : q.InStep := by
  obtain ⟨-, -, rfl⟩ | ⟨f, -, ⟨-, -, rfl⟩ | ⟨hpins, -, hadjusts, hreplacer, -⟩⟩ := unpin_cases h
  · exact hs
  · exact hs
  · have hlt := lt_capacity_of_isResident hadjusts.resident
    have hothers := hs.offersOthers f
    by_cases hlast : (p.frame f).pins = 1
    · rw [if_pos hlast] at hreplacer
      obtain ⟨hothers, hoffered⟩ := hothers.unpin hlt
      refine hadjusts.inStep (hreplacer ▸ hothers) (hreplacer ▸ iff_of_true hoffered ?_)
      refine isIdle_iff.2 ⟨hadjusts.isResident, ?_⟩
      rw [hlast, UInt32.sub_self]
    · -- Others use the page, so its frame was not on offer and is not now.
      rw [if_neg hlast] at hreplacer
      have hbusy : ¬ (p.frame f).isIdle := not_isIdle_of_pins (UInt32.pos_iff_ne_zero.2 hpins)
      refine hadjusts.inStep (hreplacer ▸ hothers) (hreplacer ▸ iff_of_false ?_ ?_)
      · rwa [hs.mem_offered_iff]
      · exact not_isIdle_of_pins (pins_sub_one_pos hlast)

theorem inStep_of_flush {r : Except Error Unit} (hs : p.InStep) (h : p.flush id = (r, q)) :
    q.InStep := by
  obtain ⟨-, rfl⟩ | ⟨f, -, -, hadjusts, hreplacer⟩ := flush_cases h
  · exact hs
  · have hlt := lt_capacity_of_isResident hadjusts.resident
    obtain ⟨hothers, hoffered⟩ := (hs.offersOthers f).pin
    by_cases hpins : (p.frame f).pins = 0
    · rw [if_pos hpins] at hreplacer
      obtain ⟨hothers, hoffered⟩ := hothers.unpin hlt
      refine hadjusts.inStep (hreplacer ▸ hothers) (hreplacer ▸ iff_of_true hoffered ?_)
      exact isIdle_iff.2 ⟨hadjusts.isResident, hpins⟩
    · rw [if_neg hpins] at hreplacer
      refine hadjusts.inStep (hreplacer ▸ hothers) (hreplacer ▸ iff_of_false hoffered ?_)
      exact not_isIdle_of_pins (UInt32.pos_iff_ne_zero.2 hpins)

theorem inStep_of_flushAll {r : Except Error Unit} (hs : p.InStep) (h : p.flushAll = (r, q)) :
    q.InStep :=
  flushAll_induction (I := InStep) inStep_of_flush (fun ht _ ↦ ht.congr rfl rfl) hs h

theorem inStep_of_delete {r : Except Error Unit} (hp : p.Steady) (hs : p.InStep)
    (h : p.delete id = (r, q)) : q.InStep := by
  obtain ⟨-, -, -, -, rfl⟩ | ⟨t, file, hdrops, -, rfl⟩ := delete_cases hp.inFlight_eq
    hp.not_loading h
  · exact hs
  · obtain rfl | ⟨f, u, -, -, ht, -, hrefills, -, -, hreplacer, -⟩ := hdrops.taken hp
    · exact hs.congr rfl rfl
    · obtain ⟨hothers, hoffered⟩ := (hs.offersOthers f).pin
      have hcleared : t.InStep := ht.inStep hrefills (hreplacer ▸ hothers)
        (hreplacer ▸ iff_of_false hoffered (by rintro ⟨⟩))
      exact hcleared.congr rfl rfl

theorem inStep_of_call (hp : p.Steady) (hs : p.InStep) (c : PoolCall) : (p.call c).2.InStep :=
  match c with
  | .fetch _ => inStep_of_fetch hp hs rfl
  | .newPage => inStep_of_newPage hp hs rfl
  | .unpin _ _ => inStep_of_unpin hs rfl
  | .flush _ => inStep_of_flush hs rfl
  | .flushAll => inStep_of_flushAll hs rfl
  | .delete _ => inStep_of_delete hp hs rfl

theorem inStep_of_edit {e : Page.Edit} {r : Except Error Unit} (hs : p.InStep)
    (h : p.edit id e = (r, q)) : q.InStep := by
  obtain ⟨-, rfl⟩ | ⟨f, page, -, -, -, -, hadjusts, hreplacer, -⟩ := edit_cases h
  · exact hs
  · exact hadjusts.inStep (hreplacer ▸ hs.offersOthers f) (hreplacer ▸ hs.mem_offered_iff f)

theorem Reached.inStep {allows : Pool ρ → PoolCall → Prop} {start : Pool ρ}
    (hstart : start.Steady) (hs : start.InStep) (hp : Reached allows start p) : p.InStep := by
  induction hp with
  | start => exact hs
  | call c hp _ ih => exact inStep_of_call (hp.steady hstart).1 ih c
  | edit id e _ ih => exact inStep_of_edit ih rfl

/-! ## When no frame is found -/

theorem InStep.offered_eq (hs : p.InStep) :
    LawfulReplacer.offered p.replacer = p.idleFrames := by
  ext f
  rw [hs.mem_offered_iff, mem_idleFrames]

theorem InStep.evictableCount_eq (hs : p.InStep) : p.evictableCount = p.idleFrames.card := by
  rw [evictableCount, LawfulReplacer.size_eq hs.fits, hs.offered_eq]

/-- No frame is found exactly if all frames are in use. -/
theorem Installs.eq_poolExhausted_iff {dirty : Bool}
    {load : PageFile → Except Error Page × PageFile} {r : Except Error Handle}
    (hload : ∀ {x y : PageFile} {r : Except Error Page}, load x = (r, y) →
      FailsWith Error.OfFile r)
    (hp : p.Steady) (hs : p.InStep) (h : p.Installs id dirty load r q) :
    r = .error .poolExhausted ↔ p.Crowded := by
  cases h with
  | exhausted hfree hevict =>
    refine iff_of_true rfl (crowded_of_exhausted hp hfree fun f hidle ↦ ?_)
    obtain ⟨-, hempty⟩ := LawfulReplacer.evict_none hs.fits hevict
    rw [← hs.mem_offered_iff, hempty] at hidle
    exact Finset.notMem_empty f hidle
  | unusable _ hevict hnone => exact absurd ⟨_, _, hevict, hnone⟩ (hs.not_misled hp)
  | restored _ _ hidle _ _ hwrite =>
    refine iff_of_false ?_ fun hcrowded ↦ hcrowded.not_isIdle _ hidle
    rintro ⟨⟩
    exact PageFile.writePage_failsWith hwrite _ rfl
  | unloaded htakes herror =>
    refine iff_of_false ?_ fun hcrowded ↦ hcrowded.not_takes hp htakes
    rintro ⟨⟩
    exact hload herror _ rfl
  | loaded htakes _ =>
    refine iff_of_false ?_ fun hcrowded ↦ hcrowded.not_takes hp htakes
    rintro ⟨⟩

/-- If one frame is all there is to be had, and its page was not changed, then this page gives
way, whether the other one can be brought in or not. -/
theorem Installs.gives_way {dirty : Bool} {load : PageFile → Except Error Page × PageFile}
    {r : Except Error Handle} {v : PageId} (hp : p.Steady) (hs : p.InStep)
    (hfree : p.freeFrames = []) (hidle : ∀ g, (p.frame g).isIdle ↔ g = f)
    (hv : (p.frame f).pageId = some v) (hclean : (p.frame f).dirty = false) (hne : v ≠ id)
    (h : p.Installs id dirty load r q) : q.table.find? v = none := by
  have hgone {g : Nat} {t : Pool ρ} (ht : p.Takes g t) : t.table.find? v = none := by
    cases ht with
    | free hsome => cases hfree.symm.trans hsome
    | clean _ _ hg hpage _ =>
      obtain rfl := (hidle g).1 hg
      obtain rfl := Option.some.inj (hpage.symm.trans hv)
      rw [PageTable.find?_erase, if_pos rfl]
    | written _ _ hg _ hdirty _ =>
      obtain rfl := (hidle g).1 hg
      cases hclean.symm.trans hdirty
  cases h with
  | exhausted _ hevict =>
    obtain ⟨-, hempty⟩ := LawfulReplacer.evict_none hs.fits hevict
    have hoffered := (hs.mem_offered_iff f).2 ((hidle f).2 rfl)
    rw [hempty] at hoffered
    exact absurd hoffered (Finset.notMem_empty f)
  | unusable _ hevict hnone => exact absurd ⟨_, _, hevict, hnone⟩ (hs.not_misled hp)
  | restored _ _ hg _ hdirty _ =>
    obtain rfl := (hidle _).1 hg
    cases hclean.symm.trans hdirty
  | unloaded htakes _ =>
    refine PageTable.find?_erase_insert.trans ?_
    rw [if_neg hne, hgone htakes]
  | loaded htakes _ =>
    refine PageTable.find?_insert.trans ?_
    rw [if_neg hne, hgone htakes]

theorem fetch_eq_poolExhausted_iff (hp : p.Steady) (hs : p.InStep)
    (hid : p.residentFrame? id = none) :
    (p.fetch id).1 = .error .poolExhausted ↔ p.Crowded := by
  cases h : p.fetch id with
  | mk r q =>
    obtain ⟨hfull, -⟩ | ⟨f, hf, -⟩ | ⟨-, hinstalls⟩ := fetch_cases hp h
    · rw [Full, pinCount?, hid] at hfull
      cases hfull
    · have hfound := residentFrame?_eq_some_iff.2 ⟨hf, ((hp.frameOk f).of_find? id hf).1⟩
      cases hid.symm.trans hfound
    · exact hinstalls.eq_poolExhausted_iff PageFile.readPage_failsWith hp hs

theorem newPage_eq_poolExhausted_iff (hp : p.Steady) (hs : p.InStep) :
    p.newPage.1 = .error .poolExhausted ↔ p.Crowded := by
  cases h : p.newPage with
  | mk r q =>
    obtain ⟨r', rfl, hinstalls⟩ := newPage_cases hp.inFlight_eq h
    have hiff := hinstalls.eq_poolExhausted_iff
      (by rintro x y r ⟨⟩; exact failsWith_ok _) hp.allocate hs.allocate
    exact map_eq_error_iff.trans hiff

theorem InStep.ne_violation (hs : p.InStep) (hp : p.Steady) (c : PoolCall) (v : Violation) :
    (p.call c).1 ≠ .error (.violation v) := by
  intro hv
  obtain ⟨⟨⟩⟩ | ⟨hmisled, -⟩ := call_failsWith hp c _ hv
  exact hs.not_misled hp hmisled

/-! ## Every run keeps the pool in step -/

theorem inStep_ofFile {file : PageFile} {kind : ReplacerKind} {n capacity : Nat}
    (h : n ≤ capacity) : (ofFile file (Policy.ofKind capacity kind) n).InStep := by
  obtain ⟨hfits, hoffered⟩ := Policy.fits_ofKind h kind
  have hcapacity : (ofFile file (Policy.ofKind capacity kind) n).capacity = n :=
    Array.size_replicate
  refine ⟨by rw [hcapacity]; exact hfits, fun f ↦ ?_⟩
  rw [frame_ofFile]
  exact iff_of_false (fun hf ↦ Finset.notMem_empty f (hoffered ▸ hf)) (by rintro ⟨⟩)

/-- With a policy that a configuration asks for, the frames on offer are those whose page nobody
uses. So a frame is found unless all pages are in use, and no offer of the policy is refused. A page
that is in a frame can be pinned, unless it has as many users as can be counted: then the program
stops. -/
theorem Reached.policyInStep {file : PageFile} {kind : ReplacerKind} {n capacity : Nat}
    {allows : Pool Policy → PoolCall → Prop} {p : Pool Policy} (hcapacity : n ≤ capacity)
    (hp : Reached allows (ofFile file (.ofKind capacity kind) n) p) :
    (∀ f, f ∈ p.replacer.offered ↔ (p.frame f).isResident ∧ (p.frame f).pins = 0) ∧
    p.evictableCount = p.idleFrames.card ∧
    (∀ id, p.residentFrame? id = none →
      ((p.fetch id).1 = .error .poolExhausted ↔ p.Crowded)) ∧
    (p.newPage.1 = .error .poolExhausted ↔ p.Crowded) ∧
    (∀ c v, (p.call c).1 ≠ .error (.violation v)) ∧
    (∀ id, p.residentFrame? id ≠ none → ((p.fetch id).1.toBool ↔ ¬ p.Full id)) ∧
    ∀ id, p.Full id → p.fetch id = (.error (.fault .counterOverflow), p) ∧
      p.flush id = (.error (.fault .counterOverflow), p) := by
  have hsteady := (hp.steady steady_ofFile).1
  have hs := hp.inStep steady_ofFile (inStep_ofFile hcapacity)
  exact ⟨fun f ↦ (hs.mem_offered_iff f).trans isIdle_iff, hs.evictableCount_eq,
    fun id ↦ fetch_eq_poolExhausted_iff hsteady hs, newPage_eq_poolExhausted_iff hsteady hs,
    hs.ne_violation hsteady, fun _ ↦ fetch_of_resident hsteady,
    fun _ hfull ↦ ⟨fetch_of_full hsteady hfull, flush_of_full hfull⟩⟩

/-- A pool of one frame, whose page is in use. -/
theorem Reached.policyInStep_newPage :
    let p := ((ofFile .empty (Policy.ofKind 1 .clock) 1).call .newPage).2
    p.evictableCount = p.idleFrames.card ∧ p.newPage.1 = .error .poolExhausted := by
  have hp : Reached (fun _ _ ↦ True) (ofFile .empty (Policy.ofKind 1 .clock) 1)
      ((ofFile .empty (Policy.ofKind 1 .clock) 1).call .newPage).2 := .call .newPage .start trivial
  obtain ⟨-, hcount, -, hnew, -⟩ := policyInStep (Nat.le_refl 1) hp
  refine ⟨hcount, hnew.2 fun f hf ↦ ?_⟩
  obtain rfl := Nat.lt_one_iff.1 hf
  exact ⟨rfl, Nat.one_pos⟩

end PagedStorage.Pool
