import PagedStorage.Proofs.Pool.Errands

/-!
# Pools that are ready

When does a call of a pool succeed? If the medium refuses nothing, there are frames to be had and
the pages that wait to be written can be written, then every page that is there can be pinned,
unless it has all the users that can be counted, and the error for one that is not there is that of
the file, `Pool.Ready`. A pool stays ready while pages are pinned and unpinned again without being
changed, since no page comes to wait that did not wait before, `Pool.Marked`.

## Three conditions, one within the other

`CanWriteBack` is what it takes to give up any frame: the medium is willing, and whatever page has
to leave can be written. `CanInstall` adds that a frame is to be had, so a page can be brought in if
it can be loaded. `Ready` adds that the pool is faithful, so what is brought in is what was shown
before. The first of these is all that a flush needs, the second is enough for new pages.

## Pages that appear

A page that the file does not have may still come into it, because another page is written behind
its place. So the answer for such a page is known in advance only in a pool in which no page
waits, `Pool.Exact`. `Pool.Reads` is what a visit makes of a ready pool in both cases: the pool is
ready, what was there is there, and if no page waited, nothing has changed.

## Ids

To write a page back also takes an id behind the pages of the file. A page that waits has an id that
was given out, and as long as ids are left to be given out it is not the last one, so writing it
does not use up the ids (`CanWriteBack.extensible_of_write`) and the pool can go on to write back.
-/

namespace PagedStorage.Pool

variable {ρ : Type} {p q t : Pool ρ} {f : Nat} {id i : PageId} {u : Finset PageId}

/-! ## Pages that wait to be written -/

/-- A page is in a frame and counts as changed. -/
def Marked (p : Pool ρ) (id : PageId) : Prop :=
  ∃ f, p.table.find? id = some f ∧ (p.frame f).dirty = true

/-- The pages that wait can be written, if the medium refuses no call. -/
def Writable (p : Pool ρ) : Prop := ∀ id, p.Marked id → p.file.Extensible ∧ p.file.Fits id

theorem Sound.covers_of_marked (hp : p.Sound) (h : p.Marked id) :
    p.file.ids.Covers (id.toNat + 1) := by
  obtain ⟨f, hf, -⟩ := h
  obtain ⟨hresident, hpage⟩ := hp.find?_iff.1 hf
  exact (hp.indexed f id hresident hpage).covers

/-- A page that does not count as changed, and of which there is nothing to tell, is the stored
one. -/
theorem FaithfulAt.content_eq_stored (hp : p.Steady) (hid : p.FaithfulAt u id) (htold : id ∉ u)
    (hclean : ¬ p.Marked id) : p.content id = p.file.stored id := by
  cases hf : p.table.find? id with
  | none => exact content_of_absent hf
  | some f =>
    have hdirty : (p.frame f).dirty = false := Bool.eq_false_iff.2 fun h ↦ hclean ⟨f, hf, h⟩
    rw [content_of_find? hp hf, (hid.backed f hf).stored_eq hdirty htold]

private theorem find?_of_frame_eq {g : Nat} (hp : p.Sound) (hq : q.Sound)
    (hframe : q.frame g = p.frame g) (hi : q.table.find? i = some g) :
    p.table.find? i = some g := by
  have hheld := hq.find?_iff.1 hi
  rw [hframe] at hheld
  exact hp.find?_iff.2 hheld

variable [Replacer ρ]

theorem Installs.found {dirty : Bool} {load : PageFile → Except Error Page × PageFile} {g : Nat}
    {r : Except Error Handle} (hp : p.Sound) (hnew : p.table.find? id = none)
    (hload : p.Loads id load) (h : p.Installs id dirty load r q)
    (hi : q.table.find? i = some g) :
    (p.table.find? i = some g ∧ (q.frame g).dirty = (p.frame g).dirty) ∨
      i = id ∧ r.toBool ∧ (q.frame g).dirty = dirty := by
  have hq := h.sound hp hnew hload
  have hold (hframe : q.frame g = p.frame g) : (p.table.find? i = some g ∧
      (q.frame g).dirty = (p.frame g).dirty) ∨ i = id ∧ r.toBool ∧ (q.frame g).dirty = dirty :=
    .inl ⟨find?_of_frame_eq hp hq hframe hi, by rw [hframe]⟩
  cases h with
  | exhausted | unusable => exact .inl ⟨hi, rfl⟩
  | restored _ _ hidle hpage hdirty _ =>
    exact hold ((restores_of_restoreVictim hp.toSteady hidle hpage hdirty).frame_eq g)
  | @unloaded f t file e htakes herror =>
    have ht := taken_of_takes hp.toSteady htakes
    have hrefills : t.Refills f (t.frame f).clear ({ t.reserveFrame f id with
        table := (t.table.insert id f).erase id, file := file }.releaseFrame f) :=
      refills_of_releaseFrame ht.lt
    by_cases hg : g = f
    · subst hg
      have hresident := (hq.find?_iff.1 hi).1
      rw [hrefills.frame_self] at hresident
      cases hresident
    · exact hold ((hrefills.frame_eq g hg).trans (ht.frame_eq g hg))
  | @loaded f t file page htakes hok =>
    have ht := taken_of_takes hp.toSteady htakes
    have hrefills : t.Refills f (Pool.loadedFrame id page dirty (t.copies + 1))
        ({ t.reserveFrame f id with file := file }.settleFrame f page dirty).2 :=
      refills_of_settleFrame ht.lt
    by_cases hg : g = f
    · subst hg
      have hpage := (hq.find?_iff.1 hi).2
      rw [hrefills.frame_self] at hpage
      exact .inr ⟨(Option.some.inj hpage).symm, rfl, by rw [hrefills.frame_self]; rfl⟩
    · exact hold ((hrefills.frame_eq g hg).trans (ht.frame_eq g hg))

theorem found_of_fetch {r : Except Error Handle} {g : Nat} (hp : p.Sound)
    (h : p.fetch id = (r, q)) (hi : q.table.find? i = some g) :
    (p.table.find? i = some g ∧ (q.frame g).dirty = (p.frame g).dirty) ∨
      i = id ∧ r.toBool ∧ (q.frame g).dirty = false := by
  obtain ⟨-, -, rfl⟩ | ⟨f, -, -, -, hadjusts, -⟩ | ⟨hnew, hinstalls⟩ := fetch_cases hp.toSteady h
  · exact .inl ⟨hi, rfl⟩
  · refine .inl ⟨hadjusts.table_eq ▸ hi, ?_⟩
    by_cases hg : g = f
    · rw [hg, hadjusts.frame_self]
    · rw [hadjusts.frame_eq g hg]
  · exact hinstalls.found hp hnew (p.loads_readPage id) hi

theorem not_full_of_fetch {hd : Handle} (hp : p.Steady) (h : p.fetch id = (.ok hd, q)) :
    ¬ p.Full id := by
  intro hfull
  rw [fetch_of_full hp hfull] at h
  cases h

theorem marked_of_fetch {r : Except Error Handle} (hp : p.Sound) (h : p.fetch id = (r, q))
    (hi : q.Marked i) : p.Marked i := by
  obtain ⟨g, hg, hdirty⟩ := hi
  obtain ⟨hfound, hsame⟩ | ⟨-, -, hclean⟩ := found_of_fetch hp h hg
  · exact ⟨g, hfound, hsame ▸ hdirty⟩
  · cases hclean.symm.trans hdirty

theorem marked_of_unpin {r : Except Error Unit} (h : p.unpin id false = (r, q))
    (hi : q.Marked i) : p.Marked i := by
  obtain ⟨-, -, rfl⟩ | ⟨f, -, ⟨-, -, rfl⟩ | ⟨-, -, hadjusts, -, hfile⟩⟩ := unpin_cases h
  · exact hi
  · exact hi
  · obtain ⟨g, hg, hdirty⟩ := hi
    refine ⟨g, hadjusts.table_eq ▸ hg, ?_⟩
    by_cases hgf : g = f
    · rw [hgf, hadjusts.frame_self, Bool.or_false] at hdirty
      rw [hgf]
      exact hdirty
    · rwa [hadjusts.frame_eq g hgf] at hdirty

theorem marked_of_visit {g : Guard} (hp : p.Sound) (h : p.guard id = (.ok g, t))
    (hi : (t.release g).Marked i) : p.Marked i := by
  obtain ⟨hfetch, -, hdirty⟩ := fetch_of_guard h
  have hunpin : t.unpin g.page false = ((t.unpin g.page g.dirty).1, t.release g) := by
    rw [← hdirty]
    rfl
  exact marked_of_fetch hp hfetch (marked_of_unpin hunpin hi)

theorem marked_of_flush {r : Except Error Unit} (hp : p.Sound) (h : p.flush id = (r, q))
    (hi : q.Marked i) : (i = id → r ≠ .ok ()) ∧ (p.Marked i ∨ i = id) := by
  obtain ⟨hfails, rfl⟩ | ⟨f, hfound, -, hadjusts, -⟩ := flush_cases h
  · refine ⟨fun _ hok ↦ ?_, .inl hi⟩
    obtain ⟨-, rfl⟩ | ⟨-, rfl⟩ := hfails <;> cases hok
  · have hf := (residentFrame?_eq_some_iff.1 hfound).1
    obtain ⟨g, hg, hdirty⟩ := hi
    rw [hadjusts.table_eq] at hg
    by_cases hgf : g = f
    · subst hgf
      rw [hadjusts.frame_self] at hdirty
      refine ⟨?_, .inr (hp.eq_of_find? hg hf)⟩
      rintro - rfl
      cases hdirty
    · rw [hadjusts.frame_eq g hgf] at hdirty
      refine ⟨?_, .inl ⟨g, hg, hdirty⟩⟩
      rintro rfl
      exact absurd (Option.some.inj (hg.symm.trans hf)) hgf

/-! ## Answers that are known in advance -/

/-- What the pool shows under an id is what a user gets to see. -/
def Exact (p : Pool ρ) (id : PageId) : Prop :=
  ¬ p.Full id ∧ (p.Holds id ∨ ∀ i, ¬ p.Marked i)

private theorem stored_of_takes_exact (hp : p.Sound) (hid : p.Exact id) (h : p.Takes f t)
    (hnew : p.table.find? id = none) : t.file.stored id = p.file.stored id := by
  obtain ⟨-, hholds | hclean⟩ := hid
  · exact stored_of_takes hp h (by rw [hnew]; rintro ⟨⟩) (has_of_holds hnew hholds)
  · cases h with
    | free | clean => rfl
    | written _ _ hidle hpage hdirty _ =>
      have hf := hp.find?_iff.2 ⟨(isIdle_iff.1 hidle).1, hpage⟩
      exact absurd ⟨f, hf, hdirty⟩ (hclean _)

theorem sameBytes_of_fetch {r : Except Error Handle} (hp : p.Sound) (hclean : ∀ i, ¬ p.Marked i)
    (h : p.fetch id = (r, q)) : p.file.SameBytes q.file := by
  have htake {f : Nat} {t : Pool ρ} (h : p.Takes f t) : t.file = p.file := by
    cases h with
    | free | clean => rfl
    | written _ _ hidle hpage hdirty _ =>
      have hf := hp.find?_iff.2 ⟨(isIdle_iff.1 hidle).1, hpage⟩
      exact absurd ⟨f, hf, hdirty⟩ (hclean _)
  obtain ⟨-, -, rfl⟩ | ⟨f, -, -, -, -, -, hfile⟩ | ⟨-, hinstalls⟩ := fetch_cases hp.toSteady h
  · exact ⟨rfl, rfl⟩
  · rw [hfile]
    exact ⟨rfl, rfl⟩
  · cases hinstalls with
    | exhausted | unusable => exact ⟨rfl, rfl⟩
    | @restored f _ v _ _ _ _ hidle hpage hdirty _ =>
      have hf := hp.find?_iff.2 ⟨(isIdle_iff.1 hidle).1, hpage⟩
      exact absurd ⟨f, hf, hdirty⟩ (hclean v)
    | unloaded htakes hread | loaded htakes hread =>
      rw [← htake htakes]
      exact (PageFile.readPage_cases hread).1

/-! ## Writing back -/

omit [Replacer ρ] in
theorem mem_dirtyPages_iff (hp : p.Sound) : id ∈ p.dirtyPages ↔ p.Marked id := by
  have hframe (fr : Frame) : fr ∈ p.frames.toList ↔ ∃ f < p.capacity, p.frame f = fr := by
    rw [List.mem_iff_getElem]
    refine exists_congr fun f ↦ ?_
    constructor
    · rintro ⟨hf, rfl⟩
      exact ⟨hf, by rw [frame, Array.getD_eq_getD_getElem?, Array.getElem?_eq_getElem hf]; rfl⟩
    · rintro ⟨hf, rfl⟩
      refine ⟨hf, ?_⟩
      rw [frame, Array.getD_eq_getD_getElem?, Array.getElem?_eq_getElem hf]
      rfl
  simp only [dirtyPages, List.mem_filterMap, List.mem_filter, hframe, Bool.and_eq_true]
  constructor
  · rintro ⟨_, ⟨⟨f, -, rfl⟩, hresident, hdirty⟩, hpage⟩
    exact ⟨f, hp.find?_iff.2 ⟨hresident, hpage⟩, hdirty⟩
  · rintro ⟨f, hf, hdirty⟩
    obtain ⟨hresident, hpage⟩ := hp.find?_iff.1 hf
    exact ⟨_, ⟨⟨f, lt_capacity_of_isResident hresident, rfl⟩, hresident, hdirty⟩, hpage⟩

theorem marked_of_flushEach {ids : List PageId} (hp : p.Sound)
    (h : p.flushEach ids = (.ok (), q)) (hi : q.Marked i) : p.Marked i ∧ i ∉ ids := by
  induction ids generalizing p with
  | nil =>
    cases h
    exact ⟨hi, List.not_mem_nil⟩
  | cons id ids ih =>
    rw [flushEach] at h
    split at h
    next t ht =>
      obtain ⟨hmarked, hnot⟩ := ih (sound_of_flush hp ht) h
      obtain ⟨hself, hbefore⟩ := marked_of_flush hp ht hmarked
      have hne : i ≠ id := fun heq ↦ hself heq rfl
      exact ⟨hbefore.resolve_right hne, fun hmem ↦ (List.mem_cons.1 hmem).elim hne hnot⟩
    next j t ht =>
      obtain ⟨hmarked, hnot⟩ := ih (sound_of_flush hp ht) h
      -- A page that is not in the pool does not wait, before or after.
      obtain ⟨⟨hnone, -⟩ | ⟨-, ⟨⟩⟩, rfl⟩ | ⟨f, -, hwrite, -⟩ := flush_cases ht
      · have hne : i ≠ id := by
          rintro rfl
          obtain ⟨g, hg, -⟩ := hmarked
          have hresident := ((hp.frameOk g).of_find? i hg).1
          cases hnone.symm.trans (residentFrame?_eq_some_iff.2 ⟨hg, hresident⟩)
        exact ⟨hmarked, fun hmem ↦ (List.mem_cons.1 hmem).elim hne hnot⟩
      · exact absurd (PageFile.writePage_failsWith hwrite _ rfl) (fun h ↦ h)
    next => cases h

/-- Once all pages are flushed none waits. -/
theorem not_marked_of_flushAll (hp : p.Sound) (h : p.flushAll = (.ok (), q)) (i : PageId) :
    ¬ q.Marked i := by
  rw [flushAll] at h
  split at h
  next => cases h
  next t ht =>
    split at h
    next result file hfile =>
      cases h
      intro hi
      obtain ⟨hmarked, hnot⟩ := marked_of_flushEach hp ht (q := t) (i := i) hi
      exact hnot ((mem_dirtyPages_iff hp).2 hmarked)

/-- A page that fits the medium can be flushed. -/
theorem flush_ok {r : Except Error Unit} (hp : p.Sound) (hwilling : p.file.store.Willing)
    (hext : p.file.Extensible) (hfull : ¬ p.Full id) (hfits : p.file.Fits id)
    (h : p.flush id = (r, q)) :
    (r = .ok () ∨ r = .error (.pageNotInPool id)) ∧ q.file.store.Willing ∧ q.file.Extensible ∧
      q.file.store.medium = p.file.store.medium := by
  obtain ⟨⟨-, rfl⟩ | ⟨hcount, -⟩, rfl⟩ | ⟨f, hfound, hwrite, -⟩ := flush_cases h
  · exact ⟨.inr rfl, hwilling, hext, rfl⟩
  · exact absurd hcount hfull
  · rw [← hp.page_id (residentFrame?_eq_some_iff.1 hfound).1] at hfits
    have hok := PageFile.fst_writePage_of_canHold hwilling hext hfits.1
    rw [hwrite] at hok
    exact ⟨.inl hok, PageFile.willing_of_writePage hwilling hwrite,
      hext.writePage hfits.2 hwrite, (PageFile.writePage_cases hwrite).2.medium_eq⟩

private theorem flushEach_ok {ids : List PageId} {r : Except Error Unit} (hp : p.Sound)
    (hwilling : p.file.store.Willing)
    (hids : ∀ id ∈ ids, ¬ p.Full id ∧ p.file.Extensible ∧ p.file.Fits id)
    (h : p.flushEach ids = (r, q)) : r = .ok () ∧ q.file.store.Willing := by
  induction ids generalizing p with
  | nil =>
    cases h
    exact ⟨rfl, hwilling⟩
  | cons id ids ih =>
    obtain ⟨⟨hfull, hext, hfits⟩, hids⟩ := List.forall_mem_cons.1 hids
    have hrest {t : Pool ρ} {r' : Except Error Unit} (ht : p.flush id = (r', t))
        (h : t.flushEach ids = (r, q)) : r = .ok () ∧ q.file.store.Willing := by
      obtain ⟨-, hwilling', hext', hmedium⟩ := flush_ok hp hwilling hext hfull hfits ht
      refine ih (sound_of_flush hp ht) hwilling' (fun i hi ↦ ⟨?_, hext', ?_⟩) h
      · exact not_full_congr (fun j ↦ users_of_flush hp.toSteady ht) (hids i hi).1
      · exact (hids i hi).2.2.congr hmedium
    rw [flushEach] at h
    split at h
    next t ht => exact hrest ht h
    next j t ht => exact hrest ht h
    next e t hne ht =>
      obtain ⟨heq | heq, -⟩ := flush_ok hp hwilling hext hfull hfits ht
      · cases heq
      · exact (hne id (Except.error.inj heq)).elim

/-- If all pages that wait can be written, they can be flushed. -/
theorem flushAll_ok {r : Except Error Unit} (hp : p.Sound) (hwilling : p.file.store.Willing)
    (hfull : ∀ id, ¬ p.Full id) (hwritable : p.Writable) (h : p.flushAll = (r, q)) :
    r = .ok () ∧ q.file.store.Willing := by
  have hdirty (id : PageId) (hid : id ∈ p.dirtyPages) :
      ¬ p.Full id ∧ p.file.Extensible ∧ p.file.Fits id :=
    ⟨hfull id, hwritable id ((mem_dirtyPages_iff hp).1 hid)⟩
  rw [flushAll] at h
  split at h
  next e t ht =>
    obtain ⟨⟨⟩, -⟩ := flushEach_ok hp hwilling hdirty ht
  next t ht =>
    obtain ⟨-, hwilling'⟩ := flushEach_ok hp hwilling hdirty ht
    split at h
    next result file hfile =>
      cases h
      exact PageFile.willing_of_sync hwilling' hfile

theorem flushAll_of_clean (hp : p.Sound) (hwilling : p.file.store.Willing)
    (hclean : ∀ i, ¬ p.Marked i) : ∃ q, p.flushAll = (.ok (), q) ∧ p.file.SameBytes q.file := by
  have hnone : p.dirtyPages = [] := List.eq_nil_iff_forall_not_mem.2 fun i hi ↦
    hclean i ((mem_dirtyPages_iff hp).1 hi)
  rcases hsync : p.file.sync with ⟨r, file⟩
  obtain ⟨rfl, -⟩ := PageFile.willing_of_sync hwilling hsync
  refine ⟨{ p with file := file }, ?_, (PageFile.sync_cases hsync).1⟩
  rw [flushAll, hnone, flushEach]
  simp only [hsync]

/-! ## Deleting -/

theorem Drops.marked (h : p.Drops id t) (hp : p.Steady) (hi : t.Marked i) : p.Marked i := by
  obtain rfl | ⟨f, s, -, -, htaken, herase, hrefills, -, htable, -, -⟩ := h.taken hp
  · exact hi
  · obtain ⟨g, hg, hdirty⟩ := hi
    have hne : g ≠ f := by
      rintro rfl
      rw [hrefills.frame_self] at hdirty
      cases hdirty
    rw [htable, herase, PageTable.find?_erase] at hg
    split at hg
    next => cases hg
    next =>
      rw [hrefills.frame_eq g hne, htaken.frame_eq g hne] at hdirty
      exact ⟨g, hg, hdirty⟩

theorem marked_of_delete {r : Except Error Unit} (hp : p.Steady) (h : p.delete id = (r, q))
    (hi : q.Marked i) : p.Marked i := by
  obtain ⟨-, -, -, -, rfl⟩ | ⟨t, file, hdrops, -, rfl⟩ := delete_cases hp.inFlight_eq
    hp.not_loading h
  · exact hi
  · exact hdrops.marked hp hi

/-- A page without users can be deleted, also if there are no frames to be had. -/
theorem delete_ok {r : Except Error Unit} (hp : p.Sound) (hwilling : p.file.store.Willing)
    (hext : p.file.Extensible) (hid : p.users id = 0) (hfits : p.file.Fits id)
    (h : p.delete id = (r, q)) : r = .ok () := by
  obtain ⟨f, hf, hpins, -⟩ | ⟨t, file, hdrops, hdelete, -⟩ := delete_cases hp.inFlight_eq
    hp.not_loading h
  · have hpos := (users_pos_iff hp.toSteady).2 ⟨f, hf, hpins⟩
    exact absurd hid (Nat.ne_of_gt hpos)
  · rw [hdrops.file_eq] at hdelete
    exact (congrArg Prod.fst hdelete).symm.trans
      (PageFile.fst_deletePage_of_canHold hwilling hext hfits.1)

theorem extensible_of_delete {r : Except Error Unit} (hp : p.Steady) (hext : p.file.Extensible)
    (hid : id.toNat + 1 < UInt32.size) (h : p.delete id = (r, q)) : q.file.Extensible := by
  obtain ⟨-, -, -, -, rfl⟩ | ⟨t, file, hdrops, hdelete, rfl⟩ := delete_cases hp.inFlight_eq
    hp.not_loading h
  · exact hext
  · rw [hdrops.file_eq] at hdelete
    exact hext.deletePage hid hdelete

/-! ## Ready pools -/

variable [LawfulReplacer ρ]

/-- Whatever page has to give up its frame, it can be written back. -/
structure CanWriteBack (p : Pool ρ) : Prop extends p.Sound where
  inStep : p.InStep
  willing : p.file.store.Willing
  writable : p.Writable

/-- A page can be brought into a frame, whatever the users told and did not tell. -/
structure CanInstall (p : Pool ρ) : Prop extends p.CanWriteBack where
  vacant : ¬ p.Crowded

/-- A pool without a reason to fail. -/
structure Ready (p : Pool ρ) (u : Finset PageId) : Prop extends p.Faithful u, p.CanInstall

theorem CanInstall.ready (hp : p.CanInstall) (hfaithful : p.Faithful u) : p.Ready u :=
  ⟨hfaithful, hp.inStep, hp.willing, hp.writable, hp.vacant⟩

theorem canWriteBack_of_reliable (hp : p.Sound) (hs : p.InStep) (hfile : p.file.Reliable) :
    p.CanWriteBack :=
  ⟨hp, hs, hfile.willing,
    fun _ hid ↦ ⟨hfile.extensible, hfile.fits (hp.covers_of_marked hid)⟩⟩

theorem ready_of_reliable (hp : p.Faithful u) (hs : p.InStep) (hvacant : ¬ p.Crowded)
    (hfile : p.file.Reliable) : p.Ready u :=
  CanInstall.ready ⟨canWriteBack_of_reliable hp.toSound hs hfile, hvacant⟩ hp

theorem CanWriteBack.extensible_of_write {v : PageId} {file : PageFile} {r : Except Error Unit}
    (hp : p.CanWriteBack) (hidle : (p.frame f).isIdle) (hpage : (p.frame f).pageId = some v)
    (hdirty : (p.frame f).dirty = true) (hwrite : p.file.writePage (p.frame f).page = (r, file)) :
    r = .ok () ∧ file.Extensible := by
  have hf := hp.find?_iff.2 ⟨(isIdle_iff.1 hidle).1, hpage⟩
  obtain ⟨hext, hfits⟩ := hp.writable v ⟨f, hf, hdirty⟩
  rw [← hp.page_id hf] at hfits
  have hok := PageFile.fst_writePage_of_canHold hp.willing hext hfits.1
  rw [hwrite] at hok
  exact ⟨hok, hext.writePage hfits.2 hwrite⟩

theorem CanWriteBack.extensible_of_takes (hp : p.CanWriteBack) (hext : p.file.Extensible)
    (h : p.Takes f t) : t.file.Extensible := by
  cases h with
  | free | clean => exact hext
  | written _ _ hidle hpage hdirty hwrite =>
    exact (hp.extensible_of_write hidle hpage hdirty hwrite).2

/-- A page is brought in if it can be loaded. -/
theorem CanInstall.installs {dirty : Bool} {load : PageFile → Except Error Page × PageFile}
    {r : Except Error Handle} (hp : p.CanInstall) (h : p.Installs id dirty load r q) :
    ∃ f t file result, p.Takes f t ∧ t.file.store.Willing ∧ load t.file = (result, file) ∧
      r.map (fun _ ↦ ()) = result.map fun _ ↦ () := by
  have hwilling {f : Nat} {t : Pool ρ} (h : p.Takes f t) : t.file.store.Willing :=
    (lasts_of_takes h).willing hp.willing
  cases h with
  | exhausted hfree hevict =>
    refine absurd (crowded_of_exhausted hp.toSteady hfree fun f hidle ↦ ?_) hp.vacant
    obtain ⟨-, hempty⟩ := LawfulReplacer.evict_none hp.inStep.fits hevict
    rw [← hp.inStep.mem_offered_iff, hempty] at hidle
    exact Finset.notMem_empty f hidle
  | unusable _ hevict hnone =>
    exact absurd ⟨_, _, hevict, hnone⟩ (hp.inStep.not_misled hp.toSteady)
  | restored _ _ hidle hpage hdirty hwrite =>
    obtain ⟨⟨⟩, -⟩ := hp.extensible_of_write hidle hpage hdirty hwrite
  | unloaded htakes herror => exact ⟨_, _, _, _, htakes, hwilling htakes, herror, rfl⟩
  | loaded htakes hok => exact ⟨_, _, _, _, htakes, hwilling htakes, hok, rfl⟩

theorem CanInstall.newPage_ok {r : Except Error (PageId × Handle)} (hp : p.CanInstall)
    (hnext : p.file.ids.next.toNat + 1 < UInt32.size) (h : p.newPage = (r, q)) :
    ∃ hd, r = .ok (p.file.ids.next, hd) := by
  have hstart : ({ p with file := p.file.allocate.2 } : Pool ρ).CanInstall :=
    ⟨⟨hp.toSound.allocate hnext, hp.inStep.allocate, hp.willing, hp.writable⟩, hp.vacant⟩
  obtain ⟨r', rfl, hinstalls⟩ := newPage_cases hp.inFlight_eq h
  obtain ⟨f, t, file, result, -, -, hload, hsame⟩ := hstart.installs hinstalls
  cases hload
  cases r' with
  | ok hd => exact ⟨hd, rfl⟩
  | error e => cases hsame

theorem CanWriteBack.extensible_of_fetch {r : Except Error Handle} (hp : p.CanWriteBack)
    (hext : p.file.Extensible) (h : p.fetch id = (r, q)) : q.file.Extensible := by
  obtain ⟨-, -, rfl⟩ | ⟨f, -, -, -, -, -, hfile⟩ | ⟨-, hinstalls⟩ := fetch_cases hp.toSteady h
  · exact hext
  · rw [hfile]
    exact hext
  · cases hinstalls with
    | exhausted | unusable => exact hext
    | restored _ _ hidle hpage hdirty hwrite =>
      exact (hp.extensible_of_write hidle hpage hdirty hwrite).2
    | unloaded htakes hread | loaded htakes hread =>
      exact (hp.extensible_of_takes hext htakes).congr (PageFile.pageCount_of_readPage hread)

/-- After an errand that makes no page wait, as long as ids are left. -/
theorem Errand.canWriteBack {touched : Set PageId} {held : List PageId} {v : Finset PageId}
    (h : p.Errand touched held v q) (hp : p.CanWriteBack)
    (hmarked : ∀ i, q.Marked i → p.Marked i) (hext : p.file.Extensible → q.file.Extensible) :
    q.CanWriteBack := by
  have hlasts := h.lasts hp.toSound
  refine ⟨h.sound hp.toSound, h.inStep hp.toSound hp.inStep, hlasts.willing hp.willing,
    fun i hi ↦ ?_⟩
  exact (hp.writable i (hmarked i hi)).imp hext fun hfits ↦ hfits.congr hlasts.medium_eq

theorem CanWriteBack.extensible_of_visit {g : Guard} (hp : p.CanWriteBack)
    (hext : p.file.Extensible) (h : p.guard id = (.ok g, t)) :
    (t.release g).file.Extensible := by
  rw [file_release]
  exact hp.extensible_of_fetch hext (fetch_of_guard h).1

theorem CanWriteBack.of_visit {g : Guard} (hp : p.CanWriteBack) (h : p.guard id = (.ok g, t)) :
    (t.release g).CanWriteBack := by
  have hvisit : p.Errand ∅ [] ∅ (t.release g) :=
    (Errand.start.guard h).release_last fun hmem ↦ absurd hmem (Finset.notMem_empty _)
  exact hvisit.canWriteBack hp (fun i ↦ marked_of_visit hp.toSound h)
    (hp.extensible_of_visit · h)

/-- A page can be pinned exactly if it is shown, and the error is the same if there is none. -/
theorem Ready.fetch_eq {r : Except Error Handle} (hp : p.Ready u) (hid : p.Exact id)
    (h : p.fetch id = (r, q)) : r.map (fun _ ↦ ()) = (p.content id).map fun _ ↦ () := by
  obtain ⟨hfull, -⟩ | ⟨f, hf, -, rfl, -⟩ | ⟨hnew, hinstalls⟩ := fetch_cases hp.toSteady h
  · exact absurd hfull hid.1
  · rw [content_of_find? hp.toSteady hf]
    rfl
  · obtain ⟨f, t, file, result, htakes, hwilling, hread, hsame⟩ := hp.installs hinstalls
    obtain ⟨rfl, -⟩ := PageFile.willing_of_readPage hwilling hread
    rw [hsame, stored_of_takes_exact hp.toSound hid htakes hnew, content_of_absent hnew]

/-! ## Pinning and unpinning -/

/-- What a visit to a page, or to several of them, makes of a pool that is ready. -/
structure Reads (p : Pool ρ) (u : Finset PageId) (q : Pool ρ) : Prop where
  ready : q.Ready u
  users_eq : ∀ i, q.users i = p.users i
  content_eq : ∀ i, p.Exact i → q.content i = p.content i
  marked : ∀ i, q.Marked i → p.Marked i
  sameBytes : (∀ i, ¬ p.Marked i) → p.file.SameBytes q.file

theorem Reads.exact (h : p.Reads u q) (hi : p.Exact i) : q.Exact i :=
  ⟨not_full_congr h.users_eq hi.1, hi.2.imp (fun hholds ↦ hholds.congr (h.content_eq i hi))
    fun hclean j hj ↦ hclean j (h.marked j hj)⟩

theorem Ready.reads (hp : p.Ready u) : p.Reads u p :=
  ⟨hp, fun _ ↦ rfl, fun _ _ ↦ rfl, fun _ hi ↦ hi, fun _ ↦ ⟨rfl, rfl⟩⟩

theorem Reads.trans (h : p.Reads u t) (h' : t.Reads u q) : p.Reads u q :=
  ⟨h'.ready, fun i ↦ (h'.users_eq i).trans (h.users_eq i),
    fun i hi ↦ (h'.content_eq i (h.exact hi)).trans (h.content_eq i hi),
    fun i hi ↦ h.marked i (h'.marked i hi), fun hclean ↦
      (h.sameBytes hclean).trans (h'.sameBytes fun i hi ↦ hclean i (h.marked i hi))⟩

theorem Ready.reads_of_errand (hp : p.Ready u) (herrand : p.Errand ∅ [] ∅ q)
    (hext : p.file.Extensible → q.file.Extensible) (hmarked : ∀ i, q.Marked i → p.Marked i)
    (habsent : (∀ i, ¬ p.Marked i) → p.file.SameBytes q.file ∧
      ∀ i, ¬ p.Holds i → q.content i = p.content i) :
    p.Reads u q := by
  have hvacant : ¬ q.Crowded := fun hcrowded ↦
    hp.vacant ((herrand.crowded_iff hp.toSound).1 hcrowded)
  have hback := herrand.canWriteBack hp.toCanWriteBack hmarked hext
  refine ⟨CanInstall.ready ⟨hback, hvacant⟩ (herrand.faithful_over hp.toFaithful),
    herrand.users_eq hp.toSound, fun i hi ↦ ?_, hmarked, fun hclean ↦ (habsent hclean).1⟩
  by_cases hholds : p.Holds i
  · exact (herrand.spares hp.toSound (hp.at i) (Set.notMem_empty i)).content_eq hholds
  · exact (habsent (hi.2.resolve_left hholds)).2 i hholds

/-- A page that is not there does not appear when another one is fetched. -/
theorem Ready.content_of_fetch {r : Except Error Handle} (hp : p.Ready u)
    (hclean : ∀ i, ¬ p.Marked i) (hi : ¬ p.Holds i) (h : p.fetch id = (r, q)) :
    q.content i = p.content i := by
  have hnone := find?_of_not_holds hp.toSteady hi
  have hgone : q.table.find? i = none := by
    cases hfound : q.table.find? i with
    | none => rfl
    | some g =>
      obtain ⟨hold, -⟩ | ⟨rfl, hok, -⟩ := found_of_fetch hp.toSound h hfound
      · cases hnone.symm.trans hold
      · cases r with
        | ok hd =>
          have hsame := hp.fetch_eq ⟨not_full_of_fetch hp.toSteady h, .inr hclean⟩ h
          rw [Holds, not_not] at hi
          rw [hi] at hsame
          cases hsame
        | error e => cases hok
  rw [content_of_absent hgone, content_of_absent hnone]
  exact (sameBytes_of_fetch hp.toSound hclean h).stored_eq i

variable {g : Guard} {e : Error}

theorem Ready.guard_error (hp : p.Ready u) (h : p.guard id = (.error e, q)) : p.Reads u q := by
  have hfetch := fetch_of_guard_error h
  exact hp.reads_of_errand (.fetchFails .start hfetch)
    (fun hext ↦ hp.extensible_of_fetch hext hfetch) (fun i ↦ marked_of_fetch hp.toSound hfetch)
    fun hclean ↦ ⟨sameBytes_of_fetch hp.toSound hclean hfetch,
      fun i hi ↦ hp.content_of_fetch hclean hi hfetch⟩

theorem Ready.guard_ok (hp : p.Ready u) (h : p.guard id = (.ok g, t)) :
    p.Reads u (t.release g) := by
  obtain ⟨hfetch, -, -⟩ := fetch_of_guard h
  have hvisit : p.Errand ∅ [] ∅ (t.release g) :=
    (Errand.start.guard h).release_last fun hmem ↦ absurd hmem (Finset.notMem_empty _)
  refine hp.reads_of_errand hvisit (hp.extensible_of_visit · h)
    (fun i ↦ marked_of_visit hp.toSound h) fun hclean ↦ ⟨?_, fun i hi ↦ ?_⟩
  · rw [file_release]
    exact sameBytes_of_fetch hp.toSound hclean hfetch
  · rw [content_of_release (sound_of_fetch hp.toSound hfetch).toSteady]
    exact hp.content_of_fetch hclean hi hfetch

/-- Whether a page can be pinned under a guard, and what is seen then. -/
theorem Ready.guard_cases (hp : p.Ready u) (hid : p.Exact id) :
    (∃ e q, p.guard id = (.error e, q) ∧ p.content id = .error e ∧ p.Reads u q) ∨
    ∃ g t, p.guard id = (.ok g, t) ∧ p.content id = .ok (t.page g.handle) ∧
      p.Reads u (t.release g) := by
  cases hguard : p.guard id with
  | mk res t =>
    cases res with
    | error e =>
      refine .inl ⟨e, t, rfl, ?_, hp.guard_error hguard⟩
      have hsame := hp.fetch_eq hid (fetch_of_guard_error hguard)
      exact (map_eq_error_iff.1 hsame.symm)
    | ok g =>
      refine .inr ⟨g, t, rfl, ?_, hp.guard_ok hguard⟩
      obtain ⟨hfetch, hpage, -⟩ := fetch_of_guard hguard
      have hsame := hp.fetch_eq hid hfetch
      have hholds : p.Holds id := by
        intro hnone
        rw [hnone] at hsame
        cases hsame
      have hcontent := (grips_of_guard hp.toSound hguard).content_eq
        (sound_of_fetch hp.toSound hfetch).toSteady
      rw [← hcontent, hpage]
      exact ((spares_of_fetch hp.toSound (hp.at id) hfetch).content_eq hholds).symm

end PagedStorage.Pool
