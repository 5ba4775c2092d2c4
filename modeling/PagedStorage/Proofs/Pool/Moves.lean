import PagedStorage.Pool.Access
import PagedStorage.Proofs.Except

/-!
# How pages move through a pool

Everything that is proved of pools goes back to one description of each operation, and this file
gives these descriptions. The one that matters is `Pool.Installs`, the five ways in which bringing
a page into a frame can end: no frame is on offer, the frame on offer cannot be used, the page in
it cannot be written and is put back, the new page cannot be loaded and the frame becomes free, or
the page is there. In the last two the frame was taken before, `Pool.Takes`, off the queue of free
frames or from a page that was seen off.

## Pages in flight

While the page of a victim is written it is neither in the table nor in a frame that can be used,
and the pool notes that it is in flight, so that a call for it would wait. Between two calls nothing
is in flight. So each operation starts with an empty list, `fly` and `land` cancel
(`Pool.land_fly`), and the list does not occur in any description.

## The page table

The table is a list of pairs, and all that is used of it is `find?` after `insert` and `erase`, and
that no page is in it twice, `PageTable.Keyed`. A frame that is set aside for a page has an entry in
the table at once, so that the call that gives up removes it again
(`PageTable.find?_erase_insert`).

## Pins

The number of users has 32 bits. A frame is full with all users that can be counted
(`Pool.isFull_iff`), and to add one more is a fault and no answer; below that, adding and taking
away one user are what they are for numbers.
-/

namespace PagedStorage

/-! ## The page table -/

namespace PageTable

variable {t : PageTable} {i j : PageId} {f : Nat}

@[simp] theorem find?_erase : (t.erase i).find? j = if j = i then none else t.find? j :=
  lookup_filter_ne t i j

@[simp] theorem find?_insert : (t.insert i f).find? j = if j = i then some f else t.find? j := by
  rw [insert, find?, List.lookup_cons]
  by_cases hj : j = i
  · rw [if_pos hj, beq_iff_eq.2 hj]
  · rw [if_neg hj, beq_eq_false_iff_ne.2 hj]
    exact find?_erase.trans (if_neg hj)

/-- Setting a frame aside for a page, and giving this up. -/
theorem find?_erase_insert :
    ((t.insert i f).erase i).find? j = if j = i then none else t.find? j := by
  rw [find?_erase, find?_insert]
  split <;> rfl

theorem of_find?_erase_insert {g : Nat} (h : ((t.insert i f).erase i).find? j = some g) :
    t.find? j = some g := by
  rw [find?_erase_insert] at h
  split at h
  · cases h
  · exact h

/-- No page is in the table twice. -/
def Keyed (t : PageTable) : Prop := (t.map (·.1)).Nodup

theorem Keyed.erase (h : t.Keyed) (i : PageId) : (t.erase i).Keyed :=
  h.sublist (List.filter_sublist.map _)

theorem Keyed.insert (h : t.Keyed) (i : PageId) (f : Nat) : (t.insert i f).Keyed := by
  rw [Keyed, PageTable.insert, List.map_cons, List.nodup_cons]
  refine ⟨fun hmem ↦ ?_, h.erase i⟩
  obtain ⟨e, he, heq⟩ := List.mem_map.1 hmem
  rw [PageTable.erase, List.mem_filter] at he
  exact absurd heq (by simpa using he.2)

theorem Keyed.mem_iff (h : t.Keyed) : (i, f) ∈ t ↔ t.find? i = some f := mem_iff_lookup h

end PageTable

namespace Pool

variable {ρ : Type}

/-! ## Frames -/

section Frames

variable {p : Pool ρ} {f g : Nat}

theorem frame_modifyFrame {change : Frame → Frame} :
    (p.modifyFrame f change).frame g =
      if g = f ∧ f < p.capacity then change (p.frame f) else p.frame g := by
  rw [frame, frame, frame, modifyFrame, capacity, Array.getD_eq_getD_getElem?,
    Array.getD_eq_getD_getElem?, Array.getD_eq_getD_getElem?, Array.getElem?_modify]
  by_cases hg : g = f
  · subst hg
    by_cases hlt : g < p.frames.size
    · rw [if_pos rfl, if_pos ⟨rfl, hlt⟩, Array.getElem?_eq_getElem hlt]
      rfl
    · rw [if_pos rfl, if_neg (fun h ↦ hlt h.2), Array.getElem?_eq_none (Nat.le_of_not_lt hlt)]
      rfl
  · rw [if_neg (Ne.symm hg), if_neg fun h ↦ hg h.1]

@[simp] theorem frame_modifyFrame_self {change : Frame → Frame} (hf : f < p.capacity) :
    (p.modifyFrame f change).frame f = change (p.frame f) := by
  rw [frame_modifyFrame, if_pos ⟨rfl, hf⟩]

@[simp] theorem frame_modifyFrame_of_ne {change : Frame → Frame} (hg : g ≠ f) :
    (p.modifyFrame f change).frame g = p.frame g := by
  rw [frame_modifyFrame, if_neg fun h ↦ hg h.1]

@[simp] theorem capacity_modifyFrame {change : Frame → Frame} :
    (p.modifyFrame f change).capacity = p.capacity := Array.size_modify

theorem modifyFrame_modifyFrame {a b : Frame → Frame} :
    (p.modifyFrame f a).modifyFrame f b = p.modifyFrame f (b ∘ a) := by
  have hframes : (p.frames.modify f a).modify f b = p.frames.modify f (b ∘ a) := by
    refine Array.ext_getElem? fun i ↦ ?_
    rw [Array.getElem?_modify, Array.getElem?_modify, Array.getElem?_modify]
    split
    · exact Option.map_map b a _
    · rfl
  exact congrArg (fun frames ↦ { p with frames := frames }) hframes

theorem frame_reserveFrame {id : PageId} : (p.reserveFrame f id).frame g =
    if g = f ∧ f < p.capacity then (p.frame f).reserve id else p.frame g :=
  frame_modifyFrame (p := { p with table := p.table.insert id f })

@[simp] theorem frame_reserveFrame_self {id : PageId} (hf : f < p.capacity) :
    (p.reserveFrame f id).frame f = (p.frame f).reserve id :=
  frame_reserveFrame.trans (if_pos ⟨rfl, hf⟩)

private theorem page_reserveFrame {id : PageId} :
    ((p.reserveFrame f id).frame f).page = (p.frame f).page := by
  rw [frame_reserveFrame]
  split <;> rfl

theorem lt_capacity_of_isResident (h : (p.frame f).isResident) : f < p.capacity := by
  refine Nat.lt_of_not_le fun hout ↦ ?_
  rw [frame, Array.getD_eq_getD_getElem?, Array.getElem?_eq_none hout] at h
  cases h

@[simp] theorem isIdle_iff {fr : Frame} : fr.isIdle ↔ fr.isResident ∧ fr.pins = 0 := by
  rw [Frame.isIdle, Bool.and_eq_true, beq_iff_eq]

theorem toNat_pins_add_one {fr : Frame} (h : fr.pins.toNat + 1 < UInt32.size) :
    (fr.pins + 1).toNat = fr.pins.toNat + 1 := by
  rw [UInt32.size] at h
  rw [UInt32.toNat_add, UInt32.toNat_one]
  omega

theorem pins_add_one_pos {fr : Frame} (h : fr.pins.toNat + 1 < UInt32.size) : 0 < fr.pins + 1 := by
  rw [UInt32.lt_iff_toNat_lt, toNat_pins_add_one h]
  exact Nat.succ_pos _

theorem pins_sub_one_pos {fr : Frame} (h : fr.pins ≠ 1) : 0 < fr.pins - 1 :=
  UInt32.pos_iff_ne_zero.2 fun hzero ↦ h ((UInt32.sub_left_inj 1).1 hzero)

theorem toNat_pins_sub_one {fr : Frame} (h : fr.pins ≠ 0) :
    (fr.pins - 1).toNat = fr.pins.toNat - 1 :=
  UInt32.toNat_sub_of_le _ _ (UInt32.le_iff_toNat_le.2 (UInt32.lt_iff_toNat_lt.1
    (UInt32.pos_iff_ne_zero.2 h)))

/-- The page in a frame that is full has all users that can be counted. -/
@[simp] theorem isFull_iff {fr : Frame} : fr.isFull ↔ fr.pins.toNat + 1 = UInt32.size := by
  rw [Frame.isFull, beq_iff_eq]

@[simp] theorem isResident_iff {fr : Frame} : fr.isResident ↔ fr.status = .resident := by
  rw [Frame.isResident, beq_iff_eq]

@[simp] theorem residentFrame?_eq_some_iff {id : PageId} :
    p.residentFrame? id = some f ↔ p.table.find? id = some f ∧ (p.frame f).isResident := by
  rw [residentFrame?, Option.filter_eq_some_iff]

theorem lookup_eq {id : PageId} (hflight : p.inFlight = [])
    (hstill : ∀ f, (p.frame f).status ≠ .loading) :
    p.lookup id = match p.table.find? id with
      | none => .miss
      | some f => .hit f := by
  have hid : id ∉ p.inFlight := by
    rw [hflight]
    exact List.not_mem_nil
  rw [lookup, if_neg hid]
  cases p.table.find? id with
  | none => rfl
  | some f => exact if_neg (hstill f)

end Frames

/-! ## Bringing a page into a frame -/

/-- The pool with a page in flight. -/
def fly (p : Pool ρ) (v : PageId) : Pool ρ := { p with inFlight := v :: p.inFlight }

section Flying

variable {p : Pool ρ} {v : PageId}

private theorem land_of_nil (hflight : p.inFlight = []) : p.land v = p := by
  have hfilter : p.inFlight.filter (· != v) = p.inFlight := by rw [hflight]; rfl
  rw [land, hfilter]

theorem land_fly (hflight : p.inFlight = []) : (p.fly v).land v = p := by
  have hfilter : (v :: p.inFlight).filter (· != v) = p.inFlight := by rw [hflight]; simp
  rw [land, fly, hfilter]

variable [Replacer ρ] {f : Nat} {id : PageId}

theorem frame_restoreVictim {v : Victim} {g : Nat} : (p.restoreVictim f v).frame g =
    if g = f ∧ f < p.capacity then
      { p.frame f with status := .resident, pageId := some v.page, pins := 0, dirty := true }
    else p.frame g :=
  frame_modifyFrame (p := { p.land v.page with table := p.table.insert v.page f })

private theorem restoreVictim_fly {dirty : Bool} (hflight : p.inFlight = []) :
    (p.fly v).restoreVictim f ⟨v, dirty⟩ = p.restoreVictim f ⟨v, dirty⟩ := by
  rw [restoreVictim, restoreVictim, land_fly hflight, land_of_nil hflight]

private theorem dismiss_clean (hflight : p.inFlight = []) :
    ((p.fly v).reserveFrame f id).dismiss f id (some ⟨v, false⟩) = (.ok (), p.reserveFrame f id) :=
  congrArg (Prod.mk (Except.ok ())) (land_fly (p := p.reserveFrame f id) hflight)

private theorem dismiss_dirty (hflight : p.inFlight = []) :
    ((p.fly v).reserveFrame f id).dismiss f id (some ⟨v, true⟩) =
      match p.file.writePage (p.frame f).page with
      | (.ok (), file) => (.ok (), ({ p with file := file } : Pool ρ).reserveFrame f id)
      | (.error e, file) => (.error e, ({ p.reserveFrame f id with
          table := (p.table.insert id f).erase id, file := file } : Pool ρ).restoreVictim f
            ⟨v, true⟩) := by
  have hpage : (((p.fly v).reserveFrame f id).frame f).page = (p.frame f).page :=
    page_reserveFrame
  have hfile : ((p.fly v).reserveFrame f id).file = p.file := rfl
  rw [dismiss, if_pos rfl, writeBack, hpage, hfile]
  cases hwrite : p.file.writePage (p.frame f).page with
  | mk result file =>
    cases result with
    | ok =>
      exact congrArg (Prod.mk (Except.ok ()))
        (land_fly (p := ({ p with file := file } : Pool ρ).reserveFrame f id) hflight)
    | error e =>
      exact congrArg (Prod.mk (Except.error e)) (restoreVictim_fly
        (p := { p.reserveFrame f id with
          table := (p.table.insert id f).erase id, file := file }) hflight)

end Flying

variable [Replacer ρ]

/-- Frame `f` is taken from the queue of free frames, or from a page that nobody uses. A page that
was changed is written first. -/
inductive Takes (p : Pool ρ) : Nat → Pool ρ → Prop
  | free {f : Nat} {rest : List Nat} : p.freeFrames = f :: rest →
      Takes p f { p with freeFrames := rest }
  | clean {f : Nat} {s : ρ} {v : PageId} : p.freeFrames = [] →
      Replacer.evict p.replacer = (some f, s) → (p.frame f).isIdle →
      (p.frame f).pageId = some v → (p.frame f).dirty = false →
      Takes p f { p with replacer := s, table := p.table.erase v }
  | written {f : Nat} {s : ρ} {v : PageId} {file : PageFile} : p.freeFrames = [] →
      Replacer.evict p.replacer = (some f, s) → (p.frame f).isIdle →
      (p.frame f).pageId = some v → (p.frame f).dirty = true →
      p.file.writePage (p.frame f).page = (.ok (), file) →
      Takes p f { p with replacer := s, table := p.table.erase v, file := file }

/-- The five ways in which bringing page `id` into a frame ends. -/
inductive Installs (p : Pool ρ) (id : PageId) (dirty : Bool)
    (load : PageFile → Except Error Page × PageFile) : Except Error Handle → Pool ρ → Prop
  | exhausted {s : ρ} : p.freeFrames = [] → Replacer.evict p.replacer = (none, s) →
      Installs p id dirty load (.error .poolExhausted) { p with replacer := s }
  | unusable {f : Nat} {s : ρ} : p.freeFrames = [] → Replacer.evict p.replacer = (some f, s) →
      ((p.frame f).isIdle → (p.frame f).pageId = none) →
      Installs p id dirty load (.error (.violation (.unusableVictim f))) { p with replacer := s }
  | restored {f : Nat} {s : ρ} {v : PageId} {file : PageFile} {e : Error} : p.freeFrames = [] →
      Replacer.evict p.replacer = (some f, s) → (p.frame f).isIdle →
      (p.frame f).pageId = some v → (p.frame f).dirty = true →
      p.file.writePage (p.frame f).page = (.error e, file) →
      Installs p id dirty load (.error e)
        ({ ({ p with replacer := s, table := p.table.erase v } : Pool ρ).reserveFrame f id with
            table := ((p.table.erase v).insert id f).erase id, file := file }.restoreVictim f
          ⟨v, true⟩)
  | unloaded {f : Nat} {t : Pool ρ} {file : PageFile} {e : Error} : p.Takes f t →
      load t.file = (.error e, file) →
      Installs p id dirty load (.error e)
        ({ t.reserveFrame f id with
            table := (t.table.insert id f).erase id, file := file }.releaseFrame f)
  | loaded {f : Nat} {t : Pool ρ} {file : PageFile} {page : Page} : p.Takes f t →
      load t.file = (.ok page, file) →
      Installs p id dirty load
        (.ok ({ t.reserveFrame f id with file := file }.settleFrame f page dirty).1)
        ({ t.reserveFrame f id with file := file }.settleFrame f page dirty).2

section Installing

variable {p q : Pool ρ} {f : Nat} {id v : PageId} {dirty : Bool}
  {load : PageFile → Except Error Page × PageFile} {r : Except Error Handle}

/-- The rest of bringing in a page, once the frame is taken. -/
theorem installs_of_takes {t : Pool ρ} (ht : p.Takes f t)
    (h : (match load t.file with
      | (.error e, file) =>
        (.error e, { t.reserveFrame f id with
          table := (t.table.insert id f).erase id, file := file }.releaseFrame f)
      | (.ok page, file) =>
        match { t.reserveFrame f id with file := file }.settleFrame f page dirty with
        | (handle, pool) => (.ok handle, pool) : Except Error Handle × Pool ρ) = (r, q)) :
    p.Installs id dirty load r q := by
  split at h
  next e file hload =>
    cases h
    exact .unloaded ht hload
  next page file hload =>
    cases h
    exact .loaded ht hload

private theorem installs_of_victim {s : ρ} {t : Pool ρ}
    (ht : t = { p with replacer := s, table := p.table.erase v }) (hflight : t.inFlight = [])
    (hfree : p.freeFrames = []) (hevict : Replacer.evict p.replacer = (some f, s))
    (hidle : (p.frame f).isIdle) (hpage : (p.frame f).pageId = some v)
    (h : (match ((t.fly v).reserveFrame f id).dismiss f id (some ⟨v, (p.frame f).dirty⟩) with
      | (.error e, pool) => (.error e, pool)
      | (.ok (), pool) =>
        match load pool.file with
        | (.error e, file) =>
          let pool := { pool with file := file, table := pool.table.erase id }
          (.error e, pool.releaseFrame f)
        | (.ok page, file) =>
          match { pool with file := file }.settleFrame f page dirty with
          | (handle, pool) => (.ok handle, pool) : Except Error Handle × Pool ρ) = (r, q)) :
    p.Installs id dirty load r q := by
  cases hdirty : (p.frame f).dirty with
  | false =>
    rw [hdirty, dismiss_clean hflight] at h
    subst ht
    exact installs_of_takes (.clean hfree hevict hidle hpage hdirty) h
  | true =>
    rw [hdirty, dismiss_dirty hflight] at h
    subst ht
    split at h
    next e p' hdismiss =>
      split at hdismiss
      next => cases hdismiss
      next e' file hwrite =>
        cases hdismiss
        cases h
        exact .restored hfree hevict hidle hpage hdirty hwrite
    next p' hdismiss =>
      split at hdismiss
      next file hwrite =>
        cases hdismiss
        exact installs_of_takes (.written hfree hevict hidle hpage hdirty hwrite) h
      next => cases hdismiss

theorem installs_of_install (hflight : p.inFlight = [])
    (h : p.install id dirty load = (r, q)) : p.Installs id dirty load r q := by
  rw [install, acquireFrame] at h
  -- No frame at all, or one. A free frame comes without a victim, the policy's comes with one.
  split at h
  next e p' hacquired =>
    cases h
    split at hacquired
    next => cases hacquired
    next hfree =>
      split at hacquired
      next s hevict =>
        cases hacquired
        exact .exhausted hfree hevict
      next f s hevict =>
        simp only at hacquired
        split at hacquired
        next v hpage =>
          split at hacquired
          next => cases hacquired
          next hbusy =>
            cases hacquired
            exact .unusable hfree hevict fun hidle ↦ absurd hidle hbusy
        next hpage =>
          cases hacquired
          exact .unusable hfree hevict fun _ ↦ hpage
  next f victim p' hacquired =>
    split at hacquired
    next f' rest hfree =>
      cases hacquired
      exact installs_of_takes (.free hfree) h
    next hfree =>
      split at hacquired
      next => cases hacquired
      next f' s hevict =>
        simp only at hacquired
        split at hacquired
        next v hpage =>
          split at hacquired
          next hidle =>
            cases hacquired
            exact installs_of_victim rfl hflight hfree hevict hidle hpage h
          next => cases hacquired
        next => cases hacquired

end Installing

/-! ## Using pages -/

section Using

variable {p q : Pool ρ} {id : PageId}

theorem newPage_cases {r : Except Error (PageId × Handle)} (hflight : p.inFlight = [])
    (h : p.newPage = (r, q)) : ∃ r', r = r'.map (Prod.mk p.file.ids.next) ∧
      ({ p with file := p.file.allocate.2 } : Pool ρ).Installs p.file.ids.next true
        (fun file ↦ (.ok (.fresh p.file.ids.next), file)) r' q := by
  rw [newPage] at h
  split at h
  next page file hallocate =>
    obtain ⟨rfl, rfl⟩ := Prod.mk.inj hallocate
    split at h
    next handle p' hinstall =>
      cases h
      exact ⟨.ok handle, rfl, installs_of_install hflight hinstall⟩
    next e p' hinstall =>
      cases h
      exact ⟨.error e, rfl, installs_of_install hflight hinstall⟩

/-- A page is taken out of its frame, if it is in one. -/
inductive Drops (p : Pool ρ) (id : PageId) : Pool ρ → Prop
  | absent : p.table.find? id = none → Drops p id p
  | idle {f : Nat} : p.table.find? id = some f → (p.frame f).pins = 0 →
      Drops p id (({ p with table := p.table.erase id }.pinFrame f).releaseFrame f)

private theorem drop_cases {r : Except Error Unit} (h : p.drop id = (r, q)) :
    (∃ f, p.table.find? id = some f ∧ 0 < (p.frame f).pins ∧ r = .error (.pagePinned id) ∧ q = p) ∨
    (r = .ok () ∧ p.Drops id q) := by
  rw [drop] at h
  split at h
  next hnone =>
    cases h
    exact .inr ⟨rfl, .absent hnone⟩
  next f hf =>
    split at h
    next hpins =>
      cases h
      exact .inl ⟨f, hf, hpins, rfl, rfl⟩
    next hpins =>
      cases h
      exact .inr ⟨rfl, .idle hf (not_ne_iff.1 (mt UInt32.pos_iff_ne_zero.2 hpins))⟩

theorem Drops.inFlight_eq (h : p.Drops id q) : q.inFlight = p.inFlight := by
  obtain h | h := h
  · rfl
  · rfl

theorem delete_cases {r : Except Error Unit} (hflight : p.inFlight = [])
    (hstill : ∀ f, (p.frame f).status ≠ .loading) (h : p.delete id = (r, q)) :
    (∃ f, p.table.find? id = some f ∧ 0 < (p.frame f).pins ∧ r = .error (.pagePinned id) ∧ q = p) ∨
    ∃ t file, p.Drops id t ∧ t.file.deletePage id = (r, file) ∧ q = { t with file := file } := by
  have hidle : ¬ p.lookup id = .busy := by
    rw [lookup_eq hflight hstill]
    split <;> rintro ⟨⟩
  rw [delete, if_neg hidle] at h
  split at h
  next e p' hdrop =>
    cases h
    obtain hpinned | ⟨⟨⟩, -⟩ := drop_cases hdrop
    exact .inl hpinned
  next t hdrop =>
    obtain ⟨f, -, -, ⟨⟩, -⟩ | ⟨-, hdrops⟩ := drop_cases hdrop
    obtain ⟨rfl, rfl⟩ := Prod.mk.inj h
    refine .inr ⟨t, (t.file.deletePage id).2, hdrops, rfl, ?_⟩
    exact land_fly (p := { t with file := (t.file.deletePage id).2 })
      (hdrops.inFlight_eq.trans hflight)

end Using

end Pool

end PagedStorage
