import PagedStorage.Proofs.Pool.Moves
import PagedStorage.Proofs.PageFile.Stored

/-!
# Bookkeeping

The frames of a pool, its table and its queue of free frames say the same thing in different
ways, and every operation changes several of them. `Pool.Steady` is what they agree on between
operations, whatever the policy and the file do. It does not exclude that two frames hold a page
of the same id, which happens once the counter for new ids starts again. `Pool.Sound` does exclude
it, and so makes the table an inverse of the frames.

## One frame at a time

No operation changes more than one frame, `Pool.Touches`. So it is enough to look at this frame:
both conditions are conditions on each frame by itself (`FrameOk`, `Indexed`), and carry over for
all others (`Steady.of_touches`, `Sound.of_touches`).

## Taken, filled, released, put back

A page that is brought in takes a frame first, and then nothing is said of this frame any more,
`Pool.Taken`: it is not free, it has no page, the table does not name it. From there it is filled
with a page, made free, or given back to the page that it had, and each of these leads to a steady
pool again (`Taken.fill`, `Taken.release`, `Restores.steady`). In between the frame is reserved,
which changes it twice, and `refills_of_reserved` makes one change of the two.

## What soundness takes

A sound pool finds each page that is in a frame, and the id of this page was given out before. The
latter is why a new page never comes to an id that is in use, and it is a matter of the file: its
counter is ahead of the pages in the store (`PageFile.Ahead`), and every page that is loaded is in
the store. Each way to load a page has to say so, `Pool.Loads`.
-/

namespace PagedStorage.Pool

variable {ρ : Type}

/-! ## The invariants -/

/-- What is said of frame `f` fits together. -/
structure FrameOk (p : Pool ρ) (f : Nat) : Prop where
  mem_free_iff : f ∈ p.freeFrames ↔ f < p.capacity ∧ (p.frame f).status = .free
  not_loading : (p.frame f).status ≠ .loading
  exists_pageId : (p.frame f).isResident → ∃ id, (p.frame f).pageId = some id
  of_find? : ∀ id, p.table.find? id = some f →
    (p.frame f).isResident ∧ (p.frame f).pageId = some id

/-- A pool between two operations. -/
structure Steady (p : Pool ρ) : Prop where
  nodup_free : p.freeFrames.Nodup
  keyed : p.table.Keyed
  inFlight_eq : p.inFlight = []
  frameOk : ∀ f, p.FrameOk f

/-- A resident page is found in its frame, under its own id, which is not given out again. -/
structure Indexed (p : Pool ρ) (f : Nat) (id : PageId) : Prop where
  find?_eq : p.table.find? id = some f
  page_id : (p.frame f).page.id = id
  covers : p.file.ids.Covers (id.toNat + 1)

/-- A pool between two operations, if no id was given out twice. -/
structure Sound (p : Pool ρ) : Prop extends p.Steady where
  indexed : ∀ f id, (p.frame f).isResident → (p.frame f).pageId = some id → p.Indexed f id
  ahead : p.file.Ahead

/-- From `p` to `q` nothing changes but frame `f` and what is said of it. -/
structure Touches (p : Pool ρ) (f : Nat) (q : Pool ρ) : Prop where
  capacity_eq : q.capacity = p.capacity
  frame_eq : ∀ g, g ≠ f → q.frame g = p.frame g
  mem_free_iff : ∀ g, g ≠ f → (g ∈ q.freeFrames ↔ g ∈ p.freeFrames)
  of_find? : ∀ id g, g ≠ f → q.table.find? id = some g → p.table.find? id = some g

/-- All pages in other frames are still found. -/
def Finds (p : Pool ρ) (f : Nat) (q : Pool ρ) : Prop :=
  ∀ id g, g ≠ f → p.table.find? id = some g → q.table.find? id = some g

/-- After `p` comes `q`, and the pages that are in use stay as they are. -/
structure Leads (p q : Pool ρ) : Prop where
  steady : q.Steady
  capacity_eq : q.capacity = p.capacity
  frame_eq : ∀ g, (p.frame g).isResident → 0 < (p.frame g).pins → q.frame g = p.frame g

variable {p q t : Pool ρ} {f : Nat} {id : PageId}

theorem FrameOk.status_cases (h : p.FrameOk f) :
    (p.frame f).isResident ∨ (p.frame f).status = .free := by
  rw [isResident_iff]
  cases hs : (p.frame f).status with
  | free => exact .inr rfl
  | loading => exact absurd hs h.not_loading
  | resident => exact .inl rfl

theorem Steady.not_loading (hp : p.Steady) (f : Nat) : (p.frame f).status ≠ .loading :=
  (hp.frameOk f).not_loading

theorem Steady.eq_of_find? {i j : PageId} (hp : p.Steady) (hi : p.table.find? i = some f)
    (hj : p.table.find? j = some f) : i = j := by
  have hheld := ((hp.frameOk f).of_find? i hi).2
  exact Option.some.inj (hheld.symm.trans ((hp.frameOk f).of_find? j hj).2)

theorem Touches.trans (h : p.Touches f t) (h' : t.Touches f q) : p.Touches f q where
  capacity_eq := h'.capacity_eq.trans h.capacity_eq
  frame_eq g hg := (h'.frame_eq g hg).trans (h.frame_eq g hg)
  mem_free_iff g hg := (h'.mem_free_iff g hg).trans (h.mem_free_iff g hg)
  of_find? id g hg hq := h.of_find? id g hg (h'.of_find? id g hg hq)

/-- The other frames stay as they are, so only the touched one is in question. -/
theorem Steady.of_touches (hp : p.Steady) (ht : p.Touches f q) (hnodup : q.freeFrames.Nodup)
    (hkeyed : q.table.Keyed) (hflight : q.inFlight = []) (hf : q.FrameOk f) : q.Steady := by
  refine ⟨hnodup, hkeyed, hflight, fun g ↦ ?_⟩
  by_cases hg : g = f
  · rw [hg]
    exact hf
  · have hok := hp.frameOk g
    have hframe := ht.frame_eq g hg
    constructor
    · rw [ht.mem_free_iff g hg, ht.capacity_eq, hframe]
      exact hok.mem_free_iff
    · rw [hframe]
      exact hok.not_loading
    · rw [hframe]
      exact hok.exists_pageId
    · intro id hid
      rw [hframe]
      exact hok.of_find? id (ht.of_find? id g hg hid)

theorem Sound.of_touches (hp : p.Sound) (ht : p.Touches f q) (hq : q.Steady)
    (hfinds : p.Finds f q) (hcovers : ∀ n, p.file.ids.Covers n → q.file.ids.Covers n)
    (hf : ∀ id, (q.frame f).isResident → (q.frame f).pageId = some id → q.Indexed f id)
    (hahead : q.file.Ahead) : q.Sound := by
  refine ⟨hq, fun g id hresident hpage ↦ ?_, hahead⟩
  by_cases hg : g = f
  · subst hg
    exact hf id hresident hpage
  · have hframe := ht.frame_eq g hg
    rw [hframe] at hresident hpage
    have hindexed := hp.indexed g id hresident hpage
    refine ⟨hfinds id g hg hindexed.find?_eq, ?_, hcovers _ hindexed.covers⟩
    rw [hframe]
    exact hindexed.page_id

theorem Steady.congr (hp : p.Steady) (hframes : q.frames = p.frames) (htable : q.table = p.table)
    (hfree : q.freeFrames = p.freeFrames) (hflight : q.inFlight = p.inFlight) : q.Steady := by
  have hframe : ∀ g, q.frame g = p.frame g := fun g ↦ by rw [frame, frame, hframes]
  have hcapacity : q.capacity = p.capacity := by rw [capacity, capacity, hframes]
  refine ⟨hfree ▸ hp.nodup_free, htable ▸ hp.keyed, hflight.trans hp.inFlight_eq, fun g ↦ ?_⟩
  have hok := hp.frameOk g
  constructor
  · rw [hfree, hcapacity, hframe]
    exact hok.mem_free_iff
  · rw [hframe]
    exact hok.not_loading
  · rw [hframe]
    exact hok.exists_pageId
  · rw [htable, hframe]
    exact hok.of_find?

theorem Sound.congr (hp : p.Sound) (hframes : q.frames = p.frames) (htable : q.table = p.table)
    (hfree : q.freeFrames = p.freeFrames) (hflight : q.inFlight = p.inFlight)
    (hcovers : ∀ n, p.file.ids.Covers n → q.file.ids.Covers n) (hahead : q.file.Ahead) :
    q.Sound := by
  have hframe : ∀ g, q.frame g = p.frame g := fun g ↦ by rw [frame, frame, hframes]
  refine ⟨hp.toSteady.congr hframes htable hfree hflight, fun g id hresident hpage ↦ ?_, hahead⟩
  rw [hframe] at hresident hpage
  have hindexed := hp.indexed g id hresident hpage
  refine ⟨by rw [htable]; exact hindexed.find?_eq, ?_, hcovers _ hindexed.covers⟩
  rw [hframe]
  exact hindexed.page_id

theorem Sound.find?_iff (hp : p.Sound) :
    p.table.find? id = some f ↔ (p.frame f).isResident ∧ (p.frame f).pageId = some id :=
  ⟨(hp.frameOk f).of_find? id, fun h ↦ (hp.indexed f id h.1 h.2).find?_eq⟩

/-! ## A pool without pages -/

section Start

variable {file : PageFile} {s : ρ} {n : Nat}

@[simp] theorem frame_ofFile : (ofFile file s n).frame f = {} := by
  rw [frame, ofFile, Array.getD_eq_getD_getElem?, Array.getElem?_replicate]
  split <;> rfl

theorem steady_ofFile : (ofFile file s n).Steady := by
  refine ⟨List.nodup_range, List.nodup_nil, rfl, fun f ↦ ?_⟩
  have hstatus : ((ofFile file s n).frame f).status = .free := by rw [frame_ofFile]
  refine ⟨?_, ?_, ?_, ?_⟩
  · rw [hstatus, capacity, ofFile, Array.size_replicate, List.mem_range]
    exact (and_iff_left rfl).symm
  · rw [hstatus]
    rintro ⟨⟩
  · rw [isResident_iff, hstatus]
    rintro ⟨⟩
  · rintro id ⟨⟩

theorem sound_ofFile (h : file.Ahead) : (ofFile file s n).Sound := by
  refine ⟨steady_ofFile, fun f id hresident ↦ ?_, h⟩
  rw [frame_ofFile] at hresident
  cases hresident

end Start

/-! ## A frame is taken -/

/-- What holds once frame `f` was taken: nothing is said of it any more. -/
structure Taken (p : Pool ρ) (f : Nat) (t : Pool ρ) : Prop extends p.Touches f t where
  lt_capacity : f < p.capacity
  frame_self : t.frame f = p.frame f
  inFlight_eq : t.inFlight = []
  nodup_free : t.freeFrames.Nodup
  notMem_free : f ∉ t.freeFrames
  keyed : t.table.Keyed
  find?_ne : ∀ id, t.table.find? id ≠ some f
  unpinned : (p.frame f).isResident → (p.frame f).pins = 0

theorem Taken.lt (h : p.Taken f t) : f < t.capacity :=
  Nat.lt_of_lt_of_eq h.lt_capacity h.capacity_eq.symm

theorem taken_of_victim {v : PageId} (hp : p.Steady) (hidle : (p.frame f).isIdle)
    (hpage : (p.frame f).pageId = some v) (hframes : t.frames = p.frames)
    (htable : t.table = p.table.erase v) (hfree : t.freeFrames = p.freeFrames)
    (hflight : t.inFlight = p.inFlight) : p.Taken f t := by
  obtain ⟨hresident, hpins⟩ := isIdle_iff.1 hidle
  have hframe : ∀ g, t.frame g = p.frame g := fun g ↦ by rw [frame, frame, hframes]
  have hfind : ∀ id, t.table.find? id = if id = v then none else p.table.find? id := fun id ↦ by
    rw [htable, PageTable.find?_erase]
  have hof : ∀ id g, t.table.find? id = some g → id ≠ v ∧ p.table.find? id = some g := by
    intro id g hid
    rw [hfind] at hid
    split at hid
    · cases hid
    next hne => exact ⟨hne, hid⟩
  refine ⟨⟨by rw [capacity, capacity, hframes], fun g _ ↦ hframe g, fun g _ ↦ by rw [hfree],
    fun id g _ hid ↦ (hof id g hid).2⟩, lt_capacity_of_isResident hresident, hframe f,
    hflight.trans hp.inFlight_eq, hfree ▸ hp.nodup_free, ?_, htable ▸ hp.keyed.erase v,
    fun id hid ↦ ?_, fun _ ↦ hpins⟩
  · rw [hfree, (hp.frameOk f).mem_free_iff, isResident_iff.1 hresident]
    rintro ⟨-, ⟨⟩⟩
  · obtain ⟨hne, hold⟩ := hof id f hid
    have hid := ((hp.frameOk f).of_find? id hold).2
    rw [hpage] at hid
    exact hne (Option.some.inj hid).symm

/-! ## A frame is filled or made free -/

section Refilling

variable {fr : Frame}

/-- From `t` to `q` the contents of frame `f` are exchanged. -/
structure Refills (t : Pool ρ) (f : Nat) (fr : Frame) (q : Pool ρ) : Prop where
  capacity_eq : q.capacity = t.capacity
  frame_self : q.frame f = fr
  frame_eq : ∀ g, g ≠ f → q.frame g = t.frame g
  inFlight_eq : q.inFlight = t.inFlight

theorem Refills.touches (h : t.Refills f fr q)
    (hfree : ∀ g, g ≠ f → (g ∈ q.freeFrames ↔ g ∈ t.freeFrames))
    (hfind : ∀ id g, g ≠ f → q.table.find? id = some g → t.table.find? id = some g) :
    t.Touches f q := ⟨h.capacity_eq, h.frame_eq, hfree, hfind⟩

theorem refills_of_frames (change : Frame → Frame) (hf : f < t.capacity)
    (hframes : q.frames = t.frames.modify f change) (hflight : q.inFlight = t.inFlight) :
    t.Refills f (change (t.frame f)) q := by
  have hframe : ∀ g, q.frame g = (t.modifyFrame f change).frame g := fun g ↦ by
    rw [frame, frame, hframes, modifyFrame]
  refine ⟨?_, ?_, fun g hg ↦ ?_, hflight⟩
  · rw [capacity, hframes]
    exact Array.size_modify
  · rw [hframe, frame_modifyFrame_self hf]
  · rw [hframe, frame_modifyFrame_of_ne hg]

/-- A frame is reserved for a page first, and changed once more when it is clear how that ends. -/
theorem refills_of_reserved (change : Frame → Frame) (hf : f < t.capacity)
    (hframes : q.frames = (t.reserveFrame f id).frames.modify f change)
    (hflight : q.inFlight = t.inFlight) : t.Refills f (change ((t.frame f).reserve id)) q := by
  have hcapacity : (t.reserveFrame f id).capacity = t.capacity := capacity_modifyFrame
  have hchange := refills_of_frames (t := t.reserveFrame f id) change
    (Nat.lt_of_lt_of_eq hf hcapacity.symm) hframes hflight
  rw [frame_reserveFrame_self hf] at hchange
  refine ⟨hchange.capacity_eq.trans hcapacity, hchange.frame_self, fun g hg ↦ ?_, hflight⟩
  exact (hchange.frame_eq g hg).trans (frame_reserveFrame.trans (if_neg fun h ↦ hg h.1))

theorem refills_of_releaseFrame {table : PageTable} {file : PageFile} (hf : f < t.capacity) :
    t.Refills f (t.frame f).clear
      ({ t.reserveFrame f id with table := table, file := file }.releaseFrame f) :=
  refills_of_reserved Frame.clear hf rfl rfl

theorem Taken.release (hp : p.Steady) (ht : p.Taken f t)
    (h : t.Refills f (t.frame f).clear q) (hfree : q.freeFrames = t.freeFrames ++ [f])
    (hkeyed : q.table.Keyed)
    (hfind : ∀ id g, q.table.find? id = some g → t.table.find? id = some g) :
    q.Steady ∧ p.Touches f q := by
  have htouches : p.Touches f q := ht.toTouches.trans (h.touches
    (fun g hg ↦ by rw [hfree, List.mem_append, List.mem_singleton, or_iff_left hg])
    fun id g _ ↦ hfind id g)
  refine ⟨hp.of_touches htouches ?_ hkeyed (h.inFlight_eq.trans ht.inFlight_eq) ?_, htouches⟩
  · -- A frame that was taken is not in the queue, so it does not come into it twice.
    rw [hfree, List.nodup_append]
    refine ⟨ht.nodup_free, List.nodup_singleton f, fun a ha b hb ↦ ?_⟩
    rintro rfl
    exact ht.notMem_free (List.mem_singleton.1 hb ▸ ha)
  · constructor
    · rw [hfree, htouches.capacity_eq, h.frame_self]
      exact iff_of_true (List.mem_append_right _ (List.mem_singleton_self f)) ⟨ht.lt_capacity, rfl⟩
    · rw [h.frame_self]
      rintro ⟨⟩
    · rw [h.frame_self]
      rintro ⟨⟩
    · exact fun id hid ↦ absurd (hfind id f hid) (ht.find?_ne id)

/-- Nobody used the page in a frame that was taken. -/
theorem Taken.leads (ht : p.Taken f t) (h : q.Steady ∧ p.Touches f q) : p.Leads q := by
  refine ⟨h.1, h.2.capacity_eq, fun g hresident hpins ↦ h.2.frame_eq g ?_⟩
  rintro rfl
  exact absurd (ht.unpinned hresident) (UInt32.pos_iff_ne_zero.1 hpins)

theorem Taken.fill (hp : p.Steady) (ht : p.Taken f t) (h : t.Refills f fr q)
    (hresident : fr.isResident) (hpage : fr.pageId = some id)
    (hfree : q.freeFrames = t.freeFrames) (htable : q.table = t.table.insert id f) :
    q.Steady ∧ p.Touches f q := by
  have hfind : ∀ i g, q.table.find? i = some g → (i = id ∧ g = f) ∨ t.table.find? i = some g := by
    intro i g hi
    rw [htable, PageTable.find?_insert] at hi
    split at hi
    next heq => exact .inl ⟨heq, (Option.some.inj hi).symm⟩
    next => exact .inr hi
  have htouches : p.Touches f q := ht.toTouches.trans (h.touches (fun g _ ↦ by rw [hfree])
    fun i g hg hi ↦ (hfind i g hi).resolve_left fun heq ↦ hg heq.2)
  refine ⟨hp.of_touches htouches (hfree ▸ ht.nodup_free) (htable ▸ ht.keyed.insert id f)
    (h.inFlight_eq.trans ht.inFlight_eq) ?_, htouches⟩
  have hstatus := isResident_iff.1 hresident
  constructor
  · rw [hfree, h.frame_self, hstatus]
    exact iff_of_false ht.notMem_free (by rintro ⟨-, ⟨⟩⟩)
  · rw [h.frame_self, hstatus]
    rintro ⟨⟩
  · rw [h.frame_self]
    exact fun _ ↦ ⟨id, hpage⟩
  · intro i hi
    rw [h.frame_self]
    obtain ⟨rfl, -⟩ | hold := hfind i f hi
    · exact ⟨hresident, hpage⟩
    · exact absurd hold (ht.find?_ne i)

end Refilling

/-! ## A frame is put back -/

/-- What the pool looks like after a victim was put back. -/
structure Restores (p : Pool ρ) (f : Nat) (v id : PageId) (q : Pool ρ) : Prop where
  capacity_eq : q.capacity = p.capacity
  frame_eq : ∀ g, q.frame g = p.frame g
  freeFrames_eq : q.freeFrames = p.freeFrames
  inFlight_eq : q.inFlight = []
  keyed : q.table.Keyed
  find?_eq : ∀ i, q.table.find? i =
    if i = v then some f else if i = id then none else p.table.find? i

theorem Restores.steady {v : PageId} (h : p.Restores f v id q) (hp : p.Steady)
    (hresident : (p.frame f).isResident) (hpage : (p.frame f).pageId = some v) :
    q.Steady ∧ p.Touches f q := by
  have hof : ∀ i g, q.table.find? i = some g → (i = v ∧ g = f) ∨ p.table.find? i = some g := by
    intro i g hi
    rw [h.find?_eq] at hi
    split at hi
    next heq => exact .inl ⟨heq, (Option.some.inj hi).symm⟩
    next =>
      split at hi
      next => cases hi
      next => exact .inr hi
  have htouches : p.Touches f q := ⟨h.capacity_eq, fun g _ ↦ h.frame_eq g,
    fun g _ ↦ by rw [h.freeFrames_eq], fun i g hg hi ↦
      (hof i g hi).resolve_left fun heq ↦ hg heq.2⟩
  have hok := hp.frameOk f
  refine ⟨hp.of_touches htouches (h.freeFrames_eq ▸ hp.nodup_free) h.keyed h.inFlight_eq ?_,
    htouches⟩
  constructor
  · rw [h.freeFrames_eq, h.capacity_eq, h.frame_eq]
    exact hok.mem_free_iff
  · rw [h.frame_eq]
    exact hok.not_loading
  · rw [h.frame_eq]
    exact hok.exists_pageId
  · intro i hi
    rw [h.frame_eq]
    obtain ⟨rfl, -⟩ | hold := hof i f hi
    · exact ⟨hresident, hpage⟩
    · exact hok.of_find? i hold

theorem Restores.leads {v : PageId} (h : p.Restores f v id q) (hp : p.Steady)
    (hresident : (p.frame f).isResident) (hpage : (p.frame f).pageId = some v) : p.Leads q :=
  ⟨(h.steady hp hresident hpage).1, h.capacity_eq, fun g _ _ ↦ h.frame_eq g⟩

private theorem sound_of_restores {v : PageId} (hp : p.Sound) (h : p.Restores f v id q)
    (hresident : (p.frame f).isResident) (hpage : (p.frame f).pageId = some v)
    (hnew : p.table.find? id = none)
    (hcovers : ∀ n, p.file.ids.Covers n → q.file.ids.Covers n) (hahead : q.file.Ahead) :
    q.Sound := by
  obtain ⟨hq, htouches⟩ := h.steady hp.toSteady hresident hpage
  have hindexed := hp.indexed f v hresident hpage
  have hfinds : p.Finds f q := by
    intro i g hg hi
    have hne : i ≠ id := by
      rintro rfl
      cases hnew.symm.trans hi
    have hne' : i ≠ v := by
      rintro rfl
      exact hg (Option.some.inj (hi.symm.trans hindexed.find?_eq))
    rw [h.find?_eq, if_neg hne', if_neg hne, hi]
  refine hp.of_touches htouches hq hfinds hcovers (fun i _ hi ↦ ?_) hahead
  rw [h.frame_eq, hpage] at hi
  obtain rfl := Option.some.inj hi
  refine ⟨by rw [h.find?_eq, if_pos rfl], ?_, hcovers _ hindexed.covers⟩
  rw [h.frame_eq]
  exact hindexed.page_id

/-! ## Pages are still found -/

section Finding

variable {fr : Frame}

theorem Sound.release (hp : p.Sound) (hfinds : p.Finds f t)
    (h : t.Refills f (t.frame f).clear q) (hq : q.Steady ∧ p.Touches f q)
    (hnew : ∀ g, p.table.find? id = some g → g = f)
    (hfind : ∀ i, q.table.find? i = if i = id then none else t.table.find? i)
    (hcovers : ∀ n, p.file.ids.Covers n → q.file.ids.Covers n) (hahead : q.file.Ahead) :
    q.Sound := by
  refine hp.of_touches hq.2 hq.1 (fun i g hg hi ↦ ?_) hcovers (fun i hresident ↦ ?_) hahead
  · rw [hfind, if_neg, hfinds i g hg hi]
    rintro rfl
    exact hg (hnew g hi)
  · rw [h.frame_self] at hresident
    cases hresident

theorem Sound.fill (hp : p.Sound) (hfinds : p.Finds f t)
    (h : t.Refills f fr q) (hq : q.Steady ∧ p.Touches f q) (hnew : p.table.find? id = none)
    (hpage : fr.pageId = some id) (hid : fr.page.id = id) (htable : q.table = t.table.insert id f)
    (hcovers : ∀ n, p.file.ids.Covers n → q.file.ids.Covers n)
    (hnext : q.file.ids.Covers (id.toNat + 1)) (hahead : q.file.Ahead) : q.Sound := by
  refine hp.of_touches hq.2 hq.1 (fun i g hg hi ↦ ?_) hcovers (fun i _ hi ↦ ?_) hahead
  · rw [htable, PageTable.find?_insert, if_neg, hfinds i g hg hi]
    rintro rfl
    cases hnew.symm.trans hi
  · rw [h.frame_self, hpage] at hi
    obtain rfl := Option.some.inj hi
    refine ⟨?_, by rw [h.frame_self]; exact hid, hnext⟩
    rw [htable, PageTable.find?_insert, if_pos rfl]

end Finding

theorem finds_of_victim {v : PageId} (hp : p.Sound) (hresident : (p.frame f).isResident)
    (hpage : (p.frame f).pageId = some v) (htable : t.table = p.table.erase v) : p.Finds f t := by
  intro i g hg hi
  have hv := (hp.indexed f v hresident hpage).find?_eq
  rw [htable, PageTable.find?_erase, if_neg, hi]
  rintro rfl
  exact hg (Option.some.inj (hi.symm.trans hv))

theorem file_of_write {v : PageId} {file : PageFile} {result : Except Error Unit} (hp : p.Sound)
    (hresident : (p.frame f).isResident) (hpage : (p.frame f).pageId = some v)
    (hwrite : p.file.writePage (p.frame f).page = (result, file)) :
    (∀ n, p.file.ids.Covers n → file.ids.Covers n) ∧ file.Ahead := by
  have hindexed := hp.indexed f v hresident hpage
  have hexchanges := PageFile.exchanges_of_writePage hwrite
  rw [hindexed.page_id] at hexchanges
  exact ⟨hexchanges.covers, hexchanges.ahead_of_covers hp.ahead hindexed.covers⟩

/-! ## Bringing in a page -/

variable [Replacer ρ]

theorem taken_of_takes (hp : p.Steady) (h : p.Takes f t) : p.Taken f t := by
  cases h with
  | @free rest hfree =>
    have hnodup := hp.nodup_free
    rw [hfree, List.nodup_cons] at hnodup
    have hok := hp.frameOk f
    obtain ⟨hlt, hstatus⟩ := hok.mem_free_iff.1 (by rw [hfree]; exact List.mem_cons_self)
    have hnot : ¬ (p.frame f).isResident := by
      rw [isResident_iff, hstatus]
      rintro ⟨⟩
    refine ⟨⟨rfl, fun _ _ ↦ rfl, fun g hg ↦ ?_, fun _ _ _ hid ↦ hid⟩, hlt, rfl, hp.inFlight_eq,
      hnodup.2, hnodup.1, hp.keyed, fun id hid ↦ hnot (hok.of_find? id hid).1,
      fun hresident ↦ absurd hresident hnot⟩
    rw [hfree, List.mem_cons, or_iff_right hg]
  | clean _ _ hidle hpage _ => exact taken_of_victim hp hidle hpage rfl rfl rfl rfl
  | written _ _ hidle hpage _ _ => exact taken_of_victim hp hidle hpage rfl rfl rfl rfl

/-- A sound pool still finds all other pages. -/
theorem finds_of_takes (hp : p.Sound) (h : p.Takes f t) : p.Finds f t := by
  cases h with
  | free => exact fun _ _ _ hid ↦ hid
  | clean _ _ hidle hpage _ => exact finds_of_victim hp (isIdle_iff.1 hidle).1 hpage rfl
  | written _ _ hidle hpage _ _ => exact finds_of_victim hp (isIdle_iff.1 hidle).1 hpage rfl

private theorem restored_eq {fr : Frame} {v : PageId} (hidle : fr.isIdle)
    (hpage : fr.pageId = some v) (hdirty : fr.dirty = true) :
    { fr.reserve id with
      status := .resident, pageId := some v, pins := 0, dirty := true } = fr := by
  obtain ⟨hresident, hpins⟩ := isIdle_iff.1 hidle
  rw [← hpage, ← hdirty, ← hpins, ← isResident_iff.1 hresident]
  rfl

theorem restores_of_restoreVictim {s : ρ} {v : PageId} {file : PageFile} (hp : p.Steady)
    (hidle : (p.frame f).isIdle) (hpage : (p.frame f).pageId = some v)
    (hdirty : (p.frame f).dirty = true) : p.Restores f v id
      ({ ({ p with replacer := s, table := p.table.erase v } : Pool ρ).reserveFrame f id with
          table := ((p.table.erase v).insert id f).erase id, file := file }.restoreVictim f
        ⟨v, true⟩) := by
  have hlt := lt_capacity_of_isResident (isIdle_iff.1 hidle).1
  refine ⟨?_, fun g ↦ ?_, rfl, ?_, ?_, fun i ↦ ?_⟩
  · exact capacity_modifyFrame.trans capacity_modifyFrame
  · rw [frame_restoreVictim]
    by_cases hg : g = f
    · subst hg
      have hreserved : (({ p with replacer := s, table := p.table.erase v } : Pool ρ).reserveFrame
          g id).frame g = (p.frame g).reserve id :=
        frame_reserveFrame_self (p := { p with replacer := s, table := p.table.erase v }) hlt
      rw [if_pos ⟨rfl, Nat.lt_of_lt_of_eq hlt capacity_modifyFrame.symm⟩]
      exact (congrArg (fun fr : Frame ↦ { fr with
        status := .resident, pageId := some v, pins := 0, dirty := true }) hreserved).trans
          (restored_eq hidle hpage hdirty)
    · rw [if_neg fun h ↦ hg h.1]
      exact frame_modifyFrame_of_ne hg
  · change p.inFlight.filter (· != v) = []
    rw [hp.inFlight_eq]
    rfl
  · exact (((hp.keyed.erase v).insert id f).erase id).insert v f
  · -- The entry of the victim has gone and comes back, that of the new page has come and goes.
    change (((((p.table.erase v).insert id f).erase id).insert v f).find? i) = _
    rw [PageTable.find?_insert, PageTable.find?_erase, PageTable.find?_insert,
      PageTable.find?_erase]
    by_cases hi : i = v
    · rw [if_pos hi, if_pos hi]
    · rw [if_neg hi, if_neg hi, if_neg hi]
      split <;> rfl

/-- A frame that a page was just brought into. -/
def loadedFrame (id : PageId) (page : Page) (dirty : Bool) (copy : Nat) : Frame where
  status := .resident
  pageId := some id
  pins := 1
  dirty := dirty
  page := page
  copy := copy

theorem refills_of_settleFrame {file : PageFile} {page : Page} {dirty : Bool}
    (hf : f < t.capacity) : t.Refills f (loadedFrame id page dirty (t.copies + 1))
      ({ t.reserveFrame f id with file := file }.settleFrame f page dirty).2 :=
  refills_of_reserved (fun fr ↦ { fr with
    status := .resident, pins := 1, dirty := dirty, page := page, copy := t.copies + 1
    lent := false }) hf rfl rfl

section Installing

variable {dirty : Bool} {load : PageFile → Except Error Page × PageFile}
  {r : Except Error Handle}

theorem Installs.steady (hp : p.Steady) (h : p.Installs id dirty load r q) : p.Leads q := by
  cases h with
  | exhausted | unusable => exact ⟨hp.congr rfl rfl rfl rfl, rfl, fun _ _ _ ↦ rfl⟩
  | restored hfree hevict hidle hpage hdirty hwrite =>
    exact (restores_of_restoreVictim hp hidle hpage hdirty).leads hp (isIdle_iff.1 hidle).1 hpage
  | unloaded htakes hload =>
    have ht := taken_of_takes hp htakes
    refine ht.leads (ht.release hp (refills_of_releaseFrame ht.lt) rfl
      ((ht.keyed.insert id _).erase id) fun i g ↦ PageTable.of_find?_erase_insert)
  | loaded htakes hload =>
    have ht := taken_of_takes hp htakes
    exact ht.leads (ht.fill hp (refills_of_settleFrame ht.lt) rfl rfl rfl rfl)

/-- A way to load page `id` that changes no byte and does not bring another page. -/
structure Loads (p : Pool ρ) (id : PageId) (load : PageFile → Except Error Page × PageFile) :
    Prop where
  same : ∀ {x y : PageFile} {r : Except Error Page}, load x = (r, y) →
    x.SameBytes y ∧ y.ids = x.ids ∧ y.pageCount = x.pageCount
  page_id : ∀ {x y : PageFile} {page : Page}, load x = (.ok page, y) → page.id = id
  covers : ∀ {x y : PageFile} {page : Page}, load x = (.ok page, y) → x.Ahead →
    (∀ n, p.file.ids.Covers n → x.ids.Covers n) → x.ids.Covers (id.toNat + 1)

private theorem file_of_takes (hp : p.Sound) (h : p.Takes f t) :
    (∀ n, p.file.ids.Covers n → t.file.ids.Covers n) ∧ t.file.Ahead := by
  cases h with
  | free | clean => exact ⟨fun _ hn ↦ hn, hp.ahead⟩
  | written _ _ hidle hpage _ hwrite => exact file_of_write hp (isIdle_iff.1 hidle).1 hpage hwrite

theorem Installs.sound (hp : p.Sound) (hnew : p.table.find? id = none) (hload : p.Loads id load)
    (h : p.Installs id dirty load r q) : q.Sound := by
  cases h with
  | exhausted | unusable => exact hp.congr rfl rfl rfl rfl (fun _ hn ↦ hn) hp.ahead
  | restored hfree hevict hidle hpage hdirty hwrite =>
    obtain ⟨hcovers, hahead⟩ := file_of_write hp (isIdle_iff.1 hidle).1 hpage hwrite
    exact sound_of_restores hp (restores_of_restoreVictim hp.toSteady hidle hpage hdirty)
      (isIdle_iff.1 hidle).1 hpage hnew hcovers hahead
  | unloaded htakes herror =>
    have ht := taken_of_takes hp.toSteady htakes
    obtain ⟨hcovers, hahead⟩ := file_of_takes hp htakes
    obtain ⟨hbytes, hids, hcount⟩ := hload.same herror
    exact hp.release (finds_of_takes hp htakes) (refills_of_releaseFrame ht.lt)
      (ht.release hp.toSteady (refills_of_releaseFrame ht.lt) rfl ((ht.keyed.insert id _).erase id)
        fun i g ↦ PageTable.of_find?_erase_insert)
      (fun g hg ↦ by cases hnew.symm.trans hg) (fun i ↦ PageTable.find?_erase_insert)
      (fun n hn ↦ hids ▸ hcovers n hn) (hbytes.ahead hids hcount hahead)
  | loaded htakes hok =>
    have ht := taken_of_takes hp.toSteady htakes
    obtain ⟨hcovers, hahead⟩ := file_of_takes hp htakes
    obtain ⟨hbytes, hids, hcount⟩ := hload.same hok
    exact hp.fill (finds_of_takes hp htakes) (refills_of_settleFrame ht.lt)
      (ht.fill hp.toSteady (refills_of_settleFrame ht.lt) rfl rfl rfl rfl)
      hnew rfl (hload.page_id hok) rfl (fun n hn ↦ hids ▸ hcovers n hn)
      (hids ▸ hload.covers hok hahead hcovers) (hbytes.ahead hids hcount hahead)

end Installing

end PagedStorage.Pool
