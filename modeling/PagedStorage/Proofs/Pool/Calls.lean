import PagedStorage.Proofs.Page.Editing
import PagedStorage.Proofs.PageFile.Calls
import PagedStorage.Proofs.Pool.Bookkeeping

/-!
# Calls of a pool

A user of a pool makes calls, `PoolCall`, and in between changes the pages that are pinned,
`Pool.edit`. Every call leaves a pool between operations as one, whether it succeeds or fails, and
its errors are those of the file and the few that name what the user may not do. The one other
error there is, that the policy offers a frame in use, depends on the policy alone.

## What each call does

For each call there is one lemma with all that it can do (`fetch_cases`, `unpin_cases`,
`flush_cases`, and `newPage_cases` and `delete_cases` from before), and no later proof looks at the
definitions. Most calls do no more than adjust one frame, which keeps its page, `Pool.Adjusts`.
Flushing all pages is a row of flushes, and keeps what each of them keeps
(`flushAll_induction`).

## Faults

To pin a page with all the users that can be counted, `Pool.Full`, is a fault: the program stops,
and the pool that comes with the fault is the one from before the call. Flushing pins the page for
as long as it takes, so it can end in the same way. Every other fault is excluded; in particular no
call waits for one that came before.

## Ids are used once

`Permits` is what keeps a pool sound. A new page needs an id that was not given out, so the counter
must not start again. And a deletion of a page that was never given out must not write it in part
and then fail, because the part makes the file longer than the counter knows, and the ids of the
pages before it, which are in the file then, are still to be given out. No other call is restricted,
and neither are deletions of pages that were given out.
-/

namespace PagedStorage

/-- The calls that a user of a pool makes. -/
inductive PoolCall where
  | fetch (id : PageId)
  | newPage
  | unpin (id : PageId) (dirty : Bool)
  | flush (id : PageId)
  | flushAll
  | delete (id : PageId)

namespace Pool

variable {ρ : Type}

/-! ## Adjusting a frame -/

/-- Frame `f` becomes `fr`, but keeps the page it holds. -/
structure Adjusts (p : Pool ρ) (f : Nat) (fr : Frame) (q : Pool ρ) : Prop
    extends p.Refills f fr q where
  resident : (p.frame f).isResident
  status_eq : fr.status = (p.frame f).status
  pageId_eq : fr.pageId = (p.frame f).pageId
  table_eq : q.table = p.table
  freeFrames_eq : q.freeFrames = p.freeFrames

variable {p q : Pool ρ} {f : Nat} {fr : Frame} {id : PageId}

theorem adjusts_of_frames (change : Frame → Frame) (hresident : (p.frame f).isResident)
    (hframes : q.frames = p.frames.modify f change) (htable : q.table = p.table)
    (hfree : q.freeFrames = p.freeFrames) (hflight : q.inFlight = p.inFlight)
    (hstatus : (change (p.frame f)).status = (p.frame f).status)
    (hpage : (change (p.frame f)).pageId = (p.frame f).pageId) :
    p.Adjusts f (change (p.frame f)) q :=
  ⟨refills_of_frames change (lt_capacity_of_isResident hresident) hframes hflight, hresident,
    hstatus, hpage, htable, hfree⟩

theorem Adjusts.isResident (h : p.Adjusts f fr q) : fr.isResident := by
  rw [isResident_iff, h.status_eq]
  exact isResident_iff.1 h.resident

theorem Adjusts.steady (hp : p.Steady) (h : p.Adjusts f fr q) : q.Steady ∧ p.Touches f q := by
  have htouches : p.Touches f q :=
    h.touches (fun g _ ↦ by rw [h.freeFrames_eq]) fun i g _ hi ↦ by rwa [h.table_eq] at hi
  have hok := hp.frameOk f
  refine ⟨hp.of_touches htouches (h.freeFrames_eq ▸ hp.nodup_free) (h.table_eq ▸ hp.keyed)
    (h.inFlight_eq.trans hp.inFlight_eq) ?_, htouches⟩
  constructor
  · rw [h.freeFrames_eq, h.capacity_eq, h.frame_self, h.status_eq]
    exact hok.mem_free_iff
  · rw [h.frame_self, h.status_eq]
    exact hok.not_loading
  · rw [h.frame_self, h.pageId_eq]
    exact fun _ ↦ hok.exists_pageId h.resident
  · intro i hi
    rw [h.table_eq] at hi
    rw [h.frame_self, h.pageId_eq]
    exact ⟨h.isResident, (hok.of_find? i hi).2⟩

theorem Adjusts.sound (hp : p.Sound) (h : p.Adjusts f fr q)
    (hid : fr.page.id = (p.frame f).page.id)
    (hcovers : ∀ n, p.file.ids.Covers n → q.file.ids.Covers n) (hahead : q.file.Ahead) :
    q.Sound := by
  obtain ⟨hq, htouches⟩ := h.steady hp.toSteady
  refine hp.of_touches htouches hq (fun i g _ hi ↦ by rwa [h.table_eq]) hcovers
    (fun i _ hi ↦ ?_) hahead
  rw [h.frame_self, h.pageId_eq] at hi
  have hindexed := hp.indexed f i h.resident hi
  refine ⟨by rw [h.table_eq]; exact hindexed.find?_eq, ?_, hcovers _ hindexed.covers⟩
  rw [h.frame_self, hid]
  exact hindexed.page_id

/-! ## Changing a page in use -/

/-- Changes a page that is pinned. -/
def edit (p : Pool ρ) (id : PageId) (e : Page.Edit) : Except Error Unit × Pool ρ :=
  match p.residentFrame? id with
  | none => (.error (.pageNotInPool id), p)
  | some f =>
    if (p.frame f).pins = 0 then (.error (.pageNotPinned id), p)
    else
      match e.apply (p.frame f).page with
      | .error err => (.error err, p)
      | .ok page => (.ok (), p.setPage ⟨f, (p.frame f).copy⟩ page)

/-- An edit that fails changes nothing. One that succeeds changes the page in its frame. -/
theorem edit_cases {e : Page.Edit} {r : Except Error Unit} (h : p.edit id e = (r, q)) :
    (r ≠ .ok () ∧ q = p) ∨ ∃ f page, p.residentFrame? id = some f ∧ 0 < (p.frame f).pins ∧
      e.apply (p.frame f).page = .ok page ∧ r = .ok () ∧
      p.Adjusts f { p.frame f with page := page } q ∧ q.replacer = p.replacer ∧
      q.file = p.file := by
  rw [edit] at h
  split at h
  next =>
    cases h
    exact .inl ⟨(by rintro ⟨⟩), rfl⟩
  next f hf =>
    split at h
    next =>
      cases h
      exact .inl ⟨(by rintro ⟨⟩), rfl⟩
    next hpins =>
      split at h
      next =>
        cases h
        exact .inl ⟨(by rintro ⟨⟩), rfl⟩
      next page hpage =>
        have hset : p.setPage ⟨f, (p.frame f).copy⟩ page =
            p.modifyFrame f fun fr ↦ { fr with page := page } := if_pos rfl
        rw [hset] at h
        cases h
        exact .inr ⟨f, page, hf, UInt32.pos_iff_ne_zero.2 hpins, hpage, rfl,
          adjusts_of_frames (fun fr ↦ { fr with page := page })
            (residentFrame?_eq_some_iff.1 hf).2 rfl rfl rfl rfl rfl rfl, rfl, rfl⟩

theorem steady_of_edit {e : Page.Edit} {r : Except Error Unit} (hp : p.Steady)
    (h : p.edit id e = (r, q)) : q.Steady ∧ q.capacity = p.capacity := by
  obtain ⟨-, rfl⟩ | ⟨f, page, -, -, -, -, hadjusts, -⟩ := edit_cases h
  · exact ⟨hp, rfl⟩
  · exact ⟨(hadjusts.steady hp).1, hadjusts.capacity_eq⟩

theorem sound_of_edit {e : Page.Edit} {r : Except Error Unit} (hp : p.Sound)
    (h : p.edit id e = (r, q)) : q.Sound := by
  obtain ⟨-, rfl⟩ | ⟨f, page, -, -, happly, -, hadjusts, -, hfile⟩ := edit_cases h
  · exact hp
  · exact hadjusts.sound hp (Page.Edit.id_apply happly) (fun n hn ↦ hfile ▸ hn)
      (hfile ▸ hp.ahead)

/-! ## Pages to bring in -/

theorem loads_readPage (p : Pool ρ) (id : PageId) : p.Loads id (·.readPage id) where
  same h := by
    obtain ⟨hbytes, hids, -⟩ := PageFile.readPage_cases h
    exact ⟨hbytes, hids, PageFile.pageCount_of_readPage h⟩
  page_id h := by
    obtain ⟨-, -, hstored | ⟨cause, ⟨⟩⟩⟩ := PageFile.readPage_cases h
    exact (PageFile.readable_of_stored hstored.symm).2
  covers h hahead _ := by
    obtain ⟨-, -, hstored | ⟨cause, ⟨⟩⟩⟩ := PageFile.readPage_cases h
    exact hahead.covers (PageFile.has_of_stored hstored.symm)

theorem loads_fresh (hnext : p.file.ids.Covers (id.toNat + 1)) :
    p.Loads id fun file ↦ (.ok (.fresh id), file) where
  same := by
    rintro x y r ⟨⟩
    exact ⟨⟨rfl, rfl⟩, rfl, rfl⟩
  page_id := by
    rintro x y page ⟨⟩
    rfl
  covers _ _ h := h _ hnext

/-- The id that is given out next belongs to no page in a frame. -/
theorem Sound.find?_next (hp : p.Sound) (hnext : p.file.ids.next.toNat + 1 < UInt32.size) :
    p.table.find? p.file.ids.next = none := by
  rw [Option.eq_none_iff_forall_ne_some]
  intro f hf
  obtain ⟨hresident, hpage⟩ := hp.find?_iff.1 hf
  have hcovers := (hp.indexed f _ hresident hpage).covers
  rw [IdCounter.Covers] at hcovers
  omega

theorem Steady.allocate (hp : p.Steady) :
    ({ p with file := p.file.allocate.2 } : Pool ρ).Steady := hp.congr rfl rfl rfl rfl

theorem Sound.allocate (hp : p.Sound) (hnext : p.file.ids.next.toNat + 1 < UInt32.size) :
    ({ p with file := p.file.allocate.2 } : Pool ρ).Sound :=
  hp.congr rfl rfl rfl rfl (fun _ hn ↦ hn.allocate hnext)
    ⟨IdCounter.Covers.allocate hp.ahead.stored hnext,
      IdCounter.Covers.allocate hp.ahead.indexed hnext⟩

/-! ## Calls that use no id twice -/

/-- The calls under which no id comes to be used twice: the counter does not start again, and the
medium does not write a page in part, for a deletion that fails, if its id was never given out. -/
def Permits (p : Pool ρ) (c : PoolCall) : Prop :=
  match c with
  | .newPage => p.file.ids.next.toNat + 1 < UInt32.size
  | .delete id => p.file.ids.Covers (id.toNat + 1) ∨ p.file.AllOrNothing (.delete id)
  | _ => True

/-! ## What each call does -/

variable [Replacer ρ]

/-- A call. What is answered apart from success or failure is left out. -/
def call (p : Pool ρ) : PoolCall → Except Error Unit × Pool ρ
  | .fetch id => ((p.fetch id).1.map fun _ ↦ (), (p.fetch id).2)
  | .newPage => (p.newPage.1.map fun _ ↦ (), p.newPage.2)
  | .unpin id dirty => p.unpin id dirty
  | .flush id => p.flush id
  | .flushAll => p.flushAll
  | .delete id => p.delete id

/-- A page has as many users as can be counted. -/
def Full (p : Pool ρ) (id : PageId) : Prop := p.pinCount? id = some (UInt32.size - 1)

omit [Replacer ρ] in
instance : Decidable (p.Full id) :=
  inferInstanceAs (Decidable (p.pinCount? id = some (UInt32.size - 1)))

omit [Replacer ρ] in
theorem full_iff (h : p.residentFrame? id = some f) : p.Full id ↔ (p.frame f).isFull := by
  rw [Full, pinCount?, h, Option.map_some, Option.some_inj, isFull_iff]
  unfold UInt32.size
  omega

/-- Pinning a page that is in a frame, unless it is full. Any other page is brought into one. -/
theorem fetch_cases {r : Except Error Handle} (hp : p.Steady) (h : p.fetch id = (r, q)) :
    (p.Full id ∧ r = .error (.fault .counterOverflow) ∧ q = p) ∨
    (∃ f, p.table.find? id = some f ∧ (p.frame f).pins.toNat + 1 < UInt32.size ∧
      r = .ok ⟨f, (p.frame f).copy⟩ ∧
      p.Adjusts f { p.frame f with pins := (p.frame f).pins + 1 } q ∧
      q.replacer = Replacer.pin p.replacer f ∧ q.file = p.file) ∨
    (p.table.find? id = none ∧ p.Installs id false (·.readPage id) r q) := by
  rw [fetch, lookup_eq hp.inFlight_eq hp.not_loading] at h
  cases hfound : p.table.find? id with
  | none =>
    rw [hfound] at h
    exact .inr (.inr ⟨rfl, installs_of_install hp.inFlight_eq h⟩)
  | some f =>
    have hresident := ((hp.frameOk f).of_find? id hfound).1
    simp only [hfound, addPin] at h
    by_cases hfull : (p.frame f).isFull
    · rw [if_pos hfull] at h
      obtain ⟨rfl, rfl⟩ := Prod.mk.inj h
      exact .inl ⟨(full_iff (residentFrame?_eq_some_iff.2 ⟨hfound, hresident⟩)).2 hfull, rfl, rfl⟩
    · rw [if_neg hfull] at h
      obtain ⟨rfl, rfl⟩ := Prod.mk.inj h
      have hadjusts : p.Adjusts f { p.frame f with pins := (p.frame f).pins + 1 }
          ((p.modifyFrame f fun fr ↦ { fr with pins := fr.pins + 1 }).pinFrame f) :=
        adjusts_of_frames (fun fr ↦ { fr with pins := fr.pins + 1 }) hresident rfl rfl rfl rfl
          rfl rfl
      have hcopy := congrArg Frame.copy hadjusts.frame_self
      have hlt : (p.frame f).pins.toNat + 1 < UInt32.size :=
        Nat.lt_of_le_of_ne (p.frame f).pins.toNat_lt (mt isFull_iff.2 hfull)
      exact .inr (.inl ⟨f, rfl, hlt, congrArg (fun copy ↦ Except.ok (Handle.mk f copy)) hcopy,
        hadjusts, rfl, rfl⟩)

/-- Unpinning a page that is pinned. Nothing else is done. -/
theorem unpin_cases {dirty : Bool} {r : Except Error Unit} (h : p.unpin id dirty = (r, q)) :
    (p.residentFrame? id = none ∧ r = .error (.pageNotInPool id) ∧ q = p) ∨
    ∃ f, p.residentFrame? id = some f ∧
      (((p.frame f).pins = 0 ∧ r = .error (.pageNotPinned id) ∧ q = p) ∨
        ((p.frame f).pins ≠ 0 ∧ r = .ok () ∧
          p.Adjusts f { p.frame f with
            pins := (p.frame f).pins - 1, dirty := (p.frame f).dirty || dirty } q ∧
          (q.replacer = if (p.frame f).pins = 1 then Replacer.unpin p.replacer f
            else p.replacer) ∧ q.file = p.file)) := by
  rw [unpin] at h
  split at h
  next hnone =>
    cases h
    exact .inl ⟨hnone, rfl, rfl⟩
  next f hf =>
    refine .inr ⟨f, hf, ?_⟩
    simp only at h
    split at h
    next hpins =>
      cases h
      exact .inl ⟨hpins, rfl, rfl⟩
    next hpins =>
      cases h
      refine .inr ⟨hpins, rfl, adjusts_of_frames (fun fr ↦ { fr with
        pins := fr.pins - 1, dirty := fr.dirty || dirty }) (residentFrame?_eq_some_iff.1 hf).2
        ?_ ?_ ?_ ?_ rfl rfl, ?_, ?_⟩ <;> split <;> rfl

/-- The pool while the page in a frame is written. -/
def flushing (p : Pool ρ) (f : Nat) : Pool ρ :=
  ((p.modifyFrame f fun fr ↦ { fr with pins := fr.pins + 1 }).modifyFrame f fun fr ↦
    { fr with dirty := false }).pinFrame f

theorem beginFlush_eq (p : Pool ρ) (f : Nat) : p.beginFlush f =
    if (p.frame f).isFull then .error (.fault .counterOverflow) else .ok (p.flushing f) := by
  rw [beginFlush, addPin]
  split <;> rfl

private theorem page_flushing (hresident : (p.frame f).isResident) :
    ((p.flushing f).frame f).page = (p.frame f).page := by
  have hlt := lt_capacity_of_isResident hresident
  have hframe : (p.flushing f).frame f = { p.frame f with
      pins := (p.frame f).pins + 1, dirty := false } := by
    refine (frame_modifyFrame_self ?_).trans ?_
    · rwa [capacity_modifyFrame]
    · rw [frame_modifyFrame_self hlt]
  rw [hframe]

private theorem adjusts_endFlush (hresident : (p.frame f).isResident) (file : PageFile)
    (failed : Bool) :
    p.Adjusts f { p.frame f with dirty := failed }
        ({ p.flushing f with file := file }.endFlush f failed) ∧
      ({ p.flushing f with file := file }.endFlush f failed).replacer =
        if (p.frame f).pins = 0 then Replacer.unpin (Replacer.pin p.replacer f) f
        else Replacer.pin p.replacer f := by
  let change : Frame → Frame := fun fr ↦
    { fr with pins := fr.pins + 1 - 1, dirty := false || failed }
  have hframes : ({ p.flushing f with file := file }.modifyFrame f fun fr ↦
      { fr with pins := fr.pins - 1, dirty := fr.dirty || failed }).frames =
        p.frames.modify f change := by
    have hthrice : ((p.modifyFrame f fun fr ↦ { fr with pins := fr.pins + 1 }).modifyFrame f
        fun fr ↦ { fr with dirty := false }).modifyFrame f
          (fun fr ↦ { fr with pins := fr.pins - 1, dirty := fr.dirty || failed }) =
            p.modifyFrame f change := by
      rw [modifyFrame_modifyFrame, modifyFrame_modifyFrame]
      rfl
    exact congrArg Pool.frames hthrice
  have hchange : change (p.frame f) = { p.frame f with dirty := failed } := by
    simp only [change, UInt32.add_sub_cancel, Bool.false_or]
  have hself : ({ p.flushing f with file := file }.modifyFrame f fun fr ↦
      { fr with pins := fr.pins - 1, dirty := fr.dirty || failed }).frame f =
        change (p.frame f) :=
    (refills_of_frames change (lt_capacity_of_isResident hresident) hframes rfl).frame_self
  have hpins : (change (p.frame f)).pins = (p.frame f).pins := UInt32.add_sub_cancel _ _
  rw [endFlush]
  simp only [hself]
  rw [hpins, ← hchange]
  refine ⟨adjusts_of_frames change hresident ?_ ?_ ?_ ?_ rfl rfl, ?_⟩
  · split <;> exact hframes
  all_goals split <;> rfl

/-- Flushing a page writes it, unless it is full, and notes whether this failed. -/
theorem flush_cases {r : Except Error Unit} (h : p.flush id = (r, q)) :
    ((p.residentFrame? id = none ∧ r = .error (.pageNotInPool id) ∨
        p.Full id ∧ r = .error (.fault .counterOverflow)) ∧ q = p) ∨
    ∃ f, p.residentFrame? id = some f ∧ p.file.writePage (p.frame f).page = (r, q.file) ∧
      p.Adjusts f { p.frame f with dirty := !r.toBool } q ∧
      q.replacer = if (p.frame f).pins = 0 then
        Replacer.unpin (Replacer.pin p.replacer f) f else Replacer.pin p.replacer f := by
  rw [flush] at h
  split at h
  next hnone =>
    cases h
    exact .inl ⟨.inl ⟨hnone, rfl⟩, rfl⟩
  next f hf =>
    have hresident := (residentFrame?_eq_some_iff.1 hf).2
    rw [beginFlush_eq] at h
    by_cases hfull : (p.frame f).isFull
    · rw [if_pos hfull] at h
      cases h
      exact .inl ⟨.inr ⟨(full_iff hf).2 hfull, rfl⟩, rfl⟩
    · rcases hwrite : p.file.writePage (p.frame f).page with ⟨result, file⟩
      have hback : (p.flushing f).writeBack ((p.flushing f).frame f).page =
          (result, { p.flushing f with file := file }) := by
        rw [writeBack, page_flushing hresident]
        exact congrArg (fun x ↦ (x.1, { p.flushing f with file := x.2 })) hwrite
      simp only [if_neg hfull, hback] at h
      cases h
      obtain ⟨hadjusts, hreplacer⟩ := adjusts_endFlush hresident file (!r.toBool)
      refine .inr ⟨f, hf, ?_, hadjusts, hreplacer⟩
      rw [endFlush]
      split <;> exact hwrite

/-- Where there is a free frame, a page that can be loaded is brought into it. -/
theorem install_of_free {rest : List Nat} {dirty : Bool} {page : Page} {file : PageFile}
    {load : PageFile → Except Error Page × PageFile} (hlt : f < p.capacity)
    (hfree : p.freeFrames = f :: rest) (hload : load p.file = (.ok page, file)) :
    ∃ q, p.install id dirty load = (.ok ⟨f, p.copies + 1⟩, q) ∧ q.file = file ∧
      q.freeFrames = rest ∧ q.table = p.table.insert id f ∧
      p.Refills f (loadedFrame id page dirty (p.copies + 1)) q := by
  have hload' : load (({ p with freeFrames := rest } : Pool ρ).reserveFrame f id).file =
    (.ok page, file) := hload
  let t : Pool ρ := { p with freeFrames := rest }
  have hrefills : t.Refills f (loadedFrame id page dirty (t.copies + 1))
      ({ t.reserveFrame f id with file := file }.settleFrame f page dirty).2 :=
    refills_of_settleFrame hlt
  refine ⟨_, ?_, rfl, rfl, rfl, hrefills.capacity_eq, hrefills.frame_self, hrefills.frame_eq,
    hrefills.inFlight_eq⟩
  rw [install, acquireFrame, hfree]
  dsimp only [dismiss]
  rw [hload']
  rfl

theorem newPage_of_install {hd : Handle} {q : Pool ρ} (hid : p.file.ids.next = id)
    (h : ({ p with file := p.file.allocate.2 } : Pool ρ).install id true
      (fun file ↦ (.ok (.fresh id), file)) = (.ok hd, q)) : p.newPage = (.ok (id, hd), q) := by
  subst hid
  have hallocate : p.file.allocate = (.fresh p.file.ids.next, p.file.allocate.2) := rfl
  rw [newPage, hallocate]
  have hpage : (Page.fresh p.file.ids.next).id = p.file.ids.next := rfl
  simp only [hpage, h]

/-- One user more than can be counted is a fault. -/
theorem fetch_of_full (hp : p.Steady) (hfull : p.Full id) :
    p.fetch id = (.error (.fault .counterOverflow), p) := by
  obtain ⟨f, hf, -⟩ := Option.map_eq_some_iff.1 hfull
  have hfound := (residentFrame?_eq_some_iff.1 hf).1
  simp only [fetch, lookup_eq hp.inFlight_eq hp.not_loading, hfound, addPin,
    if_pos ((full_iff hf).1 hfull)]

/-- A flush counts as a user as long as it takes. -/
theorem flush_of_full (hfull : p.Full id) :
    p.flush id = (.error (.fault .counterOverflow), p) := by
  obtain ⟨f, hf, -⟩ := Option.map_eq_some_iff.1 hfull
  simp only [flush, hf, beginFlush_eq, if_pos ((full_iff hf).1 hfull)]

theorem fetch_of_resident (hp : p.Steady) (hid : p.residentFrame? id ≠ none) :
    (p.fetch id).1.toBool ↔ ¬ p.Full id := by
  rcases h : p.fetch id with ⟨r, q⟩
  obtain ⟨hfull, rfl, -⟩ | ⟨f, hf, hlt, rfl, hadjusts, -⟩ | ⟨hnone, -⟩ := fetch_cases hp h
  · exact iff_of_false Bool.false_ne_true (not_not.2 hfull)
  · have hf := residentFrame?_eq_some_iff.2 ⟨hf, hadjusts.resident⟩
    refine iff_of_true rfl ?_
    rw [full_iff hf, isFull_iff]
    exact Nat.ne_of_lt hlt
  · rw [residentFrame?, hnone] at hid
    exact absurd rfl hid

/-! ## Calls keep the books -/

theorem Drops.taken (hp : p.Steady) (h : p.Drops id q) : q = p ∨
    ∃ f t, (p.frame f).isIdle ∧ (p.frame f).pageId = some id ∧ p.Taken f t ∧
      t.table = p.table.erase id ∧ t.Refills f (t.frame f).clear q ∧
      q.freeFrames = t.freeFrames ++ [f] ∧ q.table = t.table ∧
      q.replacer = Replacer.pin p.replacer f ∧ q.file = p.file := by
  cases h with
  | absent => exact .inl rfl
  | @idle f hfound hpins =>
    obtain ⟨hresident, hpage⟩ := (hp.frameOk f).of_find? id hfound
    have hidle := isIdle_iff.2 ⟨hresident, hpins⟩
    have ht : p.Taken f { p with table := p.table.erase id } :=
      taken_of_victim hp hidle hpage rfl rfl rfl rfl
    exact .inr ⟨f, _, hidle, hpage, ht, rfl,
      refills_of_frames Frame.clear (lt_capacity_of_isResident hresident) rfl rfl,
      rfl, rfl, rfl, rfl⟩

theorem Drops.leads (hp : p.Steady) (h : p.Drops id q) : p.Leads q := by
  obtain rfl | ⟨f, t, -, -, ht, -, hrefills, hfree, htable, -, -⟩ := h.taken hp
  · exact ⟨hp, rfl, fun _ _ _ ↦ rfl⟩
  · exact ht.leads (ht.release hp hrefills hfree (htable ▸ ht.keyed) fun i g hi ↦ htable ▸ hi)

theorem Drops.sound (hp : p.Sound) (h : p.Drops id q) : q.Sound := by
  obtain rfl | ⟨f, t, hidle, hpage, ht, herase, hrefills, hfree, htable, -, hfile⟩ :=
    h.taken hp.toSteady
  · exact hp
  · have hresident := (isIdle_iff.1 hidle).1
    have hfind : ∀ i, q.table.find? i = if i = id then none else t.table.find? i := fun i ↦ by
      rw [htable, herase, PageTable.find?_erase]
      split <;> rfl
    exact hp.release (finds_of_victim hp hresident hpage herase) hrefills
      (ht.release hp.toSteady hrefills hfree (htable ▸ ht.keyed) fun i g hi ↦ htable ▸ hi)
      (fun g hg ↦ Option.some.inj (hg.symm.trans (hp.indexed f id hresident hpage).find?_eq))
      hfind (fun n hn ↦ hfile ▸ hn) (hfile ▸ hp.ahead)

theorem Drops.file_eq (h : p.Drops id q) : q.file = p.file := by
  cases h <;> rfl

private theorem flushEach_induction {I : Pool ρ → Prop}
    (hflush : ∀ {p q : Pool ρ} {id : PageId} {r : Except Error Unit}, I p →
      p.flush id = (r, q) → I q)
    {ids : List PageId} {r : Except Error Unit} (hp : I p) (h : p.flushEach ids = (r, q)) :
    I q := by
  induction ids generalizing p with
  | nil =>
    cases h
    exact hp
  | cons id ids ih =>
    rw [flushEach] at h
    split at h
    next t ht => exact ih (hflush hp ht) h
    next i t ht => exact ih (hflush hp ht) h
    next e t _ ht =>
      cases h
      exact hflush hp ht

/-- To flush all pages is to flush some and, if that goes well, to sync the file. -/
theorem flushAll_induction {I : Pool ρ → Prop}
    (hflush : ∀ {p q : Pool ρ} {id : PageId} {r : Except Error Unit}, I p →
      p.flush id = (r, q) → I q)
    (hsync : ∀ {p : Pool ρ} {file : PageFile} {r : Except Error Unit}, I p →
      p.file.sync = (r, file) → I { p with file := file })
    {r : Except Error Unit} (hp : I p) (h : p.flushAll = (r, q)) : I q := by
  rw [flushAll] at h
  split at h
  next e t ht =>
    cases h
    exact flushEach_induction hflush hp ht
  next t ht =>
    split at h
    next result file hfile =>
      cases h
      exact hsync (flushEach_induction hflush hp ht) hfile

theorem steady_of_fetch {r : Except Error Handle} (hp : p.Steady) (h : p.fetch id = (r, q)) :
    q.Steady ∧ q.capacity = p.capacity := by
  obtain ⟨-, -, rfl⟩ | ⟨f, -, -, -, hadjusts, -⟩ | ⟨-, hinstalls⟩ := fetch_cases hp h
  · exact ⟨hp, rfl⟩
  · exact ⟨(hadjusts.steady hp).1, hadjusts.capacity_eq⟩
  · have hleads := hinstalls.steady hp
    exact ⟨hleads.steady, hleads.capacity_eq⟩

theorem steady_of_newPage {r : Except Error (PageId × Handle)} (hp : p.Steady)
    (h : p.newPage = (r, q)) : q.Steady ∧ q.capacity = p.capacity := by
  obtain ⟨r', -, hinstalls⟩ := newPage_cases hp.inFlight_eq h
  have hleads := hinstalls.steady hp.allocate
  exact ⟨hleads.steady, hleads.capacity_eq⟩

theorem steady_of_unpin {dirty : Bool} {r : Except Error Unit} (hp : p.Steady)
    (h : p.unpin id dirty = (r, q)) : q.Steady ∧ q.capacity = p.capacity := by
  obtain ⟨-, -, rfl⟩ | ⟨f, -, ⟨-, -, rfl⟩ | ⟨-, -, hadjusts, -⟩⟩ := unpin_cases h
  · exact ⟨hp, rfl⟩
  · exact ⟨hp, rfl⟩
  · exact ⟨(hadjusts.steady hp).1, hadjusts.capacity_eq⟩

theorem steady_of_flush {r : Except Error Unit} (hp : p.Steady) (h : p.flush id = (r, q)) :
    q.Steady ∧ q.capacity = p.capacity := by
  obtain ⟨-, rfl⟩ | ⟨f, -, -, hadjusts, -⟩ := flush_cases h
  · exact ⟨hp, rfl⟩
  · exact ⟨(hadjusts.steady hp).1, hadjusts.capacity_eq⟩

theorem steady_of_flushAll {r : Except Error Unit} (hp : p.Steady) (h : p.flushAll = (r, q)) :
    q.Steady ∧ q.capacity = p.capacity :=
  flushAll_induction (I := fun q ↦ q.Steady ∧ q.capacity = p.capacity)
    (fun ht hflush ↦ ⟨(steady_of_flush ht.1 hflush).1, (steady_of_flush ht.1 hflush).2.trans ht.2⟩)
    (fun ht _ ↦ ⟨ht.1.congr rfl rfl rfl rfl, ht.2⟩) ⟨hp, rfl⟩ h

theorem steady_of_delete {r : Except Error Unit} (hp : p.Steady) (h : p.delete id = (r, q)) :
    q.Steady ∧ q.capacity = p.capacity := by
  obtain ⟨-, -, -, -, rfl⟩ | ⟨t, file, hdrops, -, rfl⟩ := delete_cases hp.inFlight_eq
    hp.not_loading h
  · exact ⟨hp, rfl⟩
  · have hleads := hdrops.leads hp
    exact ⟨hleads.steady.congr rfl rfl rfl rfl, hleads.capacity_eq⟩

/-- Every call leaves a pool between operations as one, also when it fails. -/
theorem steady_of_call (hp : p.Steady) (c : PoolCall) :
    (p.call c).2.Steady ∧ (p.call c).2.capacity = p.capacity :=
  match c with
  | .fetch _ => steady_of_fetch hp rfl
  | .newPage => steady_of_newPage hp rfl
  | .unpin _ _ => steady_of_unpin hp rfl
  | .flush _ => steady_of_flush hp rfl
  | .flushAll => steady_of_flushAll hp rfl
  | .delete _ => steady_of_delete hp rfl

/-! ## Calls keep a pool sound -/

theorem sound_of_fetch {r : Except Error Handle} (hp : p.Sound) (h : p.fetch id = (r, q)) :
    q.Sound := by
  obtain ⟨-, -, rfl⟩ | ⟨f, -, -, -, hadjusts, -, hfile⟩ | ⟨hnew, hinstalls⟩ :=
    fetch_cases hp.toSteady h
  · exact hp
  · exact hadjusts.sound hp rfl (fun n hn ↦ hfile ▸ hn) (hfile ▸ hp.ahead)
  · exact hinstalls.sound hp hnew (p.loads_readPage id)

theorem sound_of_newPage {r : Except Error (PageId × Handle)} (hp : p.Sound)
    (hnext : p.file.ids.next.toNat + 1 < UInt32.size) (h : p.newPage = (r, q)) : q.Sound := by
  obtain ⟨r', -, hinstalls⟩ := newPage_cases hp.inFlight_eq h
  refine hinstalls.sound (hp.allocate hnext) (hp.find?_next hnext) (loads_fresh (.inl ?_))
  exact Nat.le_of_eq (IdCounter.toNat_next_allocate hnext).symm

theorem sound_of_unpin {dirty : Bool} {r : Except Error Unit} (hp : p.Sound)
    (h : p.unpin id dirty = (r, q)) : q.Sound := by
  obtain ⟨-, -, rfl⟩ | ⟨f, -, ⟨-, -, rfl⟩ | ⟨-, -, hadjusts, -, hfile⟩⟩ := unpin_cases h
  · exact hp
  · exact hp
  · exact hadjusts.sound hp rfl (fun n hn ↦ hfile ▸ hn) (hfile ▸ hp.ahead)

theorem sound_of_flush {r : Except Error Unit} (hp : p.Sound) (h : p.flush id = (r, q)) :
    q.Sound := by
  obtain ⟨-, rfl⟩ | ⟨f, hf, hwrite, hadjusts, -⟩ := flush_cases h
  · exact hp
  · have hpage := ((hp.frameOk f).of_find? id (residentFrame?_eq_some_iff.1 hf).1).2
    obtain ⟨hcovers, hahead⟩ := file_of_write hp hadjusts.resident hpage hwrite
    exact hadjusts.sound hp rfl hcovers hahead

theorem sound_of_flushAll {r : Except Error Unit} (hp : p.Sound) (h : p.flushAll = (r, q)) :
    q.Sound := by
  refine flushAll_induction (I := Sound) sound_of_flush (fun ht hsync ↦ ?_) hp h
  obtain ⟨hbytes, hids, -⟩ := PageFile.sync_cases hsync
  exact ht.congr rfl rfl rfl rfl (fun n hn ↦ hids ▸ hn) 
    (hbytes.ahead hids (PageFile.pageCount_of_sync hsync) ht.ahead)

/-- If the id was given out before, then it stays so, and it does not matter whether the medium
deleted the page in part. -/
theorem sound_of_delete {r : Except Error Unit} (hp : p.Sound) (hc : p.Permits (.delete id))
    (h : p.delete id = (r, q)) : q.Sound := by
  obtain ⟨-, -, -, -, rfl⟩ | ⟨t, file, hdrops, hdelete, rfl⟩ := delete_cases hp.inFlight_eq
    hp.not_loading h
  · exact hp
  · have ht := hdrops.sound hp
    have hex : t.file.Exchanges id file := PageFile.exchanges_of_deletePage hdelete
    rw [Permits, ← hdrops.file_eq] at hc
    obtain hcovers | hatomic := hc
    · exact ht.congr rfl rfl rfl rfl hex.covers (hex.ahead_of_covers ht.ahead hcovers)
    · refine ht.congr rfl rfl rfl rfl hex.covers
        (PageFile.ahead_of_deletePage hdelete (fun herror ↦ ?_) ht.ahead).2
      rcases r with e | ⟨⟩
      · exact hatomic.contents_of_deletePage hdelete
      · exact absurd rfl herror

theorem sound_of_call (hp : p.Sound) {c : PoolCall} (hc : p.Permits c) : (p.call c).2.Sound :=
  match c with
  | .fetch _ => sound_of_fetch hp rfl
  | .newPage => sound_of_newPage hp hc rfl
  | .unpin _ _ => sound_of_unpin hp rfl
  | .flush _ => sound_of_flush hp rfl
  | .flushAll => sound_of_flushAll hp rfl
  | .delete _ => sound_of_delete hp hc rfl

/-! ## The errors of calls -/

/-- The policy offers a frame that may not be taken. -/
def Misled (p : Pool ρ) : Prop :=
  ∃ f s, Replacer.evict p.replacer = (some f, s) ∧
    ((p.frame f).isIdle → (p.frame f).pageId = none)

/-- The errors that a call can answer. -/
def Answers (p : Pool ρ) (e : Error) : Prop :=
  e.OfPool ∨ (p.Misled ∧ ∃ f, e = .violation (.unusableVictim f))

private theorem answers_of_ofWrite {e : Error} (h : e.OfWrite) : p.Answers e := .inl h.ofPool

theorem Installs.failsWith {dirty : Bool} {load : PageFile → Except Error Page × PageFile}
    {r : Except Error Handle}
    (hload : ∀ {x y : PageFile} {r : Except Error Page}, load x = (r, y) →
      FailsWith Error.OfFile r)
    (h : p.Installs id dirty load r q) : FailsWith p.Answers r := by
  cases h with
  | exhausted => exact failsWith_error (.inl trivial)
  | unusable _ hevict hnone => exact failsWith_error (.inr ⟨⟨_, _, hevict, hnone⟩, _, rfl⟩)
  | restored _ _ _ _ _ hwrite =>
    exact failsWith_error (answers_of_ofWrite (PageFile.writePage_failsWith hwrite _ rfl))
  | unloaded _ herror => exact failsWith_error (answers_of_ofWrite (hload herror _ rfl).ofWrite)
  | loaded => exact failsWith_ok _

theorem flush_failsWith {r : Except Error Unit} (h : p.flush id = (r, q)) :
    FailsWith Error.OfPool r := by
  obtain ⟨⟨-, rfl⟩ | ⟨-, rfl⟩, -⟩ | ⟨f, -, hwrite, -⟩ := flush_cases h
  · exact failsWith_error trivial
  · exact failsWith_error trivial
  · exact (PageFile.writePage_failsWith hwrite).imp fun _ ↦ Error.OfWrite.ofPool

theorem flushEach_failsWith {ids : List PageId} {r : Except Error Unit}
    (h : p.flushEach ids = (r, q)) : FailsWith Error.OfPool r := by
  induction ids generalizing p with
  | nil =>
    cases h
    exact failsWith_ok ()
  | cons id ids ih =>
    rw [flushEach] at h
    split at h
    next => exact ih h
    next => exact ih h
    next ht =>
      cases h
      exact flush_failsWith ht

theorem flushAll_failsWith {r : Except Error Unit} (h : p.flushAll = (r, q)) :
    FailsWith Error.OfPool r := by
  rw [flushAll] at h
  split at h
  next ht =>
    cases h
    exact flushEach_failsWith ht
  next =>
    split at h
    next hsync =>
      cases h
      exact (PageFile.sync_failsWith hsync).imp fun _ he ↦ he.ofWrite.ofPool

theorem fetch_failsWith {r : Except Error Handle} (hp : p.Steady) (h : p.fetch id = (r, q)) :
    FailsWith p.Answers r := by
  obtain ⟨-, rfl, -⟩ | ⟨f, -, -, rfl, -⟩ | ⟨-, hinstalls⟩ := fetch_cases hp h
  · exact failsWith_error (.inl trivial)
  · exact failsWith_ok _
  · exact hinstalls.failsWith PageFile.readPage_failsWith

theorem newPage_failsWith {r : Except Error (PageId × Handle)} (hp : p.Steady)
    (h : p.newPage = (r, q)) : FailsWith p.Answers r := by
  obtain ⟨r', rfl, hinstalls⟩ := newPage_cases hp.inFlight_eq h
  refine FailsWith.map (hinstalls.failsWith ?_) _
  rintro x y r ⟨⟩
  exact failsWith_ok _

theorem unpin_failsWith {dirty : Bool} {r : Except Error Unit} (h : p.unpin id dirty = (r, q)) :
    FailsWith Error.OfPool r := by
  obtain ⟨-, rfl, -⟩ | ⟨f, -, ⟨-, rfl, -⟩ | ⟨-, rfl, -⟩⟩ := unpin_cases h
  · exact failsWith_error trivial
  · exact failsWith_error trivial
  · exact failsWith_ok ()

theorem delete_failsWith {r : Except Error Unit} (hp : p.Steady) (h : p.delete id = (r, q)) :
    FailsWith Error.OfPool r := by
  obtain ⟨f, -, -, rfl, -⟩ | ⟨t, file, -, hdelete, -⟩ := delete_cases hp.inFlight_eq
    hp.not_loading h
  · exact failsWith_error trivial
  · exact (PageFile.deletePage_failsWith hdelete).imp fun _ ↦ Error.OfWrite.ofPool

/-- A call fails for a reason of the file, or because the user may not do this, or because the
policy offers a frame in use. In particular no call waits for one that came before. -/
theorem call_failsWith (hp : p.Steady) (c : PoolCall) : FailsWith p.Answers (p.call c).1 :=
  match c with
  | .fetch _ => (fetch_failsWith hp rfl).map _
  | .newPage => (newPage_failsWith hp rfl).map _
  | .unpin _ _ => (unpin_failsWith rfl).imp fun _ ↦ .inl
  | .flush _ => (flush_failsWith rfl).imp fun _ ↦ .inl
  | .flushAll => (flushAll_failsWith rfl).imp fun _ ↦ .inl
  | .delete _ => (delete_failsWith hp rfl).imp fun _ ↦ .inl

/-! ## Runs -/

/-- The pools that are reached by calls that are allowed, with edits in between. -/
inductive Reached (allows : Pool ρ → PoolCall → Prop) (start : Pool ρ) : Pool ρ → Prop
  | start : Reached allows start start
  | call {p : Pool ρ} (c : PoolCall) : Reached allows start p → allows p c →
      Reached allows start (p.call c).2
  | edit {p : Pool ρ} (id : PageId) (e : Page.Edit) : Reached allows start p →
      Reached allows start (p.edit id e).2

/-- The pool after calls that are made one after the other. -/
def after (p : Pool ρ) (calls : List PoolCall) : Pool ρ := calls.foldl (fun p c ↦ (p.call c).2) p

@[simp] theorem after_nil (p : Pool ρ) : p.after [] = p := rfl

@[simp] theorem after_cons (p : Pool ρ) (c : PoolCall) (calls : List PoolCall) :
    p.after (c :: calls) = (p.call c).2.after calls := rfl

section Runs

variable {allows : Pool ρ → PoolCall → Prop} {start : Pool ρ}

theorem Reached.steady (hstart : start.Steady) (hp : Reached allows start p) :
    p.Steady ∧ p.capacity = start.capacity := by
  induction hp with
  | start => exact ⟨hstart, rfl⟩
  | call c _ _ ih =>
    obtain ⟨hq, hcapacity⟩ := steady_of_call ih.1 c
    exact ⟨hq, hcapacity.trans ih.2⟩
  | edit id e _ ih =>
    obtain ⟨hq, hcapacity⟩ := steady_of_edit ih.1 rfl
    exact ⟨hq, hcapacity.trans ih.2⟩

theorem Reached.of_call {c : PoolCall} (hp : Reached allows start p) (hc : allows p c)
    (hq : (p.call c).2 = q) : Reached allows start q := hq ▸ .call c hp hc

theorem Reached.trans (hp : Reached allows start p) (hq : Reached allows p q) :
    Reached allows start q := by
  induction hq with
  | start => exact hp
  | call c _ hc ih => exact .call c ih hc
  | edit id e _ ih => exact .edit id e ih

theorem Reached.mono {allows' : Pool ρ → PoolCall → Prop} (hp : Reached allows start p)
    (h : ∀ p c, allows p c → allows' p c) : Reached allows' start p := by
  induction hp with
  | start => exact .start
  | call c _ hc ih => exact .call c ih (h _ _ hc)
  | edit id e _ ih => exact .edit id e ih

theorem Reached.sound (hstart : start.Sound) (hp : Reached Permits start p) : p.Sound := by
  induction hp with
  | start => exact hstart
  | call c _ hc ih => exact sound_of_call ih hc
  | edit id e _ ih => exact sound_of_edit ih rfl

end Runs

end Pool

end PagedStorage
