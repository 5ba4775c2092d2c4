import PagedStorage.Proofs.PageFile.HandingOut
import PagedStorage.Proofs.Pool.Accounts
import PagedStorage.Proofs.Pool.Settled

/-!
# Handing out pages beside a pool

A file goes on to hand out pages while a pool keeps some of them in frames. It does not know which
ones these are. What it goes by is the header under which a page was last written, and its claims.
So a page in use is handed out if the file has it as free and nobody claims it, as happens when it
was written without a record (`Pool.Shared.handsOut_flushed`), and in no other case
(`Pool.Shared.handsOut_pinned_iff`).

## Pages that are outstanding

Two sorts of pages are not handed out again before they are written: those that the file handed out
itself, and those that were made in the pool. Their ids are tracked next to the pool
(`Pool.Shared`), as `PageFile.Outstanding` does it next to the file, and the file holds each of them
(`PageFile.Holds`): it is claimed, or it lies behind the pages of the file.

What has to be known for this is which pages a call of the pool writes, `Pool.writes`. A flush and a
deletion write the page that they are asked for. Any other call writes pages that wait, and what it
has written waits no longer, while a page that could not be written waits as before. So here it is
enough to look at which pages count as changed before the call and after it.
-/

namespace PagedStorage.Pool

open PageFile

variable {ρ : Type} {p q t : Pool ρ} {f : Nat} {id : PageId} {out out' new : List PageId}

private theorem isDirty?_iff (hp : p.Steady) : p.isDirty? id = some true ↔ p.Marked id := by
  rw [isDirty?, Option.map_eq_some_iff]
  refine exists_congr fun f ↦ and_congr_left fun _ ↦ ?_
  rw [residentFrame?_eq_some_iff]
  exact and_iff_left_of_imp fun hf ↦ ((hp.frameOk f).of_find? id hf).1

private theorem nodup_dirtyPages (hp : p.Sound) : p.dirtyPages.Nodup := by
  have hresident : ((p.frames.toList.filter (·.isResident)).filterMap (·.pageId)).Nodup := by
    refine (List.mergeSort_perm _ fun a b ↦ decide (a ≤ b)).nodup_iff.1 ?_
    exact hp.residentPages_perm.nodup_iff.2 hp.keyed
  refine hresident.sublist (List.Sublist.filterMap _ ?_)
  exact List.monotone_filter_right _ fun fr hfr ↦ (Bool.and_eq_true_iff.1 hfr).1

/-! ## What a call leaves held

The ids that are held before a call are held after it, but for those of the pages that it wrote:
these waited before the call and wait no longer, or the call was asked to write them. -/

private theorem file_of_edit {e : Page.Edit} : (p.edit id e).2.file = p.file := by
  rcases hedit : p.edit id e with ⟨r, q⟩
  obtain ⟨-, rfl⟩ | ⟨f, page, -, -, -, -, -, -, hfile⟩ := edit_cases hedit
  · rfl
  · exact hfile

private theorem sound_of_handOut (hp : p.Sound) (hnext : p.file.KeepsCounting .freeOrAllocate) :
    ({ p with file := p.file.freeOrAllocate.2 } : Pool ρ).Sound := by
  rw [KeepsCounting, PageFile.call] at hnext
  rcases hanswer : p.file.freeOrAllocate with ⟨r, g⟩
  rw [hanswer] at hnext
  obtain ⟨-, rfl⟩ | ⟨hbytes, hids, hcount, -⟩ := freeOrAllocate_cases hanswer
  · exact hp.allocate (IdCounter.lt_size_of_next_le hnext)
  · exact hp.congr rfl rfl rfl rfl (fun _ hn ↦ hids ▸ hn) (hbytes.ahead hids hcount hp.ahead)

variable [Replacer ρ]

private theorem Takes.holds (h : p.Takes f t) (hp : p.Sound) (hf : p.file.Holds out)
    (hout : ∀ i ∈ out', i ∈ out ∧ (p.Marked i → p.table.find? i ≠ some f)) :
    t.file.Holds out' := by
  cases h with
  | free | clean => exact hf.mono fun i hi ↦ (hout i hi).1
  | written _ _ hidle hpage hdirty hwrite =>
    have hv := hp.find?_iff.2 ⟨(isIdle_iff.1 hidle).1, hpage⟩
    refine hf.of_writePage hwrite fun i hi ↦ ⟨(hout i hi).1, fun _ heq ↦ ?_⟩
    rw [hp.page_id hv] at heq
    subst heq
    exact (hout i hi).2 ⟨f, hv, hdirty⟩ hv

theorem Installs.holds {dirty : Bool} {load : PageFile → Except Error Page × PageFile}
    {r : Except Error Handle} (h : p.Installs id dirty load r q) (hp : p.Sound)
    (hnew : p.table.find? id = none)
    (hload : ∀ {x y : PageFile} {r : Except Error Page}, load x = (r, y) →
      ∃ store, y = { x with store := store })
    (hf : p.file.Holds out) (hout : ∀ i ∈ out', i ∈ out ∧ (p.Marked i → q.Marked i)) :
    q.file.Holds out' := by
  -- A page that is in the pool afterwards is not the one that had the frame before.
  have hother {f : Nat} {t : Pool ρ} (htakes : p.Takes f t)
      (hfound : ∀ i g, q.table.find? i = some g → i = id ∨ t.table.find? i = some g) :
      ∀ i ∈ out', i ∈ out ∧ (p.Marked i → p.table.find? i ≠ some f) := by
    intro i hi
    refine ⟨(hout i hi).1, fun hmarked ↦ ?_⟩
    obtain ⟨g, hg, -⟩ := (hout i hi).2 hmarked
    rcases hfound i g hg with rfl | hg
    · rw [hnew]
      exact nofun
    · have ht := taken_of_takes hp.toSteady htakes
      have hne : g ≠ f := fun heq ↦ ht.find?_ne i (heq ▸ hg)
      rw [ht.of_find? i g hne hg]
      exact fun heq ↦ hne (Option.some.inj heq)
  cases h with
  | exhausted | unusable => exact hf.mono fun i hi ↦ (hout i hi).1
  | restored _ _ _ _ _ hwrite =>
    exact hf.of_writePage hwrite fun i hi ↦ ⟨(hout i hi).1, fun hok ↦ absurd hok error_ne_ok⟩
  | unloaded htakes herror =>
    obtain ⟨store, rfl⟩ := hload herror
    have hheld := htakes.holds hp hf (hother htakes fun i g hg ↦
      .inr (PageTable.of_find?_erase_insert hg))
    exact hheld.withStore store
  | @loaded f t file page htakes hok =>
    obtain ⟨store, rfl⟩ := hload hok
    have hheld := htakes.holds hp hf (hother htakes fun i g hg ↦ by
      have hinsert : (t.table.insert id f).find? i = some g := hg
      rw [PageTable.find?_insert] at hinsert
      split at hinsert
      next heq => exact .inl heq
      next => exact .inr hinsert)
    exact hheld.withStore store

theorem holds_of_fetch {r : Except Error Handle} (hp : p.Sound) (h : p.fetch id = (r, q))
    (hf : p.file.Holds out) (hout : ∀ i ∈ out', i ∈ out ∧ (p.Marked i → q.Marked i)) :
    q.file.Holds out' := by
  obtain ⟨-, -, rfl⟩ | ⟨f, -, -, -, -, -, hfile⟩ | ⟨hnew, hinstalls⟩ := fetch_cases hp.toSteady h
  · exact hf.mono fun i hi ↦ (hout i hi).1
  · rw [hfile]
    exact hf.mono fun i hi ↦ (hout i hi).1
  · exact hinstalls.holds hp hnew (fun hread ↦ ⟨_, eq_of_readPage hread⟩) hf hout

theorem holds_of_newPage {r : Except Error (PageId × Handle)} (hp : p.Sound)
    (hnext : p.file.ids.next.toNat + 1 < UInt32.size) (h : p.newPage = (r, q))
    (hf : p.file.Holds out)
    (hout : ∀ i ∈ out', i ∈ p.file.ids.next :: out ∧ (p.Marked i → q.Marked i)) :
    q.file.Holds out' := by
  obtain ⟨r', -, hinstalls⟩ := newPage_cases hp.inFlight_eq h
  have hpassed := IdCounter.toNat_next_allocate hnext
  have hallocated := hf.allocate (UInt32.le_iff_toNat_le.2 (hpassed ▸ Nat.le_succ _))
  refine hinstalls.holds (hp.allocate hnext) (hp.find?_next hnext) ?_ hallocated hout
  rintro x y r ⟨⟩
  exact ⟨_, rfl⟩

theorem holds_of_unpin {dirty : Bool} {r : Except Error Unit} (h : p.unpin id dirty = (r, q))
    (hf : p.file.Holds out) (hsub : ∀ i ∈ out', i ∈ out) : q.file.Holds out' := by
  obtain ⟨-, -, rfl⟩ | ⟨f, -, ⟨-, -, rfl⟩ | ⟨-, -, -, -, hfile⟩⟩ := unpin_cases h
  · exact hf.mono hsub
  · exact hf.mono hsub
  · rw [hfile]
    exact hf.mono hsub

theorem holds_of_flush {r : Except Error Unit} (hp : p.Sound) (h : p.flush id = (r, q))
    (hf : p.file.Holds out) (hout : ∀ i ∈ out', i ∈ out ∧ (r = .ok () → i ≠ id)) :
    q.file.Holds out' := by
  obtain ⟨-, rfl⟩ | ⟨f, hfound, hwrite, -⟩ := flush_cases h
  · exact hf.mono fun i hi ↦ (hout i hi).1
  · rw [← hp.page_id (residentFrame?_eq_some_iff.1 hfound).1] at hout
    exact hf.of_writePage hwrite hout

/-- To flush pages makes no others wait. -/
theorem marked_of_flushEach_of_notMem {ids : List PageId} {r : Except Error Unit} (hp : p.Sound)
    (h : p.flushEach ids = (r, q)) (hid : id ∉ ids) (hmarked : q.Marked id) : p.Marked id := by
  induction ids generalizing p with
  | nil =>
    cases h
    exact hmarked
  | cons j ids ih =>
    rw [List.mem_cons, not_or] at hid
    have hfirst {t : Pool ρ} {r' : Except Error Unit} (ht : p.flush j = (r', t))
        (hmarked : t.Marked id) : p.Marked id :=
      (marked_of_flush hp ht hmarked).2.resolve_right hid.1
    rw [flushEach] at h
    split at h
    next t ht => exact hfirst ht (ih (sound_of_flush hp ht) h hid.2)
    next k t ht => exact hfirst ht (ih (sound_of_flush hp ht) h hid.2)
    next e t _ ht =>
      cases h
      exact hfirst ht hmarked

theorem holds_of_flushEach {ids : List PageId} {r : Except Error Unit} (hp : p.Sound)
    (hids : ids.Nodup) (h : p.flushEach ids = (r, q)) (hf : p.file.Holds out)
    (hout : ∀ i ∈ out', i ∈ out ∧ (i ∈ ids → q.Marked i)) : q.file.Holds out' := by
  induction ids generalizing p out with
  | nil =>
    cases h
    exact hf.mono fun i hi ↦ (hout i hi).1
  | cons j ids ih =>
    rw [List.nodup_cons] at hids
    -- What is not written in the end is held by the first flush, and then by the others.
    have hrest {t : Pool ρ} {r' : Except Error Unit} (ht : p.flush j = (r', t))
        (hothers : t.flushEach ids = (r, q)) : q.file.Holds out' := by
      have hsound := sound_of_flush hp ht
      refine ih hsound hids.2 hothers (holds_of_flush hp ht hf fun i hi ↦ ?_)
        fun i hi ↦ ⟨hi, fun hmem ↦ (hout i hi).2 (List.mem_cons_of_mem j hmem)⟩
      refine ⟨(hout i hi).1, fun hok ↦ ?_⟩
      rintro rfl
      have hmarked := marked_of_flushEach_of_notMem hsound hothers hids.1
        ((hout i hi).2 List.mem_cons_self)
      exact (marked_of_flush hp ht hmarked).1 rfl hok
    rw [flushEach] at h
    split at h
    next t ht => exact hrest ht h
    next k t ht => exact hrest ht h
    next e t _ ht =>
      cases h
      exact holds_of_flush hp ht hf fun i hi ↦ ⟨(hout i hi).1, fun hok ↦ absurd hok error_ne_ok⟩

theorem holds_of_flushAll {r : Except Error Unit} (hp : p.Sound) (h : p.flushAll = (r, q))
    (hf : p.file.Holds out) (hout : ∀ i ∈ out', i ∈ out ∧ (p.Marked i → q.Marked i)) :
    q.file.Holds out' := by
  have hdirty (i : PageId) (hi : i ∈ out') : i ∈ out ∧ (i ∈ p.dirtyPages → q.Marked i) :=
    (hout i hi).imp_right fun hmarked hmem ↦ hmarked ((mem_dirtyPages_iff hp).1 hmem)
  rw [flushAll] at h
  split at h
  next e t ht =>
    cases h
    exact holds_of_flushEach hp (nodup_dirtyPages hp) ht hf hdirty
  next t ht =>
    split at h
    next result file hsync =>
      cases h
      rw [eq_of_sync hsync]
      exact (holds_of_flushEach hp (nodup_dirtyPages hp) ht hf hdirty).withStore file.store

theorem holds_of_delete {r : Except Error Unit} (hp : p.Sound) (h : p.delete id = (r, q))
    (hf : p.file.Holds out) (hout : ∀ i ∈ out', i ∈ out ∧ (r = .ok () → i ≠ id)) :
    q.file.Holds out' := by
  obtain ⟨-, -, -, -, rfl⟩ | ⟨t, file, hdrops, hdelete, rfl⟩ := delete_cases hp.inFlight_eq
    hp.not_loading h
  · exact hf.mono fun i hi ↦ (hout i hi).1
  · rw [hdrops.file_eq] at hdelete
    obtain ⟨hwrite, hok⟩ | ⟨e, e', hwrite, -⟩ := deletePage_cases hdelete
    · exact hf.of_writePage hwrite fun i hi ↦ ⟨(hout i hi).1, fun _ ↦ (hout i hi).2 hok⟩
    · exact hf.of_writePage hwrite fun i hi ↦ ⟨(hout i hi).1, fun hok ↦ absurd hok error_ne_ok⟩

/-! ## Pages that are outstanding -/

/-- The page that a call makes. -/
def made? (p : Pool ρ) : PoolCall → Option PageId
  | .newPage => p.newPage.1.toOption.map (·.1)
  | _ => none

/-- Whether a call writes a page. -/
def writes (p : Pool ρ) (c : PoolCall) (id : PageId) : Bool :=
  match c with
  | .flush i | .delete i => id == i && (p.call c).1.toBool
  | .unpin _ _ => false
  | .fetch _ | .newPage | .flushAll =>
    p.isDirty? id == some true && (p.call c).2.isDirty? id != some true

/-- The pages that are outstanding after a call: those before it and the one that it made, without
those that it wrote. -/
def outstanding (p : Pool ρ) (c : PoolCall) (out : List PageId) : List PageId :=
  ((p.made? c).toList ++ out).filter fun id ↦ !p.writes c id

private theorem mem_outstanding {c : PoolCall} : id ∈ p.outstanding c out ↔
    (p.made? c = some id ∨ id ∈ out) ∧ p.writes c id = false := by
  rw [outstanding, List.mem_filter, List.mem_append, Option.mem_toList, Bool.not_eq_true']

theorem holds_of_call {c : PoolCall} (hp : p.Sound) (hc : p.Permits c) (hf : p.file.Holds out) :
    (p.call c).2.file.Holds (p.outstanding c out) := by
  have hq := sound_of_call hp hc
  -- Only a call for a new page makes one.
  have hold (hnone : p.made? c = none) (i : PageId) (hi : i ∈ p.outstanding c out) :
      i ∈ out ∧ p.writes c i = false := by
    rw [mem_outstanding, hnone] at hi
    exact hi.imp_left fun hi ↦ hi.resolve_left nofun
  have hwaits {i : PageId} (hi : (p.isDirty? i == some true &&
      (p.call c).2.isDirty? i != some true) = false) (hmarked : p.Marked i) :
      (p.call c).2.Marked i := by
    rwa [beq_iff_eq.2 ((isDirty?_iff hp.toSteady).2 hmarked), Bool.true_and, bne_eq_false_iff_eq,
      isDirty?_iff hq.toSteady] at hi
  have hasked {i j : PageId} {r : Except Error Unit} (hi : (i == j && r.toBool) = false)
      (hok : r = .ok ()) : i ≠ j := by
    rintro rfl
    subst hok
    rw [beq_self_eq_true] at hi
    cases hi
  match c with
  | .fetch _ => exact holds_of_fetch hp rfl hf fun i hi ↦ (hold rfl i hi).imp_right hwaits
  | .newPage =>
    refine holds_of_newPage hp hc rfl hf fun i hi ↦ ?_
    obtain ⟨hi, hwrites⟩ := mem_outstanding.1 hi
    refine ⟨List.mem_cons.2 (hi.imp_left fun hmade ↦ ?_), hwaits hwrites⟩
    obtain ⟨r', hr, -⟩ := newPage_cases hp.inFlight_eq (r := p.newPage.1) rfl
    rw [made?, hr] at hmade
    rcases r' with e | handle
    · cases hmade
    · exact (Option.some.inj hmade).symm
  | .unpin _ _ => exact holds_of_unpin rfl hf fun i hi ↦ (hold rfl i hi).1
  | .flush _ => exact holds_of_flush hp rfl hf fun i hi ↦ (hold rfl i hi).imp_right hasked
  | .flushAll => exact holds_of_flushAll hp rfl hf fun i hi ↦ (hold rfl i hi).imp_right hwaits
  | .delete _ => exact holds_of_delete hp rfl hf fun i hi ↦ (hold rfl i hi).imp_right hasked

/-! ## Runs -/

/-- The pools that are reached by calls that are allowed, with edits in between, while the file is
asked for pages to hand out, and the pages that are outstanding. The counter for ids does not start
again. -/
inductive Shared (start : Pool ρ) : Pool ρ → List PageId → Prop
  | start : Shared start start []
  | call {p : Pool ρ} {out : List PageId} (c : PoolCall) : Shared start p out → p.Permits c →
      Shared start (p.call c).2 (p.outstanding c out)
  | edit {p : Pool ρ} {out : List PageId} (id : PageId) (e : Page.Edit) : Shared start p out →
      Shared start (p.edit id e).2 out
  | handOut {p : Pool ρ} {out : List PageId} : Shared start p out →
      p.file.KeepsCounting .freeOrAllocate →
      Shared start { p with file := (p.file.call .freeOrAllocate).2 }
        (FileCall.freeOrAllocate.outstanding out (p.file.call .freeOrAllocate).1)

section Runs

variable {file : PageFile} {s : ρ} {n : Nat}

private theorem Shared.invariant (hfile : file.Opened) (hcount : file.pageCount < UInt32.size)
    (hp : Shared (ofFile file s n) p out) : p.Sound ∧ p.file.Holds out := by
  induction hp with
  | start =>
    have hcovers := hfile.covers hcount
    have hahead : file.Ahead := ⟨hfile.indexed ▸ hcovers, hcovers⟩
    exact ⟨sound_ofFile hahead, hfile.accounted (Nat.le_of_lt hcount), hcovers,
      fun id hid ↦ absurd hid List.not_mem_nil⟩
  | call c _ hc ih => exact ⟨sound_of_call ih.1 hc, holds_of_call ih.1 hc ih.2⟩
  | edit id e _ ih =>
    refine ⟨sound_of_edit ih.1 rfl, ?_⟩
    rw [file_of_edit]
    exact ih.2
  | handOut _ hnext ih =>
    exact ⟨sound_of_handOut ih.1 hnext, ih.2.step (steps_of_freeOrAllocate rfl) hnext⟩

/-- A page in use is handed out exactly if it is the first one on offer and can be read. It is one
that the file has as free and that nobody claims. No page that is outstanding is handed out, in use
or not. -/
theorem Shared.handsOut_pinned_iff (hfile : file.Opened) (hcount : file.pageCount < UInt32.size)
    (hp : Shared (ofFile file s n) p out) (hnext : p.file.KeepsCounting .freeOrAllocate)
    (hpinned : 0 < p.users id) :
    ((∃ page, p.file.freeOrAllocate.1 = .ok page ∧ page.id = id) ↔
      p.file.firstAvailable? = some id ∧ ∃ page, (p.file.readPage id).1 = .ok page) ∧
    (p.file.firstAvailable? = some id →
      (∃ h, p.file.header? id = some h ∧ h.isFree = true) ∧ id ∉ p.file.claimed ∧ id ∉ out) ∧
    ∀ page, p.file.freeOrAllocate.1 = .ok page → page.id ∉ out := by
  obtain ⟨hsound, hholds⟩ := hp.invariant hfile hcount
  refine ⟨⟨?_, ?_⟩, fun hid ↦ ?_, fun page hpage ↦ ?_⟩
  · rintro ⟨page, hpage, rfl⟩
    rw [KeepsCounting, PageFile.call] at hnext
    rcases hanswer : p.file.freeOrAllocate with ⟨r, g⟩
    rw [hanswer] at hpage hnext
    obtain ⟨hr, rfl⟩ | ⟨-, -, -, hoffer⟩ := freeOrAllocate_cases hanswer
    · -- The id that comes next belongs to no page in a frame.
      obtain rfl : p.file.allocate.1 = page := Except.ok.inj (hr.symm.trans hpage)
      have habsent := hsound.find?_next (IdCounter.lt_size_of_next_le hnext)
      exact absurd (users_of_absent habsent) (Nat.ne_of_gt hpinned)
    · obtain ⟨hid, hread⟩ := hoffer page hpage
      exact ⟨hid, page, hread⟩
  · rintro ⟨hid, page, hread⟩
    have hpos := hholds.accounted.freePages_pos (isOnOffer_of_firstAvailable? hid).2
    rw [fst_freeOrAllocate (Nat.ne_of_gt hpos) hid, hread]
    obtain ⟨-, -, hstored | ⟨cause, herror⟩⟩ :=
      readPage_cases (rfl : p.file.readPage id = _)
    · exact ⟨page, rfl, (readable_of_stored (hstored.symm.trans hread)).2⟩
    · cases herror.symm.trans hread
  · have hoffer := (isOnOffer_of_firstAvailable? hid).2
    refine ⟨?_, ?_, hholds.not_mem_of_isOnOffer hoffer⟩
    · rw [isOnOffer_eq, Bool.and_eq_true, Option.any_eq_true] at hoffer
      exact hoffer.1
    · intro hclaimed
      rw [isOnOffer_eq, List.contains_iff_mem.2 hclaimed, Bool.and_comm] at hoffer
      exact Bool.false_ne_true hoffer
  · have hsteps : p.file.Steps .freeOrAllocate (.ok (some page)) (p.file.call .freeOrAllocate).2 :=
      steps_of_freeOrAllocate (Prod.ext hpage rfl)
    exact hholds.not_mem_of_handsOut hsteps rfl (.inr hnext)

end Runs

/-! ## A page that was written without a record -/

/-- Page `0` is made and stays in use. So does page `1`, and this one is written before it gets a
record. -/
def flushedPage : Pool Policy :=
  ((((ofFile .empty (Policy.ofKind 2 .lru) 2).call .newPage).2.call .newPage).2.call (.flush 1)).2

/-- The pool after page `1` was handed out, which is still in use. -/
def handedOutPage : Pool Policy :=
  { flushedPage with file := (flushedPage.file.call .freeOrAllocate).2 }

/-- Both pages may be used by nobody else: the first one was made and not written, and the second
one was handed out and not written since. -/
theorem Shared.handsOut_pinned_iff_twice :
    (flushedPage.file.freeOrAllocate.1 = .ok (.fresh 1) ∧
      Shared (ofFile .empty (Policy.ofKind 2 .lru) 2) handedOutPage [1, 0]) ∧
    ∀ id ∈ [(1 : PageId), 0], 0 < handedOutPage.users id ∧
      ¬ ∃ page, handedOutPage.file.freeOrAllocate.1 = .ok page ∧ page.id = id := by
  have hstart : Shared (ofFile .empty (Policy.ofKind 2 .lru) 2) _ [] := .start
  have hpair := (hstart.call .newPage (by decide : (0 : Nat) + 1 < UInt32.size)).call .newPage
    (by decide : (1 : Nat) + 1 < UInt32.size)
  have hp : Shared (ofFile .empty (Policy.ofKind 2 .lru) 2) flushedPage [0] :=
    hpair.call (.flush 1) trivial
  have hwrite : empty.allocate.2.allocate.2.writePage (.fresh 1) = (.ok (), flushedPage.file) := rfl
  have hanswer : flushedPage.file.freeOrAllocate.1 = .ok (.fresh 1) :=
    (fst_freeOrAllocate (by decide) rfl).trans (fst_readPage_of_wroteFresh hwrite rfl rfl)
  have hids : flushedPage.file.ids.next.toNat + 1 < UInt32.size := (by decide : 2 + 1 < UInt32.size)
  have hout := hp.handOut (keepsCounting_of_lt hids)
  rw [PageFile.call, hanswer] at hout
  have hq : Shared (ofFile .empty (Policy.ofKind 2 .lru) 2) handedOutPage [1, 0] := hout
  have hnext : handedOutPage.file.KeepsCounting .freeOrAllocate := by
    rcases hfile : flushedPage.file.freeOrAllocate with ⟨r, g⟩
    have hg : handedOutPage.file = g := by rw [handedOutPage, PageFile.call, hfile]
    rw [hg]
    obtain ⟨-, rfl⟩ | ⟨-, hsame, -⟩ := freeOrAllocate_cases hfile
    · exact keepsCounting_of_lt (by decide : 3 + 1 < UInt32.size)
    · exact keepsCounting_of_lt (hsame ▸ hids)
  have hpinned : ∀ id ∈ [(1 : PageId), 0], 0 < handedOutPage.users id :=
    List.forall_mem_cons.2 ⟨Nat.one_pos, List.forall_mem_singleton.2 Nat.one_pos⟩
  refine ⟨⟨hanswer, hq⟩, fun id hid ↦ ⟨hpinned id hid, ?_⟩⟩
  rintro ⟨page, hpage, rfl⟩
  exact (handsOut_pinned_iff .empty (by decide) hq hnext (hpinned _ hid)).2.2 page hpage hid

/-- A page is made and written before it gets a record. It is handed out while it is in use. -/
theorem Shared.handsOut_flushed :
    let p := (((ofFile .empty (Policy.ofKind 1 .lru) 1).call .newPage).2.call (.flush 0)).2
    Shared (ofFile .empty (Policy.ofKind 1 .lru) 1) p [] ∧ p.pinCount? 0 = some 1 ∧
      p.file.freeOrAllocate.1 = .ok (.fresh 0) := by
  intro p
  have hstart : Shared (ofFile .empty (Policy.ofKind 1 .lru) 1) _ [] := .start
  have hp : Shared (ofFile .empty (Policy.ofKind 1 .lru) 1) p [] :=
    (hstart.call .newPage (by decide : (0 : Nat) + 1 < UInt32.size)).call (.flush 0) trivial
  have hwrite : empty.allocate.2.writePage (.fresh 0) = (.ok (), p.file) := rfl
  exact ⟨hp, rfl, (fst_freeOrAllocate (by decide) rfl).trans
    (fst_readPage_of_wroteFresh hwrite rfl rfl)⟩

end PagedStorage.Pool
