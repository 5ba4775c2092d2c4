import PagedStorage.Proofs.PageFile.Index
import PagedStorage.Proofs.PageFile.PageMap

/-!
# Handing out pages

A page that is handed out belongs to whoever got it until it is written, and so does its id. The
file keeps no list of these ids. Such an id is kept from being handed out again in one of two
ways: the page lies behind all pages of the file, and the counter has passed its id; or the page
is in the file, and it is claimed. A write further out takes ids from the first way to the second,
when their pages become part of a gap.

## The list next to the file

So the ids are tracked next to the file, `PageFile.Outstanding`, and `PageFile.Holds` says that
each is held in one of the two ways. One step keeps this (`Holds.step`), and no id that is held is
handed out (`Holds.not_mem_of_handsOut`): the first page on offer is in the file and not claimed,
and the counter is at an id that it has not passed.

A write that fails settles nothing, so the id of its page stays in the list. A write that succeeds
settles its id, also if the page was never handed out.

## The counter must not start again

`KeepsCounting` is what is asked of the calls that draw from the counter. The counter has 32 bits
and it is taken past the pages that are written, but not past the last id. So there is one id that
can be handed out twice, the last one, if its page came into the file by a write; the theorem says
for which files this is so.
-/

namespace PagedStorage

/-- The calls that hand out a page. -/
def FileCall.handsOut : FileCall → Bool
  | .allocate => true
  | .freeOrAllocate => true
  | _ => false

/-- The ids that are outstanding after a call: those before it, with that of the page that it
handed out and without that of the page that it wrote. -/
def FileCall.outstanding (c : FileCall) (out : List PageId) :
    Except Error (Option Page) → List PageId
  | .error _ => out
  | .ok (some page) => if c.handsOut then page.id :: out else out
  | .ok none =>
    match c.written? with
    | some page => out.filter (· != page.id)
    | none => out

namespace PageFile

variable {f g start : PageFile} {id : PageId} {out : List PageId} {c : FileCall}

/-- The counter does not start again. -/
def KeepsCounting (f : PageFile) (c : FileCall) : Prop := f.ids.next ≤ (f.call c).2.ids.next

/-- The runs in which the counter does not start again, with the ids that are outstanding. -/
inductive Outstanding (start : PageFile) : PageFile → List PageId → Prop where
  | start : Outstanding start start []
  | call {f : PageFile} {out : List PageId} (c : FileCall) : Outstanding start f out →
      f.KeepsCounting c → Outstanding start (f.call c).2 (c.outstanding out (f.call c).1)
  | reschedule {f : PageFile} {out : List PageId} (which : StoreCall) (gate : Gate) :
      Outstanding start f out →
      Outstanding start { f with store := f.store.setGate which gate } out

/-! ## Ids that are held -/

/-- Every id is either one that the counter has passed, behind the pages of the file, or one of a
page that is claimed. -/
structure Holds (f : PageFile) (out : List PageId) : Prop where
  accounted : f.Accounted
  covers : f.ids.Covers f.pageCount
  held : ∀ id ∈ out, f.pageCount ≤ id.toNat ∧ id < f.ids.next ∨ id ∈ f.claimed

theorem Holds.withStore (hf : f.Holds out) (store : Store) :
    ({ f with store := store } : PageFile).Holds out :=
  ⟨hf.accounted.congr rfl rfl rfl, hf.covers, hf.held⟩

theorem Holds.not_mem_of_isOnOffer (hf : f.Holds out) (h : f.isOnOffer id) : id ∉ out := by
  intro hid
  rcases hf.held id hid with ⟨hle, -⟩ | hclaimed
  · rw [isOnOffer_eq_false_of_le hle] at h
    exact Bool.false_ne_true h
  · rw [isOnOffer_eq, List.contains_iff_mem.2 hclaimed, Bool.and_comm] at h
    exact Bool.false_ne_true h

/-- The counter is at an id that is not held, unless that is the last one and its page is in the
file. -/
theorem Holds.next_not_mem (hf : f.Holds out)
    (hlast : f.pageCount < UInt32.size ∨ f.ids.next.toNat + 1 < UInt32.size) :
    f.ids.next ∉ out := by
  intro hnext
  rcases hf.held _ hnext with ⟨-, hlt⟩ | hclaimed
  · exact UInt32.lt_irrefl _ hlt
  · have hlt := hf.accounted.claimed_lt _ hclaimed
    rcases hf.covers with hle | heq
    · exact Nat.not_lt.2 hle hlt
    · omega

theorem fst_freeOrAllocate (hfree : f.freePages ≠ 0) (hid : f.firstAvailable? = some id) :
    f.freeOrAllocate.1 = (f.readPage id).1 := by
  rw [freeOrAllocate, if_neg hfree]
  simp only [hid]
  rcases f.readPage id with ⟨e | page, g⟩ <;> rfl

theorem fst_readPage_of_wroteFresh (h : f.writePage (.fresh id) = (.ok (), g))
    (hsizes : g.store.sizes.refuses g.store.sizes.calls = false)
    (hreads : g.store.reads.refuses g.store.reads.calls = false) :
    (g.readPage id).1 = .ok (.fresh id) := by
  have hstored : g.stored id = .ok (.fresh id) :=
    (stored_of_writePage h).trans (pageOf_image_iff.2 ⟨(Page.tidy_fresh id).readable, rfl⟩)
  rw [fst_readPage_of_passes hsizes hreads, ← stored_eq, hstored]

/-- The page that is handed out is the one that comes next, if there is none to be handed out
again, and else the first one on offer. -/
theorem freeOrAllocate_cases {r : Except Error Page} (h : f.freeOrAllocate = (r, g)) :
    (r = .ok f.allocate.1 ∧ g = f.allocate.2) ∨
      f.SameBytes g ∧ g.ids = f.ids ∧ g.pageCount = f.pageCount ∧
        ∀ page, r = .ok page → f.firstAvailable? = some page.id ∧
          (f.readPage page.id).1 = .ok page := by
  rw [freeOrAllocate] at h
  split at h
  next =>
    obtain ⟨rfl, rfl⟩ := Prod.mk.inj h
    exact .inl ⟨rfl, rfl⟩
  next =>
    right
    split at h
    next =>
      obtain ⟨rfl, rfl⟩ := Prod.mk.inj h
      refine ⟨⟨rfl, rfl⟩, rfl, rfl, ?_⟩
      rintro page ⟨⟩
    next id hid =>
      rcases hread : f.readPage id with ⟨answer, f'⟩
      obtain ⟨hbytes, hids, hanswer⟩ := readPage_cases hread
      have hcount := pageCount_of_readPage hread
      rw [hread] at h
      rcases answer with e | page
      · obtain ⟨rfl, rfl⟩ := Prod.mk.inj h
        refine ⟨hbytes, hids, hcount, ?_⟩
        rintro page ⟨⟩
      · obtain ⟨rfl, rfl⟩ := Prod.mk.inj h
        refine ⟨⟨hbytes.medium_eq, hbytes.contents_eq⟩, hids, hcount, ?_⟩
        rintro _ ⟨⟩
        rcases hanswer with hstored | ⟨cause, ⟨⟩⟩
        obtain rfl := (readable_of_stored hstored.symm).2
        exact ⟨hid, congrArg Prod.fst hread⟩

theorem keepsCounting_of_lt (h : f.ids.next.toNat + 1 < UInt32.size) :
    f.KeepsCounting .freeOrAllocate := by
  rw [KeepsCounting, call, UInt32.le_iff_toNat_le]
  rcases hanswer : f.freeOrAllocate with ⟨r, g⟩
  obtain ⟨-, rfl⟩ | ⟨-, hids, -⟩ := freeOrAllocate_cases hanswer
  · exact Nat.le_of_lt (Nat.lt_of_lt_of_eq (Nat.lt_succ_self _)
      (IdCounter.toNat_next_allocate h).symm)
  · exact Nat.le_of_eq (congrArg (·.next.toNat) hids.symm)

/-! ## What one step keeps -/

theorem Holds.writePage {page : Page} (hf : f.Holds out) (hwrite : f.writePage page = (.ok (), g))
    (haccounted : g.Accounted) (hcovers : g.ids.Covers g.pageCount) :
    g.Holds (out.filter (· != page.id)) := by
  refine ⟨haccounted, hcovers, fun id hid ↦ ?_⟩
  rw [List.mem_filter, bne_iff_ne] at hid
  have hcount := pageCount_of_writePage_ok hwrite
  rw [hcount, eq_of_writePage_ok hwrite, mem_claimed_entered]
  rcases hf.held id hid.1 with ⟨hle, hlt⟩ | hclaimed
  · -- The id comes into the file and is claimed, or it is still behind the file.
    by_cases hgap : id < page.id
    · exact .inr ⟨.inl ⟨hle, hgap, hlt⟩, hid.2⟩
    · left
      have hne : id.toNat ≠ page.id.toNat := fun heq ↦ hid.2 (UInt32.toNat_inj.1 heq)
      rw [UInt32.lt_iff_toNat_lt] at hgap hlt ⊢
      exact ⟨by omega, Nat.lt_of_lt_of_le hlt (f.ids.next_le_next_advancePast page.id)⟩
  · exact .inr ⟨.inr hclaimed, hid.2⟩

theorem Holds.mono {out' : List PageId} (hf : f.Holds out) (hsub : ∀ id ∈ out', id ∈ out) :
    f.Holds out' := ⟨hf.accounted, hf.covers, fun id hid ↦ hf.held id (hsub id hid)⟩

theorem Holds.of_writePage {page : Page} {out' : List PageId} {r : Except Error Unit}
    (hf : f.Holds out) (hwrite : f.writePage page = (r, g))
    (hout : ∀ id ∈ out', id ∈ out ∧ (r = .ok () → id ≠ page.id)) : g.Holds out' := by
  rcases r with e | ⟨⟩
  · rw [eq_of_writePage_error hwrite]
    exact (hf.withStore _).mono fun id hid ↦ (hout id hid).1
  · have hsteps : f.Steps (.write page) (.ok none) g := .writes rfl hwrite
    have hcovers := hsteps.covers (hsteps.next_le (by rintro page ⟨⟩)) hf.covers
    refine (hf.writePage hwrite (hsteps.accounted hf.accounted) hcovers).mono fun id hid ↦ ?_
    rw [List.mem_filter, bne_iff_ne]
    exact ⟨(hout id hid).1, (hout id hid).2 rfl⟩

theorem Holds.allocate (hf : f.Holds out) (hnext : f.ids.next ≤ f.allocate.2.ids.next) :
    f.allocate.2.Holds (f.allocate.1.id :: out) := by
  have hlast := IdCounter.lt_size_of_next_le hnext
  have hsucc := IdCounter.toNat_next_allocate hlast
  have hlt : f.ids.next < f.allocate.2.ids.next := by
    rw [UInt32.lt_iff_toNat_lt]
    exact Nat.lt_of_lt_of_eq (Nat.lt_succ_self _) hsucc.symm
  refine ⟨hf.accounted.congr rfl rfl rfl, hf.covers.allocate hlast,
    List.forall_mem_cons.2 ⟨?_, fun id hid ↦ ?_⟩⟩
  · exact .inl ⟨hf.covers.resolve_right (Nat.ne_of_lt hlast), hlt⟩
  · exact (hf.held id hid).imp_left fun ⟨hle, hpassed⟩ ↦ ⟨hle, UInt32.lt_trans hpassed hlt⟩

theorem Holds.step {r : Except Error (Option Page)} (hf : f.Holds out) (h : f.Steps c r g)
    (hnext : f.ids.next ≤ g.ids.next) : g.Holds (c.outstanding out r) := by
  have haccounted := h.accounted hf.accounted
  have hcovers := h.covers hnext hf.covers
  rcases h with hbytes | ⟨-, hbytes⟩ | hbytes | ⟨hc, hwrite⟩ | hc | ⟨-, hid, hstored, -⟩
  case writes page =>
    rw [FileCall.outstanding, hc]
    exact hf.writePage hwrite haccounted hcovers
  case allocates =>
    have hhands : c.handsOut = true := by
      rcases hc with rfl | ⟨rfl, -⟩ <;> rfl
    rw [FileCall.outstanding, if_pos hhands]
    exact hf.allocate hnext
  case reuses id page store =>
    refine ⟨haccounted, hcovers, List.forall_mem_cons.2 ⟨.inr ?_, fun i hi ↦ ?_⟩⟩
    · rw [(readable_of_stored hstored).2]
      exact List.mem_cons_self
    · exact (hf.held i hi).imp_right (List.mem_cons_of_mem id)
  all_goals exact hf.withStore _

/-- A step that hands out a page hands out one whose id is not held. -/
theorem Holds.not_mem_of_handsOut (hf : f.Holds out) {page : Page}
    (h : f.Steps c (.ok (some page)) g) (hc : c.handsOut = true)
    (hlast : f.pageCount < UInt32.size ∨ f.ids.next ≤ g.ids.next) : page.id ∉ out := by
  rcases h with - | - | - | - | - | ⟨-, hid, hstored, -⟩
  case reads => exact absurd hc Bool.false_ne_true
  case allocates => exact hf.next_not_mem (hlast.imp_right IdCounter.lt_size_of_next_le)
  case reuses =>
    rw [(readable_of_stored hstored).2]
    exact hf.not_mem_of_isOnOffer (isOnOffer_of_firstAvailable? hid).2

/-! ## Runs -/

private theorem Outstanding.holds (hstart : start.Opened) (hcount : start.pageCount < UInt32.size)
    (hf : Outstanding start f out) : f.Holds out := by
  induction hf with
  | start =>
    exact ⟨hstart.accounted (Nat.le_of_lt hcount), hstart.covers hcount,
      fun id hid ↦ absurd hid List.not_mem_nil⟩
  | @call f out c _ hc ih =>
    -- A write that was cut off has failed, so its page stays outstanding.
    rcases f.steps_or_cutOff c with hsteps | ⟨store, ⟨e, he⟩, heq, -⟩
    · exact ih.step hsteps hc
    · rw [he, heq]
      exact ih.withStore store
  | reschedule which gate _ ih => exact ih.withStore _

/-- A page that is handed out is not one that is outstanding, whatever was written and deleted in
between and whatever the medium refused. The last id is an exception if its page is in the file
and the counter, which cannot pass it, starts again. -/
theorem Outstanding.handsOutOnce (hstart : start.Opened) (hcount : start.pageCount < UInt32.size)
    (hf : Outstanding start f out) (hc : c.handsOut = true)
    (hlast : f.pageCount < UInt32.size ∨ f.KeepsCounting c) {page : Page}
    (h : (f.call c).1 = .ok (some page)) : page.id ∉ out := by
  rcases f.steps_or_cutOff c with hsteps | ⟨store, ⟨e, he⟩, -⟩
  · rw [h] at hsteps
    exact (hf.holds hstart hcount).not_mem_of_handsOut hsteps hc hlast
  · rw [he] at h
    exact absurd h error_ne_ok

/-- A page is handed out, and before it is written another one is written that lies further out.
The page between them is handed out next. -/
theorem Outstanding.handsOutOnce_gap :
    let f := ((empty.call .allocate).2.call (.write (.fresh 2))).2
    Outstanding empty f [0] ∧ f.header? 0 = some (.fresh 0) ∧
      (f.call .freeOrAllocate).1 = .ok (some (.fresh 1)) ∧ (Page.fresh 1).id ∉ [0] := by
  intro f
  have hallocate : empty.KeepsCounting .allocate := (by decide : (0 : PageId) ≤ 1)
  have hwrite : (empty.call .allocate).2.KeepsCounting (.write (.fresh 2)) :=
    (by decide : (1 : PageId) ≤ 3)
  have hf : Outstanding empty f [0] := .call _ (.call _ .start hallocate) hwrite
  have hskipped : f.stored 1 = .ok (.fresh 1) :=
    stored_of_skipped (f := (empty.call .allocate).2) (p := .fresh 2) rfl (Nat.zero_le _)
      (by decide)
  have hread : (f.readPage 1).1 = .ok (.fresh 1) := by
    rw [fst_readPage_of_passes rfl rfl, ← stored_eq, hskipped]
  have hfirst : f.firstAvailable? = some 1 := rfl
  have hanswer : (f.call .freeOrAllocate).1 = .ok (some (.fresh 1)) := by
    rw [PageFile.call, fst_freeOrAllocate (by decide : 2 ≠ 0) hfirst, hread]
    rfl
  exact ⟨hf, rfl, hanswer, handsOutOnce .empty (by decide) hf rfl (.inl (by decide)) hanswer⟩

end PageFile

end PagedStorage
