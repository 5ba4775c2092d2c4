import Mathlib.Data.Finset.Basic
import PagedStorage.Proofs.Pool.Calls

/-!
# The contents of a pool

The content of a page is the page in its frame or, for a page in no frame, the one that is stored.
Contents move between the frames and the file, and what keeps them the same is that a page in a
frame is the stored one, unless the frame is marked or a user has still to tell that it changed
the page, `Pool.Faithful`.

## One page at a time

Both are questions about one page at a time, and the answer does not depend on what is done to
the others: `Pool.Spares` says that a step leaves a page alone. A step changes one frame and what
the file has of its page, `Pool.Moves`, so it is this frame that has to be looked at. The page in a
frame is `Backed` if it can be stored, and is stored already unless somebody knows better.

## Bringing in a page

The hardest case is that a page is brought in, because another one leaves the same frame first. By
then it is stored (`stored_of_takes_self`): a frame that is not marked was backed, and a marked one
is written before it is given up. If it cannot be written it stays where it is and stays marked. So
each page is found either in its frame or in the file, and `spares_of_takes` says this for a frame
that is taken and gets another page to hold, or nothing.

## What is there

`Pool.Holds` is weaker than having a content. There may be an image that nobody can read, and this
counts as something that is there, since the id of it was given out and no new page comes to it.
-/

namespace PagedStorage.Pool

variable {ρ : Type} {p q t : Pool ρ} {f : Nat} {id : PageId} {u v : Finset PageId}

/-! ## Contents -/

/-- The page that a user sees under an id, if the medium fails no call. -/
def content (p : Pool ρ) (id : PageId) : Except Error Page :=
  match p.residentFrame? id with
  | some f => .ok (p.frame f).page
  | none => p.file.stored id

/-- There is something under an id, if only an image that nobody can read. -/
def Holds (p : Pool ρ) (id : PageId) : Prop := p.content id ≠ .error (.pageNotFound id)

/-- What is there in `p` is there in `q`, unchanged. -/
def Keeps (p q : Pool ρ) : Prop := ∀ id, p.Holds id → q.content id = p.content id

theorem content_of_find? (hp : p.Steady) (hf : p.table.find? id = some f) :
    p.content id = .ok (p.frame f).page := by
  have hresident := ((hp.frameOk f).of_find? id hf).1
  rw [content, residentFrame?_eq_some_iff.2 ⟨hf, hresident⟩]

theorem content_of_absent (hid : p.table.find? id = none) : p.content id = p.file.stored id := by
  have hnone : p.residentFrame? id = none := by rw [residentFrame?, hid, Option.filter_none]
  rw [content, hnone]

theorem holds_of_content {page : Page} (h : p.content id = .ok page) : p.Holds id := by
  rw [Holds, h]
  exact error_ne_ok.symm

theorem Holds.congr (hid : p.Holds id) (h : q.content id = p.content id) : q.Holds id := by
  rw [Holds, h]
  exact hid

theorem has_of_holds (hid : p.table.find? id = none) (h : p.Holds id) : p.file.Has id := by
  rw [Holds, content_of_absent hid] at h
  by_contra hnot
  exact h (PageFile.stored_of_not_has hnot)

theorem find?_of_not_holds (hp : p.Steady) (h : ¬ p.Holds id) : p.table.find? id = none := by
  cases hf : p.table.find? id with
  | none => rfl
  | some f =>
    rw [Holds, content_of_find? hp hf] at h
    exact absurd nofun h

/-- Only frame `f` and its page changed. -/
structure Moves (p : Pool ρ) (f : Nat) (q : Pool ρ) : Prop where
  sound : q.Sound
  frame_eq : ∀ g, g ≠ f → q.frame g = p.frame g
  stored_eq : ∀ i, p.table.find? i ≠ some f → p.file.Has i → q.file.stored i = p.file.stored i

/-- A page keeps its content if the frame that changed gave it up to the file, and what the frame
shows now was in the file before. -/
theorem Moves.content_eq (h : p.Moves f q) (hp : p.Sound)
    (hold : p.table.find? id = some f → q.content id = .ok (p.frame f).page)
    (hnew : q.table.find? id = some f → p.table.find? id = none → p.file.Has id →
      p.file.stored id = .ok (q.frame f).page) (hid : p.Holds id) :
    q.content id = p.content id := by
  cases hfound : p.table.find? id with
  | some g =>
    rw [content_of_find? hp.toSteady hfound]
    by_cases hg : g = f
    · subst hg
      exact hold hfound
    · -- A page in another frame is still in it, and a sound pool finds it there.
      have hframe := h.frame_eq g hg
      have hheld := hp.find?_iff.1 hfound
      rw [← hframe] at hheld
      rw [content_of_find? h.sound.toSteady (h.sound.find?_iff.2 hheld), hframe]
  | none =>
    have hhas := has_of_holds hfound hid
    rw [content_of_absent hfound]
    cases hfound' : q.table.find? id with
    | none =>
      rw [content_of_absent hfound']
      exact h.stored_eq id (by rw [hfound]; rintro ⟨⟩) hhas
    | some g =>
      rw [content_of_find? h.sound.toSteady hfound']
      by_cases hg : g = f
      · subst hg
        exact (hnew hfound' hfound hhas).symm
      · have hheld := h.sound.find?_iff.1 hfound'
        rw [h.frame_eq g hg] at hheld
        cases hfound.symm.trans (hp.find?_iff.2 hheld)

/-! ## Frames and their pages in the file -/

/-- The page in a frame can be stored, and is stored already unless somebody knows better. -/
structure Backed (p : Pool ρ) (u : Finset PageId) (f : Nat) (id : PageId) : Prop where
  readable : (p.frame f).page.Readable
  stored_eq : (p.frame f).dirty = false → id ∉ u → p.file.stored id = .ok (p.frame f).page

/-- A pool whose user has changed the pages in `u` and not told so far. -/
structure Faithful (p : Pool ρ) (u : Finset PageId) : Prop extends p.Sound where
  backed : ∀ f id, p.table.find? id = some f → p.Backed u f id
  inUse : ∀ id ∈ u, ∃ f, p.table.find? id = some f ∧ 0 < (p.frame f).pins

/-- The same of one page, whatever becomes of the others. -/
structure FaithfulAt (p : Pool ρ) (u : Finset PageId) (id : PageId) : Prop where
  backed : ∀ f, p.table.find? id = some f → p.Backed u f id
  inUse : id ∈ u → ∃ f, p.table.find? id = some f ∧ 0 < (p.frame f).pins

theorem faithful_iff : p.Faithful u ↔ p.Sound ∧ ∀ id, p.FaithfulAt u id :=
  ⟨fun hp ↦ ⟨hp.toSound, fun id ↦ ⟨fun f ↦ hp.backed f id, hp.inUse id⟩⟩,
    fun hp ↦ ⟨hp.1, fun f id ↦ (hp.2 id).backed f, fun id ↦ (hp.2 id).inUse⟩⟩

theorem Faithful.at (hp : p.Faithful u) (id : PageId) : p.FaithfulAt u id :=
  (faithful_iff.1 hp).2 id

theorem faithfulAt_of_absent (h : p.table.find? id = none) : p.FaithfulAt ∅ id :=
  ⟨fun f hf ↦ (by cases h.symm.trans hf), fun hid ↦ absurd hid (Finset.notMem_empty id)⟩

/-- A step to `q` keeps the content of a page, and the pool faithful to it. -/
structure Spares (p q : Pool ρ) (v : Finset PageId) (id : PageId) : Prop
    extends q.FaithfulAt v id where
  content_eq : p.Holds id → q.content id = p.content id

theorem FaithfulAt.spares (h : p.FaithfulAt u id) : p.Spares p u id := ⟨h, fun _ ↦ rfl⟩

theorem Spares.trans (h : p.Spares t u id) (h' : t.Spares q v id) : p.Spares q v id := by
  refine ⟨h'.toFaithfulAt, fun hid ↦ ?_⟩
  have hstep := h.content_eq hid
  rw [← hstep]
  refine h'.content_eq ?_
  exact hid.congr hstep

/-- What spares every page keeps contents, and a sound pool faithful. -/
theorem faithful_of_spares (hq : q.Sound) (h : ∀ id, p.Spares q v id) :
    q.Faithful v ∧ p.Keeps q :=
  ⟨faithful_iff.2 ⟨hq, fun id ↦ (h id).toFaithfulAt⟩, fun id ↦ (h id).content_eq⟩

theorem Moves.faithfulAt (h : p.Moves f q) (hp : p.Sound) (hid : p.FaithfulAt u id)
    (hself : q.table.find? id = some f → q.Backed v f id)
    (huv : p.table.find? id ≠ some f → id ∈ u → id ∈ v)
    (hinUse : id ∈ v → ∃ g, q.table.find? id = some g ∧ 0 < (q.frame g).pins) :
    q.FaithfulAt v id := by
  refine ⟨fun g hi ↦ ?_, hinUse⟩
  by_cases hg : g = f
  · subst hg
    exact hself hi
  · have hframe := h.frame_eq g hg
    have hheld := h.sound.find?_iff.1 hi
    rw [hframe] at hheld
    have hfound := hp.find?_iff.2 hheld
    have hne : p.table.find? id ≠ some f := by
      rw [hfound]
      exact fun heq ↦ hg (Option.some.inj heq)
    obtain ⟨hreadable, hstored⟩ := hid.backed g hfound
    constructor
    · rw [hframe]
      exact hreadable
    · rw [hframe]
      intro hclean hi
      have hsame := hstored hclean fun hu ↦ hi (huv hne hu)
      rw [h.stored_eq id hne (PageFile.has_of_stored hsame), hsame]

/-- Users keep the pages that they use. -/
theorem Leads.inUse (h : p.Leads q) (hp : p.Sound) (hq : q.Sound)
    (hid : ∃ g, p.table.find? id = some g ∧ 0 < (p.frame g).pins) :
    ∃ g, q.table.find? id = some g ∧ 0 < (q.frame g).pins := by
  obtain ⟨g, hg, hpins⟩ := hid
  have hheld := hp.find?_iff.1 hg
  have hframe := h.frame_eq g hheld.1 hpins
  refine ⟨g, hq.find?_iff.2 ?_, ?_⟩
  · rw [hframe]
    exact hheld
  · rw [hframe]
    exact hpins

theorem content_congr (hframes : q.frames = p.frames) (htable : q.table = p.table)
    (hstored : q.file.stored id = p.file.stored id) : q.content id = p.content id := by
  have hframe : ∀ g, q.frame g = p.frame g := fun g ↦ by rw [frame, frame, hframes]
  simp only [content, residentFrame?, htable, hframe, hstored]

theorem FaithfulAt.congr (hid : p.FaithfulAt u id) (hframes : q.frames = p.frames)
    (htable : q.table = p.table) (hstored : q.file.stored id = p.file.stored id) :
    p.Spares q u id := by
  have hframe : ∀ g, q.frame g = p.frame g := fun g ↦ by rw [frame, frame, hframes]
  refine ⟨⟨fun g hi ↦ ?_, fun hi ↦ ?_⟩, fun _ ↦ content_congr hframes htable hstored⟩
  · rw [htable] at hi
    obtain ⟨hreadable, hback⟩ := hid.backed g hi
    constructor
    · rw [hframe]
      exact hreadable
    · rw [hframe, hstored]
      exact hback
  · obtain ⟨g, hg, hpins⟩ := hid.inUse hi
    refine ⟨g, by rw [htable, hg], ?_⟩
    rw [hframe]
    exact hpins

/-! ## Writing the page of a frame -/

section Writing

variable {file : PageFile} {i : PageId}

theorem Sound.page_id (hp : p.Sound) (hf : p.table.find? id = some f) :
    (p.frame f).page.id = id := by
  obtain ⟨hresident, hpage⟩ := hp.find?_iff.1 hf
  exact (hp.indexed f id hresident hpage).page_id

theorem Sound.stored_of_write {r : Except Error Unit} (hp : p.Sound)
    (hf : p.table.find? id = some f) (hwrite : p.file.writePage (p.frame f).page = (r, file))
    (hi : p.table.find? i ≠ some f) (hhas : p.file.Has i) : file.stored i = p.file.stored i := by
  refine (PageFile.exchanges_of_writePage hwrite).stored_eq i ?_ hhas
  rw [hp.page_id hf]
  rintro rfl
  exact hi hf

/-- Afterwards the file has the page, since what is in a frame can be stored. -/
theorem FaithfulAt.stored_of_write (hid : p.FaithfulAt u id) (hp : p.Sound)
    (hf : p.table.find? id = some f)
    (hwrite : p.file.writePage (p.frame f).page = (.ok (), file)) :
    file.stored id = .ok (p.frame f).page := by
  have heq := hp.page_id hf
  have hstored := PageFile.stored_of_writePage hwrite
  rw [heq] at hstored
  exact hstored.trans (PageFile.pageOf_image_iff.2 ⟨(hid.backed f hf).readable, heq⟩)

end Writing

/-! ## Adjusting a frame -/

section Adjusting

variable {fr : Frame}

theorem Adjusts.faithfulAt (h : p.Adjusts f fr q) (hp : p.Sound) (hm : p.Moves f q)
    (hid : p.FaithfulAt u id) (hreadable : p.table.find? id = some f → fr.page.Readable)
    (hstored : p.table.find? id = some f → fr.dirty = false → id ∉ v →
      q.file.stored id = .ok fr.page)
    (huv : p.table.find? id ≠ some f → (id ∈ v ↔ id ∈ u))
    (hpins : p.table.find? id = some f → id ∈ v → 0 < fr.pins) : q.FaithfulAt v id := by
  refine hm.faithfulAt hp hid (fun hi ↦ ?_) (fun hi ↦ (huv hi).2) fun hv ↦ ?_
  · rw [h.table_eq] at hi
    constructor
    · rw [h.frame_self]
      exact hreadable hi
    · rw [h.frame_self]
      exact hstored hi
  · rw [h.table_eq]
    by_cases hi : p.table.find? id = some f
    · refine ⟨f, hi, ?_⟩
      rw [h.frame_self]
      exact hpins hi hv
    · obtain ⟨g, hg, hused⟩ := hid.inUse ((huv hi).1 hv)
      refine ⟨g, hg, ?_⟩
      rw [h.frame_eq g fun heq ↦ hi (heq ▸ hg)]
      exact hused

theorem Adjusts.spares (h : p.Adjusts f fr q) (hp : p.Sound) (hm : p.Moves f q)
    (hpage : fr.page = (p.frame f).page) (hid : p.FaithfulAt u id)
    (hstored : p.table.find? id = some f → fr.dirty = false → id ∉ v →
      q.file.stored id = .ok fr.page)
    (huv : p.table.find? id ≠ some f → (id ∈ v ↔ id ∈ u))
    (hpins : p.table.find? id = some f → id ∈ v → 0 < fr.pins) : p.Spares q v id := by
  refine ⟨h.faithfulAt hp hm hid (fun hi ↦ ?_) hstored huv hpins,
    hm.content_eq hp (fun hi ↦ ?_) fun hi hnone _ ↦ ?_⟩
  · rw [hpage]
    exact (hid.backed f hi).readable
  · rw [← h.table_eq] at hi
    rw [content_of_find? hm.sound.toSteady hi, h.frame_self, hpage]
  · rw [h.table_eq, hnone] at hi
    cases hi

theorem Adjusts.content_eq {i : PageId} (h : p.Adjusts f fr q) (hp : p.Steady)
    (hpage : fr.page = (p.frame f).page) (hfile : q.file = p.file) :
    q.content i = p.content i := by
  cases hi : p.table.find? i with
  | none => rw [content_of_absent hi, content_of_absent (h.table_eq ▸ hi), hfile]
  | some g =>
    rw [content_of_find? hp hi, content_of_find? (h.steady hp).1 (h.table_eq ▸ hi)]
    by_cases hg : g = f
    · rw [hg, h.frame_self, hpage]
    · rw [h.frame_eq g hg]

end Adjusting

theorem Restores.spares {w i : PageId} {r : Except Error Unit} (h : p.Restores f w i q)
    (hp : p.Sound) (hq : q.Sound) (hleads : p.Leads q) (hf : p.table.find? w = some f)
    (hdirty : (p.frame f).dirty = true)
    (hwrite : p.file.writePage (p.frame f).page = (r, q.file)) (hid : p.FaithfulAt u id) :
    p.Spares q u id := by
  have hback : ∀ g, q.table.find? id = some g → p.table.find? id = some g := by
    intro g hi
    have hheld := hq.find?_iff.1 hi
    rw [h.frame_eq] at hheld
    exact hp.find?_iff.2 hheld
  have hm : p.Moves f q := ⟨hq, fun g _ ↦ h.frame_eq g, fun i ↦ hp.stored_of_write hf hwrite⟩
  refine ⟨hm.faithfulAt hp hid (fun hi ↦ ?_) (fun _ hi ↦ hi)
    (fun hi ↦ hleads.inUse hp hq (hid.inUse hi)), hm.content_eq hp (fun hi ↦ ?_)
      fun hi hnone _ ↦ ?_⟩
  · constructor
    · rw [h.frame_eq]
      exact (hid.backed f (hback f hi)).readable
    · rw [h.frame_eq, hdirty]
      rintro ⟨⟩
  · have hheld := hp.find?_iff.1 hi
    rw [← h.frame_eq] at hheld
    rw [content_of_find? hq.toSteady (hq.find?_iff.2 hheld), h.frame_eq]
  · cases hnone.symm.trans (hback f hi)

/-! ## Pages that are brought in -/

/-- What is brought in is what the file has, and is stored unless it counts as changed. -/
structure Brings (p : Pool ρ) (id : PageId) (dirty : Bool)
    (load : PageFile → Except Error Page × PageFile) : Prop extends p.Loads id load where
  readable : ∀ {x y : PageFile} {page : Page}, load x = (.ok page, y) → page.Readable
  stored_eq : ∀ {x y : PageFile} {page : Page}, load x = (.ok page, y) →
    dirty = false → y.stored id = .ok page
  shown : ∀ {x y : PageFile} {page : Page}, load x = (.ok page, y) →
    p.file.Has id → x.stored id = .ok page

theorem brings_readPage (p : Pool ρ) (id : PageId) : p.Brings id false (·.readPage id) where
  toLoads := p.loads_readPage id
  readable h := by
    obtain ⟨-, -, hstored | ⟨cause, ⟨⟩⟩⟩ := PageFile.readPage_cases h
    exact (PageFile.readable_of_stored hstored.symm).1
  stored_eq h _ := by
    obtain ⟨hbytes, -, hstored | ⟨cause, ⟨⟩⟩⟩ := PageFile.readPage_cases h
    exact (hbytes.stored_eq id).trans hstored.symm
  shown h _ := by
    obtain ⟨-, -, hstored | ⟨cause, ⟨⟩⟩⟩ := PageFile.readPage_cases h
    exact hstored.symm

theorem brings_fresh (hnext : p.file.ids.Covers (id.toNat + 1)) (hnot : ¬ p.file.Has id) :
    p.Brings id true fun file ↦ (.ok (.fresh id), file) where
  toLoads := loads_fresh hnext
  readable := by
    rintro x y page ⟨⟩
    exact (Page.tidy_fresh id).readable
  stored_eq _ := by rintro ⟨⟩
  shown _ hhas := absurd hhas hnot

theorem Sound.covers_of_holds (hp : p.Sound) (h : p.Holds id) :
    p.file.ids.Covers (id.toNat + 1) := by
  cases hf : p.table.find? id with
  | some f =>
    obtain ⟨hresident, hpage⟩ := hp.find?_iff.1 hf
    exact (hp.indexed f id hresident hpage).covers
  | none => exact hp.ahead.covers (has_of_holds hf h)

theorem Sound.lt_next_of_holds (hp : p.Sound) (hnext : p.file.ids.next.toNat + 1 < UInt32.size)
    (h : p.Holds id) : id.toNat < p.file.ids.next.toNat := by
  have hcovers := hp.covers_of_holds h
  rw [IdCounter.Covers] at hcovers
  omega

theorem Sound.not_has_next (hp : p.Sound) (hnext : p.file.ids.next.toNat + 1 < UInt32.size) :
    ¬ p.file.Has p.file.ids.next := by
  intro hhas
  have hcovers := hp.ahead.covers hhas
  rw [IdCounter.Covers] at hcovers
  omega

/-! ## Bringing in a page -/

variable [Replacer ρ]

theorem stored_of_takes {i : PageId} (hp : p.Sound) (h : p.Takes f t)
    (hi : p.table.find? i ≠ some f) (hhas : p.file.Has i) :
    t.file.stored i = p.file.stored i := by
  cases h with
  | free | clean => rfl
  | written _ _ hidle hpage _ hwrite =>
    have hf := hp.find?_iff.2 ⟨(isIdle_iff.1 hidle).1, hpage⟩
    exact hp.stored_of_write hf hwrite hi hhas

/-- The page that has to leave its frame is stored by then. -/
theorem stored_of_takes_self (hp : p.Sound) (hid : p.FaithfulAt u id) (h : p.Takes f t)
    (hi : p.table.find? id = some f) : t.file.stored id = .ok (p.frame f).page := by
  cases h with
  | free hfree =>
    have hstatus := ((hp.frameOk f).mem_free_iff.1 (hfree ▸ List.mem_cons_self)).2
    cases (isResident_iff.1 (hp.find?_iff.1 hi).1).symm.trans hstatus
  | clean _ _ hidle _ hclean =>
    -- A user who has not told of a change holds the page, so its frame is not a victim.
    refine (hid.backed f hi).stored_eq hclean fun hu ↦ ?_
    obtain ⟨g, hg, hpins⟩ := hid.inUse hu
    obtain rfl := Option.some.inj (hg.symm.trans hi)
    exact absurd (isIdle_iff.1 hidle).2 (UInt32.pos_iff_ne_zero.1 hpins)
  | written _ _ _ _ _ hwrite => exact hid.stored_of_write hp hi hwrite

section Installing

variable {fr : Frame} {i : PageId}

/-- A frame is taken and gets page `i` to hold, or nothing. The page that was in it is found in
the file. -/
theorem spares_of_takes (hp : p.Sound) (hid : p.FaithfulAt u id) (ht : p.Takes f t)
    (h : t.Refills f fr q) (hq : q.Sound) (hleads : p.Leads q) (hnew : p.table.find? i = none)
    (hbytes : t.file.SameBytes q.file)
    (hfr : fr.isResident → fr.pageId = some i ∧ fr.page.Readable ∧
      (fr.dirty = false → q.file.stored i = .ok fr.page) ∧
      (p.file.Has i → p.file.stored i = .ok fr.page)) : p.Spares q u id := by
  have htaken := taken_of_takes hp.toSteady ht
  have hm : p.Moves f q := by
    refine ⟨hq, fun g hg ↦ (h.frame_eq g hg).trans (htaken.frame_eq g hg), fun j hj hhas ↦ ?_⟩
    rw [hbytes.stored_eq, stored_of_takes hp ht hj hhas]
  have hheld : q.table.find? id = some f → id = i ∧ fr.isResident := by
    intro hi
    obtain ⟨hresident, hpage⟩ := hq.find?_iff.1 hi
    rw [h.frame_self] at hresident hpage
    exact ⟨Option.some.inj (hpage.symm.trans (hfr hresident).1), hresident⟩
  refine ⟨hm.faithfulAt hp hid (fun hi ↦ ?_) (fun _ hi ↦ hi)
    (fun hi ↦ hleads.inUse hp hq (hid.inUse hi)), hm.content_eq hp (fun hi ↦ ?_)
      fun hi _ hhas ↦ ?_⟩
  · obtain ⟨rfl, hresident⟩ := hheld hi
    obtain ⟨-, hreadable, hback, -⟩ := hfr hresident
    constructor
    · rw [h.frame_self]
      exact hreadable
    · rw [h.frame_self]
      exact fun hclean _ ↦ hback hclean
  · -- The page that had to leave is in no frame now, the new one being another page.
    cases hfound : q.table.find? id with
    | none => rw [content_of_absent hfound, hbytes.stored_eq, stored_of_takes_self hp hid ht hi]
    | some g =>
      have hg : g ≠ f := by
        rintro rfl
        obtain ⟨rfl, -⟩ := hheld hfound
        cases hnew.symm.trans hi
      have hother := hq.find?_iff.1 hfound
      rw [hm.frame_eq g hg] at hother
      exact absurd (Option.some.inj ((hp.find?_iff.2 hother).symm.trans hi)) hg
  · obtain ⟨rfl, hresident⟩ := hheld hi
    rw [h.frame_self]
    exact (hfr hresident).2.2.2 hhas

theorem Installs.spares {dirty : Bool} {load : PageFile → Except Error Page × PageFile}
    {r : Except Error Handle} (hp : p.Sound) (hid : p.FaithfulAt u id)
    (hnew : p.table.find? i = none) (hload : p.Brings i dirty load)
    (h : p.Installs i dirty load r q) : p.Spares q u id := by
  have hq := h.sound hp hnew hload.toLoads
  have hleads := h.steady hp.toSteady
  cases h with
  | exhausted | unusable => exact hid.congr rfl rfl rfl
  | restored _ _ hidle hpage hdirty hwrite =>
    have hf := hp.find?_iff.2 ⟨(isIdle_iff.1 hidle).1, hpage⟩
    exact (restores_of_restoreVictim hp.toSteady hidle hpage hdirty).spares hp hq hleads hf
      hdirty hwrite hid
  | unloaded htakes herror =>
    have ht := taken_of_takes hp.toSteady htakes
    exact spares_of_takes hp hid htakes (refills_of_releaseFrame ht.lt) hq hleads hnew
      (hload.same herror).1 (by rintro ⟨⟩)
  | @loaded f t file page htakes hok =>
    have ht := taken_of_takes hp.toSteady htakes
    have hne : p.table.find? i ≠ some f := by
      rw [hnew]
      rintro ⟨⟩
    refine spares_of_takes hp hid htakes (refills_of_settleFrame ht.lt) hq hleads hnew
      (hload.same hok).1 fun _ ↦ ⟨rfl, hload.readable hok, hload.stored_eq hok, fun hhas ↦ ?_⟩
    rw [← stored_of_takes hp htakes hne hhas]
    exact hload.shown hok hhas

end Installing

end PagedStorage.Pool
