import PagedStorage.Proofs.Page.Untrusted
import PagedStorage.Proofs.Pool.Contents

/-!
# What a pool shows of its file

No call changes the content of a page that is there, whether it succeeds or fails. This takes a
user who tells, when it leaves a page, that it changed it, `Pool.Careful`. A session has, next to
the pool, the set of the pages that are changed and not told of, and a page in this set must not be
left without telling by its last user.

## Edits that are safe

It also takes edits after which the image of the page still stands for the page. Edits of the
pages that this library makes are all of this kind. A page that comes from elsewhere may have a
free entry across its directory or another record, and a record that is stored there makes an
image that is refused when the page is loaded again. So the change is lost, in spite of all
reports.

`strayPage` is such a page, with an entry in the middle of the free space. Storing a record in it
succeeds, the record is there as long as the page is in its frame, and it is told of. Then another
page needs the frame, the image is written, and nobody can read it (`strayRecord_lost`).

## Handles

What a user gets is a handle, and it refers to the page that the pool shows under the id, as long as
the page is in use (`Pool.Hands`). A page with a user leaves its frame by no call, so the handle
stays good until the user gives it back.
-/

namespace PagedStorage

/-- The changed pages that are not told of after a call, if those in `u` were not before. -/
def PoolCall.untold (c : PoolCall) (u : Finset PageId) : Finset PageId :=
  match c with
  | unpin id dirty => if dirty then u.erase id else u
  | _ => u

namespace Pool

variable {ρ : Type} {p q t : Pool ρ} {f : Nat} {id : PageId} {u v : Finset PageId}

/-! ## Edits -/

theorem moves_of_adjusts {fr : Frame} (h : p.Adjusts f fr q) (hq : q.Sound)
    (hfile : q.file = p.file) : p.Moves f q :=
  ⟨hq, h.frame_eq, fun i _ _ ↦ by rw [hfile]⟩

/-- An edit that is made changes the content of its page, and of no other. -/
theorem content_of_edit {e : Page.Edit} (hp : p.Steady) (h : p.edit id e = (.ok (), q)) :
    (∀ i, i ≠ id → q.content i = p.content i) ∧ ∃ page page', p.content id = .ok page ∧
      e.apply page = .ok page' ∧ q.content id = .ok page' := by
  obtain ⟨herror, -⟩ | ⟨f, page', hfound, -, happly, -, hadjusts, -, hfile⟩ := edit_cases h
  · exact absurd rfl herror
  · have hf := (residentFrame?_eq_some_iff.1 hfound).1
    have hq := (hadjusts.steady hp).1
    refine ⟨fun i hi ↦ ?_, (p.frame f).page, page', content_of_find? hp hf, happly, ?_⟩
    · cases hi' : p.table.find? i with
      | none =>
        rw [content_of_absent hi', content_of_absent (hadjusts.table_eq ▸ hi'), hfile]
      | some g =>
        have hg : g ≠ f := by
          rintro rfl
          exact hi (hp.eq_of_find? hi' hf)
        rw [content_of_find? hp hi', content_of_find? hq (hadjusts.table_eq ▸ hi'),
          hadjusts.frame_eq g hg]
    · rw [content_of_find? hq (hadjusts.table_eq ▸ hf), hadjusts.frame_self]

/-- The page itself stays faithful if the edit is safe, and is not told of. -/
theorem faithfulAt_of_edit {e : Page.Edit} (hp : p.Sound) (hid : p.FaithfulAt u id)
    (hsafe : ∀ page, p.content id = .ok page → e.Safe page) (h : p.edit id e = (.ok (), q)) :
    q.FaithfulAt (insert id u) id := by
  have hq := sound_of_edit hp h
  obtain ⟨herror, -⟩ | ⟨f, page, hfound, hpins, happly, -, hadjusts, -, hfile⟩ := edit_cases h
  · exact absurd rfl herror
  · have hf := (residentFrame?_eq_some_iff.1 hfound).1
    have hsafe := hsafe _ (content_of_find? hp.toSteady hf)
    have hreadable := (Page.Edit.readable_apply_iff (hid.backed f hf).readable happly).2 hsafe
    refine hadjusts.faithfulAt hp (moves_of_adjusts hadjusts hq hfile) hid (fun _ ↦ hreadable)
      (fun _ _ hnot ↦ absurd (Finset.mem_insert_self id u) hnot) (fun hnot ↦ absurd hf hnot)
      fun _ _ ↦ hpins

/-- An edit of another page leaves a page alone, safe or not. -/
theorem spares_of_edit {e : Page.Edit} {i : PageId} {r : Except Error Unit} (hp : p.Sound)
    (hi : p.FaithfulAt u i) (hne : i ≠ id) (h : p.edit id e = (r, q)) :
    p.Spares q u i := by
  have hq := sound_of_edit hp h
  obtain ⟨-, rfl⟩ | ⟨f, page, hfound, hpins, happly, -, hadjusts, -, hfile⟩ := edit_cases h
  · exact hi.spares
  · have hf := (residentFrame?_eq_some_iff.1 hfound).1
    have hnot : p.table.find? i ≠ some f := fun hif ↦ hne (hp.eq_of_find? hif hf)
    have hm := moves_of_adjusts hadjusts hq hfile
    refine ⟨hadjusts.faithfulAt hp hm hi (fun hif ↦ absurd hif hnot)
      (fun hif ↦ absurd hif hnot) (fun _ ↦ Iff.rfl) fun hif ↦ absurd hif hnot,
      hm.content_eq hp (fun hif ↦ absurd hif hnot) fun hif ↦ ?_⟩
    rw [hadjusts.table_eq] at hif
    exact absurd hif hnot

theorem FaithfulAt.congr_set (hid : p.FaithfulAt u id) (h : id ∈ v ↔ id ∈ u) :
    p.FaithfulAt v id :=
  ⟨fun f hf ↦ ⟨(hid.backed f hf).readable, fun hclean hv ↦
    (hid.backed f hf).stored_eq hclean fun hu ↦ hv (h.2 hu)⟩, fun hv ↦ hid.inUse (h.1 hv)⟩

theorem faithful_of_edit {e : Page.Edit} (hp : p.Faithful u)
    (hsafe : ∀ page, p.content id = .ok page → e.Safe page) (h : p.edit id e = (.ok (), q)) :
    q.Faithful (insert id u) := by
  refine faithful_iff.2 ⟨sound_of_edit hp.toSound h, fun i ↦ ?_⟩
  by_cases hi : i = id
  · subst hi
    exact faithfulAt_of_edit hp.toSound (hp.at i) hsafe h
  · refine (spares_of_edit hp.toSound (hp.at i) hi h).toFaithfulAt.congr_set ?_
    rw [Finset.mem_insert, or_iff_right hi]

theorem FaithfulAt.readable {page : Page} (hp : p.Sound) (hid : p.FaithfulAt u id)
    (h : p.content id = .ok page) : page.Readable ∧ page.id = id := by
  cases hf : p.table.find? id with
  | none =>
    rw [content_of_absent hf] at h
    exact PageFile.readable_of_stored h
  | some f =>
    rw [content_of_find? hp.toSteady hf] at h
    cases h
    exact ⟨(hid.backed f hf).readable, hp.page_id hf⟩

theorem Faithful.readable {page : Page} (hp : p.Faithful u) (h : p.content id = .ok page) :
    page.Readable ∧ page.id = id := (hp.at id).readable hp.toSound h

/-! ## Calls -/

/-- A handle refers to the page that the pool shows under an id. -/
structure Hands (q : Pool ρ) (id : PageId) (h : Handle) (page : Page) : Prop where
  page?_eq : q.page? h = some page
  content_eq : q.content id = .ok page

theorem hands_of_find? {h : Handle} (hq : q.Steady) (hf : q.table.find? id = some h.frame)
    (hcopy : (q.frame h.frame).copy = h.copy) : q.Hands id h (q.frame h.frame).page :=
  ⟨by rw [page?, if_pos hcopy], content_of_find? hq hf⟩

theorem found_of_refills {page : Page} {dirty : Bool} {copy : Nat} (hq : q.Sound)
    (h : t.Refills f (loadedFrame id page dirty copy) q) :
    q.table.find? id = some f ∧ q.frame f = loadedFrame id page dirty copy := by
  have hframe := h.frame_self
  exact ⟨hq.find?_iff.2 ⟨(by rw [hframe]; rfl), (by rw [hframe]; rfl)⟩, hframe⟩

theorem FaithfulAt.notMem_of_unpinned (hp : p.Steady) (hid : p.FaithfulAt u id)
    (h : ∀ f, p.residentFrame? id = some f → (p.frame f).pins = 0) : id ∉ u := by
  intro hu
  obtain ⟨f, hf, hpins⟩ := hid.inUse hu
  have hresident := ((hp.frameOk f).of_find? id hf).1
  exact absurd (h f (residentFrame?_eq_some_iff.2 ⟨hf, hresident⟩)) (UInt32.pos_iff_ne_zero.1 hpins)

theorem faithful_ofFile {file : PageFile} {s : ρ} {n : Nat} (h : file.Ahead) :
    (ofFile file s n).Faithful ∅ :=
  ⟨sound_ofFile h, by rintro f id ⟨⟩, fun id hid ↦ absurd hid (Finset.notMem_empty id)⟩

variable [Replacer ρ]

theorem Installs.loadedFrame {dirty : Bool} {load : PageFile → Except Error Page × PageFile}
    {h : Handle} (hp : p.Steady) (hq : q.Sound) (hi : p.Installs id dirty load (.ok h) q) :
    ∃ (x y : PageFile) (page : Page), load x = (.ok page, y) ∧
      q.table.find? id = some h.frame ∧ q.frame h.frame = loadedFrame id page dirty h.copy := by
  generalize hr : (Except.ok h : Except Error Handle) = r at hi
  cases hi with
  | @loaded f t file page htakes hok =>
    cases hr
    have ht := taken_of_takes hp htakes
    exact ⟨t.file, file, page, hok, found_of_refills hq (refills_of_settleFrame ht.lt)⟩
  | _ => cases hr

theorem Installs.hands {dirty : Bool} {load : PageFile → Except Error Page × PageFile}
    {h : Handle} (hp : p.Steady) (hq : q.Sound) (hi : p.Installs id dirty load (.ok h) q) :
    ∃ (x y : PageFile) (page : Page), load x = (.ok page, y) ∧ q.Hands id h page := by
  obtain ⟨x, y, page, hload, hfound, hframe⟩ := hi.loadedFrame hp hq
  have hhands := hands_of_find? hq.toSteady hfound (by rw [hframe]; rfl)
  rw [hframe] at hhands
  exact ⟨x, y, page, hload, hhands⟩

theorem spares_of_fetch {i : PageId} {r : Except Error Handle} (hp : p.Sound)
    (hi : p.FaithfulAt u i) (h : p.fetch id = (r, q)) : p.Spares q u i := by
  have hq := sound_of_fetch hp h
  obtain ⟨-, -, rfl⟩ | ⟨f, hf, hlt, rfl, hadjusts, -, hfile⟩ | ⟨hnew, hinstalls⟩ :=
    fetch_cases hp.toSteady h
  · exact hi.spares
  · refine hadjusts.spares hp (moves_of_adjusts hadjusts hq hfile) rfl hi
      (fun hif hclean hu ↦ hfile ▸ (hi.backed f hif).stored_eq hclean hu) (fun _ ↦ Iff.rfl)
      fun _ _ ↦ pins_add_one_pos hlt
  · exact hinstalls.spares hp hi hnew (p.brings_readPage id)

private theorem hands_of_fetch {hd : Handle} (hp : p.Sound) (h : p.fetch id = (.ok hd, q)) :
    ∃ page, q.Hands id hd page := by
  have hq := sound_of_fetch hp h
  obtain ⟨-, ⟨⟩, -⟩ | ⟨f, hf, -, hok, hadjusts, -⟩ | ⟨hnew, hinstalls⟩ :=
    fetch_cases hp.toSteady h
  · cases hok
    have hfound : q.table.find? id = some f := hadjusts.table_eq ▸ hf
    exact ⟨_, hands_of_find? (h := ⟨f, (p.frame f).copy⟩) hq.toSteady hfound
      (by rw [hadjusts.frame_self])⟩
  · obtain ⟨x, y, page, -, hhands⟩ := hinstalls.hands hp.toSteady hq
    exact ⟨page, hhands⟩

theorem faithful_of_fetch {r : Except Error Handle} (hp : p.Faithful u)
    (h : p.fetch id = (r, q)) : q.Faithful u ∧ p.Keeps q ∧
      ∀ hd, r = .ok hd → ∃ page, q.Hands id hd page ∧ (p.Holds id → p.content id = .ok page) := by
  obtain ⟨hfaithful, hkeeps⟩ := faithful_of_spares (sound_of_fetch hp.toSound h)
    fun i ↦ spares_of_fetch hp.toSound (hp.at i) h
  refine ⟨hfaithful, hkeeps, ?_⟩
  rintro hd rfl
  obtain ⟨page, hhands⟩ := hands_of_fetch hp.toSound h
  exact ⟨page, hhands, fun hid ↦ (hkeeps id hid).symm.trans hhands.content_eq⟩

theorem spares_of_newPage {i : PageId} {r : Except Error (PageId × Handle)} (hp : p.Sound)
    (hnext : p.file.ids.next.toNat + 1 < UInt32.size) (hi : p.FaithfulAt u i)
    (h : p.newPage = (r, q)) : p.Spares q u i := by
  obtain ⟨r', rfl, hinstalls⟩ := newPage_cases hp.inFlight_eq h
  have hbytes : p.file.SameBytes p.file.allocate.2 := ⟨rfl, rfl⟩
  have hstart : p.Spares { p with file := p.file.allocate.2 } u i :=
    hi.congr rfl rfl (hbytes.stored_eq i)
  have hcovers : p.file.allocate.2.ids.Covers (p.file.ids.next.toNat + 1) :=
    .inl (Nat.le_of_eq (IdCounter.toNat_next_allocate hnext).symm)
  exact hstart.trans (hinstalls.spares (hp.allocate hnext) hstart.toFaithfulAt
    (hp.find?_next hnext) (brings_fresh hcovers (hp.not_has_next hnext)))

theorem hands_of_newPage {hd : Handle} (hp : p.Sound)
    (hnext : p.file.ids.next.toNat + 1 < UInt32.size) (h : p.newPage = (.ok (id, hd), q)) :
    id = p.file.ids.next ∧ ¬ p.Holds id ∧ q.Hands id hd (.fresh id) := by
  have hq := sound_of_newPage hp hnext h
  obtain ⟨r, hok, hinstalls⟩ := newPage_cases hp.inFlight_eq h
  cases r with
  | error e => cases hok
  | ok hd' =>
    obtain ⟨rfl, rfl⟩ := Prod.mk.inj (Except.ok.inj hok)
    obtain ⟨x, y, page, hload, hhands⟩ := hinstalls.hands hp.toSteady.allocate hq
    cases hload
    exact ⟨rfl, fun hholds ↦ hp.not_has_next hnext (has_of_holds (hp.find?_next hnext) hholds),
      hhands⟩

theorem faithful_of_newPage {r : Except Error (PageId × Handle)} (hp : p.Faithful u)
    (hnext : p.file.ids.next.toNat + 1 < UInt32.size) (h : p.newPage = (r, q)) :
    q.Faithful u ∧ p.Keeps q ∧ ∀ i hd, r = .ok (i, hd) →
      ¬ p.Holds i ∧ q.Hands i hd (.fresh i) := by
  obtain ⟨hfaithful, hkeeps⟩ := faithful_of_spares (sound_of_newPage hp.toSound hnext h)
    fun i ↦ spares_of_newPage hp.toSound hnext (hp.at i) h
  refine ⟨hfaithful, hkeeps, ?_⟩
  rintro i hd rfl
  exact (hands_of_newPage hp.toSound hnext h).2

theorem content_of_unpin {i : PageId} {dirty : Bool} {r : Except Error Unit} (hp : p.Steady)
    (h : p.unpin id dirty = (r, q)) : q.content i = p.content i := by
  obtain ⟨-, -, rfl⟩ | ⟨f, -, ⟨-, -, rfl⟩ | ⟨-, -, hadjusts, -, hfile⟩⟩ := unpin_cases h
  · rfl
  · rfl
  · exact hadjusts.content_eq hp rfl hfile

/-- A page stays faithful under a set without it if its last user tells that it changed. -/
theorem spares_of_unpin {i : PageId} {dirty : Bool} {r : Except Error Unit} (hp : p.Sound)
    (hi : p.FaithfulAt u i) (hne : i ≠ id → (i ∈ v ↔ i ∈ u)) (hsub : i ∈ v → i ∈ u)
    (htold : i = id → i ∈ u → i ∉ v → dirty = true)
    (hlast : i = id → i ∈ v → p.pinCount? i ≠ some 1) (h : p.unpin id dirty = (r, q)) :
    p.Spares q v i := by
  have hq := sound_of_unpin hp h
  have hidle (hnone : ∀ f, p.residentFrame? id = some f → (p.frame f).pins = 0) :
      p.Spares p v i := by
    refine (hi.congr_set ?_).spares
    by_cases heq : i = id
    · subst heq
      have hu := hi.notMem_of_unpinned hp.toSteady hnone
      exact ⟨hsub, fun hmem ↦ absurd hmem hu⟩
    · exact hne heq
  obtain ⟨hnone, -, rfl⟩ | ⟨f, hfound, ⟨hpins, -, rfl⟩ | ⟨hpins, -, hadjusts, -, hfile⟩⟩ :=
    unpin_cases h
  · exact hidle fun f hf ↦ by cases hnone.symm.trans hf
  · exact hidle fun g hg ↦ Option.some.inj (hg.symm.trans hfound) ▸ hpins
  · have hf := (residentFrame?_eq_some_iff.1 hfound).1
    have hself : p.table.find? i = some f → i = id := fun hif ↦ hp.eq_of_find? hif hf
    refine hadjusts.spares hp (moves_of_adjusts hadjusts hq hfile) rfl hi (fun hif hclean hv ↦ ?_)
      (fun hnot ↦ hne fun heq ↦ hnot (heq ▸ hf)) fun hif hv ↦ ?_
    · obtain ⟨hbefore, rfl⟩ := Bool.or_eq_false_iff.1 hclean
      rw [hfile]
      refine (hi.backed f hif).stored_eq hbefore fun hu ↦ ?_
      exact Bool.false_ne_true (htold (hself hif) hu hv)
    · have hcount : p.pinCount? id = some (p.frame f).pins.toNat := by rw [pinCount?, hfound]; rfl
      have hmany := hlast (hself hif) hv
      rw [hself hif, hcount] at hmany
      exact pins_sub_one_pos fun heq ↦ hmany (by rw [heq, UInt32.toNat_one])

private theorem faithful_of_unpin {dirty : Bool} {r : Except Error Unit} (hp : p.Faithful u)
    (htold : dirty = false → id ∈ u → p.pinCount? id ≠ some 1) (h : p.unpin id dirty = (r, q)) :
    q.Faithful (if dirty then u.erase id else u) ∧ p.Keeps q := by
  refine faithful_of_spares (sound_of_unpin hp.toSound h) fun i ↦
    spares_of_unpin hp.toSound (hp.at i) (fun hne ↦ ?_) (fun hv ↦ ?_) (fun heq hu hv ↦ ?_)
      (fun heq hv ↦ ?_) h
  · split
    · rw [Finset.mem_erase, and_iff_right hne]
    · exact Iff.rfl
  · split at hv
    · exact Finset.mem_of_mem_erase hv
    · exact hv
  · split at hv
    next hdirty => exact hdirty
    next => exact absurd hu hv
  · subst heq
    cases dirty with
    | true => exact absurd hv (Finset.notMem_erase i u)
    | false => exact htold rfl hv

theorem spares_of_flush {i : PageId} {r : Except Error Unit} (hp : p.Sound)
    (hi : p.FaithfulAt u i) (h : p.flush id = (r, q)) : p.Spares q u i := by
  have hq := sound_of_flush hp h
  obtain ⟨-, rfl⟩ | ⟨f, hfound, hwrite, hadjusts, -⟩ := flush_cases h
  · exact hi.spares
  · have hf := (residentFrame?_eq_some_iff.1 hfound).1
    have hm : p.Moves f q := ⟨hq, hadjusts.frame_eq, fun j ↦ hp.stored_of_write hf hwrite⟩
    refine hadjusts.spares hp hm rfl hi (fun hif hclean _ ↦ ?_) (fun _ ↦ Iff.rfl)
      fun hif hu ↦ ?_
    · obtain ⟨⟩ | ⟨⟩ := r
      · cases hclean
      · exact hi.stored_of_write hp hif hwrite
    · obtain ⟨g, hg, hpins⟩ := hi.inUse hu
      obtain rfl := Option.some.inj (hg.symm.trans hif)
      exact hpins

theorem spares_of_flushAll {i : PageId} {r : Except Error Unit} (hp : p.Sound)
    (hi : p.FaithfulAt u i) (h : p.flushAll = (r, q)) : p.Spares q u i := by
  refine (flushAll_induction (I := fun q ↦ q.Sound ∧ p.Spares q u i) ?_ ?_ ⟨hp, hi.spares⟩ h).2
  · intro s t id r hs hflush
    exact ⟨sound_of_flush hs.1 hflush, hs.2.trans (spares_of_flush hs.1 hs.2.toFaithfulAt hflush)⟩
  · intro t file r ht hsync
    obtain ⟨hbytes, hids, -⟩ := PageFile.sync_cases hsync
    have hcount := PageFile.pageCount_of_sync hsync
    exact ⟨ht.1.congr rfl rfl rfl rfl (fun n hn ↦ hids ▸ hn)
        (hbytes.ahead hids hcount ht.1.ahead),
      ht.2.trans (ht.2.toFaithfulAt.congr rfl rfl (hbytes.stored_eq i))⟩

/-- The calls of a user who has changed the pages in `u` and not told so far: it does not leave
such a page without telling. New pages are made as long as there are ids. -/
def Careful (p : Pool ρ) (u : Finset PageId) (c : PoolCall) : Prop :=
  match c with
  | .newPage => p.file.ids.next.toNat + 1 < UInt32.size
  | .unpin id dirty => dirty = false → id ∈ u → p.pinCount? id ≠ some 1
  | .delete _ => False
  | _ => True

theorem faithful_of_call (hp : p.Faithful u) {c : PoolCall} (hc : p.Careful u c) :
    (p.call c).2.Faithful (c.untold u) ∧ p.Keeps (p.call c).2 := by
  match c with
  | .fetch _ =>
    obtain ⟨hfaithful, hkeeps, -⟩ := faithful_of_fetch hp rfl
    exact ⟨hfaithful, hkeeps⟩
  | .newPage =>
    obtain ⟨hfaithful, hkeeps, -⟩ := faithful_of_newPage hp hc rfl
    exact ⟨hfaithful, hkeeps⟩
  | .unpin _ _ => exact faithful_of_unpin hp hc rfl
  | .flush _ =>
    exact faithful_of_spares (sound_of_flush hp.toSound rfl)
      fun i ↦ spares_of_flush hp.toSound (hp.at i) rfl
  | .flushAll =>
    exact faithful_of_spares (sound_of_flushAll hp.toSound rfl)
      fun i ↦ spares_of_flushAll hp.toSound (hp.at i) rfl
  | .delete _ => exact hc.elim

/-! ## Sessions -/

/-- The pools that a careful user reaches who makes safe edits, each with the pages that are
changed and not told of. -/
inductive Session (start : Pool ρ) : Pool ρ → Finset PageId → Prop
  | start : Session start start ∅
  | call {p : Pool ρ} {u : Finset PageId} (c : PoolCall) : Session start p u → p.Careful u c →
      Session start (p.call c).2 (c.untold u)
  | edit {p q : Pool ρ} {u : Finset PageId} {id : PageId} {e : Page.Edit} : Session start p u →
      (∀ page, p.content id = .ok page → e.Safe page) → p.edit id e = (.ok (), q) →
      Session start q (insert id u)

private theorem Session.faithful {start : Pool ρ} (hstart : start.Faithful ∅)
    (h : Session start p u) : p.Faithful u := by
  induction h with
  | start => exact hstart
  | call c _ hc ih => exact (faithful_of_call ih hc).1
  | edit _ hsafe hedit ih => exact faithful_of_edit ih hsafe hedit

/-- Whatever the policy offers and whenever the medium fails, no call changes the content of a
page that is there, and a page that is fetched is the content. Edits change the content of their
page, and if an edit is not safe this lasts only as long as the page is in its frame. -/
theorem Session.transparent {file : PageFile} {s : ρ} {n : Nat} (hfile : file.Ahead)
    (h : Session (ofFile file s n) p u) :
    (∀ c, p.Careful u c → p.Keeps (p.call c).2) ∧
    (∀ id hd q, p.fetch id = (.ok hd, q) →
      ∃ page, q.Hands id hd page ∧ (p.Holds id → p.content id = .ok page)) ∧
    (∀ id hd q, p.Careful u .newPage → p.newPage = (.ok (id, hd), q) →
      ¬ p.Holds id ∧ q.Hands id hd (.fresh id)) ∧
    ∀ id e q, p.edit id e = (.ok (), q) →
      (∀ i, i ≠ id → q.content i = p.content i) ∧
      ∃ page page', p.content id = .ok page ∧ e.apply page = .ok page' ∧
        q.content id = .ok page' ∧
        (e.Safe page ↔ ∃ file : PageFile, file.stored id = .ok page') := by
  have hp := h.faithful (faithful_ofFile hfile)
  refine ⟨fun c hc ↦ (faithful_of_call hp hc).2, fun id hd q hq ↦ ?_, fun id hd q hnext hq ↦ ?_,
    fun id e q hq ↦ ?_⟩
  · exact (faithful_of_fetch hp hq).2.2 hd rfl
  · exact (faithful_of_newPage hp hnext hq).2.2 id hd rfl
  · obtain ⟨hothers, page, page', hpage, happly, hpage'⟩ := content_of_edit hp.toSteady hq
    obtain ⟨hreadable, hid⟩ := hp.readable hpage
    refine ⟨hothers, page, page', hpage, happly, hpage', ?_⟩
    rw [PageFile.exists_stored_iff, Page.Edit.id_apply happly, and_iff_left hid]
    exact (Page.Edit.readable_apply_iff hreadable happly).symm

/-- A pool of one frame, where a new page is written when the next one needs its frame. -/
theorem Session.transparent_newPage :
    let p := ((ofFile .empty (Policy.ofKind 1 .clock) 1).call .newPage).2
    let q := (p.call (.unpin 0 true)).2
    (q.call .newPage).2.content 0 = .ok (.fresh 0) := by
  intro p q
  have hfirst : Session (ofFile .empty (Policy.ofKind 1 .clock) 1) p ∅ :=
    .call .newPage .start (show (0 : Nat) + 1 < UInt32.size by decide)
  have hsecond : Session (ofFile .empty (Policy.ofKind 1 .clock) 1) q ∅ :=
    .call (.unpin 0 true) hfirst (by rintro ⟨⟩)
  obtain ⟨hkeeps, -⟩ := transparent PageFile.ahead_empty hsecond
  exact hkeeps .newPage (show (1 : Nat) + 1 < UInt32.size by decide) 0 (by rintro ⟨⟩)

/-! ## A change that is lost -/

end Pool

/-- An entry in the middle of the free space. -/
def strayEntry : Slot where
  id := 0
  status := .free
  offset := 4096
  length := 8

/-- A page that can be read, but on which not every edit is safe. -/
def strayPage : Page where
  header := strayHeader
  directory := [strayEntry]
  image := Image.zero.overwrite 0 (encodeLayout strayHeader [strayEntry])

def strayRecord : List UInt8 := [1, 2, 3, 4, 5, 6, 7, 8]

/-- The file with this page only. -/
def strayFile : PageFile := (PageFile.empty.writePage strayPage).2

private theorem readable_strayPage : strayPage.Readable :=
  Page.readable_overwrite _ (describes_strayHeader rfl rfl (by decide) (by decide))

private theorem not_safe_strayRecord : ¬ (Page.Edit.add strayRecord).Safe strayPage := by
  intro hsafe
  obtain ⟨hupper, -⟩ := hsafe strayEntry rfl (by decide)
  revert hupper
  decide

private theorem exists_apply_strayRecord :
    ∃ page, (Page.Edit.add strayRecord).apply strayPage = .ok page := by
  have hok : ((Page.Edit.add strayRecord).apply strayPage).isOk := by decide +kernel
  cases h : (Page.Edit.add strayRecord).apply strayPage with
  | ok page => exact ⟨page, rfl⟩
  | error e =>
    rw [h] at hok
    cases hok

private theorem ahead_strayFile : strayFile.Ahead := by
  have hwrite : PageFile.empty.writePage strayPage = (.ok (), strayFile) := rfl
  exact (PageFile.exchanges_of_writePage hwrite).ahead PageFile.ahead_empty
    (IdCounter.covers_advancePast {} 0)

private theorem readPage_strayFile : ∃ file, strayFile.readPage 0 = (.ok strayPage, file) ∧
    file.ids.next = 1 ∧ ∀ page, (file.allocate.2.writePage page).1 = .ok () := by
  have hwrite : PageFile.empty.writePage strayPage = (.ok (), strayFile) := rfl
  have hstored : strayFile.stored 0 = .ok strayPage := (PageFile.stored_of_writePage hwrite).trans
    (PageFile.pageOf_image_iff.2 ⟨readable_strayPage, rfl⟩)
  have hhas := PageFile.has_of_stored hstored
  rw [PageFile.readPage_eq, if_neg (by exact Bool.false_ne_true), if_neg (Nat.not_lt.2 hhas),
    if_neg (by exact Bool.false_ne_true), ← PageFile.stored_eq, hstored]
  exact ⟨_, rfl, rfl, fun _ ↦ rfl⟩

namespace Pool

section Single

variable {file file' : PageFile} {page page' : Page} {s s' : Policy}

/-- A pool of one frame, with page 0 in it. -/
def single (file : PageFile) (replacer : Policy) (pins : UInt32) (dirty : Bool) (page : Page) :
    Pool Policy where
  frames := #[{ status := .resident, pageId := some 0, pins := pins, dirty := dirty, page := page
                copy := 1 }]
  table := [(0, 0)]
  freeFrames := []
  replacer := replacer
  file := file
  copies := 1

private theorem fetch_single (h : file.readPage 0 = (.ok page, file')) :
    (ofFile file s 1).fetch 0 = (.ok ⟨0, 1⟩, single file' (s.pin 0) 1 false page) := by
  have hmiss : (ofFile file s 1).fetch 0 = (ofFile file s 1).install 0 false (·.readPage 0) := rfl
  have hacquire : (ofFile file s 1).acquireFrame =
      (.ok (0, none), { ofFile file s 1 with freeFrames := [] }) := rfl
  have hfile : ({ ofFile file s 1 with freeFrames := [] }.reserveFrame 0 0).file = file := rfl
  rw [hmiss, install, hacquire]
  simp only [dismiss]
  rw [hfile, h]
  rfl

private theorem edit_single {e : Page.Edit} (h : e.apply page = .ok page') :
    (single file s 1 false page).edit 0 e = (.ok (), single file s 1 false page') := by
  have hfound : (single file s 1 false page).residentFrame? 0 = some 0 := rfl
  have hframe : ((single file s 1 false page).frame 0).page = page := rfl
  rw [edit, hfound]
  simp only [hframe, h]
  rfl

private theorem unpin_single :
    (single file s 1 false page).unpin 0 true =
      (.ok (), single file (s.unpin 0) 0 true page) := by
  have hfound : (single file s 1 false page).residentFrame? 0 = some 0 := rfl
  have hpins : ((single file s 1 false page).frame 0).pins = 1 := rfl
  have hframes (change : Frame → Frame) : (single file s 1 false page).frames.modify 0 change =
      #[change ((single file s 1 false page).frame 0)] := rfl
  rw [unpin, hfound]
  simp only [hpins]
  rw [if_neg (by decide), if_pos trivial, modifyFrame, hframes]
  simp only [hpins, UInt32.sub_self]
  rfl

/-- If it can be written, the page leaves its frame for a new one. -/
theorem newPage_single (hs : s.evict = (some 0, s')) (hnext : 0 ≠ file.ids.next)
    (h : (file.allocate.2.writePage page).1 = .ok ()) :
    ∃ hd q, (single file s 0 true page).newPage = (.ok hd, q) ∧ q.residentFrame? 0 = none := by
  cases hnew : (single file s 0 true page).newPage with
  | mk r q =>
    obtain ⟨r', rfl, hinstalls⟩ := newPage_cases rfl hnew
    cases hinstalls with
    | exhausted _ hevict => cases hevict.symm.trans hs
    | unusable _ hevict hnone =>
      cases hevict.symm.trans hs
      cases hnone rfl
    | restored _ hevict _ _ _ hwrite =>
      cases hevict.symm.trans hs
      cases (congrArg Prod.fst hwrite).symm.trans h
    | unloaded _ hload => cases hload
    | loaded htakes hload =>
      cases htakes with
      | free hfree => cases hfree
      | clean _ hevict _ _ hclean =>
        cases hevict.symm.trans hs
        cases hclean
      | written _ hevict _ hpage _ _ =>
        cases hevict.symm.trans hs
        cases hpage
        have hfind : (PageTable.insert [] file.ids.next 0).find? 0 = none := by
          rw [PageTable.find?_insert, if_neg hnext]
          rfl
        exact ⟨_, _, rfl, congrArg (Option.filter _) hfind⟩

end Single

/-- A record is stored in the stray entry and told of, and is gone once another page had its
frame: the image that was written is refused. -/
theorem strayRecord_lost :
    let p := ofFile strayFile (Policy.ofKind 1 .lru) 1
    let p₁ := (p.call (.fetch 0)).2
    let p₂ := (p₁.edit 0 (.add strayRecord)).2
    let p₃ := (p₂.call (.unpin 0 true)).2
    let p₄ := (p₃.call .newPage).2
    strayFile.Ahead ∧ (p.call (.fetch 0)).1 = .ok () ∧
      (p₁.edit 0 (.add strayRecord)).1 = .ok () ∧ (p₂.call (.unpin 0 true)).1 = .ok () ∧
      (p₃.call .newPage).1 = .ok () ∧ p₃.Holds 0 ∧ p₄.content 0 ≠ p₃.content 0 := by
  obtain ⟨page, happly⟩ := exists_apply_strayRecord
  obtain ⟨file, hread, hnext, hwrite⟩ := readPage_strayFile
  have hevict : ((Policy.ofKind 1 .lru).pin 0 |>.unpin 0).evict =
      (some 0, ((Policy.ofKind 1 .lru).pin 0 |>.unpin 0).evict.2) := rfl
  obtain ⟨hd, q, hnew, habsent⟩ :=
    newPage_single hevict (by rw [hnext]; decide) (hwrite page)
  simp only [call, fetch_single hread, edit_single happly, unpin_single, hnew]
  refine ⟨ahead_strayFile, rfl, trivial, trivial, rfl, (by rintro ⟨⟩), fun hsame ↦ ?_⟩
  -- A page that is kept is stored, and what is stored can be read; this page cannot.
  have hstored : q.file.stored 0 = .ok page := by
    rw [content, habsent] at hsame
    exact hsame
  have hreadable := (PageFile.readable_of_stored hstored).1
  exact not_safe_strayRecord ((Page.Edit.readable_apply_iff readable_strayPage happly).1 hreadable)

end Pool

end PagedStorage
