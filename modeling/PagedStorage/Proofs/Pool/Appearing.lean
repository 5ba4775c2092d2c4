import PagedStorage.Proofs.Pool.FailedDeletes

/-!
# Pages that appear

A page comes to be there because somebody made it, or because a page behind it was written and the
file is longer since. In a file of readable pages, `PageFile.Whole`, a page of the second kind is a
fresh one. So under an id that an errand does not touch there is afterwards what was there before,
or a fresh page in place of nothing, `Pool.Errand.blank`.

## When the file gets longer

The file gets longer when a page is written that was in a frame and behind its end, and this can
happen in any call that needs a frame. `WritesBack` is the file after such a call, whichever page
was written, and it has only what `fresh` and `not_has` say: what is passed over is a fresh page,
and the file does not reach further than the pages in frames. All calls go back to this.

## Careful users

What careful users do keeps the file whole, `Pool.Usage.whole`, and their errands are among the
things that they do, `Pool.Errand.usage`.
-/

namespace PagedStorage

theorem PageFile.Whole.fresh_of_writePage {f g : PageFile} {p page : Page} {id : PageId}
    {r : Except Error Unit} (hf : f.Whole) (h : f.writePage p = (r, g)) (hne : id ≠ p.id)
    (hnot : ¬ f.Has id) (hpage : g.stored id = .ok page) : page = .fresh id := by
  obtain ⟨-, hsame⟩ | ⟨heq, -⟩ | ⟨-, hfresh, -⟩ := hf.cases_of_writePage h id
  · rw [hsame, stored_of_not_has hnot] at hpage
    cases hpage
  · exact absurd heq hne
  · exact (Except.ok.inj (hfresh.symm.trans hpage)).symm

namespace Pool

variable {ρ : Type} {p q t start : Pool ρ} {f : Nat} {id i : PageId} {u v : Finset PageId}
  {touched : Set PageId} {held : List PageId}

/-- There is nothing under the id, or a fresh page. -/
def Blank (p : Pool ρ) (id : PageId) : Prop := ∀ page, p.content id = .ok page → page = .fresh id

theorem blank_of_not_holds (h : ¬ p.Holds id) : p.Blank id := by
  intro page hpage
  exact absurd (holds_of_content hpage) h

theorem Blank.congr (h : p.Blank id) (hsame : q.content id = p.content id) : q.Blank id := by
  rw [Blank, hsame]
  exact h

theorem not_has_of_not_holds (hp : p.Steady) (hwhole : p.file.Whole) (h : ¬ p.Holds id) :
    ¬ p.file.Has id := by
  intro hhas
  obtain ⟨page, hpage⟩ := hwhole.readable id hhas
  exact h (holds_of_content ((content_of_absent (find?_of_not_holds hp h)).trans hpage))

/-! ## One call -/

/-- The file, or what becomes of it when a page is written that is in a frame. -/
inductive WritesBack (p : Pool ρ) : PageFile → Prop
  | nothing : WritesBack p p.file
  | page {v : PageId} {f : Nat} {r : Except Error Unit} {file : PageFile} :
      p.table.find? v = some f → p.file.writePage (p.frame f).page = (r, file) → WritesBack p file

namespace WritesBack

variable {file : PageFile}

private theorem fresh (h : p.WritesBack file) (hp : p.Sound) (hwhole : p.file.Whole)
    (hi : ¬ p.Holds i) {page : Page} (hpage : file.stored i = .ok page) : page = .fresh i := by
  have hnot := not_has_of_not_holds hp.toSteady hwhole hi
  cases h with
  | nothing =>
    rw [PageFile.stored_of_not_has hnot] at hpage
    cases hpage
  | page hf hwrite =>
    refine hwhole.fresh_of_writePage hwrite ?_ hnot hpage
    rw [hp.page_id hf]
    rintro rfl
    cases (find?_of_not_holds hp.toSteady hi).symm.trans hf

private theorem not_has (h : p.WritesBack file) (hp : p.Sound) (hnot : ¬ p.file.Has i)
    (hbelow : ∀ v g, p.table.find? v = some g → v.toNat < i.toNat) : ¬ file.Has i := by
  intro hhas
  cases h with
  | nothing => exact hnot hhas
  | page hf hwrite =>
    have hlt := hbelow _ _ hf
    obtain hhas | hle := PageFile.has_of_writePage hwrite hhas
    · exact hnot hhas
    · rw [hp.page_id hf] at hle
      exact Nat.not_lt.2 hle hlt

end WritesBack

variable [Replacer ρ]

theorem writesBack_of_takes (hp : p.Sound) (h : p.Takes f t) : p.WritesBack t.file := by
  cases h with
  | free | clean => exact .nothing
  | written _ _ hidle hheld _ hwrite =>
    exact .page (hp.find?_iff.2 ⟨(isIdle_iff.1 hidle).1, hheld⟩) hwrite

theorem Installs.content_eq_stored {dirty : Bool}
    {load : PageFile → Except Error Page × PageFile} {r : Except Error Handle} (hp : p.Sound)
    (hnew : p.table.find? id = none) (hload : p.Loads id load)
    (h : p.Installs id dirty load r q) (hi : p.table.find? i = none)
    (hr : ¬ (i = id ∧ r.toBool)) : ∃ file, p.WritesBack file ∧ q.content i = file.stored i := by
  have hgone : q.table.find? i = none := Option.eq_none_iff_forall_ne_some.2 fun g hg ↦ by
    obtain ⟨hold, -⟩ | ⟨heq, hok, -⟩ := h.found hp hnew hload hg
    · cases hi.symm.trans hold
    · exact hr ⟨heq, hok⟩
  rw [content_of_absent hgone]
  cases h with
  | exhausted | unusable => exact ⟨_, .nothing, rfl⟩
  | restored _ _ hidle hheld _ hwrite =>
    exact ⟨_, .page (hp.find?_iff.2 ⟨(isIdle_iff.1 hidle).1, hheld⟩) hwrite, rfl⟩
  | unloaded htakes herror =>
    exact ⟨_, writesBack_of_takes hp htakes, (hload.same herror).1.stored_eq i⟩
  | loaded htakes hok => exact ⟨_, writesBack_of_takes hp htakes, (hload.same hok).1.stored_eq i⟩

theorem Installs.blank {dirty : Bool} {load : PageFile → Except Error Page × PageFile}
    {r : Except Error Handle} (hp : p.Sound) (hwhole : p.file.Whole)
    (hnew : p.table.find? id = none) (hload : p.Loads id load)
    (hshown : ∀ {x y : PageFile} {page : Page}, load x = (.ok page, y) →
      x.stored id = .ok page ∨ page = .fresh id)
    (h : p.Installs id dirty load r q) (hi : ¬ p.Holds i) : q.Blank i := by
  have hq := h.sound hp hnew hload
  have habsent (hr : ¬ (i = id ∧ r.toBool)) : q.Blank i := by
    obtain ⟨file, hback, hcontent⟩ :=
      h.content_eq_stored hp hnew hload (find?_of_not_holds hp.toSteady hi) hr
    intro page hpage
    exact hback.fresh hp hwhole hi (hcontent.symm.trans hpage)
  cases h with
  | exhausted | unusable | restored | unloaded => exact habsent (by rintro ⟨-, ⟨⟩⟩)
  | @loaded f t file page htakes hok =>
    by_cases heq : i = id
    · -- The page itself was loaded, so the file had it by then, or it is new.
      subst heq
      have ht := taken_of_takes hp.toSteady htakes
      obtain ⟨hfind, hframe⟩ := found_of_refills hq (refills_of_settleFrame ht.lt)
      rw [Blank, content_of_find? hq.toSteady hfind, hframe]
      rintro page' ⟨⟩
      obtain hstored | hfresh := hshown hok
      · exact (writesBack_of_takes hp htakes).fresh hp hwhole hi hstored
      · exact hfresh
    · exact habsent fun hr ↦ heq hr.1

theorem blank_of_fetch {r : Except Error Handle} (hp : p.Sound) (hwhole : p.file.Whole)
    (hi : ¬ p.Holds i) (h : p.fetch id = (r, q)) : q.Blank i := by
  obtain ⟨-, -, rfl⟩ | ⟨f, -, -, -, hadjusts, -, hfile⟩ | ⟨hnew, hinstalls⟩ :=
    fetch_cases hp.toSteady h
  · exact blank_of_not_holds hi
  · exact (blank_of_not_holds hi).congr (hadjusts.content_eq hp.toSteady rfl hfile)
  · refine hinstalls.blank hp hwhole hnew (p.loads_readPage id) (fun hread ↦ .inl ?_) hi
    obtain ⟨-, -, hstored | ⟨cause, ⟨⟩⟩⟩ := PageFile.readPage_cases hread
    exact hstored.symm

theorem blank_of_newPage {r : Except Error (PageId × Handle)} (hp : p.Sound)
    (hwhole : p.file.Whole) (hnext : p.file.ids.next.toNat + 1 < UInt32.size) (hi : ¬ p.Holds i)
    (h : p.newPage = (r, q)) : q.Blank i := by
  obtain ⟨r', -, hinstalls⟩ := newPage_cases hp.inFlight_eq h
  have hbytes : p.file.SameBytes p.file.allocate.2 := ⟨rfl, rfl⟩
  have hsame : ({ p with file := p.file.allocate.2 } : Pool ρ).content i = p.content i :=
    content_congr rfl rfl (hbytes.stored_eq i)
  refine hinstalls.blank (hp.allocate hnext) (hwhole.congr hbytes) (hp.find?_next hnext)
    (loads_fresh (.inl (Nat.le_of_eq (IdCounter.toNat_next_allocate hnext).symm))) ?_
    fun hholds ↦ hi (hholds.congr hsame.symm)
  rintro x y page ⟨⟩
  exact .inr rfl

/-- A new page takes the first of the ids that were not given out, and under the others there is
still nothing. -/
theorem not_holds_of_newPage {r : Except Error (PageId × Handle)} (hp : p.Sound)
    (hnext : p.file.ids.next.toNat + 1 < UInt32.size) (hi : p.file.ids.next.toNat ≤ i.toNat)
    (hr : ¬ (i = p.file.ids.next ∧ r.toBool)) (h : p.newPage = (r, q)) : ¬ q.Holds i := by
  obtain ⟨r', rfl, hinstalls⟩ := newPage_cases hp.inFlight_eq h
  have hbool : (r'.map (Prod.mk p.file.ids.next)).toBool = r'.toBool := by cases r' <;> rfl
  have hbelow (v : PageId) (hv : p.file.ids.Covers (v.toNat + 1)) : v.toNat < i.toNat := by
    rw [IdCounter.Covers] at hv
    omega
  have hframe (v : PageId) (g : Nat) (hg : p.table.find? v = some g) : v.toNat < i.toNat :=
    hbelow v (hp.covers_of_holds (holds_of_content (content_of_find? hp.toSteady hg)))
  have hnone : p.table.find? i = none :=
    Option.eq_none_iff_forall_ne_some.2 fun g hg ↦ Nat.lt_irrefl _ (hframe i g hg)
  obtain ⟨file, hback, hcontent⟩ := hinstalls.content_eq_stored (hp.allocate hnext)
    (hp.find?_next hnext)
    (loads_fresh (.inl (Nat.le_of_eq (IdCounter.toNat_next_allocate hnext).symm))) hnone
    (by rwa [hbool] at hr)
  have hbehind : ¬ file.Has i := hback.not_has (hp.allocate hnext)
    (fun hhas ↦ Nat.lt_irrefl _ (hbelow i (hp.ahead.covers hhas))) hframe
  rw [Holds, not_not, hcontent, PageFile.stored_of_not_has hbehind]

theorem blank_of_delete {r : Except Error Unit} (hp : p.Sound) (hwhole : p.file.Whole)
    (hne : i ≠ id) (hi : ¬ p.Holds i) (h : p.delete id = (r, q)) : q.Blank i := by
  obtain ⟨-, -, -, -, rfl⟩ | ⟨t, file, hdrops, hdelete, rfl⟩ := delete_cases hp.inFlight_eq
    hp.not_loading h
  · exact blank_of_not_holds hi
  · have hgone : ¬ t.Holds i := fun hholds ↦
      hi (hholds.congr (hdrops.content_eq hp.toSteady hne).symm)
    have hnone := find?_of_not_holds (hdrops.leads hp.toSteady).steady hgone
    obtain ⟨r', hwrite⟩ := PageFile.writePage_of_deletePage hdelete
    rw [← hdrops.file_eq] at hwhole
    intro page hpage
    rw [content_of_absent (p := { t with file := file }) hnone] at hpage
    exact hwhole.fresh_of_writePage hwrite hne
      (not_has_of_not_holds (hdrops.leads hp.toSteady).steady hwhole hgone) hpage

/-! ## Errands -/

/-- What an errand does not touch is as before, or a fresh page that was not there before. -/
theorem Errand.blank (h : Errand touched p held v q) (hp : p.Faithful u) (hwhole : p.file.Whole)
    (hi : i ∉ touched) (hblank : p.Blank i) : q.Blank i := by
  -- A page that is there keeps its content, so only one that is not can appear.
  have hstep {r t : Pool ρ} {w : Finset PageId} (hb : r.Blank i) (hs : r.Spares t w i)
      (hnew : ¬ r.Holds i → t.Blank i) : t.Blank i := by
    by_cases hholds : r.Holds i
    · exact hb.congr (hs.content_eq hholds)
    · exact hnew hholds
  induction h with
  | start => exact hblank
  | fetch h hfetch ih | fetchFails h hfetch ih =>
    have hr := h.faithful hp
    exact hstep ih (spares_of_fetch hr.toSound (hr.at i) hfetch)
      fun hnot ↦ blank_of_fetch hr.toSound (h.whole hp hwhole) hnot hfetch
  | newPage h hnext hnew ih | newPageFails h hnext hnew ih =>
    have hr := h.faithful hp
    exact hstep ih (spares_of_newPage hr.toSound hnext (hr.at i) hnew)
      fun hnot ↦ blank_of_newPage hr.toSound (h.whole hp hwhole) hnext hnot hnew
  | edit h _ hid _ hedit ih =>
    have hne : i ≠ _ := fun heq ↦ hi (heq ▸ hid)
    exact ih.congr ((content_of_edit (h.sound hp.toSound).toSteady hedit).1 i hne)
  | unpin h _ _ hunpin ih => exact ih.congr (content_of_unpin (h.sound hp.toSound).toSteady hunpin)
  | delete h hid _ hdelete ih =>
    have hr := h.faithful hp
    have hne : i ≠ _ := fun heq ↦ hi (heq ▸ hid)
    exact hstep ih (spares_of_delete hr.toSound (hr.at i) hne hdelete)
      fun hnot ↦ blank_of_delete hr.toSound (h.whole hp hwhole) hne hnot hdelete

/-- Careful users keep a file whole, whatever calls fail. -/
theorem Usage.whole (hstart : start.Faithful ∅) (hwhole : start.file.Whole)
    (h : Usage start p u) : p.file.Whole := by
  induction h with
  | start => exact hwhole
  | @call p u c h hc ih =>
    have hp := h.faithful hstart
    match c with
    | .fetch _ => exact (served_of_fetch hp rfl).whole ih
    | .newPage => exact (served_of_newPage hp hc rfl).whole (ih.congr ⟨rfl, rfl⟩)
    | .unpin id dirty =>
      have hfile : (p.unpin id dirty).2.file = p.file := file_of_unpin rfl
      exact hfile ▸ ih
    | .flush _ => exact (served_of_flush hp rfl).whole ih
    | .flushAll => exact (served_of_flushAll hp rfl).whole ih
  | @delete p u id h _ ih =>
    have hp := h.faithful hstart
    have hwhole' {q : Pool ρ} {r : Except Error Unit} (hdelete : p.delete id = (r, q)) :
        q.file.Whole := by
      obtain ⟨-, -, -, -, rfl⟩ | ⟨t, file, hdrops, hfile, rfl⟩ := delete_cases hp.inFlight_eq
        hp.not_loading hdelete
      · exact ih
      · rw [hdrops.file_eq] at hfile
        obtain ⟨r', hwrite⟩ := PageFile.writePage_of_deletePage hfile
        exact ih.writePage (Page.tidy_fresh id).readable hwrite
    exact hwhole' rfl
  | edit _ _ hedit ih =>
    obtain ⟨-, rfl⟩ | ⟨f, page, -, -, -, -, -, -, hfile⟩ := edit_cases hedit
    · exact ih
    · rw [hfile]
      exact ih

end Pool

end PagedStorage
