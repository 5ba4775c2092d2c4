import PagedStorage.Proofs.Pool.Settled

/-!
# Tidy pools

Edits are safe on tidy pages, so whoever wants to store records on a page of a file has to know that
the page is tidy. If all pages of a file are tidy, and all pages in the frames of a pool over it,
then they stay so whatever errands are run, `Pool.Errand.tidy`: an edit makes a tidy page of a tidy
one, and what else moves between the frames and the file is either there before or fresh. Nothing
depends on which calls fail.

## All pages

This concerns all pages, also those that nobody keeps an account of, such as the pages of a chain
whose last piece could not be stored. The next user of the file does not know them from others.

It concerns free frames, too. Such a frame still has the page that it held before, and to keep this
one tidy as well is less work than to tell at each step which frames are free.
-/

namespace PagedStorage

/-! ## Files -/

namespace PageFile

variable {f g : PageFile} {id : PageId} {page : Page}

/-- A whole file of tidy pages. -/
structure Tidy (f : PageFile) : Prop extends f.Whole where
  pages : ∀ id page, f.stored id = .ok page → page.Tidy

theorem Tidy.congr (hf : f.Tidy) (h : f.SameBytes g) : g.Tidy :=
  ⟨hf.toWhole.congr h, fun id page hpage ↦ hf.pages id page (by rwa [h.stored_eq] at hpage)⟩

theorem Tidy.writePage {r : Except Error Unit} (hf : f.Tidy) (hpage : page.Tidy)
    (h : f.writePage page = (r, g)) : g.Tidy := by
  refine ⟨hf.toWhole.writePage hpage.readable h, fun id stored hstored ↦ ?_⟩
  obtain ⟨-, hsame⟩ | ⟨rfl, rfl⟩ | ⟨-, hfresh, -⟩ := hf.toWhole.cases_of_writePage h id
  · exact hf.pages id stored (hsame.symm.trans hstored)
  · rw [stored_of_writePage h, pageOf_image_iff.2 ⟨hpage.readable, rfl⟩] at hstored
    exact Except.ok.inj hstored ▸ hpage
  · exact Except.ok.inj (hfresh.symm.trans hstored) ▸ Page.tidy_fresh id

theorem Tidy.deletePage {r : Except Error Unit} (hf : f.Tidy) (h : f.deletePage id = (r, g)) :
    g.Tidy := by
  obtain ⟨r', hwrite⟩ := writePage_of_deletePage h
  exact hf.writePage (Page.tidy_fresh id) hwrite

theorem Tidy.readPage {r : Except Error Page} (hf : f.Tidy) (h : f.readPage id = (r, g)) :
    g.Tidy ∧ ∀ page, r = .ok page → page.Tidy := by
  obtain ⟨hsame, -, rfl | ⟨cause, rfl⟩⟩ := readPage_cases h
  · exact ⟨hf.congr hsame, hf.pages id⟩
  · exact ⟨hf.congr hsame, nofun⟩

end PageFile

/-! ## Pools -/

namespace Pool

variable {ρ : Type} {p q t : Pool ρ} {f : Nat} {id : PageId} {touched : Set PageId}
  {held : List PageId} {v : Finset PageId}

/-- All pages are tidy, in the file and in the frames. What is left in a free frame is a page as
well. -/
structure Tidy (p : Pool ρ) : Prop where
  file : p.file.Tidy
  frames : ∀ f, (p.frame f).page.Tidy

theorem tidy_ofFile {file : PageFile} {s : ρ} {n : Nat} (hfile : file.Tidy) :
    (ofFile file s n).Tidy := by
  refine ⟨hfile, fun f ↦ ?_⟩
  rw [frame_ofFile]
  exact Page.tidy_fresh 0

theorem Tidy.congr (hp : p.Tidy) (hframes : q.frames = p.frames) (hfile : q.file.Tidy) :
    q.Tidy := by
  refine ⟨hfile, fun f ↦ ?_⟩
  rw [frame, hframes]
  exact hp.frames f

theorem Tidy.refill {fr : Frame} (hp : p.Tidy) (h : p.Refills f fr q) (hfr : fr.page.Tidy)
    (hfile : q.file.Tidy) : q.Tidy := by
  refine ⟨hfile, fun g ↦ ?_⟩
  by_cases hg : g = f
  · rw [hg, h.frame_self]
    exact hfr
  · rw [h.frame_eq g hg]
    exact hp.frames g

theorem Tidy.edit {e : Page.Edit} {r : Except Error Unit} (hp : p.Tidy)
    (h : p.edit id e = (r, q)) : q.Tidy := by
  obtain ⟨-, rfl⟩ | ⟨f, page, -, -, happly, -, hadjusts, -, hfile⟩ := edit_cases h
  · exact hp
  · exact hp.refill hadjusts.toRefills (Page.Edit.tidy_apply (hp.frames f) happly)
      (hfile ▸ hp.file)

variable [Replacer ρ]

theorem Tidy.takes (hp : p.Tidy) (h : p.Takes f t) : t.Tidy := by
  cases h with
  | free | clean => exact hp.congr rfl hp.file
  | written _ _ _ _ _ hwrite => exact hp.congr rfl (hp.file.writePage (hp.frames f) hwrite)

theorem Tidy.installs {dirty : Bool} {load : PageFile → Except Error Page × PageFile}
    {r : Except Error Handle} (hp : p.Tidy) (hsteady : p.Steady)
    (hload : ∀ {x y : PageFile} {r : Except Error Page}, x.Tidy → load x = (r, y) →
      y.Tidy ∧ ∀ page, r = .ok page → page.Tidy)
    (h : p.Installs id dirty load r q) : q.Tidy := by
  cases h with
  | exhausted | unusable => exact hp.congr rfl hp.file
  | @restored f _ _ _ _ _ _ hidle hpage hdirty hwrite =>
    refine ⟨hp.file.writePage (hp.frames f) hwrite, fun g ↦ ?_⟩
    rw [(restores_of_restoreVictim hsteady hidle hpage hdirty).frame_eq g]
    exact hp.frames g
  | @unloaded f t _ _ htakes herror =>
    have ht := hp.takes htakes
    exact ht.refill (refills_of_releaseFrame (taken_of_takes hsteady htakes).lt) (ht.frames f)
      (hload ht.file herror).1
  | @loaded f t _ page htakes hok =>
    have ht := hp.takes htakes
    obtain ⟨hfile, hpage⟩ := hload ht.file hok
    exact ht.refill (refills_of_settleFrame (taken_of_takes hsteady htakes).lt) (hpage page rfl)
      hfile

theorem Tidy.fetch {r : Except Error Handle} (hp : p.Tidy) (hsteady : p.Steady)
    (h : p.fetch id = (r, q)) : q.Tidy := by
  obtain ⟨-, -, rfl⟩ | ⟨f, -, -, -, hadjusts, -, hfile⟩ | ⟨-, hinstalls⟩ := fetch_cases hsteady h
  · exact hp
  · exact hp.refill hadjusts.toRefills (hp.frames f) (hfile ▸ hp.file)
  · exact hp.installs hsteady (fun hx hread ↦ hx.readPage hread) hinstalls

theorem Tidy.newPage {r : Except Error (PageId × Handle)} (hp : p.Tidy) (hsteady : p.Steady)
    (h : p.newPage = (r, q)) : q.Tidy := by
  obtain ⟨r', -, hinstalls⟩ := newPage_cases hsteady.inFlight_eq h
  have hallocated : ({ p with file := p.file.allocate.2 } : Pool ρ).Tidy :=
    hp.congr rfl (hp.file.congr ⟨rfl, rfl⟩)
  refine hallocated.installs hsteady.allocate (fun hx hfresh ↦ ?_) hinstalls
  cases hfresh
  refine ⟨hx, ?_⟩
  rintro page ⟨⟩
  exact Page.tidy_fresh _

theorem Tidy.unpin {dirty : Bool} {r : Except Error Unit} (hp : p.Tidy)
    (h : p.unpin id dirty = (r, q)) : q.Tidy := by
  obtain ⟨-, -, rfl⟩ | ⟨f, -, ⟨-, -, rfl⟩ | ⟨-, -, hadjusts, -, hfile⟩⟩ := unpin_cases h
  · exact hp
  · exact hp
  · exact hp.refill hadjusts.toRefills (hp.frames f) (hfile ▸ hp.file)

theorem Tidy.delete {r : Except Error Unit} (hp : p.Tidy) (hsteady : p.Steady)
    (h : p.delete id = (r, q)) : q.Tidy := by
  obtain ⟨-, -, -, -, rfl⟩ | ⟨t, file, hdrops, hdelete, rfl⟩ := delete_cases hsteady.inFlight_eq
    hsteady.not_loading h
  · exact hp
  · have ht : t.Tidy := by
      obtain rfl | ⟨f, s, -, -, htaken, -, hrefills, -, -, -, hfile⟩ := hdrops.taken hsteady
      · exact hp
      · refine ⟨hfile ▸ hp.file, fun g ↦ ?_⟩
        by_cases hg : g = f
        · rw [hg, hrefills.frame_self, htaken.frame_self]
          exact hp.frames f
        · rw [hrefills.frame_eq g hg, htaken.frame_eq g hg]
          exact hp.frames g
    exact ht.congr rfl (ht.file.deletePage hdelete)

theorem Tidy.flush {r : Except Error Unit} (hp : p.Tidy) (h : p.flush id = (r, q)) : q.Tidy := by
  obtain ⟨-, rfl⟩ | ⟨f, -, hwrite, hadjusts, -⟩ := flush_cases h
  · exact hp
  · exact hp.refill hadjusts.toRefills (hp.frames f) (hp.file.writePage (hp.frames f) hwrite)

theorem Tidy.flushAll {r : Except Error Unit} (hp : p.Tidy) (h : p.flushAll = (r, q)) :
    q.Tidy :=
  flushAll_induction (I := Tidy) (fun ht hflush ↦ ht.flush hflush)
    (fun ht hsync ↦ ht.congr rfl (ht.file.congr (PageFile.sync_cases hsync).1)) hp h

/-! ## Errands -/

theorem Errand.tidy (h : Errand touched p held v q) (hp : p.Sound) (htidy : p.Tidy) : q.Tidy := by
  induction h with
  | start => exact htidy
  | fetch h hfetch ih | fetchFails h hfetch ih => exact ih.fetch (h.sound hp).toSteady hfetch
  | newPage h _ hnew ih | newPageFails h _ hnew ih => exact ih.newPage (h.sound hp).toSteady hnew
  | edit _ _ _ _ hedit ih => exact ih.edit hedit
  | unpin _ _ _ hunpin ih => exact ih.unpin hunpin
  | delete h _ _ hdelete ih => exact ih.delete (h.sound hp).toSteady hdelete

end Pool

end PagedStorage
