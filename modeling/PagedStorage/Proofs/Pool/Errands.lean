import PagedStorage.Pool.Guard
import PagedStorage.Proofs.PageFile.Serving
import PagedStorage.Proofs.Pool.Users

/-!
# Errands

A part of the program that works on a pool pins some pages, changes pages among those that it has
pinned, unpins them again and may delete pages. `Pool.Errand` is such a piece of work, at any
point of it: `held` are the pins that it has, `untold` the pages that it changed and has still to
tell of, and it changes no page outside of `touched`. Its edits are safe, and it tells of a page
that it changed when it unpins it.

## Why errands

An operation of a heap makes several calls, returns early in several places, and shares the pool
with others. To follow each page through each operation would be the same proof over and over. So
much is enough to know what becomes of the pool, whoever else has pages pinned there: all contents
outside of `touched` are kept, every page has the users that it had and those of the errand, and a
pool that was faithful is faithful again when the errand is over. Whoever describes an operation on
a pool has to say that it is an errand, and what it does to the pages it touches.

Errands are closed under one after the other (`Errand.trans`), and touching more pages is allowed
(`Errand.mono`), so the errand of an operation is put together from those of its steps. The set
`touched` is bounded from above and not computed: a page that an early return has not come to may be
in it.

## Guards

What a program has in its hand is a guard, and `Pool.Grips` says that the page of the guard is in
the frame of its handle, pinned. It goes on to say so while other pages are edited, pinned and
unpinned, since a page in use does not move. To put another page into the frame is to edit the page
(`Grips.edit_eq`), so what a heap does with a guard is an edit of the pool.

## The file behind a pool

A pool makes on its file the calls that `PageFile.Served` lists, and gives out ids. What such calls
keep of a file an errand keeps (`Errand.file_induct`), so that the file stays readable, and that it
goes on to refuse nothing, take no proof for each operation.
-/

namespace PagedStorage.Pool

variable {ρ : Type} {p q r t : Pool ρ} {id i : PageId} {u v : Finset PageId}
  {touched : Set PageId} {held : List PageId}

/-! ## Pages under a guard -/

/-- The page of a guard is in the frame of its handle, pinned. -/
structure Grips (q : Pool ρ) (g : Guard) : Prop where
  find?_eq : q.table.find? g.page = some g.handle.frame
  copy_eq : (q.frame g.handle.frame).copy = g.handle.copy
  pinned : 0 < (q.frame g.handle.frame).pins

namespace Grips

variable {g : Guard}

theorem page_eq (h : q.Grips g) : q.page g.handle = (q.frame g.handle.frame).page := by
  rw [page, page?, if_pos h.copy_eq]
  rfl

theorem content_eq (h : q.Grips g) (hq : q.Steady) :
    q.content g.page = .ok (q.page g.handle) := by
  rw [content_of_find? hq h.find?_eq, h.page_eq]

theorem edit_eq (h : q.Grips g) (hq : q.Steady) {e : Page.Edit} {page : Page}
    (happly : e.apply (q.page g.handle) = .ok page) :
    q.edit g.page e = (.ok (), q.setPage g.handle page) := by
  have hresident := ((hq.frameOk _).of_find? _ h.find?_eq).1
  rw [h.page_eq] at happly
  rw [edit, residentFrame?_eq_some_iff.2 ⟨h.find?_eq, hresident⟩]
  simp only [if_neg (UInt32.pos_iff_ne_zero.1 h.pinned), happly]
  rw [h.copy_eq]

theorem of_frame_eq (h : q.Grips g) (hq : q.Steady) (hsound : t.Sound)
    (hframe : t.frame g.handle.frame = q.frame g.handle.frame) :
    t.Grips g ∧ t.page g.handle = q.page g.handle := by
  have hheld := (hq.frameOk _).of_find? _ h.find?_eq
  rw [← hframe] at hheld
  have ht : t.Grips g := ⟨hsound.find?_iff.2 hheld, by rw [hframe]; exact h.copy_eq,
    by rw [hframe]; exact h.pinned⟩
  exact ⟨ht, by rw [ht.page_eq, h.page_eq, hframe]⟩

theorem of_edit (h : q.Grips g) {e : Page.Edit}
    (hedit : q.edit g.page e = (.ok (), t)) :
    t.Grips g ∧ e.apply (q.page g.handle) = .ok (t.page g.handle) := by
  obtain ⟨herror, -⟩ | ⟨f, page, hfound, hpins, happly, -, hadjusts, -, -⟩ := edit_cases hedit
  · exact absurd rfl herror
  · have hf := (residentFrame?_eq_some_iff.1 hfound).1
    obtain rfl := Option.some.inj (hf.symm.trans h.find?_eq)
    have ht : t.Grips g := by
      refine ⟨?_, ?_, ?_⟩
      · rw [hadjusts.table_eq]
        exact h.find?_eq
      · rw [hadjusts.frame_self]
        exact h.copy_eq
      · rw [hadjusts.frame_self]
        exact h.pinned
    refine ⟨ht, ?_⟩
    rw [h.page_eq, ht.page_eq, hadjusts.frame_self]
    exact happly

theorem of_edit_ne (h : q.Grips g) (hq : q.Sound) (hne : g.page ≠ id) {e : Page.Edit}
    {res : Except Error Unit} (hedit : q.edit id e = (res, t)) :
    t.Grips g ∧ t.page g.handle = q.page g.handle := by
  have ht := sound_of_edit hq hedit
  obtain ⟨-, rfl⟩ | ⟨f, page, hfound, -, -, -, hadjusts, -, -⟩ := edit_cases hedit
  · exact ⟨h, rfl⟩
  · refine h.of_frame_eq hq.toSteady ht (hadjusts.frame_eq _ ?_)
    rintro rfl
    exact hne (hq.eq_of_find? h.find?_eq (residentFrame?_eq_some_iff.1 hfound).1)

variable [Replacer ρ]

theorem of_unpin_ne (h : q.Grips g) (hq : q.Sound) (hne : g.page ≠ id) {dirty : Bool}
    {res : Except Error Unit} (hunpin : q.unpin id dirty = (res, t)) :
    t.Grips g ∧ t.page g.handle = q.page g.handle := by
  have ht := sound_of_unpin hq hunpin
  obtain ⟨-, -, rfl⟩ | ⟨f, hfound, ⟨-, -, rfl⟩ | ⟨-, -, hadjusts, -⟩⟩ := unpin_cases hunpin
  · exact ⟨h, rfl⟩
  · exact ⟨h, rfl⟩
  · refine h.of_frame_eq hq.toSteady ht (hadjusts.frame_eq _ ?_)
    rintro rfl
    exact hne (hq.eq_of_find? h.find?_eq (residentFrame?_eq_some_iff.1 hfound).1)

theorem of_newPage (h : q.Grips g) (hq : q.Sound)
    (hnext : q.file.ids.next.toNat + 1 < UInt32.size) {res : Except Error (PageId × Handle)}
    (hnew : q.newPage = (res, t)) : t.Grips g ∧ t.page g.handle = q.page g.handle := by
  have ht := sound_of_newPage hq hnext hnew
  have hresident := ((hq.frameOk _).of_find? _ h.find?_eq).1
  obtain ⟨r', -, hinstalls⟩ := newPage_cases hq.inFlight_eq hnew
  exact h.of_frame_eq hq.toSteady ht
    ((hinstalls.steady hq.toSteady.allocate).frame_eq _ hresident h.pinned)

end Grips

section Guarding

variable [Replacer ρ] {g : Guard} {e : Error} {dirty : Bool}

theorem fetch_of_guard (h : p.guard id = (.ok g, q)) :
    p.fetch id = (.ok g.handle, q) ∧ g.page = id ∧ g.dirty = false := by
  rw [guard] at h
  split at h
  next hd t ht =>
    cases h
    exact ⟨ht, rfl, rfl⟩
  next => cases h

theorem fetch_of_guard_error (h : p.guard id = (.error e, q)) : p.fetch id = (.error e, q) := by
  rw [guard] at h
  split at h
  next => cases h
  next e t ht =>
    cases h
    exact ht

theorem newPage_of_guardNew (h : p.guardNew = (.ok g, q)) :
    p.newPage = (.ok (g.page, g.handle), q) ∧ g.dirty = true := by
  rw [guardNew] at h
  split at h
  next i hd t ht =>
    cases h
    exact ⟨ht, rfl⟩
  next => cases h

theorem newPage_of_guardNew_error (h : p.guardNew = (.error e, q)) :
    p.newPage = (.error e, q) := by
  rw [guardNew] at h
  split at h
  next => cases h
  next e t ht =>
    cases h
    exact ht

theorem grips_of_guard (hp : p.Sound) (h : p.guard id = (.ok g, q)) : q.Grips g := by
  obtain ⟨hfetch, hpage, -⟩ := fetch_of_guard h
  have hq := sound_of_fetch hp hfetch
  obtain ⟨-, ⟨⟩, -⟩ | ⟨f, hf, hlt, hok, hadjusts, -⟩ | ⟨hnew, hinstalls⟩ :=
    fetch_cases hp.toSteady hfetch
  · have hhandle := Except.ok.inj hok
    have hframe : q.frame g.handle.frame =
        { p.frame f with pins := (p.frame f).pins + 1 } := by
      rw [hhandle]
      exact hadjusts.frame_self
    refine ⟨?_, ?_, ?_⟩
    · rw [hpage, hadjusts.table_eq, hhandle]
      exact hf
    · rw [hframe, hhandle]
    · rw [hframe]
      exact pins_add_one_pos hlt
  · obtain ⟨x, y, page, -, hfound, hframe⟩ := hinstalls.loadedFrame hp.toSteady hq
    refine ⟨hpage ▸ hfound, ?_, ?_⟩
    · rw [hframe]
      rfl
    · rw [hframe]
      exact Nat.one_pos

/-- A new page is fresh, and has an id that no page had. -/
theorem grips_of_guardNew (hp : p.Sound) (hnext : p.file.ids.next.toNat + 1 < UInt32.size)
    (h : p.guardNew = (.ok g, q)) :
    q.Grips g ∧ g.page = p.file.ids.next ∧ ¬ p.Holds g.page ∧
      q.page g.handle = .fresh g.page := by
  obtain ⟨hnew, -⟩ := newPage_of_guardNew h
  have hq := sound_of_newPage hp hnext hnew
  obtain ⟨hpage, hnot, hhands⟩ := hands_of_newPage hp hnext hnew
  obtain ⟨r', hok, hinstalls⟩ := newPage_cases hp.inFlight_eq hnew
  cases r' with
  | error e => cases hok
  | ok hd =>
    obtain ⟨-, hhd⟩ := Prod.mk.inj (Except.ok.inj hok)
    obtain ⟨x, y, page, -, hfound, hframe⟩ := hinstalls.loadedFrame hp.toSteady.allocate hq
    refine ⟨⟨?_, ?_, ?_⟩, hpage, hnot, ?_⟩
    · rw [hpage, hhd]
      exact hfound
    · rw [hhd, hframe]
      rfl
    · rw [hhd, hframe]
      exact Nat.one_pos
    · rw [Pool.page, hhands.page?_eq]
      rfl

theorem content_of_release (hp : p.Steady) (g : Guard) (i : PageId) :
    (p.release g).content i = p.content i := content_of_unpin hp rfl

end Guarding

/-! ## What a pool does to its file -/

section Serving

variable [Replacer ρ] {f : Nat}

private theorem served_of_takes (hp : p.Faithful u) (h : p.Takes f t) : p.file.Served t.file := by
  cases h with
  | free | clean => exact .start
  | @written s w file _ _ hidle hpage _ hwrite =>
    have hindexed := hp.indexed f w (isIdle_iff.1 hidle).1 hpage
    refine PageFile.served_of_writePage (hp.backed f w hindexed.find?_eq).readable ?_ hwrite
    rw [hindexed.page_id]
    exact hindexed.covers

theorem Installs.served {dirty : Bool} {load : PageFile → Except Error Page × PageFile}
    {res : Except Error Handle} (hp : p.Faithful u)
    (hload : ∀ {x y : PageFile} {r : Except Error Page}, load x = (r, y) → x.Served y)
    (h : p.Installs id dirty load res q) : p.file.Served q.file := by
  cases h with
  | exhausted | unusable => exact .start
  | @restored f s w file e _ _ hidle hpage _ hwrite =>
    have hindexed := hp.indexed f w (isIdle_iff.1 hidle).1 hpage
    refine PageFile.served_of_writePage (hp.backed f w hindexed.find?_eq).readable ?_ hwrite
    rw [hindexed.page_id]
    exact hindexed.covers
  | unloaded htakes herror => exact (served_of_takes hp htakes).trans (hload herror)
  | loaded htakes hok => exact (served_of_takes hp htakes).trans (hload hok)

theorem served_of_fetch {res : Except Error Handle} (hp : p.Faithful u)
    (h : p.fetch id = (res, q)) : p.file.Served q.file := by
  obtain ⟨-, -, rfl⟩ | ⟨f, -, -, -, -, -, hfile⟩ | ⟨-, hinstalls⟩ := fetch_cases hp.toSteady h
  · exact .start
  · rw [hfile]
    exact .start
  · exact hinstalls.served hp fun hread ↦ PageFile.served_of_readPage hread

theorem served_of_newPage {res : Except Error (PageId × Handle)} (hp : p.Faithful u)
    (hnext : p.file.ids.next.toNat + 1 < UInt32.size) (h : p.newPage = (res, q)) :
    p.file.allocate.2.Served q.file := by
  obtain ⟨r', -, hinstalls⟩ := newPage_cases hp.inFlight_eq h
  have hbytes : p.file.SameBytes p.file.allocate.2 := ⟨rfl, rfl⟩
  have hstart : ({ p with file := p.file.allocate.2 } : Pool ρ).Faithful u :=
    (faithful_of_spares (hp.toSound.allocate hnext)
      fun i ↦ (hp.at i).congr rfl rfl (hbytes.stored_eq i)).1
  refine hinstalls.served hstart ?_
  rintro x y r ⟨⟩
  exact .start

theorem file_of_unpin {dirty : Bool} {res : Except Error Unit} (h : p.unpin id dirty = (res, q)) :
    q.file = p.file := by
  obtain ⟨-, -, rfl⟩ | ⟨f, -, ⟨-, -, rfl⟩ | ⟨-, -, -, -, hfile⟩⟩ := unpin_cases h
  · rfl
  · rfl
  · exact hfile

@[simp] theorem file_release (q : Pool ρ) (g : Guard) : (q.release g).file = q.file :=
  file_of_unpin rfl

@[simp] theorem table_release (q : Pool ρ) (g : Guard) : (q.release g).table = q.table := by
  obtain ⟨-, -, hsame⟩ | ⟨f, -, ⟨-, -, hsame⟩ | ⟨-, -, hadjusts, -⟩⟩ :=
    unpin_cases (rfl : q.unpin g.page g.dirty = _)
  · exact congrArg table hsame
  · exact congrArg table hsame
  · exact hadjusts.table_eq

omit [Replacer ρ] in
@[simp] theorem file_setPage (q : Pool ρ) (h : Handle) (page : Page) :
    (q.setPage h page).file = q.file := by
  rw [setPage]
  split
  · rfl
  · rfl

private theorem ids_of_takes (hp : p.Sound) (h : p.Takes f t) : t.file.ids = p.file.ids := by
  cases h with
  | free | clean => rfl
  | @written s w file _ _ hidle hpage _ hwrite =>
    have hindexed := hp.indexed f w (isIdle_iff.1 hidle).1 hpage
    refine PageFile.ids_of_writePage ?_ hwrite
    rw [hindexed.page_id]
    exact hindexed.covers

theorem Installs.ids_eq {dirty : Bool} {load : PageFile → Except Error Page × PageFile}
    {res : Except Error Handle} (hp : p.Sound) (hload : p.Loads id load)
    (h : p.Installs id dirty load res q) : q.file.ids = p.file.ids := by
  cases h with
  | exhausted | unusable => rfl
  | @restored f s w file e _ _ hidle hpage _ hwrite =>
    have hindexed := hp.indexed f w (isIdle_iff.1 hidle).1 hpage
    refine PageFile.ids_of_writePage ?_ hwrite
    rw [hindexed.page_id]
    exact hindexed.covers
  | unloaded htakes herror => exact (hload.same herror).2.1.trans (ids_of_takes hp htakes)
  | loaded htakes hok => exact (hload.same hok).2.1.trans (ids_of_takes hp htakes)

theorem ids_of_fetch {res : Except Error Handle} (hp : p.Sound) (h : p.fetch id = (res, q)) :
    q.file.ids = p.file.ids := by
  obtain ⟨-, -, rfl⟩ | ⟨f, -, -, -, -, -, hfile⟩ | ⟨-, hinstalls⟩ := fetch_cases hp.toSteady h
  · rfl
  · rw [hfile]
  · exact hinstalls.ids_eq hp (p.loads_readPage id)

/-- A new page takes one id, also if it is not made in the end. -/
theorem ids_of_newPage {res : Except Error (PageId × Handle)} (hp : p.Sound)
    (hnext : p.file.ids.next.toNat + 1 < UInt32.size) (h : p.newPage = (res, q)) :
    q.file.ids.next.toNat = p.file.ids.next.toNat + 1 := by
  obtain ⟨r', -, hinstalls⟩ := newPage_cases hp.inFlight_eq h
  have hids := hinstalls.ids_eq (hp.allocate hnext)
    (loads_fresh (.inl (Nat.le_of_eq (IdCounter.toNat_next_allocate hnext).symm)))
  rw [hids]
  exact IdCounter.toNat_next_allocate hnext

theorem served_of_flush {res : Except Error Unit} (hp : p.Faithful u)
    (h : p.flush id = (res, q)) : p.file.Served q.file := by
  obtain ⟨-, rfl⟩ | ⟨f, hfound, hwrite, -⟩ := flush_cases h
  · exact .start
  · have hf := (residentFrame?_eq_some_iff.1 hfound).1
    obtain ⟨hresident, hpage⟩ := hp.find?_iff.1 hf
    have hindexed := hp.indexed f id hresident hpage
    refine PageFile.served_of_writePage (hp.backed f id hf).readable ?_ hwrite
    rw [hindexed.page_id]
    exact hindexed.covers

theorem served_of_flushAll {res : Except Error Unit} (hp : p.Faithful u)
    (h : p.flushAll = (res, q)) : p.file.Served q.file := by
  refine (flushAll_induction (I := fun q ↦ q.Faithful u ∧ p.file.Served q.file) ?_ ?_
    ⟨hp, .start⟩ h).2
  · intro s t id res hs hflush
    refine ⟨(faithful_of_spares (sound_of_flush hs.1.toSound hflush)
      fun i ↦ spares_of_flush hs.1.toSound (hs.1.at i) hflush).1,
      hs.2.trans (served_of_flush hs.1 hflush)⟩
  · intro s file res hs hsync
    obtain ⟨hbytes, hids, -⟩ := PageFile.sync_cases hsync
    have hsound : ({ s with file := file } : Pool ρ).Sound :=
      hs.1.toSound.congr rfl rfl rfl rfl (fun n hn ↦ hids ▸ hn)
        (hbytes.ahead hids (PageFile.pageCount_of_sync hsync) hs.1.ahead)
    exact ⟨(faithful_of_spares hsound
      fun i ↦ (hs.1.at i).congr rfl rfl (hbytes.stored_eq i)).1,
      hs.2.trans (PageFile.served_of_sync hsync)⟩

theorem served_of_delete {res : Except Error Unit} (hp : p.Steady)
    (hcovers : p.file.ids.Covers (id.toNat + 1)) (h : p.delete id = (res, q)) :
    p.file.Served q.file := by
  obtain ⟨-, -, -, -, rfl⟩ | ⟨t, file, hdrops, hdelete, rfl⟩ := delete_cases hp.inFlight_eq
    hp.not_loading h
  · exact .start
  · rw [hdrops.file_eq] at hdelete
    exact PageFile.served_of_deletePage hcovers hdelete

/-! None of this wears out the medium, whatever the users do with the pages. -/

theorem lasts_of_takes (h : p.Takes f t) : p.file.Lasts t.file := by
  cases h with
  | free | clean => exact .refl _
  | written _ _ _ _ _ hwrite => exact PageFile.lasts_of_writePage hwrite

theorem Installs.lasts {dirty : Bool} {load : PageFile → Except Error Page × PageFile}
    {res : Except Error Handle}
    (hload : ∀ {x y : PageFile} {r : Except Error Page}, load x = (r, y) → x.Lasts y)
    (h : p.Installs id dirty load res q) : p.file.Lasts q.file := by
  cases h with
  | exhausted | unusable => exact .refl _
  | restored _ _ _ _ _ hwrite => exact PageFile.lasts_of_writePage hwrite
  | unloaded htakes herror => exact (lasts_of_takes htakes).trans (hload herror)
  | loaded htakes hok => exact (lasts_of_takes htakes).trans (hload hok)

theorem lasts_of_fetch {res : Except Error Handle} (hp : p.Steady) (h : p.fetch id = (res, q)) :
    p.file.Lasts q.file := by
  obtain ⟨-, -, rfl⟩ | ⟨f, -, -, -, -, -, hfile⟩ | ⟨-, hinstalls⟩ := fetch_cases hp h
  · exact .refl _
  · rw [hfile]
    exact .refl _
  · exact hinstalls.lasts fun hread ↦ PageFile.lasts_of_readPage hread

theorem lasts_of_newPage {res : Except Error (PageId × Handle)} (hp : p.Steady)
    (h : p.newPage = (res, q)) : p.file.Lasts q.file := by
  obtain ⟨r', -, hinstalls⟩ := newPage_cases hp.inFlight_eq h
  have hrest : p.file.allocate.2.Lasts q.file := hinstalls.lasts (by rintro x y r ⟨⟩; exact .refl _)
  exact ⟨hrest.medium_eq, hrest.willing⟩

theorem lasts_of_delete {res : Except Error Unit} (hp : p.Steady) (h : p.delete id = (res, q)) :
    p.file.Lasts q.file := by
  obtain ⟨-, -, -, -, rfl⟩ | ⟨t, file, hdrops, hdelete, rfl⟩ := delete_cases hp.inFlight_eq
    hp.not_loading h
  · exact .refl _
  · rw [hdrops.file_eq] at hdelete
    exact PageFile.lasts_of_deletePage hdelete

end Serving

/-! ## Errands -/

theorem count_pin (held : List PageId) (id i : PageId) :
    (id :: held).count i = held.count i + if i = id then 1 else 0 := by
  by_cases hi : i = id
  · rw [hi, List.count_cons_self, if_pos rfl]
  · rw [List.count_cons_of_ne (Ne.symm hi), if_neg hi, Nat.add_zero]

variable [Replacer ρ]

/-- A piece of work that has brought the pool from `p` to another one. -/
inductive Errand (touched : Set PageId) (p : Pool ρ) :
    List PageId → Finset PageId → Pool ρ → Prop
  | start : Errand touched p [] ∅ p
  | fetch {held : List PageId} {v : Finset PageId} {r q : Pool ρ} {id : PageId} {hd : Handle} :
      Errand touched p held v r → r.fetch id = (.ok hd, q) → Errand touched p (id :: held) v q
  | fetchFails {held : List PageId} {v : Finset PageId} {r q : Pool ρ} {id : PageId} {e : Error} :
      Errand touched p held v r → r.fetch id = (.error e, q) → Errand touched p held v q
  | newPage {held : List PageId} {v : Finset PageId} {r q : Pool ρ} {id : PageId} {hd : Handle} :
      Errand touched p held v r → r.file.ids.next.toNat + 1 < UInt32.size →
      r.newPage = (.ok (id, hd), q) → Errand touched p (id :: held) v q
  | newPageFails {held : List PageId} {v : Finset PageId} {r q : Pool ρ} {e : Error} :
      Errand touched p held v r → r.file.ids.next.toNat + 1 < UInt32.size →
      r.newPage = (.error e, q) → Errand touched p held v q
  | edit {held : List PageId} {v : Finset PageId} {r q : Pool ρ} {id : PageId} {e : Page.Edit} :
      Errand touched p held v r → id ∈ held → id ∈ touched →
      (∀ page, r.content id = .ok page → e.Safe page) → r.edit id e = (.ok (), q) →
      Errand touched p held (insert id v) q
  | unpin {held : List PageId} {v : Finset PageId} {r q : Pool ρ} {id : PageId} {dirty : Bool}
      {res : Except Error Unit} :
      Errand touched p held v r → id ∈ held → (id ∈ v → dirty = true) →
      r.unpin id dirty = (res, q) → Errand touched p (held.erase id) (v.erase id) q
  | delete {held : List PageId} {v : Finset PageId} {r q : Pool ρ} {id : PageId}
      {res : Except Error Unit} :
      Errand touched p held v r → id ∈ touched → r.file.ids.Covers (id.toNat + 1) →
      r.delete id = (res, q) → Errand touched p held v q

namespace Errand

theorem mono {touched' : Set PageId} (hsub : touched ⊆ touched')
    (h : Errand touched p held v q) : Errand touched' p held v q := by
  induction h with
  | start => exact .start
  | fetch _ hfetch ih => exact .fetch ih hfetch
  | fetchFails _ hfetch ih => exact .fetchFails ih hfetch
  | newPage _ hnext hnew ih => exact .newPage ih hnext hnew
  | newPageFails _ hnext hnew ih => exact .newPageFails ih hnext hnew
  | edit _ hheld hid hsafe hedit ih => exact .edit ih hheld (hsub hid) hsafe hedit
  | unpin _ hheld htold hunpin ih => exact .unpin ih hheld htold hunpin
  | delete _ hid hcovers hdelete ih => exact .delete ih (hsub hid) hcovers hdelete

/-- One errand after another is an errand. -/
theorem trans (h : Errand touched p [] ∅ r) (h' : Errand touched r held v q) :
    Errand touched p held v q := by
  induction h' with
  | start => exact h
  | fetch _ hfetch ih => exact .fetch ih hfetch
  | fetchFails _ hfetch ih => exact .fetchFails ih hfetch
  | newPage _ hnext hnew ih => exact .newPage ih hnext hnew
  | newPageFails _ hnext hnew ih => exact .newPageFails ih hnext hnew
  | edit _ hheld hid hsafe hedit ih => exact .edit ih hheld hid hsafe hedit
  | unpin _ hheld htold hunpin ih => exact .unpin ih hheld htold hunpin
  | delete _ hid hcovers hdelete ih => exact .delete ih hid hcovers hdelete

/-- It consists of calls that use no id twice. -/
theorem reached (h : Errand touched p held v q) : Reached Permits p q := by
  induction h with
  | start => exact .start
  | @fetch _ _ _ _ id _ _ hfetch ih | @fetchFails _ _ _ _ id _ _ hfetch ih =>
    exact ih.of_call (c := .fetch id) trivial (congrArg Prod.snd hfetch)
  | newPage _ hnext hnew ih | newPageFails _ hnext hnew ih =>
    exact ih.of_call (c := .newPage) hnext (congrArg Prod.snd hnew)
  | @edit _ _ _ _ id e _ _ _ _ hedit ih =>
    have hq := ih.edit id e
    rwa [hedit] at hq
  | @unpin _ _ _ _ id dirty _ _ _ _ hunpin ih =>
    exact ih.of_call (c := .unpin id dirty) trivial (congrArg Prod.snd hunpin)
  | @delete _ _ _ _ id _ _ _ hcovers hdelete ih =>
    exact ih.of_call (c := .delete id) (.inl hcovers) (congrArg Prod.snd hdelete)

theorem sound (h : Errand touched p held v q) (hp : p.Sound) : q.Sound :=
  h.reached.sound hp

theorem capacity_eq (h : Errand touched p held v q) (hp : p.Sound) : q.capacity = p.capacity :=
  (h.reached.steady hp.toSteady).2

/-- It adds its own pins to those that others have. -/
theorem users_eq (h : Errand touched p held v q) (hp : p.Sound) (i : PageId) :
    q.users i = p.users i + held.count i := by
  induction h with
  | start => rfl
  | fetch h hfetch ih =>
    rw [users_of_fetch (h.sound hp) hfetch, ih, count_pin, Nat.add_assoc]
    exact congrArg _ (congrArg _ (if_congr (and_iff_left rfl) rfl rfl))
  | fetchFails h hfetch ih =>
    rw [users_of_fetch (h.sound hp) hfetch, ih, if_neg (by rintro ⟨-, ⟨⟩⟩), Nat.add_zero]
  | @newPage held v r q id hd h hnext hnew ih =>
    obtain ⟨rfl, -⟩ := hands_of_newPage (h.sound hp) hnext hnew
    rw [users_of_newPage (h.sound hp) hnext hnew, ih, count_pin, Nat.add_assoc]
    exact congrArg _ (congrArg _ (if_congr (and_iff_left rfl) rfl rfl))
  | newPageFails h hnext hnew ih =>
    rw [users_of_newPage (h.sound hp) hnext hnew, ih, if_neg (by rintro ⟨-, ⟨⟩⟩), Nat.add_zero]
  | edit h _ _ _ hedit ih => rw [users_of_edit (h.sound hp).toSteady hedit, ih]
  | @unpin held v r q id dirty res h hheld _ hunpin ih =>
    have hpos := List.count_pos_iff.2 hheld
    rw [users_of_unpin (h.sound hp).toSteady hunpin, ih, List.count_erase]
    by_cases hi : i = id
    · subst hi
      rw [if_pos rfl, if_pos (beq_self_eq_true i)]
      omega
    · rw [if_neg hi, if_neg (by simpa using Ne.symm hi)]
      omega
  | delete h _ _ hdelete ih => rw [users_of_delete (h.sound hp) hdelete, ih]

theorem mem_of_untold (h : Errand touched p held v q) (hi : i ∈ v) : i ∈ held ∧ i ∈ touched := by
  induction h with
  | start => exact absurd hi (Finset.notMem_empty i)
  | fetch _ _ ih | newPage _ _ _ ih =>
    exact ⟨List.mem_cons_of_mem _ (ih hi).1, (ih hi).2⟩
  | fetchFails _ _ ih | newPageFails _ _ _ ih | delete _ _ _ _ ih => exact ih hi
  | edit _ hheld hid _ _ ih =>
    rcases Finset.mem_insert.1 hi with rfl | hi
    · exact ⟨hheld, hid⟩
    · exact ih hi
  | unpin _ _ _ _ ih =>
    obtain ⟨hne, hi⟩ := Finset.mem_erase.1 hi
    exact ⟨(List.mem_erase_of_ne hne).2 (ih hi).1, (ih hi).2⟩

/-- Contents that it does not touch are kept, and every page stays faithful. -/
theorem keeps (h : Errand touched p held v q) (hp : p.Sound) (hi : p.FaithfulAt u i) :
    q.FaithfulAt (u ∪ v) i ∧ (i ∉ touched → p.Holds i → q.content i = p.content i) := by
  -- One call that spares the page carries both facts on; the induction is over the errand's calls.
  have hstep {r t : Pool ρ} {v v' : Finset PageId} (hr : r.FaithfulAt (u ∪ v) i ∧
      (i ∉ touched → p.Holds i → r.content i = p.content i))
      (hs : r.Spares t (u ∪ v') i) : t.FaithfulAt (u ∪ v') i ∧
        (i ∉ touched → p.Holds i → t.content i = p.content i) := by
    refine ⟨hs.toFaithfulAt, fun hnot hid ↦ ?_⟩
    have hsame := hr.2 hnot hid
    rw [← hsame]
    exact hs.content_eq (hid.congr hsame)
  induction h with
  | start => exact ⟨by rwa [Finset.union_empty], fun _ _ ↦ rfl⟩
  | fetch h hfetch ih | fetchFails h hfetch ih =>
    exact hstep ih (spares_of_fetch (h.sound hp) ih.1 hfetch)
  | newPage h hnext hnew ih | newPageFails h hnext hnew ih =>
    exact hstep ih (spares_of_newPage (h.sound hp) hnext ih.1 hnew)
  | @edit held v r q id e h _ hid hsafe hedit ih =>
    by_cases heq : i = id
    · subst heq
      rw [Finset.union_insert]
      exact ⟨faithfulAt_of_edit (h.sound hp) ih.1 hsafe hedit, fun hnot ↦ absurd hid hnot⟩
    · have hs := spares_of_edit (h.sound hp) ih.1 heq hedit
      have hfaithful : q.FaithfulAt (u ∪ insert id v) i := by
        refine hs.toFaithfulAt.congr_set ?_
        rw [Finset.union_insert, Finset.mem_insert, or_iff_right heq]
      exact hstep ih ⟨hfaithful, hs.content_eq⟩
  | @unpin held v r q id dirty res h hheld htold hunpin ih =>
    refine hstep ih (spares_of_unpin (h.sound hp) ih.1 (fun hne ↦ ?_) (fun hmem ↦ ?_)
      (fun heq hmem hnot ↦ ?_) (fun heq hmem ↦ pinCount?_ne_some_one ?_) hunpin)
    · rw [Finset.mem_union, Finset.mem_union, Finset.mem_erase, and_iff_right hne]
    · rw [Finset.mem_union] at hmem ⊢
      exact hmem.imp_right Finset.mem_of_mem_erase
    · rw [Finset.mem_union, not_or] at hnot
      exact htold (heq ▸ (Finset.mem_union.1 hmem).resolve_left hnot.1)
    · -- Another user has changed the page and not told, so the errand is not its last user.
      subst heq
      have hu : i ∈ u := (Finset.mem_union.1 hmem).resolve_right (Finset.notMem_erase i v)
      have hpos := (users_pos_iff hp.toSteady).2 (hi.inUse hu)
      have hmine := List.count_pos_iff.2 hheld
      rw [h.users_eq hp]
      omega
  | @delete held v r q id res h hid _ hdelete ih =>
    by_cases heq : i = id
    · subst heq
      exact ⟨faithfulAt_of_delete (h.sound hp) ih.1 hdelete, fun hnot ↦ absurd hid hnot⟩
    · exact hstep ih (spares_of_delete (h.sound hp) ih.1 heq hdelete)

theorem faithful (h : Errand touched p held v q) (hp : p.Faithful u) : q.Faithful (u ∪ v) :=
  faithful_iff.2 ⟨h.sound hp.toSound, fun i ↦ (h.keeps hp.toSound (hp.at i)).1⟩

/-- An errand that is over leaves the pool as faithful as it was. -/
theorem faithful_over (h : Errand touched p held ∅ q) (hp : p.Faithful u) : q.Faithful u :=
  Finset.union_empty u ▸ h.faithful hp

theorem faithfulAt_over (h : Errand touched p held ∅ q) (hp : p.Sound) (hi : p.FaithfulAt u i) :
    q.FaithfulAt u i :=
  Finset.union_empty u ▸ (h.keeps hp hi).1

theorem spares (h : Errand touched p held ∅ q) (hp : p.Sound) (hi : p.FaithfulAt u i)
    (hnot : i ∉ touched) : p.Spares q u i :=
  ⟨h.faithfulAt_over hp hi, (h.keeps hp hi).2 hnot⟩

/-- What a file keeps that serves a pool and gives out ids, an errand keeps. -/
theorem file_induct {P : PageFile → Prop} (h : Errand touched p held v q) (hp : p.Faithful u)
    (hserved : ∀ {f g : PageFile}, f.Served g → P f → P g)
    (hallocate : ∀ {f : PageFile}, f.ids.next.toNat + 1 < UInt32.size → P f → P f.allocate.2)
    (hstart : P p.file) : P q.file := by
  induction h with
  | start => exact hstart
  | fetch h hfetch ih | fetchFails h hfetch ih =>
    exact hserved (served_of_fetch (h.faithful hp) hfetch) ih
  | newPage h hnext hnew ih | newPageFails h hnext hnew ih =>
    exact hserved (served_of_newPage (h.faithful hp) hnext hnew) (hallocate hnext ih)
  | edit h _ _ _ hedit ih =>
    obtain ⟨-, rfl⟩ | ⟨f, page, -, -, -, -, -, -, hfile⟩ := edit_cases hedit
    · exact ih
    · rw [hfile]
      exact ih
  | unpin h _ _ hunpin ih =>
    rw [file_of_unpin hunpin]
    exact ih
  | delete h _ hcovers hdelete ih =>
    exact hserved (served_of_delete (h.sound hp.toSound).toSteady hcovers hdelete) ih

theorem lasts (h : Errand touched p held v q) (hp : p.Sound) : p.file.Lasts q.file := by
  induction h with
  | start => exact .refl _
  | fetch h hfetch ih | fetchFails h hfetch ih =>
    exact ih.trans (lasts_of_fetch (h.sound hp).toSteady hfetch)
  | newPage h _ hnew ih | newPageFails h _ hnew ih =>
    exact ih.trans (lasts_of_newPage (h.sound hp).toSteady hnew)
  | edit h _ _ _ hedit ih =>
    obtain ⟨-, rfl⟩ | ⟨f, page, -, -, -, -, -, -, hfile⟩ := edit_cases hedit
    · exact ih
    · rw [hfile]
      exact ih
  | unpin h _ _ hunpin ih =>
    rw [file_of_unpin hunpin]
    exact ih
  | delete h _ _ hdelete ih => exact ih.trans (lasts_of_delete (h.sound hp).toSteady hdelete)

theorem willing (h : Errand touched p held v q) (hp : p.Faithful u)
    (hwilling : p.file.store.Willing) : q.file.store.Willing :=
  (h.lasts hp.toSound).willing hwilling

theorem medium_eq (h : Errand touched p held v q) (hp : p.Faithful u) :
    q.file.store.medium = p.file.store.medium :=
  (h.lasts hp.toSound).medium_eq

theorem whole (h : Errand touched p held v q) (hp : p.Faithful u) (hwhole : p.file.Whole) :
    q.file.Whole :=
  h.file_induct (P := PageFile.Whole) hp (fun hserved ↦ hserved.whole)
    (fun _ hf ↦ hf.congr ⟨rfl, rfl⟩) hwhole

theorem inStep [LawfulReplacer ρ] (h : Errand touched p held v q) (hp : p.Sound)
    (hs : p.InStep) : q.InStep := h.reached.inStep hp.toSteady hs

theorem card_busyFrames_le (h : Errand touched p held v q) (hp : p.Sound) :
    q.busyFrames.card ≤ p.busyFrames.card + held.length := by
  refine Nat.le_trans (card_busyFrames_le_add (h.sound hp) hp held.toFinset fun i hi ↦ ?_)
    (Nat.add_le_add_left held.toFinset_card_le _)
  rw [h.users_eq hp] at hi
  rcases Nat.eq_zero_or_pos (p.users i) with hnone | hused
  · rw [hnone, Nat.zero_add] at hi
    exact .inr (List.mem_toFinset.2 (List.count_pos_iff.1 hi))
  · exact .inl hused

/-- After an errand there are as many frames to be had as before. -/
theorem crowded_iff (h : Errand touched p [] v q) (hp : p.Sound) : q.Crowded ↔ p.Crowded :=
  crowded_congr hp (h.sound hp) (h.capacity_eq hp) fun i ↦ h.users_eq hp i

/-! ## Errands with guards -/

variable {g : Guard} {page : Page}

theorem guard (h : Errand touched p held v r) (hguard : r.guard id = (.ok g, q)) :
    Errand touched p (g.page :: held) v q := by
  obtain ⟨hfetch, rfl, -⟩ := fetch_of_guard hguard
  exact .fetch h hfetch

theorem guardNew (h : Errand touched p held v r) (hnext : r.file.ids.next.toNat + 1 < UInt32.size)
    (hguard : r.guardNew = (.ok g, q)) : Errand touched p (g.page :: held) v q :=
  .newPage h hnext (newPage_of_guardNew hguard).1

theorem change (h : Errand touched p held v q) (hp : p.Sound) (hgrips : q.Grips g)
    (hheld : g.page ∈ held) (hid : g.page ∈ touched) {e : Page.Edit}
    (hsafe : e.Safe (q.page g.handle)) (happly : e.apply (q.page g.handle) = .ok page) :
    Errand touched p held (insert g.page v) (q.setPage g.handle page) ∧
      (q.setPage g.handle page).Grips g ∧ (q.setPage g.handle page).page g.handle = page := by
  have hq := (h.sound hp).toSteady
  have hedit := hgrips.edit_eq hq happly
  obtain ⟨hgrips', happly'⟩ := hgrips.of_edit hedit
  refine ⟨.edit h hheld hid (fun old hold ↦ ?_) hedit, hgrips',
    Except.ok.inj (happly'.symm.trans happly)⟩
  rw [hgrips.content_eq hq] at hold
  rwa [← Except.ok.inj hold]

theorem release (h : Errand touched p held v q) (hheld : g.page ∈ held)
    (htold : g.page ∈ v → g.dirty = true) :
    Errand touched p (held.erase g.page) (v.erase g.page) (q.release g) :=
  .unpin h hheld htold rfl

theorem release_last (h : Errand touched p [g.page] v q) (htold : g.page ∈ v → g.dirty = true) :
    Errand touched p [] ∅ (q.release g) := by
  have hover := h.release (List.mem_singleton_self _) htold
  have hnone : v.erase g.page = ∅ := Finset.eq_empty_of_forall_notMem fun i hi ↦ by
    obtain ⟨hne, hmem⟩ := Finset.mem_erase.1 hi
    exact hne (List.mem_singleton.1 (h.mem_of_untold hmem).1)
  rwa [List.erase_cons_head, hnone] at hover

end Errand

end PagedStorage.Pool
