import PagedStorage.Proofs.Except
import PagedStorage.Store.Directory

/-!
# Opening a path again

Where a path leads depends on the directories that are there and on nothing else: a name is looked
for in a directory, and a file on the way is a failure. So a path that was opened leads to the same
place as long as no directory is lost, `Directory.Keeps`, whatever is written into files and
whatever else is made. This is so for a path that is made when it is opened, too, with the
directories on the way: once they are there, making them again changes nothing.

## Why this is needed

A run of the program opens a path, works and puts the file back. The next run opens the path again,
by its name, and it is to find what the one before has left. That it does is `openFile_again`: the
file that is found is the one that was opened, with the contents that were put there since.

A file has no part in where another path leads, so putting one back keeps every directory. The limit
of the medium belongs to the directory and is kept along.
-/

namespace PagedStorage.Directory

variable {d d' e : Directory} {path : Path} {place place' : List String} {name text : String}
  {entry : DirectoryEntry} {making : Bool}

/-! ## Entries -/

@[simp] theorem find?_put (h : d.find? place ≠ some .directory) :
    (d.put place entry).find? place' = if place' = place then some entry else d.find? place' := by
  rw [put, find?, List.lookup_cons, lookup_filter_ne]
  by_cases heq : place' = place
  · subst heq
    rw [find?] at h
    split at h
    next => exact absurd rfl h
    next hform => rw [if_neg hform, beq_self_eq_true, if_pos rfl, if_pos rfl]
  · rw [if_neg heq, if_neg heq, beq_eq_false_iff_ne.2 heq]
    rfl

/-- Every directory that is there stays, and files have the limit that they had. -/
structure Keeps (d e : Directory) : Prop where
  directory : ∀ place, d.find? place = some .directory → e.find? place = some .directory
  limit_eq : e.limit? = d.limit?

theorem Keeps.refl (d : Directory) : d.Keeps d := ⟨fun _ h ↦ h, rfl⟩

theorem Keeps.trans (h : d.Keeps d') (h' : d'.Keeps e) : d.Keeps e :=
  ⟨fun place hplace ↦ h'.directory place (h.directory place hplace),
    h'.limit_eq.trans h.limit_eq⟩

theorem keeps_put (h : d.find? place ≠ some .directory) : d.Keeps (d.put place entry) := by
  refine ⟨fun place' hplace ↦ ?_, rfl⟩
  rw [find?_put h, if_neg]
  · exact hplace
  · rintro rfl
    exact h hplace

/-! ## Following a path -/

theorem Keeps.step (h : d.Keeps e) (hstep : d.step place name = .ok place') :
    e.step place name = .ok place' := by
  rw [Directory.step] at hstep ⊢
  split at hstep
  next => cases hstep
  next => cases hstep
  next hfound =>
    rw [h.directory place hfound]
    exact hstep

theorem Keeps.follow (h : d.Keeps e) (hfollow : d.follow place path = .ok place') :
    e.follow place path = .ok place' := by
  induction path generalizing place with
  | nil => exact hfollow
  | cons name rest ih =>
    obtain ⟨between, hstep, hrest⟩ := bind_eq_ok_iff.1 hfollow
    exact bind_eq_ok_iff.2 ⟨between, h.step hstep, ih hrest⟩

theorem Keeps.resolve (h : d.Keeps e) (hresolve : d.resolve path = .ok place) :
    e.resolve path = .ok place := h.follow hresolve

theorem Keeps.locate (h : d.Keeps e) (hlocate : d.locate path making = .ok place) :
    e.locate path making = .ok place := by
  obtain ⟨⟨⟩, hcheck, hrest⟩ := bind_eq_ok_iff.1 hlocate
  refine bind_eq_ok_iff.2 ⟨(), hcheck, ?_⟩
  split at hrest
  next outer houter =>
    obtain ⟨_, -, hfails⟩ := bind_eq_ok_iff.1 hrest
    cases hfails
  next houter =>
    exact h.resolve hrest

/-! ## Making directories -/

private theorem makeDirectory_again (h : d.makeDirectory path = .ok d') :
    d.Keeps d' ∧ ∀ e, d'.Keeps e → e.makeDirectory path = .ok e := by
  obtain ⟨⟨⟩, hcheck, hrest⟩ := bind_eq_ok_iff.1 h
  obtain ⟨place, hresolve, hrest⟩ := bind_eq_ok_iff.1 hrest
  have hmade : d.Keeps d' ∧ d'.find? place = some .directory := by
    split at hrest
    next hnone =>
      cases hrest
      have hne : d.find? place ≠ some .directory := by
        rw [hnone]
        nofun
      exact ⟨keeps_put hne, by rw [find?_put hne, if_pos rfl]⟩
    next hfound =>
      cases hrest
      exact ⟨.refl d, hfound⟩
    next => cases hrest
  refine ⟨hmade.1, fun e he ↦ bind_eq_ok_iff.2 ⟨(), hcheck, bind_eq_ok_iff.2
    ⟨place, (hmade.1.trans he).resolve hresolve, ?_⟩⟩⟩
  rw [he.directory place hmade.2]

private theorem makeDirectories_again {names : List String}
    (h : d.makeDirectories names = (.ok (), d')) :
    d.Keeps d' ∧ ∀ e, d'.Keeps e → e.makeDirectories names = (.ok (), e) := by
  induction names generalizing d d' with
  | nil =>
    cases h
    exact ⟨.refl d, fun _ _ ↦ rfl⟩
  | cons name outer ih =>
    rw [makeDirectories] at h
    split at h
    next hstays =>
      obtain ⟨hkeeps, hagain⟩ := ih h
      refine ⟨hkeeps, fun e he ↦ ?_⟩
      rw [makeDirectories, if_pos hstays]
      exact hagain e he
    next hstays =>
      -- In the end the directory was made, at once or after those it lies in.
      have hmade : ∃ t, d.Keeps t ∧ t.makeDirectory (name :: outer).reverse = .ok d' := by
        simp only at h
        split at h
        next hmake =>
          cases h
          exact ⟨d, .refl d, hmake⟩
        next =>
          split at h
          next => cases h
          next t houter =>
            split at h
            next hmake =>
              cases h
              exact ⟨t, (ih houter).1, hmake⟩
            next => cases h
        next => cases h
      obtain ⟨t, hkeeps, hmake⟩ := hmade
      obtain ⟨hkeeps', hagain⟩ := makeDirectory_again hmake
      refine ⟨hkeeps.trans hkeeps', fun e he ↦ ?_⟩
      rw [makeDirectories, if_neg hstays]
      simp only [hagain e he]

/-! ## Files -/

/-- Opening a path leads to a file, or to nothing where one is then made. -/
theorem openAt_cases {c : Contents} (h : d.openAt path .openOrCreate = (.ok (place, c), d')) :
    d.locate path true = .ok place ∧ d.find? place ≠ some .directory ∧
      (d' = d ∨ d' = d.put place (.file {})) := by
  rw [openAt] at h
  split at h
  next => cases h
  next located hlocate =>
    split at h
    next => cases h
    next contents hfound =>
      cases h
      exact ⟨hlocate, by rw [hfound]; nofun, .inl rfl⟩
    next hnone =>
      cases h
      exact ⟨hlocate, by rw [hnone]; nofun, .inr rfl⟩

/-- A file that was opened, or made, is found again with what was written into it since. -/
theorem openFile_again {c : Contents} (h : d.openFile text .openOrCreate = (.ok (place, c), d'))
    (c' : Contents) : d.Keeps (d'.put place (.file c')) ∧
      (d'.put place (.file c')).openFile text .openOrCreate =
        (.ok (place, c'), d'.put place (.file c')) := by
  rw [openFile, if_pos rfl] at h
  split at h
  next => cases h
  next t hmake =>
    obtain ⟨hmade, hagain⟩ := makeDirectories_again hmake
    obtain ⟨hlocate, hfree, hd'⟩ := openAt_cases h
    have hkept : t.Keeps d' ∧ d'.find? place ≠ some .directory := by
      obtain rfl | rfl := hd'
      · exact ⟨.refl _, hfree⟩
      · refine ⟨keeps_put hfree, ?_⟩
        rw [find?_put hfree, if_pos rfl]
        nofun
    have hkeeps : t.Keeps (d'.put place (.file c')) := hkept.1.trans (keeps_put hkept.2)
    have hlocate' := hkeeps.locate hlocate
    refine ⟨hmade.trans hkeeps, ?_⟩
    rw [openFile, if_pos rfl]
    simp only [hagain _ hkeeps]
    rw [openAt]
    have hmaking : decide (OpenMode.openOrCreate ≠ .existing) = true := rfl
    simp only [hmaking, hlocate', find?_put hkept.2, if_true, reduceCtorEq, if_false]

end PagedStorage.Directory
