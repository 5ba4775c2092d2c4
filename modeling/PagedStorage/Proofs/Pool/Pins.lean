import PagedStorage.Proofs.Pool.Errands

/-!
# Pins that are given back

A user who has unpinned whatever it pinned leaves the pool as crowded as it was: the pins of the
others are counted per page, `Pool.users`, and the frames that can be had are determined by them.
So what comes next finds as many frames as there were before, and a row of users that take a page
at a time needs one frame, however long the row is. While pages are pinned there are that many
frames less, and not fewer (`Errand.hasFrames`).

## Without tidy pages

An errand asks that edits are safe. Pins and frames have nothing to do with what is on the pages, so
`Pool.KeepsPins` is the part of an errand that is left when edits may be any: the pool was used, and
each page is pinned as often as before. This is what a heap keeps on pages that it did not make, and
on damaged ones.
-/

namespace PagedStorage.Pool

variable {ρ : Type} {p q t : Pool ρ} {g : Guard} {id i : PageId} {k : Nat} {held : List PageId}
  {v : Finset PageId} {touched : Set PageId}

/-- At least `k` frames are free or hold a page that nobody uses. -/
def HasFrames (p : Pool ρ) (k : Nat) : Prop := p.busyFrames.card + k ≤ p.capacity

theorem HasFrames.mono {l : Nat} (h : p.HasFrames l) (hk : k ≤ l) : p.HasFrames k :=
  Nat.le_trans (Nat.add_le_add_left hk _) h

theorem hasFrames_one_iff : p.HasFrames 1 ↔ ¬ p.Crowded := by
  rw [HasFrames, crowded_iff, Nat.not_le]
  exact Nat.succ_le_iff

variable [Replacer ρ]

/-- From `p` to `q` the pool was used, and each page is pinned as often as before. A page that is
not in a frame counts as one without pins. -/
structure KeepsPins (p q : Pool ρ) : Prop where
  reached : Reached Permits p q
  users_eq : ∀ i, q.users i = p.users i

namespace KeepsPins

theorem refl (p : Pool ρ) : p.KeepsPins p := ⟨.start, fun _ ↦ rfl⟩

theorem trans (h : p.KeepsPins q) (h' : q.KeepsPins t) : p.KeepsPins t :=
  ⟨h.reached.trans h'.reached, fun i ↦ (h'.users_eq i).trans (h.users_eq i)⟩

theorem sound (h : p.KeepsPins q) (hp : p.Sound) : q.Sound := h.reached.sound hp

theorem inStep [LawfulReplacer ρ] (h : p.KeepsPins q) (hp : p.Sound) (hs : p.InStep) : q.InStep :=
  h.reached.inStep hp.toSteady hs

theorem hasFrames (h : p.KeepsPins q) (hp : p.Sound) (hk : p.HasFrames k) : q.HasFrames k := by
  have hbusy := card_busyFrames_le (h.sound hp) hp fun i hi ↦ h.users_eq i ▸ hi
  have hcapacity := (h.reached.steady hp.toSteady).2
  unfold HasFrames at hk ⊢
  omega

end KeepsPins

theorem Errand.keepsPins (h : Errand touched p [] v q) (hp : p.Sound) : p.KeepsPins q :=
  ⟨h.reached, h.users_eq hp⟩

theorem Errand.hasFrames (h : Errand touched p held v q) (hp : p.Sound)
    (hk : p.HasFrames (held.length + k)) : q.HasFrames k := by
  have hbusy := h.card_busyFrames_le hp
  have hcapacity := h.capacity_eq hp
  unfold HasFrames at hk ⊢
  omega

theorem keepsPins_of_change {e : Page.Edit} {page : Page} (hp : p.Sound)
    (h : p.guard id = (.ok g, t)) (happly : e.apply (t.page g.handle) = .ok page) (dirty : Bool) :
    p.KeepsPins ((t.setPage g.handle page).release { g with dirty := dirty }) := by
  obtain ⟨hfetch, rfl, -⟩ := fetch_of_guard h
  have ht := sound_of_fetch hp hfetch
  have hedit := (grips_of_guard hp h).edit_eq ht.toSteady happly
  have hs := (sound_of_edit ht hedit).toSteady
  have hheld : p.Errand ∅ [g.page] ∅ t := Errand.start.guard h
  have hedited := hheld.reached.edit g.page e
  rw [hedit] at hedited
  refine ⟨hedited.of_call (c := .unpin g.page dirty) trivial rfl, fun i ↦ ?_⟩
  have hmine : p.users i + [g.page].count i - (if i = g.page then 1 else 0) = p.users i := by
    rw [count_pin, List.count_nil, Nat.zero_add, Nat.add_sub_cancel]
  calc _ = (t.setPage g.handle page).users i - if i = g.page then 1 else 0 :=
        users_of_unpin hs (rfl : (t.setPage g.handle page).unpin g.page dirty = _)
    _ = p.users i := by rw [users_of_edit ht.toSteady hedit, hheld.users_eq hp, hmine]

/-! ## When a frame is found -/

section Frames

variable [LawfulReplacer ρ]

theorem fetch_ne_poolExhausted (hp : p.Steady) (hs : p.InStep) (hk : p.HasFrames 1) (id : PageId) :
    (p.fetch id).1 ≠ .error .poolExhausted := by
  rcases hfetch : p.fetch id with ⟨r, q⟩
  obtain ⟨-, rfl, -⟩ | ⟨f, -, -, rfl, -⟩ | ⟨-, hinstalls⟩ := fetch_cases hp hfetch
  · exact nofun
  · exact nofun
  · rw [Ne, hinstalls.eq_poolExhausted_iff PageFile.readPage_failsWith hp hs]
    exact hasFrames_one_iff.1 hk

theorem newPage_ne_poolExhausted (hp : p.Steady) (hs : p.InStep) (hk : p.HasFrames 1) :
    p.newPage.1 ≠ .error .poolExhausted := by
  rw [Ne, newPage_eq_poolExhausted_iff hp hs]
  exact hasFrames_one_iff.1 hk

omit [LawfulReplacer ρ] in
theorem delete_ne_poolExhausted (hp : p.Steady) (id : PageId) :
    (p.delete id).1 ≠ .error .poolExhausted := by
  rcases hdelete : p.delete id with ⟨r, q⟩
  obtain ⟨f, -, -, rfl, -⟩ | ⟨t, file, -, hfile, -⟩ := delete_cases hp.inFlight_eq
    hp.not_loading hdelete
  · exact nofun
  · exact PageFile.deletePage_failsWith hfile _

end Frames

end PagedStorage.Pool
