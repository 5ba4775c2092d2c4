import PagedStorage.Proofs.PageFile.PageMap
import PagedStorage.Proofs.Pool.Readiness

/-!
# Deletions that fail

A page that is deleted leaves its frame first, and then its place in the file is overwritten. If
the file fails, nobody puts the page back into its frame, as is done with a victim whose changes
cannot be written. So all other pages are as before, but of the page itself only what the file has
is left: the changes that were not written are gone, and so is a page that was never written.

## What it costs

Whether a failing deletion costs something is therefore a question about the page before the
call. It costs nothing if the page has a user, since it is not touched then, and else exactly if
the page in the frame is the stored one (`content_of_delete_iff`). For a user who told of every
change and had it written this is so, and it loses nothing.

## What is found later

The same is said once more for who fetches the page when the medium works again, `handedOut`. The
pool may be full of other pages in use by then, so this compares the two pools, with the call and
without it, and takes a page in a frame from its frame. A failing call that wrote a part is excluded
here, as it may leave a page that is neither the old one nor the deleted one.
-/

namespace PagedStorage.Pool

variable {ρ : Type} {p q t : Pool ρ} {f : Nat} {id i : PageId} {u : Finset PageId}

/-! ## Contents after a deletion -/

section Contents

variable [Replacer ρ] {r : Except Error Unit}

theorem eq_of_delete_used (hp : p.Steady) (hid : 0 < p.users id) (h : p.delete id = (r, q)) :
    r = .error (.pagePinned id) ∧ q = p := by
  obtain ⟨f, hf, -, rfl, rfl⟩ | ⟨t, file, hdrops, -, -⟩ := delete_cases hp.inFlight_eq
    (fun f ↦ (hp.frameOk f).not_loading) h
  · exact ⟨rfl, rfl⟩
  · obtain ⟨hgone, hsame⟩ := hdrops.find?_eq hp
    rw [← hsame, users_of_absent hgone] at hid
    exact absurd hid (Nat.lt_irrefl 0)

private theorem content_of_delete_unused (hp : p.Steady) (hid : p.users id = 0)
    (h : p.delete id = (r, q)) :
    q.table.find? id = none ∧ q.content id = q.file.stored id := by
  obtain ⟨f, hf, hpins, -, -⟩ | ⟨t, file, hdrops, -, rfl⟩ := delete_cases hp.inFlight_eq
    (fun f ↦ (hp.frameOk f).not_loading) h
  · exact absurd hid (Nat.ne_of_gt ((users_pos_iff hp).2 ⟨f, hf, hpins⟩))
  · have hgone : ({ t with file := file } : Pool ρ).table.find? id = none := (hdrops.find?_eq hp).1
    exact ⟨hgone, content_of_absent hgone⟩

theorem content_of_delete_iff (hp : p.Steady) (h : p.delete id = (r, q)) :
    q.content id = p.content id ↔ 0 < p.users id ∨ p.content id = q.file.stored id := by
  rcases Nat.eq_zero_or_pos (p.users id) with hunused | hused
  · rw [(content_of_delete_unused hp hunused h).2, hunused, or_iff_right (Nat.lt_irrefl 0)]
    exact eq_comm
  · obtain ⟨-, rfl⟩ := eq_of_delete_used hp hused h
    exact iff_of_true rfl (.inl hused)

end Contents

/-! ## Fetching later -/

/-- The pool over the same bytes, once the medium fails no call. -/
def obliging (p : Pool ρ) : Pool ρ :=
  { p with file := { p.file with store := p.file.store.obliging } }

theorem Steady.obliging (hp : p.Steady) : p.obliging.Steady := hp.congr rfl rfl rfl rfl

variable [Replacer ρ]

/-- The page that a user gets who fetches it then. -/
def handedOut (p : Pool ρ) (id : PageId) : Except Error Page :=
  match p.obliging.fetch id with
  | (.error e, _) => .error e
  | (.ok hd, q) => .ok (q.page hd)

private theorem handedOut_of_find? (hp : p.Steady) (hf : p.table.find? id = some f)
    (hfull : ¬ p.Full id) : p.handedOut id = p.content id := by
  rcases hfetch : p.obliging.fetch id with ⟨r, q⟩
  obtain ⟨hcount, -⟩ | ⟨g, hg, -, rfl, hadjusts, -⟩ | ⟨hnone, -⟩ :=
    fetch_cases hp.obliging hfetch
  · exact absurd hcount hfull
  · obtain rfl : f = g := Option.some.inj (hf.symm.trans hg)
    rw [handedOut, hfetch, content_of_find? hp hf]
    simp only [page, page?, hadjusts.frame_self]
    rfl
  · cases hnone.symm.trans hf

omit [Replacer ρ] in
private theorem page_of_refills {page : Page} {dirty : Bool} {copy : Nat}
    (h : t.Refills f (loadedFrame id page dirty copy) q) : q.page ⟨f, copy⟩ = page := by
  have hframe : q.frame f = loadedFrame id page dirty copy := h.frame_self
  simp [Pool.page, page?, hframe, loadedFrame]

private theorem handedOut_of_free (hp : p.Steady) (hid : p.table.find? id = none)
    (hfree : p.freeFrames ≠ []) : p.handedOut id = p.file.stored id := by
  rcases hfetch : p.obliging.fetch id with ⟨r, q⟩
  have hfile {f : Nat} {t : Pool ρ} (ht : p.obliging.Takes f t) :
      (t.file.readPage id).1 = p.file.stored id := by
    cases ht with
    | free => rfl
    | clean hnone | written hnone => exact absurd hnone hfree
  obtain ⟨hfull, -⟩ | ⟨g, hg, -⟩ | ⟨-, hinstalls⟩ := fetch_cases hp.obliging hfetch
  · exact absurd hfull (not_full_of_unused (users_of_absent hid))
  · cases hid.symm.trans hg
  · rw [handedOut, hfetch]
    cases hinstalls with
    | exhausted hnone | unusable hnone | restored hnone => exact absurd hnone hfree
    | unloaded htakes hread => rw [← hfile htakes, hread]
    | @loaded f t file page htakes hread =>
      have ht := taken_of_takes hp.obliging htakes
      have hrefills : t.Refills f (loadedFrame id page false (t.copies + 1))
          ({ t.reserveFrame f id with file := file }.settleFrame f page false).2 :=
        refills_of_settleFrame ht.lt
      rw [← hfile htakes, hread]
      exact congrArg Except.ok (page_of_refills hrefills)

private theorem handedOut_afterRefusal (p : Pool ρ) (id : PageId) :
    ({ p with file := p.file.afterRefusal } : Pool ρ).handedOut id = p.handedOut id := rfl

theorem refused_of_delete_error {e : Error} (hp : p.Steady)
    (hatomic : p.file.AllOrNothing (.delete id)) (h : p.delete id = (.error e, q)) :
    0 < p.users id ∧ q = p ∨ ∃ t, p.Drops id t ∧ q = { t with file := p.file.afterRefusal } := by
  obtain ⟨f, hf, hpins, -, rfl⟩ | ⟨t, file, hdrops, hdelete, rfl⟩ := delete_cases hp.inFlight_eq
    hp.not_loading h
  · exact .inl ⟨(users_pos_iff hp).2 ⟨f, hf, hpins⟩, rfl⟩
  · rw [hdrops.file_eq] at hdelete
    have hkept := hatomic.contents_of_deletePage hdelete
    obtain ⟨-, ⟨⟩⟩ | ⟨e', e'', hwrite, -⟩ := PageFile.deletePage_cases hdelete
    exact .inr ⟨t, hdrops, by rw [PageFile.eq_afterRefusal hwrite hkept]⟩

/-- Then the page is handed out later as it would have been without the call exactly if it stayed
in its frame, or the frame had nothing that the file has not. -/
theorem handedOut_of_delete_iff {e : Error} (hp : p.Steady)
    (hatomic : p.file.AllOrNothing (.delete id)) (h : p.delete id = (.error e, q)) :
    q.handedOut id = p.handedOut id ↔ 0 < p.users id ∨ p.content id = p.file.stored id := by
  have hq := (steady_of_delete hp h).1
  obtain ⟨hused, rfl⟩ | ⟨t, hdrops, rfl⟩ := refused_of_delete_error hp hatomic h
  · exact iff_of_true rfl (.inl hused)
  · cases hdrops with
    | absent hnone =>
      exact iff_of_true (p.handedOut_afterRefusal id) (.inr (content_of_absent hnone))
    | @idle f hf hpins =>
      -- The frame that the page left is free, so the page is read whatever else is in the pool.
      have hgone : (p.table.erase id).find? id = none := PageTable.find?_erase.trans (if_pos rfl)
      have hunused : p.users id = 0 := (users_of_find? hp hf).trans (by rw [hpins]; rfl)
      rw [handedOut_of_free hq hgone (List.append_ne_nil_of_right_ne_nil _ (List.cons_ne_nil f _)),
        handedOut_of_find? hp hf (not_full_of_unused hunused), hunused,
        or_iff_right (Nat.lt_irrefl 0)]
      exact eq_comm

/-! ## What a deletion costs that fails -/

/-- A deletion that fails costs other pages nothing, and the page itself exactly what the frame
had of it and the file has not. Whatever the policy offers and whoever else uses the pool, a page in
use loses nothing, nor does a page whose users told of all changes and had them written. -/
theorem Reached.failedDelete_keeps_iff {file : PageFile} {s : ρ} {n : Nat} {e : Error}
    (h : Reached (fun _ _ ↦ True) (ofFile file s n) p) (hdelete : p.delete id = (.error e, q)) :
    (∀ i, i ≠ id → p.Holds i → q.content i = p.content i) ∧
    (q.content id = p.content id ↔ 0 < p.users id ∨ p.content id = q.file.stored id) ∧
    (p.file.AllOrNothing (.delete id) → q.file.stored id = p.file.stored id ∧
      (q.handedOut id = p.handedOut id ↔ 0 < p.users id ∨ p.content id = p.file.stored id)) ∧
    ∀ u, p.FaithfulAt u id → ¬ p.Marked id → 0 < p.users id ∨ p.content id = p.file.stored id := by
  have hp := (h.steady steady_ofFile).1
  refine ⟨fun i hne hi ↦ content_of_delete_ne hp hne hi hdelete, content_of_delete_iff hp hdelete,
    fun hatomic ↦ ⟨?_, handedOut_of_delete_iff hp hatomic hdelete⟩, fun u hid hclean ↦ ?_⟩
  · obtain ⟨-, rfl⟩ | ⟨t, -, rfl⟩ := refused_of_delete_error hp hatomic hdelete
    · rfl
    · rfl
  · rcases Nat.eq_zero_or_pos (p.users id) with hunused | hused
    · have htold : id ∉ u := fun hu ↦
        Nat.ne_of_gt ((users_pos_iff hp).2 (hid.inUse hu)) hunused
      exact .inr (hid.content_eq_stored hp htold hclean)
    · exact .inl hused

/-! ## A page that is lost -/

/-- An empty file that writes nothing. -/
def deafFile : PageFile :=
  { PageFile.empty with store := { PageFile.empty.store with writes := .closingAfter 0 } }

/-- A pool of one frame with a new page, which its user has left. -/
def newcomer : Pool Policy :=
  (((ofFile deafFile (Policy.ofKind 1 .lru) 1).call .newPage).2.call (.unpin 0 true)).2

theorem reached_newcomer :
    Reached (fun _ _ ↦ True) (ofFile deafFile (Policy.ofKind 1 .lru) 1) newcomer :=
  .call (.unpin 0 true) (.call .newPage .start trivial) trivial

/-- The page, which cannot be deleted, is not there afterwards. -/
theorem Reached.failedDelete_keeps_iff_newcomer :
    (newcomer.delete 0).1 = .error (.deleteFailed 0 (.refused .write)) ∧
      (newcomer.delete 0).2.content 0 ≠ newcomer.content 0 := by
  have hdelete : newcomer.delete 0 =
      (.error (.deleteFailed 0 (.refused .write)), (newcomer.delete 0).2) := rfl
  have hlost : (newcomer.delete 0).2.file.stored 0 = .error (.pageNotFound 0) := rfl
  obtain ⟨-, hiff, -⟩ := failedDelete_keeps_iff reached_newcomer hdelete
  refine ⟨rfl, fun hsame ↦ ?_⟩
  obtain hused | hstored := hiff.1 hsame
  · exact absurd hused (Nat.lt_irrefl 0)
  · cases hstored.trans hlost

/-- A new page, marked as changed, that is gone once it could not be deleted: later it is not found,
while without the call it is handed out. -/
theorem newcomer_lost :
    Reached (fun _ _ ↦ True) (ofFile deafFile (Policy.ofKind 1 .lru) 1) newcomer ∧
      newcomer.Marked 0 ∧
      (newcomer.delete 0).1 = .error (.deleteFailed 0 (.refused .write)) ∧
      newcomer.content 0 = .ok (.fresh 0) ∧
      (newcomer.delete 0).2.content 0 = .error (.pageNotFound 0) ∧
      newcomer.handedOut 0 = .ok (.fresh 0) ∧
      (newcomer.delete 0).2.handedOut 0 = .error (.pageNotFound 0) :=
  ⟨reached_newcomer, ⟨0, rfl, rfl⟩, rfl, rfl, rfl, rfl, rfl⟩

end PagedStorage.Pool
