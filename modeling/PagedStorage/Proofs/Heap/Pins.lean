import PagedStorage.Proofs.Heap.Leftovers
import PagedStorage.Proofs.Pool.Accounts
import PagedStorage.Proofs.Pool.Pins

/-!
# Pins and frames of heap calls

Whatever a call of a heap meets, pages of any kind and a medium that fails at any time, all its
pins are given back when it returns, `Heap.Frugal`. A row of pages is gone through one page at a
time, so one frame is enough for it, and only a record that is cut into pieces takes two, since the
page of one piece is still pinned while the next one is made.

## What enough frames are good for

That a call has frames enough does not mean that it succeeds. It means that it does not fail for
the want of one: every other error comes from the page, the chain or the file. So for each call all
its errors are gone through, and those that are of a page, `Error.OfPage`, are no want of frames.
What is left are the calls of the pool, and for each of them it is known when it finds no frame.

## What it depends on

Pins are counted by page, so this takes a pool in which no page is in two frames. In `heldTwice`
page 0 is, after a deletion that was cut off. The table knows one of the two frames and loses the
page when the other one is given up, and with it the pin (`get_takesPin`).
-/

namespace PagedStorage.Heap

open Pool

variable {α β ρ : Type} [Replacer ρ] {p q t : Pool ρ} {k : Nat} {e : Error} {id : PageId}
  {g : Guard} {h : Heap} {record : List UInt8}

/-- The call has kept all pins, and if `k` frames were to be had it did not fail for the want of
one. -/
structure Frugal (p : Pool ρ) (k : Nat) (res : Except Error α) (q : Pool ρ) : Prop where
  keepsPins : p.KeepsPins q
  ne_poolExhausted : p.HasFrames k → res ≠ .error .poolExhausted

namespace Frugal

theorem of_ne {res : Except Error α} (hq : p.KeepsPins q) (hres : res ≠ .error .poolExhausted) :
    Frugal p k res q := ⟨hq, fun _ ↦ hres⟩

theorem ok (hq : p.KeepsPins q) (a : α) : Frugal p k (.ok a : Except Error α) q := .of_ne hq nofun

theorem of_page {res : Except Error α} (hq : p.KeepsPins q) (hres : FailsWith Error.OfPage res) :
    Frugal p k res q := .of_ne hq fun heq ↦ hres _ heq

theorem error (hq : Frugal p k (.error e : Except Error α) q) :
    Frugal p k (.error e : Except Error β) q :=
  ⟨hq.keepsPins, fun hk heq ↦ hq.ne_poolExhausted hk (congrArg _ (Except.error.inj heq))⟩

theorem after {res : Except Error α} (hp : p.Sound) (ht : p.KeepsPins t) (hq : Frugal t k res q) :
    Frugal p k res q :=
  ⟨ht.trans hq.keepsPins, fun hk ↦ hq.ne_poolExhausted (ht.hasFrames hp hk)⟩

end Frugal

theorem keepsPins_of_visit (hp : p.Sound) (hguard : p.guard id = (.ok g, t)) (dirty : Bool) :
    p.KeepsPins (t.release { g with dirty := dirty }) :=
  (errand_of_visit hguard dirty).keepsPins hp

private theorem ids_of_insertInto (hp : p.Sound) (id : PageId) (record : List UInt8) :
    (insertInto p id record).2.file.ids = p.file.ids := by
  rw [insertInto]
  split
  next hguard => exact ids_of_fetch hp (fetch_of_guard_error hguard)
  next hguard =>
    simp only
    split
    next =>
      rw [file_release, file_setPage]
      exact ids_of_fetch hp (fetch_of_guard hguard).1
    next => exact ids_of_visit hp hguard _

variable [LawfulReplacer ρ]

/-! ## One page -/

theorem frugal_of_guard_error (hp : p.Sound) (hs : p.InStep) (hguard : p.guard id = (.error e, q)) :
    Frugal p 1 (.error e : Except Error α) q := by
  refine ⟨(errand_of_guard_error hguard).keepsPins hp, fun hk heq ↦ ?_⟩
  have hfetch := fetch_ne_poolExhausted hp.toSteady hs hk id
  rw [fetch_of_guard_error hguard] at hfetch
  exact hfetch (congrArg _ (Except.error.inj heq))

theorem frugal_get (hp : p.Sound) (hs : p.InStep) (rid : RecordId) :
    Frugal p 1 (get p rid).1 (get p rid).2 := by
  rcases hget : get p rid with ⟨res, q⟩
  obtain ⟨herrand, ⟨e, rfl, hguard⟩ | ⟨page, -, rfl⟩⟩ := get_cases hp hget
  · exact frugal_of_guard_error hp hs hguard
  · exact .of_page (herrand.keepsPins hp) (found_failsWith (Page.get_failsWith page rid))

theorem frugal_delete (hp : p.Sound) (hs : p.InStep) (rid : RecordId) :
    Frugal p 1 (delete p rid).1 (delete p rid).2 := by
  rcases hdelete : delete p rid with ⟨res, q⟩
  obtain ⟨e, rfl, herrand, hguard | ⟨page, -, herror⟩⟩ | ⟨page, page', -, -, rfl, herrand, -⟩ :=
    delete_cases hp hdelete
  · exact frugal_of_guard_error hp hs hguard
  · have hpage := Page.delete_failsWith page rid e herror
    exact .of_page (herrand.keepsPins hp) (failsWith_error hpage)
  · exact .ok (herrand.keepsPins hp) ()

/-- The page may be any page, also one on which the record overwrites others. -/
theorem frugal_insertInto (hp : p.Sound) (hs : p.InStep) (id : PageId) (record : List UInt8) :
    Frugal p 1 (insertInto p id record).1 (insertInto p id record).2 := by
  rw [insertInto]
  split
  next hguard => exact frugal_of_guard_error hp hs hguard
  next g t hguard =>
    simp only
    split
    next rid page hadd =>
      exact .ok (keepsPins_of_change hp hguard (Page.Edit.apply_add hadd) true) _
    next e hadd =>
      refine .of_page (keepsPins_of_visit hp hguard true) (.ite (failsWith_ok _) ?_)
      exact failsWith_error (Page.add_failsWith _ record e hadd)

private theorem Hinders.ne_poolExhausted (hh : h.Hinders p e q) (hp : p.Sound) (hs : p.InStep)
    (hk : p.HasFrames 1) : e ≠ .poolExhausted := by
  rintro rfl
  cases hh with
  | unpinned id _ hguard =>
    have hfetch := fetch_ne_poolExhausted hp.toSteady hs hk id
    rw [fetch_of_guard_error hguard] at hfetch
    exact hfetch rfl
  | noPage t _ herrand _ hnew =>
    have hkept := herrand.keepsPins hp
    have hfound := newPage_ne_poolExhausted (hkept.sound hp).toSteady (hkept.inStep hp hs)
      (hkept.hasFrames hp hk)
    rw [hnew] at hfound
    exact hfound rfl

theorem frugal_insertNew (hp : p.Sound) (hs : p.InStep)
    (hnext : p.file.ids.next.toNat + 1 < UInt32.size) (hsize : checkSize record.length = .ok ())
    (h : Heap) : Frugal p 1 (h.insertNew p record).1 (h.insertNew p record).2.2 := by
  rcases hcall : h.insertNew p record with ⟨res, h', q⟩
  obtain hrefused | ⟨-, hhinders, herrand⟩ | ⟨-, -, -, -, herrand, -⟩ :=
    inserts_of_insertNew hp hnext .start rfl hsize hcall
  · cases hsize.symm.trans hrefused
  · refine ⟨herrand.keepsPins hp, fun hk heq ↦ ?_⟩
    exact hhinders.ne_poolExhausted hp hs hk (Except.error.inj heq)
  · exact .ok (herrand.keepsPins hp) _

theorem frugal_insert (hp : p.Sound) (hs : p.InStep)
    (hnext : p.file.ids.next.toNat + 1 < UInt32.size) (h : Heap) (record : List UInt8) :
    Frugal p 1 (h.insert p record).1 (h.insert p record).2.2 := by
  rw [insert]
  split
  next e hsize =>
    obtain ⟨-, rfl⟩ | ⟨-, rfl⟩ := checkSize_eq_error hsize
    · exact .of_ne (.refl p) (by simp)
    · exact .of_ne (.refl p) (by simp)
  next hsize =>
    split
    next => exact frugal_insertNew hp hs hnext hsize h
    next last _ =>
      have hinto := frugal_insertInto hp hs last record
      have hids := ids_of_insertInto hp last record
      split
      next rid t ht => exact .ok (ht ▸ hinto).keepsPins rid
      next t ht =>
        rw [ht] at hinto hids
        have hkept := hinto.keepsPins
        rw [← hids] at hnext
        exact .after hp hkept
          (frugal_insertNew (hkept.sound hp) (hkept.inStep hp hs) hnext hsize h)
      next e t ht =>
        rw [ht] at hinto
        exact hinto.error

/-! ## Rows of pages -/

theorem frugal_scanPages (hp : p.Sound) (hs : p.InStep) (ids : List PageId) :
    Frugal p 1 (scanPages p ids).1 (scanPages p ids).2 := by
  induction ids generalizing p with
  | nil => exact .ok (.refl p) []
  | cons id ids ih =>
    rw [scanPages]
    split
    next hguard => exact frugal_of_guard_error hp hs hguard
    next g t hguard =>
      have hvisit : p.KeepsPins (t.release g) := keepsPins_of_visit hp hguard g.dirty
      split
      next e hrecords =>
        exact .of_page hvisit (failsWith_error (Page.records_failsWith _ e hrecords))
      next =>
        have hrest := ih (hvisit.sound hp) (hvisit.inStep hp hs)
        split
        next e s hscan =>
          rw [hscan] at hrest
          exact .after hp hvisit hrest.error
        next more s hscan =>
          rw [hscan] at hrest
          exact .after hp hvisit (.ok hrest.keepsPins _)

/-- The walk may end in any way, also where the chain is damaged. -/
theorem frugal_walkChain {see : Page → Except Error α} {head : PageId} {visited : List PageId}
    {n : Nat} (hsee : ∀ page, FailsWith Error.OfPage (see page)) (hp : p.Sound) (hs : p.InStep) :
    Frugal p 1 (walkChain p see head visited id n).1 (walkChain p see head visited id n).2 := by
  induction n generalizing p visited id with
  | zero => exact .of_ne (.refl p) (by simp [walkChain])
  | succ n ih =>
    rw [walkChain]
    split
    next => exact .of_ne (.refl p) (by simp)
    next =>
    split
    next hguard => exact frugal_of_guard_error hp hs hguard
    next g t hguard =>
      have hvisit : p.KeepsPins (t.release g) := keepsPins_of_visit hp hguard g.dirty
      simp only
      split
      next =>
        split
        next e herror => exact .of_page hvisit (failsWith_error (hsee _ e herror))
        next seen _ =>
          split
          next => exact .ok hvisit _
          next =>
            have hrest := @ih (t.release g) (t.page g.handle).next (id :: visited)
              (hvisit.sound hp) (hvisit.inStep hp hs)
            split
            next e s hwalk =>
              rw [hwalk] at hrest
              exact .after hp hvisit hrest.error
            next rest s hwalk =>
              rw [hwalk] at hrest
              exact .after hp hvisit (.ok hrest.keepsPins _)
      next => exact .of_ne hvisit (by simp)

theorem frugal_readOverflow (hp : p.Sound) (hs : p.InStep) (head : PageId) :
    Frugal p 1 (readOverflow p head).1 (readOverflow p head).2 := by
  have hwalk : Frugal p 1 (walkOverflow p recordBytes head).1 (walkOverflow p recordBytes head).2 :=
    frugal_walkChain (fun page ↦ (Page.records_failsWith page).map _) hp hs
  rw [readOverflow]
  split
  next e q h =>
    rw [show walkOverflow p recordBytes head = (.error e, q) from h] at hwalk
    exact hwalk.error
  next parts q h =>
    rw [show walkOverflow p recordBytes head = (.ok parts, q) from h] at hwalk
    exact .ok hwalk.keepsPins _

omit [LawfulReplacer ρ] in
private theorem deletePages_ne_poolExhausted {ids : List PageId} (hp : p.Sound)
    (hids : ∀ i ∈ ids, p.file.ids.Covers (i.toNat + 1)) :
    (deletePages p ids).1 ≠ .error .poolExhausted := by
  induction ids generalizing p with
  | nil => exact nofun
  | cons id ids ih =>
    rw [List.forall_mem_cons] at hids
    have hdelete := delete_ne_poolExhausted hp.toSteady id
    rw [deletePages]
    split
    next e t ht =>
      rw [ht] at hdelete
      exact fun heq ↦ hdelete (congrArg _ (Except.error.inj heq))
    next t ht =>
      have hsame := (served_of_delete hp.toSteady hids.1 ht).ids_eq
      exact ih (sound_of_delete hp (.inl hids.1) ht) fun i hi ↦ hsame ▸ hids.2 i hi

theorem frugal_deleteOverflow (hp : p.Sound) (hs : p.InStep) (head : PageId) :
    Frugal p 1 (deleteOverflow p head).1 (deleteOverflow p head).2 := by
  have hwalk : Frugal p 1 (walkOverflow p (fun page ↦ .ok page.id) head).1
      (walkOverflow p (fun page ↦ .ok page.id) head).2 :=
    frugal_walkChain (fun page ↦ failsWith_ok page.id) hp hs
  rcases hcall : deleteOverflow p head with ⟨res, q⟩
  obtain ⟨touched, herrand, -⟩ := errand_of_deleteOverflow hp hcall
  refine ⟨herrand.keepsPins hp, fun hk ↦ ?_⟩
  obtain ⟨e, rfl, herror, -⟩ | ⟨ids, t, -, ht, hids, hdelete, hseen⟩ :=
    deleteOverflow_cases hp hcall
  · exact fun heq ↦ hwalk.ne_poolExhausted hk (herror.trans (congrArg _ (Except.error.inj heq)))
  · have hdeleted := deletePages_ne_poolExhausted (ht.sound hp) fun i hi ↦ hids ▸ (hseen i hi).1
    rwa [hdelete] at hdeleted

/-! ## Pieces -/

omit [Replacer ρ] [LawfulReplacer ρ] in
theorem map_ne_poolExhausted {res : Except Error α} {f : α → β} (h : res ≠ .error .poolExhausted) :
    res.map f ≠ .error .poolExhausted := fun heq ↦ h (map_eq_error_iff.1 heq)

theorem Balks.ne_poolExhausted (hb : Balks p e) (hp : p.Steady) (hs : p.InStep)
    (hk : p.HasFrames 1) : e ≠ .poolExhausted := by
  rintro rfl
  obtain hnew | hpage := hb
  · exact newPage_ne_poolExhausted hp hs hk hnew
  · exact hpage

variable {pieces : List (List UInt8)} {piece : List UInt8} {p₀ : Pool ρ}

/-- Behind a page that is still pinned there has to be a second frame. -/
theorem Storing.ne_poolExhausted (hstoring : Storing p₀ g piece p) (hp₀ : p₀.Sound)
    (hs₀ : p₀.InStep) (hroom : p.file.ids.next.toNat + pieces.length < UInt32.size)
    (hk : pieces ≠ [] → p₀.HasFrames 2) :
    (storePieces p (some g) pieces).1 ≠ .error .poolExhausted := by
  induction pieces generalizing p g piece with
  | nil => exact nofun
  | cons piece' pieces ih =>
    rw [List.length_cons] at hroom
    have htwo := hk (List.cons_ne_nil _ _)
    rcases hcall : storePieces p (some g) (piece' :: pieces) with ⟨res, q⟩
    obtain ⟨g', t, r, hext, hrest, rfl⟩ | ⟨⟨e, rfl, hbalks⟩, -⟩ :=
      hstoring.extends_or hp₀ (by omega) hcall
    · have hrest' := ih hext.storing (by rw [hext.next_eq]; omega) fun _ ↦ htwo
      rw [hrest] at hrest'
      exact map_ne_poolExhausted hrest'
    · obtain ⟨v, herrand⟩ := hstoring.errand
      have hone := herrand.hasFrames (k := 1) hp₀ htwo
      have hne := hbalks.ne_poolExhausted (herrand.sound hp₀).toSteady (herrand.inStep hp₀ hs₀) hone
      exact fun heq ↦ hne (Except.error.inj heq)

private theorem storePieces_ne_poolExhausted (hp : p.Sound) (hs : p.InStep)
    (hroom : p.file.ids.next.toNat + pieces.length < UInt32.size)
    (hk : p.HasFrames (min 2 pieces.length)) :
    (storePieces p none pieces).1 ≠ .error .poolExhausted := by
  cases pieces with
  | nil => exact nofun
  | cons piece pieces =>
    rw [List.length_cons] at hroom hk
    rcases hcall : storePieces p none (piece :: pieces) with ⟨res, q⟩
    obtain ⟨g, s, r, hstoring, -, hids, hrest, rfl⟩ | ⟨⟨e, rfl, hbalks⟩, -, -⟩ :=
      starts_or hp (by omega) hcall
    · have htwo (hne : pieces ≠ []) : p.HasFrames 2 := by
        have hpos := List.length_pos_iff.2 hne
        exact hk.mono (by omega)
      have hrest' := hstoring.ne_poolExhausted hp hs (by omega) htwo
      rw [hrest] at hrest'
      exact map_ne_poolExhausted hrest'
    · have hne := hbalks.ne_poolExhausted hp.toSteady hs (hk.mono (by omega))
      exact fun heq ↦ hne (Except.error.inj heq)

theorem frugal_insertOverflow (hp : p.Sound) (hs : p.InStep) (record : List UInt8)
    (hroom : p.file.ids.next.toNat + (overflowPieces record).length < UInt32.size) :
    Frugal p (min 2 (overflowPieces record).length) (insertOverflow p record).1
      (insertOverflow p record).2 := by
  rcases hcall : insertOverflow p record with ⟨res, q⟩
  obtain ⟨⟨touched, herrand, -⟩, -⟩ := insertOverflow_cases hp hroom hcall
  refine ⟨herrand.keepsPins hp, fun hk ↦ ?_⟩
  cases res with
  | ok head => simp
  | error e =>
    rcases Nat.lt_or_ge record.length minRecordSize with hsmall | hsize
    · rw [insertOverflow, if_pos hsmall] at hcall
      cases hcall
      simp
    · have hstore := storePieces_ne_poolExhausted hp hs hroom hk
      rw [(insertOverflow_eq_error_iff hsize).1 hcall] at hstore
      exact fun heq ↦ hstore (congrArg _ (Except.error.inj heq))

/-! ## All calls -/

/-- No call of a heap keeps a pin or takes one away. One frame is enough for each, but for a record
that is cut into several pieces, and this takes two. -/
structure FrugalCalls (p : Pool ρ) : Prop where
  insert : p.file.ids.next.toNat + 1 < UInt32.size → ∀ (h : Heap) record,
    Frugal p 1 (h.insert p record).1 (h.insert p record).2.2
  get : ∀ rid, Frugal p 1 (get p rid).1 (get p rid).2
  delete : ∀ rid, Frugal p 1 (delete p rid).1 (delete p rid).2
  scan : ∀ h : Heap, Frugal p 1 (h.scan p).1 (h.scan p).2
  insertOverflow : ∀ record,
    p.file.ids.next.toNat + (overflowPieces record).length < UInt32.size →
    Frugal p (min 2 (overflowPieces record).length) (insertOverflow p record).1
      (insertOverflow p record).2
  readOverflow : ∀ head, Frugal p 1 (readOverflow p head).1 (readOverflow p head).2
  deleteOverflow : ∀ head, Frugal p 1 (deleteOverflow p head).1 (deleteOverflow p head).2

/-- Whatever has been done with a pool before, and whichever pages are in use, damaged or out of
reach: a call of a heap gives back all its pins, and what it needs of frames is known. -/
theorem frugalCalls_of_reached {file : PageFile} {kind : ReplacerKind} {n capacity : Nat}
    {p : Pool Policy} (hfile : file.Ahead) (hcapacity : n ≤ capacity)
    (h : Reached Permits (Pool.ofFile file (Policy.ofKind capacity kind) n) p) : FrugalCalls p := by
  have hp := h.sound (sound_ofFile hfile)
  have hs := h.inStep steady_ofFile (inStep_ofFile hcapacity)
  exact {
    insert hnext h record := frugal_insert hp hs hnext h record
    get rid := frugal_get hp hs rid
    delete rid := frugal_delete hp hs rid
    scan h := frugal_scanPages hp hs h.pages
    insertOverflow record hroom := frugal_insertOverflow hp hs record hroom
    readOverflow head := frugal_readOverflow hp hs head
    deleteOverflow head := frugal_deleteOverflow hp hs head }

/-- A pool of two frames, one of which has a page in use. A record comes to this page, and then the
page has the one user that it had before. -/
theorem frugalCalls_of_reached_usedPage :
    let p := (twoFrames.call .newPage).2
    p.users 0 = 1 ∧ ∃ res h q, (⟨[0]⟩ : Heap).insert p (List.replicate 8 7) = (res, h, q) ∧
      q.users 0 = 1 ∧ res ≠ .error .poolExhausted := by
  intro p
  have hused : p.users 0 = 1 := rfl
  have hframe : p.HasFrames 1 := hasFrames_one_iff.2 (by decide)
  have hnext : twoFrames.file.ids.next.toNat + 1 < UInt32.size := by decide
  have hreached : Reached Permits twoFrames p := .call .newPage .start hnext
  have hcalls : FrugalCalls p :=
    frugalCalls_of_reached PageFile.ahead_empty (Nat.le_refl 2) hreached
  have hcall := hcalls.insert (by decide) ⟨[0]⟩ (List.replicate 8 7)
  rcases hinsert : (⟨[0]⟩ : Heap).insert p (List.replicate 8 7) with ⟨res, h, q⟩
  rw [hinsert] at hcall
  exact ⟨hused, res, h, q, rfl, (hcall.keepsPins.users_eq 0).trans hused,
    hcall.ne_poolExhausted hframe⟩

/-! ## A page in two frames -/

private theorem find?_of_fetch_heldTwice {r : Except Error Handle} {q : Pool Policy} (hid : id ≠ 0)
    (h : heldTwice.fetch id = (r, q)) : q.table.find? 0 = none := by
  obtain ⟨-, hreached, hcapacity, hfree, htable, ⟨page, copy, hfirst⟩, page', copy', hsecond⟩ :=
    heldTwice_eq
  have hp := (hreached.steady steady_ofFile).1
  have hs := hreached.inStep steady_ofFile (inStep_ofFile (Nat.le_refl 2))
  have hnone : heldTwice.table.find? id = none := by
    rw [htable, ← Option.not_isSome_iff_eq_none, PageTable.find?]
    simpa using hid
  have hidle (g : Nat) : (heldTwice.frame g).isIdle ↔ g = 0 := by
    constructor
    · intro hg
      have hlt := lt_capacity_of_isResident (isIdle_iff.1 hg).1
      by_contra hne
      obtain rfl : g = 1 := by omega
      rw [hsecond] at hg
      exact absurd hg (not_isIdle_of_pins Nat.one_pos)
    · rintro rfl
      rw [hfirst]
      rfl
  obtain ⟨hfull, -⟩ | ⟨f, hf, -⟩ | ⟨-, hinstalls⟩ := fetch_cases hp h
  · rw [Full, pinCount?, residentFrame?, hnone] at hfull
    cases hfull
  · cases hnone.symm.trans hf
  · exact hinstalls.gives_way hp hs hfree hidle (by rw [hfirst]; rfl) (by rw [hfirst]; rfl) hid.symm

/-- After a deletion that was cut off, of a page that was never given out, a look at some other page
can take the pin of a page in use. -/
theorem get_takesPin :
    PageFile.shortFile.Ahead ∧
      Reached (fun p c ↦ c = .newPage → p.file.ids.next.toNat + 1 < UInt32.size) overShortFile
        heldTwice ∧
      heldTwice.users 0 = 1 ∧ (get heldTwice ⟨5, 0⟩).2.users 0 = 0 := by
  obtain ⟨-, hreached, -, -, htable, -, page, copy, hsecond⟩ := heldTwice_eq
  have hp := (hreached.steady steady_ofFile).1
  refine ⟨⟨.inl (Nat.zero_le _), .inl (Nat.zero_le _)⟩, hreached.mono fun p c hc hnew ↦ ?_, ?_, ?_⟩
  · rw [hc hnew]
    decide
  · rw [users_of_find? hp (f := 1) (by rw [htable]; rfl), hsecond]
    rfl
  · have hgone : (get heldTwice ⟨5, 0⟩).2.table.find? 0 = none := by
      rw [get]
      split
      next hguard => exact find?_of_fetch_heldTwice (by decide) (fetch_of_guard_error hguard)
      next g t hguard =>
        rw [table_release]
        exact find?_of_fetch_heldTwice (by decide) (fetch_of_guard hguard).1
    rw [users, pinCount?, residentFrame?, hgone]
    rfl

end PagedStorage.Heap
