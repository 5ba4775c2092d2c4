import PagedStorage.Heap.Basic
import PagedStorage.Proofs.Page.Admission
import PagedStorage.Proofs.Pool.Errands

/-!
# Heap operations as errands

Each operation of a heap is an errand on the pool, and one that fails touches no page. What an
operation answers, and what it makes of the page that it touches, is determined by the content of
this page: the lemmas here list, for each operation, the ways in which it can end (`get_cases`,
`scanPages_cases`, `delete_cases`, `insert_cases`), and nothing later looks at the definitions.

`Heap.lookUp` and `Heap.listAll` are the answers as they are determined by contents, without a
pool in between.

## What is shown

An operation sees a page when it has pinned it, and then the page need not be what was shown before:
a page that is not there may come into the file because another one is written behind its place to
make room. `Heap.Shows` allows for this. Where something was shown, it is the same (`Shows.eq`).

## Where a record goes

A record is tried on the last page of the heap, and if this page is full a new one is made. So there
are three ways for it to end, `Heap.Inserts`: refused for its size, hindered, or stored, and a page
that is found full on the way has been visited, which changes nothing. A new page takes an id, so
there must be one (`Heap.Affords`), unless the last page takes the record. `Heap.Lands` is the same
seen from the contents before, for those who want to know in advance which page it will be.
-/

namespace PagedStorage.Heap

open Pool

variable {ρ : Type} {p q t : Pool ρ} {id : PageId} {rid : RecordId} {g : Guard}
  {page page' : Page} {record : List UInt8} {u : Finset PageId} {e : Error} {h h' : Heap}

/-! ## Visiting a page -/

/-- The page is the one that is shown under an id. A page that is not there may still come into
the file before it is read, when another one is written behind its place. -/
def Shows (p : Pool ρ) (id : PageId) (page : Page) : Prop :=
  ∀ u, p.FaithfulAt u id → p.Holds id → p.content id = .ok page

theorem Shows.eq (h : Shows p id page') (hid : p.FaithfulAt u id)
    (hpage : p.content id = .ok page) : page' = page := by
  have hshown := h u hid (holds_of_content hpage)
  rw [hpage] at hshown
  exact (Except.ok.inj hshown).symm

variable [Replacer ρ]

theorem shows_of_guard (hp : p.Sound) (h : p.guard id = (.ok g, t)) :
    Shows p id (t.page g.handle) := by
  intro u hid hholds
  obtain ⟨hfetch, rfl, -⟩ := fetch_of_guard h
  have hcontent := (grips_of_guard hp h).content_eq (sound_of_fetch hp hfetch).toSteady
  rw [← hcontent]
  exact ((spares_of_fetch hp hid hfetch).content_eq hholds).symm

theorem errand_of_guard_error (h : p.guard id = (.error e, q)) : p.Errand ∅ [] ∅ q :=
  .fetchFails .start (fetch_of_guard_error h)

/-- To pin a page and unpin it again changes nothing, whatever is told. -/
theorem errand_of_visit (h : p.guard id = (.ok g, t)) (dirty : Bool) :
    p.Errand ∅ [] ∅ (t.release { g with dirty := dirty }) :=
  (Errand.start.guard h).release_last (g := { g with dirty := dirty }) (by simp)

theorem ids_of_visit (hp : p.Sound) (h : p.guard id = (.ok g, t)) (g' : Guard) :
    (t.release g').file.ids = p.file.ids := by
  rw [file_release]
  exact ids_of_fetch hp (fetch_of_guard h).1

/-- To change a page that was pinned is to edit it. -/
theorem errand_of_change (hp : p.Sound) (h : p.guard id = (.ok g, t)) (edit : Page.Edit)
    (hsafe : edit.Safe (t.page g.handle)) (happly : edit.apply (t.page g.handle) = .ok page) :
    p.Errand {id} [] ∅ ((t.setPage g.handle page).release { g with dirty := true }) ∧
      ((t.setPage g.handle page).release { g with dirty := true }).content id = .ok page ∧
      ((t.setPage g.handle page).release { g with dirty := true }).file.ids = p.file.ids := by
  have hids : ((t.setPage g.handle page).release { g with dirty := true }).file.ids =
      p.file.ids := by
    rw [file_release, file_setPage, ids_of_fetch hp (fetch_of_guard h).1]
  have hgrips := grips_of_guard hp h
  obtain ⟨-, rfl, -⟩ := fetch_of_guard h
  have hheld : p.Errand {g.page} [g.page] ∅ t := Errand.start.guard h
  obtain ⟨hchanged, hgrips, hpage⟩ := hheld.change hp hgrips (List.mem_singleton_self _)
    (Set.mem_singleton _) hsafe happly
  have hsteady := (hchanged.sound hp).toSteady
  refine ⟨hchanged.release_last (g := { g with dirty := true }) fun _ ↦ rfl, ?_, hids⟩
  rw [content_of_release hsteady, hgrips.content_eq hsteady, hpage]

/-! ## Looking up -/

/-- The answer of a look-up, from what the page says. -/
def found : Except Error (List UInt8) → Except Error (Option (List UInt8))
  | .ok record => .ok (some record)
  | .error (.recordFreed _) => .ok none
  | .error (.invalidRecordId _) => .ok none
  | .error e => .error e

omit [Replacer ρ] in
theorem found_failsWith {P : Error → Prop} {x : Except Error (List UInt8)} (hx : FailsWith P x) :
    FailsWith P (found x) := by
  unfold found
  split
  next => exact failsWith_ok _
  next => exact failsWith_ok _
  next => exact failsWith_ok _
  next => exact failsWith_error (hx _ rfl)

/-- What is found under an address where the pages are `c`. -/
def lookUp (c : PageId → Except Error Page) (rid : RecordId) : Except Error (Option (List UInt8)) :=
  c rid.page >>= fun page ↦ found (page.get rid)

theorem found_get (hpage : page.Readable) (hid : rid.page = page.id) :
    found (page.get rid) = .ok (page.liveRecord? rid.slot) := by
  have hd := hpage.describes
  cases hlive : page.liveRecord? rid.slot with
  | some record =>
    rw [(Page.get_eq_ok_iff hd.encloses).2 ⟨hid, hlive⟩]
    rfl
  | none =>
    by_cases hlt : rid.slot.toNat < page.header.slotCount.toNat
    · rw [Page.get_eq_recordFreed hd.encloses hid hlt hlive]
      rfl
    · rw [Page.get_eq_invalidRecordId hd.encloses
        (.inr (UInt16.le_iff_toNat_le.2 (Nat.le_of_not_lt hlt)))]
      rfl

theorem get_cases {res : Except Error (Option (List UInt8))} (hp : p.Sound)
    (h : get p rid = (res, q)) : p.Errand ∅ [] ∅ q ∧
      ((∃ e, res = .error e ∧ p.guard rid.page = (.error e, q)) ∨
        ∃ page, Shows p rid.page page ∧ res = found (page.get rid)) := by
  rw [get] at h
  split at h
  next e t hguard =>
    cases h
    exact ⟨errand_of_guard_error hguard, .inl ⟨e, rfl, hguard⟩⟩
  next g t hguard =>
    cases h
    exact ⟨errand_of_visit hguard g.dirty, .inr ⟨_, shows_of_guard hp hguard, rfl⟩⟩

/-! ## Listing -/

/-- All records of some pages where the pages are `c`. -/
def listAll (c : PageId → Except Error Page) :
    List PageId → Except Error (List (RecordId × List UInt8))
  | [] => .ok []
  | id :: rest => do
    let page ← c id
    let records ← page.records
    let more ← listAll c rest
    .ok (records ++ more)

theorem listAll_cons_eq_ok_iff {c : PageId → Except Error Page} {ids : List PageId}
    {l : List (RecordId × List UInt8)} : listAll c (id :: ids) = .ok l ↔
      ∃ page records more, c id = .ok page ∧ page.records = .ok records ∧
        listAll c ids = .ok more ∧ l = records ++ more := by
  simp only [listAll, bind_eq_ok_iff, Except.ok.injEq]
  constructor
  · rintro ⟨page, hpage, records, hrecords, more, hmore, rfl⟩
    exact ⟨page, records, more, hpage, hrecords, hmore, rfl⟩
  · rintro ⟨page, records, more, hpage, hrecords, hmore, rfl⟩
    exact ⟨page, hpage, records, hrecords, more, hmore, rfl⟩

private theorem listAll_congr {c d : PageId → Except Error Page} {ids : List PageId}
    (h : ∀ id ∈ ids, d id = c id) : listAll d ids = listAll c ids := by
  induction ids with
  | nil => rfl
  | cons id ids ih =>
    rw [List.forall_mem_cons] at h
    rw [listAll, listAll, h.1, ih h.2]

/-- To go through pages changes nothing. If all of them could be pinned, the records are those of
the pages as they are. -/
theorem scanPages_cases {ids : List PageId} {res : Except Error (List (RecordId × List UInt8))}
    (hp : p.Sound) (hids : ∀ id ∈ ids, p.FaithfulAt u id ∧ p.Holds id)
    (h : scanPages p ids = (res, q)) :
    p.Errand ∅ [] ∅ q ∧ ∀ l, res = .ok l → listAll p.content ids = .ok l := by
  induction ids generalizing p q res with
  | nil =>
    cases h
    exact ⟨.start, fun l hl ↦ hl⟩
  | cons id ids ih =>
    rw [scanPages] at h
    split at h
    next e t hguard =>
      cases h
      exact ⟨errand_of_guard_error hguard, nofun⟩
    next g t hguard =>
      obtain ⟨hid, hholds⟩ := hids id List.mem_cons_self
      have hshows := shows_of_guard hp hguard u hid hholds
      have hvisit : p.Errand ∅ [] ∅ (t.release g) := errand_of_visit hguard g.dirty
      split at h
      next e _ =>
        cases h
        exact ⟨hvisit, nofun⟩
      next records hrecords =>
        -- The visit has left the pages still to come as they were, so what they show now is what
        -- they showed at the start.
        have hsame : ∀ i ∈ ids, p.Spares (t.release g) u i ∧ p.Holds i := fun i hi ↦ by
          obtain ⟨hi, hholds⟩ := hids i (List.mem_cons_of_mem _ hi)
          exact ⟨hvisit.spares hp hi (Set.notMem_empty i), hholds⟩
        have hkept : ∀ i ∈ ids, (t.release g).FaithfulAt u i ∧ (t.release g).Holds i :=
          fun i hi ↦ by
            obtain ⟨hs, hholds⟩ := hsame i hi
            exact ⟨hs.toFaithfulAt, hholds.congr (hs.content_eq hholds)⟩
        cases hrest : scanPages (t.release g) ids with
        | mk res' q' =>
          obtain ⟨herrand, hlist⟩ := ih (hvisit.sound hp) hkept hrest
          rw [hrest] at h
          cases res' with
          | error e =>
            cases h
            exact ⟨hvisit.trans herrand, nofun⟩
          | ok more =>
            cases h
            refine ⟨hvisit.trans herrand, ?_⟩
            rintro _ ⟨⟩
            have hmore := hlist more rfl
            rw [listAll_congr fun i hi ↦ (hsame i hi).1.content_eq (hsame i hi).2] at hmore
            exact listAll_cons_eq_ok_iff.2 ⟨_, records, more, hshows, hrecords, hmore, rfl⟩

/-! ## Deleting -/

theorem delete_cases {res : Except Error Unit} (hp : p.Sound) (h : delete p rid = (res, q)) :
    (∃ e, res = .error e ∧ p.Errand ∅ [] ∅ q ∧ (p.guard rid.page = (.error e, q) ∨
      ∃ page, Shows p rid.page page ∧ page.delete rid = .error e)) ∨
    ∃ page page', Shows p rid.page page ∧ page.delete rid = .ok page' ∧ res = .ok () ∧
      p.Errand {rid.page} [] ∅ q ∧ q.content rid.page = .ok page' ∧
      q.file.ids = p.file.ids := by
  rw [delete] at h
  split at h
  next e t hguard =>
    cases h
    exact .inl ⟨e, rfl, errand_of_guard_error hguard, .inl hguard⟩
  next g t hguard =>
    have hshows := shows_of_guard hp hguard
    simp only at h
    split at h
    next page hdelete =>
      cases h
      exact .inr ⟨_, page, hshows, hdelete, rfl,
        errand_of_change hp hguard (.delete rid) trivial hdelete⟩
    next e hdelete =>
      cases h
      exact .inl ⟨e, rfl, errand_of_visit hguard true, .inr ⟨_, hshows, hdelete⟩⟩

/-! ## Storing -/

theorem insertInto_cases {res : Except Error (Option RecordId)} (hp : p.Sound)
    (hid : p.FaithfulAt u id) (hpage : p.content id = .ok page) (htidy : page.Tidy)
    (h : insertInto p id record = (res, q)) :
    (∃ e, res = .error e ∧ p.Errand ∅ [] ∅ q ∧ p.guard id = (.error e, q)) ∨
    (res = .ok none ∧ p.Errand ∅ [] ∅ q ∧ q.file.ids = p.file.ids ∧
      ∃ e, page.add record = .error e) ∨
    ∃ rid page', res = .ok (some rid) ∧ page.add record = .ok (rid, page') ∧
      p.Errand {id} [] ∅ q ∧ q.content id = .ok page' ∧ q.file.ids = p.file.ids := by
  rw [insertInto] at h
  split at h
  next e t hguard =>
    cases h
    exact .inl ⟨e, rfl, errand_of_guard_error hguard, hguard⟩
  next g t hguard =>
    obtain rfl := (shows_of_guard hp hguard).eq hid hpage
    simp only at h
    split at h
    next rid page' hadd =>
      cases h
      exact .inr (.inr ⟨rid, page', rfl, hadd, errand_of_change hp hguard _
        (Page.Edit.safe_of_tidy htidy _) (Page.Edit.apply_add hadd)⟩)
    next e hadd =>
      rw [if_pos (Page.isRecoverable_of_add htidy hadd)] at h
      cases h
      exact .inr (.inl ⟨rfl, errand_of_visit hguard true, ids_of_visit hp hguard _, e, hadd⟩)

theorem checkSize_eq_ok_iff {n : Nat} :
    checkSize n = .ok () ↔ minRecordSize ≤ n ∧ n ≤ maxRecordSize := by
  simp only [checkSize, ite_error_eq_ok_iff, Nat.not_lt, and_true]

theorem checkSize_eq_error {n : Nat} (h : checkSize n = .error e) :
    (n < minRecordSize ∧ e = .recordTooSmall n minRecordSize) ∨
      (maxRecordSize < n ∧ e = .recordTooLarge n maxRecordSize) := by
  rw [checkSize] at h
  split at h
  next hmin =>
    cases h
    exact .inl ⟨hmin, rfl⟩
  next =>
    split at h
    next hmax =>
      cases h
      exact .inr ⟨hmax, rfl⟩
    next => cases h

/-- The last page of the heap takes a record. -/
def Takes (h : Heap) (c : PageId → Except Error Page) (record : List UInt8) : Prop :=
  ∃ last page rid page', h.pages.getLast? = some last ∧ c last = .ok page ∧
    page.add record = .ok (rid, page')

/-- There is an id for a new page, or none is needed. -/
def Affords (h : Heap) (p : Pool ρ) (record : List UInt8) : Prop :=
  p.file.ids.next.toNat + 1 < UInt32.size ∨ h.Takes p.content record

/-- Why a record of a proper size is not stored: its page cannot be pinned, or is full, and then no
new page can be made. -/
inductive Hinders (h : Heap) (p : Pool ρ) (e : Error) (q : Pool ρ) : Prop
  | unpinned (id : PageId) : id ∈ h.pages → p.guard id = (.error e, q) → Hinders h p e q
  | noPage (t : Pool ρ) : p.file.ids.next.toNat + 1 < UInt32.size → p.Errand ∅ [] ∅ t →
      t.file.ids = p.file.ids → t.newPage = (.error e, q) → Hinders h p e q

theorem Hinders.failsWith (hh : h.Hinders p e q) (hp : p.Sound) : ∃ t : Pool ρ, t.Answers e := by
  cases hh with
  | unpinned id _ hguard =>
    exact ⟨p, fetch_failsWith hp.toSteady (fetch_of_guard_error hguard) e rfl⟩
  | noPage t _ herrand _ hnew =>
    exact ⟨t, newPage_failsWith (herrand.sound hp).toSteady hnew e rfl⟩

/-- Where a record was stored: on a page of the heap, or on a new one that is added to it. -/
inductive Grows (h : Heap) (p : Pool ρ) (id : PageId) (page : Page) (h' : Heap) : Prop
  | same : h' = h → id ∈ h.pages → p.content id = .ok page → Grows h p id page h'
  | added : h'.pages = h.pages ++ [id] → id = p.file.ids.next → id.toNat + 1 < UInt32.size →
      ¬ p.Holds id → page = .fresh id → Grows h p id page h'

/-- The three ways in which storing a record ends. -/
inductive Inserts (h : Heap) (p : Pool ρ) (record : List UInt8) :
    Except Error RecordId → Heap → Pool ρ → Prop
  | refused {e : Error} : checkSize record.length = .error e → Inserts h p record (.error e) h p
  | hindered {e : Error} {q : Pool ρ} : checkSize record.length = .ok () → h.Hinders p e q →
      p.Errand ∅ [] ∅ q → Inserts h p record (.error e) h q
  | stored {rid : RecordId} {id : PageId} {page page' : Page} {h' : Heap} {q : Pool ρ} :
      checkSize record.length = .ok () → h.Grows p id page h' → page.Tidy →
      page.add record = .ok (rid, page') → p.Errand {id} [] ∅ q → q.content id = .ok page' →
      (q.file.ids = p.file.ids ∨ id = p.file.ids.next ∧
        q.file.ids.next.toNat = p.file.ids.next.toNat + 1) →
      Inserts h p record (.ok rid) h' q

theorem inserts_of_insertNew {res : Except Error RecordId} (hp : p.Sound)
    (hnext : p.file.ids.next.toNat + 1 < UInt32.size) (ht : p.Errand ∅ [] ∅ t)
    (hids : t.file.ids = p.file.ids) (hsize : checkSize record.length = .ok ())
    (hcall : h.insertNew t record = (res, h', q)) : h.Inserts p record res h' q := by
  have hstart := hnext
  rw [← hids] at hnext
  rw [insertNew] at hcall
  split at hcall
  next e s hguard =>
    cases hcall
    have hnew := newPage_of_guardNew_error hguard
    have hend := ht.trans (.newPageFails .start hnext hnew)
    exact .hindered hsize (.noPage t hstart ht hids hnew) hend
  next g s hguard =>
    have htsound := ht.sound hp
    obtain ⟨hgrips, hid, -, hpage⟩ := grips_of_guardNew htsound hnext hguard
    obtain ⟨-, hdirty⟩ := newPage_of_guardNew hguard
    split at hcall
    next e hadd =>
      -- A fresh page has room for every record of a proper size.
      obtain ⟨hmin, hmax⟩ := checkSize_eq_ok_iff.1 hsize
      obtain ⟨rid, page', hok⟩ := Page.exists_add_fresh g.page hmin hmax
      rw [hpage, hok] at hadd
      cases hadd
    next rid page' hadd =>
      cases hcall
      have happly := Page.Edit.apply_add hadd
      have hsafe : (Page.Edit.add record).Safe (s.page g.handle) := by
        rw [hpage]
        exact Page.Edit.safe_of_tidy (Page.tidy_fresh g.page) _
      have hheld : t.Errand {g.page} [g.page] ∅ s := Errand.start.guardNew hnext hguard
      obtain ⟨hchanged, hgrips', hpage'⟩ := hheld.change htsound hgrips
        (List.mem_singleton_self _) (Set.mem_singleton _) hsafe happly
      have hsteady := (hchanged.sound htsound).toSteady
      have hcontent : ((s.setPage g.handle page').release g).content g.page = .ok page' := by
        rw [content_of_release hsteady, hgrips'.content_eq hsteady, hpage']
      rw [hpage] at hadd
      rw [hids] at hid
      -- The new page's number was the counter's, which no page the pool holds has.
      have hnot : ¬ p.Holds g.page := fun hholds ↦ hp.not_has_next hstart
        (has_of_holds (hp.find?_next hstart) (hid ▸ hholds))
      refine .stored hsize (.added rfl hid (hid ▸ hstart) hnot rfl) (Page.tidy_fresh g.page) hadd
        ((ht.mono (Set.empty_subset _)).trans (hchanged.release_last fun _ ↦ hdirty)) hcontent
        (.inr ⟨hid, ?_⟩)
      rw [file_release, file_setPage,
        ids_of_newPage htsound hnext (newPage_of_guardNew hguard).1, hids]

theorem not_takes_of_none {c : PageId → Except Error Page} (hnone : h.pages.getLast? = none) :
    ¬ h.Takes c record :=
  fun ⟨last, _, _, _, hlast, _⟩ ↦ Option.some_ne_none last (hlast.symm.trans hnone)

theorem not_takes {last : PageId} {c : PageId → Except Error Page}
    (hlast : h.pages.getLast? = some last) (hpage : c last = .ok page)
    (hrefuses : page.add record = .error e) : ¬ h.Takes c record := by
  rintro ⟨last', page', rid, _, hlast', hpage', hadd⟩
  obtain rfl := Option.some.inj (hlast.symm.trans hlast')
  obtain rfl := Except.ok.inj (hpage.symm.trans hpage')
  cases hrefuses.symm.trans hadd

theorem insert_cases {res : Except Error RecordId} (hp : p.Sound) (hids : h.Affords p record)
    (hpages : ∀ id ∈ h.pages, p.FaithfulAt u id ∧ ∃ page, p.content id = .ok page ∧ page.Tidy)
    (hcall : h.insert p record = (res, h', q)) : h.Inserts p record res h' q := by
  rw [insert] at hcall
  split at hcall
  next e hsize =>
    cases hcall
    exact .refused hsize
  next hsize =>
    split at hcall
    next hnone =>
      have hnext := hids.resolve_right (not_takes_of_none hnone)
      exact inserts_of_insertNew hp hnext .start rfl hsize hcall
    next last hlast =>
      have hmem := List.mem_of_getLast? hlast
      obtain ⟨hid, page, hpage, htidy⟩ := hpages last hmem
      split at hcall
      next rid t ht =>
        cases hcall
        obtain ⟨e, ⟨⟩, -⟩ | ⟨⟨⟩, -⟩ | ⟨rid, page', ⟨⟩, hadd, herrand, hcontent, hsame⟩ :=
          insertInto_cases hp hid hpage htidy ht
        exact .stored hsize (.same rfl hmem hpage) htidy hadd herrand hcontent (.inl hsame)
      next t ht =>
        obtain ⟨e, ⟨⟩, -⟩ | ⟨-, herrand, hsame, e, hrefuses⟩ | ⟨rid, page', ⟨⟩, -⟩ :=
          insertInto_cases hp hid hpage htidy ht
        have hnext := hids.resolve_right (not_takes hlast hpage hrefuses)
        exact inserts_of_insertNew hp hnext herrand hsame hsize hcall
      next e t ht =>
        cases hcall
        obtain ⟨e, ⟨⟩, herrand, hguard⟩ | ⟨⟨⟩, -⟩ | ⟨rid, page', ⟨⟩, -⟩ :=
          insertInto_cases hp hid hpage htidy ht
        exact .hindered hsize (.unpinned last hmem hguard) herrand

/-! ## Where records go -/

/-- A record goes to the last page of a heap or, if there is none or it refuses the record, to a
new page. -/
inductive Lands (h : Heap) (c : PageId → Except Error Page) (record : List UInt8) (id : PageId)
    (page : Page) : Prop
  | last : h.pages.getLast? = some id → c id = .ok page → Lands h c record id page
  | added : c id = .error (.pageNotFound id) → id.toNat + 1 < UInt32.size → page = .fresh id →
      (∀ last old, h.pages.getLast? = some last → c last = .ok old →
        ∃ e, old.add record = .error e) → Lands h c record id page

private theorem ne_of_insertNew (hcall : h.insertNew p record = (.ok rid, h', q)) : h' ≠ h := by
  rw [insertNew] at hcall
  split at hcall
  next => cases hcall
  next g s _ =>
    split at hcall
    next => cases hcall
    next page _ =>
      cases hcall
      exact fun heq ↦ List.cons_ne_nil g.page []
        (List.append_right_eq_self.1 (congrArg Heap.pages heq))

private theorem exists_lands_of_insertNew {t : Pool ρ} (hp : p.Sound)
    (hnext : p.file.ids.next.toNat + 1 < UInt32.size) (ht : p.Errand ∅ [] ∅ t)
    (hids : t.file.ids = p.file.ids) (hsize : checkSize record.length = .ok ())
    (hrefuses : ∀ last old, h.pages.getLast? = some last → p.content last = .ok old →
      ∃ e, old.add record = .error e) (hcall : h.insertNew t record = (.ok rid, h', q)) :
    ∃ id page page', h.Lands p.content record id page ∧ page.Tidy ∧
      page.add record = .ok (rid, page') ∧ p.Errand {id} [] ∅ q ∧ q.content id = .ok page' := by
  have hne := ne_of_insertNew hcall
  obtain - | - | ⟨-, hgrows, htidy, hadd, herrand, hcontent, -⟩ :=
    inserts_of_insertNew hp hnext ht hids hsize hcall
  obtain ⟨heq, -⟩ | ⟨-, -, hlast, hnot, hfresh⟩ := hgrows
  · exact absurd heq hne
  · exact ⟨_, _, _, .added (not_not.1 hnot) hlast hfresh hrefuses, htidy, hadd, herrand, hcontent⟩

/-- A record that was stored is on the page where it had to go, and on no other one. -/
theorem exists_lands_of_insert (hp : p.Sound) (hids : h.Affords p record)
    (hpages : ∀ id ∈ h.pages, p.FaithfulAt u id ∧ ∃ page, p.content id = .ok page ∧ page.Tidy)
    (hcall : h.insert p record = (.ok rid, h', q)) :
    ∃ id page page', h.Lands p.content record id page ∧ page.Tidy ∧
      page.add record = .ok (rid, page') ∧ p.Errand {id} [] ∅ q ∧ q.content id = .ok page' := by
  rw [insert] at hcall
  split at hcall
  next => cases hcall
  next hsize =>
    split at hcall
    next hnone =>
      have hnext := hids.resolve_right (not_takes_of_none hnone)
      refine exists_lands_of_insertNew hp hnext .start rfl hsize (fun last old hlast ↦ ?_) hcall
      cases hnone.symm.trans hlast
    next last hlast =>
      obtain ⟨hid, page, hpage, htidy⟩ := hpages last (List.mem_of_getLast? hlast)
      split at hcall
      next rid' t ht =>
        cases hcall
        obtain ⟨e, ⟨⟩, -⟩ | ⟨⟨⟩, -⟩ | ⟨rid, page', ⟨⟩, hadd, herrand, hcontent, -⟩ :=
          insertInto_cases hp hid hpage htidy ht
        exact ⟨last, page, page', .last hlast hpage, htidy, hadd, herrand, hcontent⟩
      next t ht =>
        obtain ⟨e, ⟨⟩, -⟩ | ⟨-, herrand, hsame, e, hrefuses⟩ | ⟨rid, page', ⟨⟩, -⟩ :=
          insertInto_cases hp hid hpage htidy ht
        have hnext := hids.resolve_right (not_takes hlast hpage hrefuses)
        refine exists_lands_of_insertNew hp hnext herrand hsame hsize
          (fun last' old hlast' hold ↦ ?_) hcall
        obtain rfl := Option.some.inj (hlast.symm.trans hlast')
        obtain rfl := Except.ok.inj (hpage.symm.trans hold)
        exact ⟨e, hrefuses⟩
      next => cases hcall

end PagedStorage.Heap
