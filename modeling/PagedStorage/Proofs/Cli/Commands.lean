import PagedStorage.Proofs.Cli.Contents
import PagedStorage.Proofs.Text.Utf8

/-!
# What the commands do to the contents of a file

One theorem for each command that does not make up its records: what is shown, and the map of
records that the contents stand for afterwards. The contents are a `TextFile` before and after.

## Three kinds of commands

A run that only looked things up leaves the bytes as they were, whether or not it found them: no
frame has a change to write, whichever pages were given up meanwhile.

Storing and deleting change one page, which is written when the run flushes. Nothing on a text file
keeps it from being written but the limit of the medium, and only a new page can lie behind this
limit. So deleting always succeeds on a record that is there, and storing may fail once the file is
as long as it can get (`Cli.Flushes`).

Dropping a page goes to the file past the pool. It may make the file longer, by pages that read as
fresh ones and so have no records.

## What is asked of a run

Two things that have nothing to do with the records. A record that needs a new page needs an id for
it before the last one (`Cli.Affords`), and the medium has to have room (`Cli.HasRoom`). Without a
limit the second one is always so, `hasRoom_none`.
-/

namespace PagedStorage.Cli

open Pool

variable {limit? : Option Nat} {c d : Contents} {f : PageFile} {id : PageId} {rid : RecordId}
  {page : Page} {config : PoolConfig} {p q : Pool Policy} {seed : Nat} {settings : Settings}
  {command : Command}

/-! ## The end of a run -/

/-- What becomes of a run once its command was carried out. -/
def conclude : Shown × Pool Policy → Outcome × Contents
  | ({ out := out, failure? := some failure }, pool) =>
    (failing out failure, pool.file.store.contents)
  | ({ out := out, failure? := none }, pool) =>
    match pool.flushAll with
    | (.ok (), pool) => ({ code := 0, out := out }, pool.file.store.contents)
    | (.error e, pool) =>
      (failing out ("Failed to flush buffer pool" :: failureOf e), pool.file.store.contents)

/-- A run on a file that can be opened carries out its command in a pool over it. -/
theorem runOn_eq_of_load {t : Store} (hload : PageFile.load (.onFile limit? c) = (.ok f, t))
    (hpos : 0 < settings.pool.frames) (seed : Nat) (command : Command) :
    runOn limit? seed settings command (.ok c) =
      conclude (perform seed (poolOn f settings.pool) command) := by
  have hpool : Pool.ofConfig f settings.pool = .ok (poolOn f settings.pool) := by
    rw [Pool.ofConfig, PoolConfig.validate, if_neg (Nat.ne_of_gt hpos)]
    rfl
  rw [runOn]
  simp only [hload, hpool]
  rcases perform seed (poolOn f settings.pool) command with ⟨⟨out, _ | failure⟩, q⟩
  · rfl
  · rfl

theorem TextFile.runOn_eq (hc : TextFile limit? c) (hpos : 0 < settings.pool.frames) (seed : Nat)
    (command : Command) :
    ∃ f t, PageFile.load (.onFile limit? c) = (.ok f, t) ∧ Opened limit? c f ∧
      runOn limit? seed settings command (.ok c) =
        conclude (perform seed (poolOn f settings.pool) command) := by
  obtain ⟨f, t, hload, ho⟩ := exists_opened hc.toOpenable
  exact ⟨f, t, hload, ho, runOn_eq_of_load hload hpos seed command⟩

/-- A run that looked things up leaves the bytes as they were, whether it failed or not. -/
theorem Opened.conclude_of_reads (ho : Opened limit? c f) (hpos : 0 < config.frames)
    (hreads : (poolOn f config).Reads ∅ q) (shown : Shown) :
    (conclude (shown, q)).2 = c ∧
      (shown.failure? = none → (conclude (shown, q)).1 = { code := 0, out := shown.out }) := by
  have hp := ho.settled hpos
  have hsame := ho.sameBytes.trans (hreads.sameBytes hp.clean)
  obtain ⟨out, _ | failure⟩ := shown
  · obtain ⟨r, hflush, hbytes⟩ := flushAll_of_clean hreads.ready.toSound hreads.ready.willing
      fun i hi ↦ hp.clean i (hreads.marked i hi)
    rw [conclude, hflush]
    exact ⟨(hsame.trans hbytes).contents_eq, fun _ ↦ rfl⟩
  · exact ⟨hsame.contents_eq, nofun⟩

theorem conclude_of_flush {r : Pool Policy} {line : String} (hflush : q.flushAll = (.ok (), r)) :
    conclude (shown line, q) = ({ code := 0, out := line ++ "\n" }, r.file.store.contents) := by
  rw [shown, conclude, hflush]

/-! ## Looking up -/

theorem TextFile.runOn_get (hc : TextFile limit? c) (hpos : 0 < settings.pool.frames) (seed : Nat)
    (rid : RecordId) :
    (runOn limit? seed settings (.get rid) (.ok c)).2 = c ∧
    ∀ page, (fileOf limit? c).stored rid.page = .ok page →
      (runOn limit? seed settings (.get rid) (.ok c)).1 =
        { code := 0, out := match record? limit? c rid with
          | some record => Utf8.textOf record ++ "\n"
          | none => "record " ++ rid.text ++ " not found" ++ "\n" } := by
  obtain ⟨f, -, -, ho, heq⟩ := hc.runOn_eq hpos seed (.get rid)
  have hp := ho.settled hpos
  obtain ⟨hanswer, hreads⟩ := Heap.get_of_ready hp.ready (hp.exact rid.page)
    (congrFun hp.content_eq rid.page)
  rw [heq, perform]
  rcases hget : Heap.get (poolOn f settings.pool) rid with ⟨res, q⟩
  rw [hget] at hanswer hreads
  subst hanswer
  cases hpage : (fileOf limit? c).stored rid.page with
  | error e =>
    rw [Heap.lookUp, hpage]
    exact ⟨(ho.conclude_of_reads hpos hreads _).1, fun _ h ↦ absurd h error_ne_ok⟩
  | ok page =>
    have hid := (PageFile.readable_of_stored hpage).2
    rw [Heap.lookUp, hpage, ok_bind,
      Heap.found_get (hc.sheet _ _ hpage).tidy.readable hid.symm, record?_of_stored hpage]
    cases page.liveRecord? rid.slot with
    | none =>
      obtain ⟨hcontents, hout⟩ := ho.conclude_of_reads hpos hreads
        (shown ("record " ++ rid.text ++ " not found"))
      exact ⟨hcontents, fun _ _ ↦ hout rfl⟩
    | some record =>
      obtain ⟨hcontents, hout⟩ := ho.conclude_of_reads hpos hreads (shown (Utf8.textOf record))
      exact ⟨hcontents, fun _ _ ↦ hout rfl⟩

/-! ## Deleting -/

theorem TextFile.runOn_delete (hc : TextFile limit? c) (hpos : 0 < settings.pool.frames)
    (seed : Nat) (rid : RecordId) :
    ((runOn limit? seed settings (.delete rid) (.ok c)).2 = c ∧
      (runOn limit? seed settings (.delete rid) (.ok c)).1.code ≠ 0 ∧ record? limit? c rid = none) ∨
    ∃ d, runOn limit? seed settings (.delete rid) (.ok c) =
        ({ code := 0, out := "deleted " ++ rid.text ++ "\n" }, d) ∧ TextFile limit? d ∧
      ∀ i, record? limit? d i = if i = rid then none else record? limit? c i := by
  obtain ⟨f, -, -, ho, heq⟩ := hc.runOn_eq hpos seed (.delete rid)
  have hp := ho.settled hpos
  rw [heq, perform]
  obtain ⟨e, q, hguard, hpage, hreads⟩ | ⟨g, t, hguard, hpage, hreads⟩ :=
    hp.ready.guard_cases (hp.exact rid.page)
  · -- The page is not served: no record of it can be shown, and the pool has only been read.
    rw [hp.content_eq] at hpage
    rw [Heap.delete, hguard]
    exact .inl ⟨(ho.conclude_of_reads hpos hreads (failed e)).1, Nat.one_ne_zero,
      by rw [record?, hpage]⟩
  · rw [hp.content_eq] at hpage
    have hsheet := hc.sheet _ _ hpage
    cases hdelete : (t.page g.handle).delete rid with
    | error e =>
      -- The page refuses and goes back as it was; a live record it would have deleted.
      have hbytes := ho.sameBytes.trans (hreads.sameBytes hp.clean)
      rw [file_release] at hbytes
      rw [Heap.delete, hguard]
      simp only [hdelete]
      refine .inl ⟨?_, Nat.one_ne_zero, ?_⟩
      · rw [failed, conclude, file_release]
        exact hbytes.contents_eq
      · rw [record?_of_stored hpage]
        exact Page.liveRecord?_of_delete_error hsheet.tidy.readable.describes.encloses hdelete
          (PageFile.readable_of_stored hpage).2.symm
    | ok page' =>
      obtain ⟨herrand, hcontent, hids⟩ :=
        Heap.errand_of_change hp.ready.toSound hguard (.delete rid) trivial hdelete
      have hchanged : Changed f settings.pool rid.page page' _ :=
        ⟨herrand, hcontent, hsheet.delete hdelete, .inl hids⟩
      have hfits := hc.fits (PageFile.has_of_stored hpage)
      obtain ⟨r, hflush⟩ := hchanged.flushes ho hc hpos hfits
      obtain ⟨htext, hstored⟩ := hchanged.exchanges ho hc hpos hfits.2 hflush
      rw [Heap.delete, hguard]
      simp only [hdelete]
      refine .inr ⟨_, conclude_of_flush hflush, htext, fun i ↦ ?_⟩
      obtain ⟨-, -, -, hdead, hothers⟩ := Page.liveRecord?_of_delete hsheet.tidy hdelete
      rw [record?_of_exchange_of_others hstored
        (fun j hj ↦ record?_of_stored (hj.symm ▸ hpage)) hothers, hdead]

/-! ## Storing -/

/-- There is room in the file for one page more. -/
def HasRoom (limit? : Option Nat) (c : Contents) : Prop :=
  (fileOf limit? c).store.CanHold ((pageCount c + 1) * pageSize)

theorem hasRoom_none (c : Contents) : HasRoom none c := Store.canHold_of_limit?_eq_none rfl

/-- There is an id before the last one for one page more, or none is needed, since the record goes
to the last page of the heap. -/
def Affords (limit? : Option Nat) (c : Contents) (record : List UInt8) : Prop :=
  pageCount c + 1 < UInt32.size ∨ ∃ f t, PageFile.load (.onFile limit? c) = (.ok f, t) ∧
    (Heap.ofFile f).Takes f.stored record

theorem Opened.affords {t : Store} {record : List UInt8} (ho : Opened limit? c f)
    (hload : PageFile.load (.onFile limit? c) = (.ok f, t)) (hpos : 0 < config.frames)
    (h : Affords limit? c record) : (Heap.ofFile f).Affords (poolOn f config) record := by
  refine h.imp (fun hlt ↦ (ho.next_eq ▸ hlt : f.ids.next.toNat + 1 < UInt32.size)) ?_
  rintro ⟨f', t', hload', htakes⟩
  cases hload.symm.trans hload'
  rwa [(ho.settled hpos).content_eq, ← ho.stored_eq]

theorem lt_of_mem_ofFile (ho : Opened limit? c f) (hid : id ∈ (Heap.ofFile f).pages) :
    id.toNat < pageCount c := by
  obtain ⟨-, hany⟩ := List.mem_filter.1 hid
  rw [← ho.pageCount_eq, ← PageFile.isSome_header?_iff]
  cases hheader : f.header? id with
  | none =>
    rw [hheader] at hany
    cases hany
  | some header => rfl

theorem Opened.exists_tidy (ho : Opened limit? c f) (hc : (fileOf limit? c).Whole)
    (htidy : ∀ i page, (fileOf limit? c).stored i = .ok page → page.Tidy) (hpos : 0 < config.frames)
    (hid : id ∈ (Heap.ofFile f).pages) :
    (poolOn f config).FaithfulAt ∅ id ∧
      ∃ page, (poolOn f config).content id = .ok page ∧ page.Tidy := by
  have hp := ho.settled hpos
  obtain ⟨page, hpage⟩ := hc.readable id (has_iff_lt.2 (lt_of_mem_ofFile ho hid))
  exact ⟨hp.ready.at id, page, (congrFun hp.content_eq id).trans hpage, htidy id page hpage⟩

private theorem Opened.not_hinders {e : Error} (ho : Opened limit? c f) (hc : TextFile limit? c)
    (hpos : 0 < config.frames) : ¬ (Heap.ofFile f).Hinders (poolOn f config) e q := by
  have hp := ho.settled hpos
  have hsound := hp.ready.toSound
  rintro (⟨id, hid, hguard⟩ | ⟨t, hnext, herrand, hids, hnew⟩)
  · obtain ⟨page, hpage, -⟩ := hc.exists_stored (lt_of_mem_ofFile ho hid)
    obtain ⟨e', t, -, hcontent, -⟩ | ⟨g, t, hok, -⟩ := hp.ready.guard_cases (hp.exact id)
    · rw [hp.content_eq, hpage] at hcontent
      cases hcontent
    · cases hguard.symm.trans hok
  · have hfaithful := herrand.faithful_over hp.ready.toFaithful
    have hvacant : ¬ t.Crowded := by
      rw [herrand.crowded_iff hsound]
      exact hp.ready.vacant
    have hmedium := (herrand.medium_eq hp.ready.toFaithful).trans ho.sameBytes.medium_eq
    have hcount : t.file.ids.next.toNat = pageCount c := hids ▸ ho.next_eq
    have hnext : t.file.ids.next.toNat + 1 < UInt32.size := hids ▸ hnext
    have hroomy : t.file.Roomy := by
      refine ⟨?_, hnext⟩
      rw [hcount, Store.canHold_congr hmedium]
      exact hc.canHold
    have hready := ready_of_reliable hfaithful (herrand.inStep hsound hp.ready.inStep) hvacant
      ⟨herrand.willing hp.ready.toFaithful ho.willing, hroomy, hfaithful.ahead.extensible hnext⟩
    obtain ⟨hd, hok⟩ := hready.newPage_ok hnext hnew
    cases hok

/-- The page that a record goes to, as it was before. -/
structure Receives (limit? : Option Nat) (c : Contents) (id : PageId) (page : Page) : Prop where
  page_id : page.id = id
  sheet : Sheet page
  record_eq : ∀ i, i.page = id → record? limit? c i = page.liveRecord? i.slot
  le_count : id.toNat ≤ pageCount c
  lt_last : id.toNat + 1 < UInt32.size
  fits : HasRoom limit? c → (fileOf limit? c).Fits id

private theorem Opened.receives {h' : Heap} (ho : Opened limit? c f) (hc : TextFile limit? c)
    (hpos : 0 < config.frames) (hgrows : (Heap.ofFile f).Grows (poolOn f config) id page h') :
    Receives limit? c id page := by
  have hp := ho.settled hpos
  cases hgrows with
  | same _ _ hpage =>
    rw [hp.content_eq] at hpage
    have hhas := PageFile.has_of_stored hpage
    refine ⟨(PageFile.readable_of_stored hpage).2, hc.sheet id page hpage, ?_,
      Nat.le_of_lt (has_iff_lt.1 hhas), (hc.fits hhas).2, fun _ ↦ hc.fits hhas⟩
    rintro i rfl
    exact record?_of_stored hpage
  | added _ hid hlast hnot hfresh =>
    subst hfresh
    have hnext : id.toNat = pageCount c := hid ▸ ho.next_eq
    refine ⟨rfl, sheet_fresh id, ?_, Nat.le_of_eq hnext, hlast, fun hroom ↦ ⟨?_, hlast⟩⟩
    · rintro i rfl
      rw [Holds, not_not, hp.content_eq] at hnot
      rw [record?, hnot]
      rfl
    · rwa [PageFile.position_add_pageSize, hnext]

/-- What is shown is not that the flush at the end failed. -/
def Flushes (o : Outcome) : Prop :=
  ∀ out e, o ≠ failing out ("Failed to flush buffer pool" :: failureOf e)

theorem flushes_of_code {o : Outcome} (hcode : o.code = 0) : Flushes o := by
  rintro out e rfl
  cases hcode

/-- The record is refused, or it is stored, or it is stored on a new page for which the file has no
room. -/
theorem TextFile.runOn_insert (hc : TextFile limit? c) (hpos : 0 < settings.pool.frames)
    (seed : Nat) (text : String) (hids : Affords limit? c (Utf8.bytesOf text)) :
    (∃ e, Heap.checkSize (Utf8.bytesOf text).length = .error e ∧
      runOn limit? seed settings (.insert text) (.ok c) = (failing "" (failureOf e), c)) ∨
    (∃ rid d, runOn limit? seed settings (.insert text) (.ok c) =
        ({ code := 0, out := "inserted " ++ rid.text ++ "\n" }, d) ∧ TextFile limit? d ∧
      pageCount d ≤ pageCount c + 1 ∧ record? limit? c rid = none ∧
      ∀ i, record? limit? d i = if i = rid then some (Utf8.bytesOf text) else record? limit? c i) ∨
    ¬ HasRoom limit? c ∧ ¬ Flushes (runOn limit? seed settings (.insert text) (.ok c)).1 := by
  obtain ⟨f, t, hload, ho, heq⟩ := hc.runOn_eq hpos seed (.insert text)
  have hp := ho.settled hpos
  rw [heq, perform]
  rcases hinsert : (Heap.ofFile (poolOn f settings.pool).file).insert (poolOn f settings.pool)
    (Utf8.bytesOf text) with ⟨res, h', q⟩
  have hinserts := Heap.insert_cases hp.ready.toSound (ho.affords hload hpos hids)
    (fun id ↦ ho.exists_tidy hc.whole (fun i page hpage ↦ (hc.sheet i page hpage).tidy) hpos)
    hinsert
  cases hinserts with
  -- What can go wrong: the size is refused, or a page fails (not of a settled pool), or the
  -- record is in its page but the flush meets a page with no room in the file.
  | @refused e hsize => exact .inl ⟨e, hsize, Prod.ext rfl ho.sameBytes.contents_eq⟩
  | hindered _ hhinders => exact absurd hhinders (ho.not_hinders hc hpos)
  | @stored rid id page page' _ _ _ hgrows _ hadd herrand hcontent hgiven =>
    have hpage := ho.receives hc hpos hgrows
    have hsheet := hpage.sheet.add hadd
    have hchanged : Changed f settings.pool id page' q :=
      ⟨herrand, hcontent, hsheet, hgiven⟩
    rcases hflush : q.flushAll with ⟨e | ⟨⟩, r⟩
    · refine .inr (.inr ⟨fun hroom ↦ ?_, fun hflushes ↦ ?_⟩)
      · obtain ⟨r', hok⟩ := hchanged.flushes ho hc hpos (hpage.fits hroom)
        cases hflush.symm.trans hok
      · refine hflushes ("inserted " ++ rid.text ++ "\n") e ?_
        simp only [shown, conclude, hflush]
    obtain ⟨htext, hstored⟩ := hchanged.exchanges ho hc hpos hpage.lt_last hflush
    obtain ⟨hrid, hdead, hlive, hothers⟩ :=
      Page.liveRecord?_of_add hpage.sheet.tidy.readable hsheet.tidy.readable hadd
    obtain rfl : rid.page = id := hrid.trans hpage.page_id
    refine .inr (.inl ⟨rid, _, conclude_of_flush hflush, htext,
      pageCount_le_of_exchange htext hstored hpage.le_count,
      (hpage.record_eq rid rfl).trans hdead, fun i ↦ ?_⟩)
    rw [record?_of_exchange_of_others hstored hpage.record_eq hothers, hlive]

/-! ## Dropping pages -/

private theorem delete_ofFile {s : Policy} {n : Nat} : (Pool.ofFile f s n).delete id =
    ((f.deletePage id).1, Pool.ofFile (f.deletePage id).2 s n) := by
  have hmiss : (Pool.ofFile f s n).lookup id = .miss := rfl
  have hdrop : (Pool.ofFile f s n).drop id = (.ok (), Pool.ofFile f s n) := rfl
  rw [Pool.delete, hmiss, hdrop]
  simp only [reduceCtorEq, if_false, land, List.filter_cons, bne_self_eq_false, Bool.false_eq_true]
  rfl

/-- What is left when a page was deleted in the file, or could not be. Pages that came into the
file before it have no records, nor would they have had any before. -/
theorem Opened.deletes {res : Except Error Unit} {g : PageFile} (ho : Opened limit? c f)
    (hc : TextFile limit? c) (h : f.deletePage id = (res, g)) : g.store.Willing ∧
      (id.toNat + 1 < UInt32.size → TextFile limit? g.store.contents) ∧
      ∀ i, record? limit? g.store.contents i =
        if i.page = id ∧ res = .ok () then none else record? limit? c i := by
  have hf := hc.whole.congr ho.sameBytes
  obtain ⟨res', hwrite, hres⟩ : ∃ res', f.writePage (.fresh id) = (res', g) ∧
      (res' = .ok () ↔ res = .ok ()) := by
    obtain ⟨hwrite, hok⟩ | ⟨e, e', hwrite, herror, -⟩ := PageFile.deletePage_cases h
    · exact ⟨_, hwrite, iff_of_true rfl hok⟩
    · exact ⟨_, hwrite, iff_of_false nofun (by rw [herror]; nofun)⟩
  have hbytes : g.SameBytes (fileOf limit? g.store.contents) :=
    ⟨((PageFile.writePage_cases hwrite).2.medium_eq.trans ho.sameBytes.medium_eq).symm, rfl⟩
  -- A deleted page reads back as a fresh one, which holds no record.
  have hself (hok : res' = .ok ()) :
      (fileOf limit? g.store.contents).stored id = .ok (.fresh id) := by
    subst hok
    rw [hbytes.stored_eq]
    exact (PageFile.stored_of_writePage hwrite).trans
      (PageFile.pageOf_image_iff.2 ⟨(Page.tidy_fresh id).readable, rfl⟩)
  have hcases (i : PageId) :
      (fileOf limit? g.store.contents).stored i = (fileOf limit? c).stored i ∨
      (i = id ∧ res' = .ok ()) ∨
      ¬ (fileOf limit? c).Has i ∧ (fileOf limit? g.store.contents).stored i = .ok (.fresh i) := by
    have hhas : f.Has i ↔ (fileOf limit? c).Has i := by
      rw [PageFile.Has, PageFile.Has, ho.sameBytes.contents_eq]
    rw [hbytes.stored_eq, ← ho.sameBytes.stored_eq, ← hhas]
    obtain ⟨-, hsame⟩ | ⟨rfl, hok⟩ | ⟨hnot, hfresh, -⟩ := hf.cases_of_writePage hwrite i
    · exact .inl hsame
    · exact .inr (.inl ⟨rfl, hok⟩)
    · exact .inr (.inr ⟨hnot, hfresh⟩)
  have hfresh {i : PageId} {page : Page} (hpage : (.ok page : Except Error Page) = .ok (.fresh i)) :
      Sheet page := Except.ok.inj hpage ▸ sheet_fresh i
  refine ⟨PageFile.willing_of_writePage ho.willing hwrite, fun hid ↦
    hc.of_exchange ⟨(hf.writePage (Page.tidy_fresh id).readable hwrite).congr hbytes,
      (ho.lacksLast.writePage (p := .fresh id) hid hwrite).count_lt⟩ fun i page hpage ↦ ?_,
    fun i ↦ ?_⟩
  · obtain hsame | ⟨rfl, hok⟩ | ⟨-, hnew⟩ := hcases i
    · exact .inl (hsame ▸ hpage)
    · exact .inr (hfresh (hpage.symm.trans (hself hok)))
    · exact .inr (hfresh (hpage.symm.trans hnew))
  · by_cases hdrop : i.page = id ∧ res = .ok ()
    · rw [if_pos hdrop, record?_of_stored (hdrop.1 ▸ hself (hres.2 hdrop.2))]
      rfl
    · rw [if_neg hdrop]
      obtain hsame | hdrop' | ⟨hnot, hnew⟩ := hcases i.page
      · rw [record?, hsame, record?]
      · exact absurd ⟨hdrop'.1, hres.1 hdrop'.2⟩ hdrop
      · rw [record?_of_stored hnew, record?, PageFile.stored_of_not_has hnot]
        rfl

theorem TextFile.runOn_dropPage (hc : TextFile limit? c) (hpos : 0 < settings.pool.frames)
    (seed : Nat) (id : PageId) :
    ∃ o d, runOn limit? seed settings (.dropPage id) (.ok c) = (o, d) ∧
      (id.toNat + 1 < UInt32.size → TextFile limit? d) ∧
      ((o.code ≠ 0 ∧ ¬ (fileOf limit? c).store.CanHold (PageFile.position id + pageSize) ∧
          ∀ i, record? limit? d i = record? limit? c i) ∨
        o = { code := 0, out := "dropped page " ++ toString id ++ "\n" } ∧
          ∀ i, record? limit? d i = if i.page = id then none else record? limit? c i) := by
  obtain ⟨f, -, -, ho, heq⟩ := hc.runOn_eq hpos seed (.dropPage id)
  rw [heq, perform, delete_ofFile]
  rcases hdelete : f.deletePage id with ⟨res, g⟩
  obtain ⟨hwilling, htext, hrecord⟩ := ho.deletes hc hdelete
  cases res with
  | error e =>
    refine ⟨_, _, rfl, htext, .inl ⟨Nat.one_ne_zero, fun hroom ↦ ?_,
      fun i ↦ (hrecord i).trans (if_neg fun hdrop ↦ nomatch hdrop.2)⟩⟩
    have hok : (f.deletePage id).1 = .ok () :=
      PageFile.fst_deletePage_of_canHold ho.willing ho.lacksLast.extensible
        ((Store.canHold_congr ho.sameBytes.medium_eq).2 hroom)
    rw [hdelete] at hok
    cases hok
  | ok =>
    have hahead := (PageFile.ahead_of_deletePage hdelete (fun hne ↦ absurd rfl hne)
      (ho.settled hpos).ready.toSound.ahead).2
    obtain ⟨r, hflush, hbytes⟩ := flushAll_of_clean (p := poolOn g settings.pool)
      (sound_ofFile hahead) hwilling fun i ⟨_, hi, _⟩ ↦ nomatch hi
    refine ⟨_, _, conclude_of_flush hflush, ?_, .inr ⟨rfl, fun i ↦ ?_⟩⟩
    · rw [hbytes.contents_eq]
      exact htext
    · rw [hbytes.contents_eq]
      exact (hrecord i).trans (by simp only [and_true])

/-! ## Showing all pages -/

/-- A page with its records, as it is shown. -/
def blockText (b : Page × List (RecordId × String)) : String :=
  b.1.summary ++ "\n" ++
    String.join (b.2.map fun (id, text) ↦ "  " ++ id.text ++ " " ++ text ++ "\n")

def listingText : List (Page × List (RecordId × String)) → String
  | [] => ""
  | b :: rest => blockText b ++ listingText rest

/-- A page of the file, with all records on it and each of them once. -/
structure Lists (limit? : Option Nat) (c : Contents) (b : Page × List (RecordId × String)) :
    Prop where
  stored : (fileOf limit? c).stored b.1.id = .ok b.1
  nodup : (b.2.map (·.1)).Nodup
  mem_iff : ∀ rid text, (rid, text) ∈ b.2 ↔
    rid.page = b.1.id ∧ record? limit? c rid = some (Utf8.bytesOf text)

theorem TextFile.lists (hc : TextFile limit? c) (hpage : (fileOf limit? c).stored id = .ok page) :
    ∃ records, page.records = .ok records ∧
      Lists limit? c (page, records.map fun (rid, record) ↦ (rid, Utf8.textOf record)) := by
  have hsheet := hc.sheet id page hpage
  have hd := hsheet.tidy.readable.describes
  obtain ⟨-, rfl⟩ := PageFile.readable_of_stored hpage
  obtain ⟨records, hrecords, hnodup, hmem⟩ := Page.exists_records hd.encloses
  refine ⟨records, hrecords, hpage, ?_, fun rid text ↦ ?_⟩
  · rw [List.map_map]
    exact hnodup
  · have hlive (record : List UInt8) : (rid, record) ∈ records ↔
        rid.page = page.id ∧ page.liveRecord? rid.slot = some record := by
      rw [hmem, Page.get_eq_ok_iff hd.encloses]
    constructor
    · intro htext
      obtain ⟨⟨rid', record⟩, hrecord, heq⟩ := List.mem_map.1 htext
      obtain ⟨rfl, rfl⟩ := Prod.mk.inj heq
      obtain ⟨hid, hrecord⟩ := (hlive record).1 hrecord
      obtain ⟨text, rfl⟩ := hsheet.spelled _ _ hrecord
      rw [Utf8.textOf_bytesOf]
      exact ⟨hid, (record?_of_stored (hid ▸ hpage)).trans hrecord⟩
    · rintro ⟨hid, hrecord⟩
      rw [record?_of_stored (hid ▸ hpage)] at hrecord
      exact List.mem_map.2
        ⟨_, (hlive _).2 ⟨hid, hrecord⟩, Prod.ext rfl (Utf8.textOf_bytesOf text)⟩

theorem TextFile.dumpPages_eq {ids : List PageId} (hc : TextFile limit? c)
    (hp : p.Settled (fileOf limit? c).stored) (hids : ∀ i ∈ ids, i.toNat < pageCount c) :
    ∃ listing q, dumpPages p ids = ({ out := listingText listing }, q) ∧ p.Reads ∅ q ∧
      listing.map (·.1.id) = ids ∧ ∀ b ∈ listing, Lists limit? c b := by
  induction ids generalizing p with
  | nil => exact ⟨[], p, rfl, hp.ready.reads, rfl, fun _ hb ↦ absurd hb List.not_mem_nil⟩
  | cons id ids ih =>
    rw [List.forall_mem_cons] at hids
    obtain ⟨page, hpage, -⟩ := hc.exists_stored hids.1
    obtain ⟨e, t, -, hcontent, -⟩ | ⟨g, t, hguard, hcontent, hreads⟩ :=
      hp.ready.guard_cases (hp.exact id)
    · rw [hp.content_eq, hpage] at hcontent
      cases hcontent
    · rw [hp.content_eq, hpage] at hcontent
      obtain rfl := Except.ok.inj hcontent
      obtain ⟨records, hrecords, hlists⟩ := hc.lists hpage
      obtain ⟨listing, q, hrest, hreads', hmap, hall⟩ := ih (hp.of_reads hreads) hids.2
      refine ⟨_ :: listing, q, ?_, hreads.trans hreads', ?_, List.forall_mem_cons.2 ⟨hlists, hall⟩⟩
      · rw [dumpPages, hguard]
        simp only [hrecords, hrest, listingText, blockText, List.map_map]
        rfl
      · rw [List.map_cons, hmap, (PageFile.readable_of_stored hpage).2]

theorem TextFile.runOn_dump (hc : TextFile limit? c) (hpos : 0 < settings.pool.frames)
    (seed : Nat) :
    ∃ listing, runOn limit? seed settings .dump (.ok c) =
        ({ code := 0, out := listingText listing }, c) ∧
      listing.map (·.1.id) = (List.range (pageCount c)).map UInt32.ofNat ∧
      ∀ b ∈ listing, Lists limit? c b := by
  obtain ⟨f, -, -, ho, heq⟩ := hc.runOn_eq hpos seed .dump
  have hids : ∀ i ∈ (List.range (pageCount c)).map UInt32.ofNat, i.toNat < pageCount c := by
    simp only [List.forall_mem_map, List.mem_range]
    intro n hn
    have hcount := hc.count_lt
    rwa [UInt32.toNat_ofNat_of_lt' (by omega)]
  obtain ⟨listing, q, hdump, hreads, hmap, hall⟩ := hc.dumpPages_eq (ho.settled hpos) hids
  obtain ⟨hcontents, hout⟩ := ho.conclude_of_reads hpos hreads { out := listingText listing }
  refine ⟨listing, ?_, hmap, hall⟩
  have hcount : (poolOn f settings.pool).file.pageCount = pageCount c := ho.pageCount_eq
  rw [heq, perform, hcount, hdump]
  exact Prod.ext (hout rfl) hcontents

/-! ## Any of these -/

/-- A run that needs no id but those before the last one. -/
def WithinIds (limit? : Option Nat) (c : Contents) : Command → Prop
  | .insert text => Affords limit? c (Utf8.bytesOf text)
  | .dropPage id => id.toNat + 1 < UInt32.size
  | _ => True

/-- A run in which the medium did not fail. Of the commands here it can only be storing for which
the medium has no room, and then the flush fails. -/
def Undisturbed (o : Outcome) : Command → Prop
  | .insert _ => Flushes o
  | .fill .. => False
  | _ => True

theorem TextFile.runOn (hc : TextFile limit? c) (hpos : 0 < settings.pool.frames)
    (hids : WithinIds limit? c command)
    (hrun : Undisturbed (runOn limit? seed settings command (.ok c)).1 command) :
    TextFile limit? (runOn limit? seed settings command (.ok c)).2 := by
  cases command with
  | insert text =>
    obtain ⟨e, -, heq⟩ | ⟨rid, d, heq, hd, -⟩ | ⟨-, hnot⟩ := hc.runOn_insert hpos seed text hids
    · rw [heq]
      exact hc
    · rw [heq]
      exact hd
    · exact absurd hrun hnot
  | get rid =>
    rw [(hc.runOn_get hpos seed rid).1]
    exact hc
  | delete rid =>
    obtain ⟨heq, -⟩ | ⟨d, heq, hd, -⟩ := hc.runOn_delete hpos seed rid
    · rw [heq]
      exact hc
    · rw [heq]
      exact hd
  | dropPage id =>
    obtain ⟨o, d, heq, hd, -⟩ := hc.runOn_dropPage hpos seed id
    rw [heq]
    exact hd hids
  | dump =>
    obtain ⟨listing, heq, -⟩ := hc.runOn_dump hpos seed
    rw [heq]
    exact hc
  | fill => exact hrun.elim

end PagedStorage.Cli
