import PagedStorage.Cli.Run
import PagedStorage.Proofs.Heap.Records
import PagedStorage.Proofs.Heap.Walks
import PagedStorage.Proofs.PageFile.Index
import PagedStorage.Proofs.Pool.LastId
import PagedStorage.Proofs.Pool.Settled

/-!
# What runs find in a file and leave there

Between two runs there are only the bytes of the file. They stand for a map of records,
`Cli.record?`, and this view does not depend on the index or the pool of any run. A run can work
with them if all pages can be read and are filled as storing and deleting fill them, `Cli.TextFile`.
Then the file can be opened, and the pool over it shows the pages of the file.

## The limit of the medium and the last id

What the file lies in may set it a limit, `limit?`. It bounds where pages can be written and has no
part in what they stand for. There need not be one. In any case there is no id behind the last one
of 32 bits: the file has at most the pages that come before that one, so that there is always an id
behind its pages.

## One page

A run changes one page at most and flushes, or it fails and does not flush. In the first case the
bytes that it leaves stand for the same pages but for this one, `Changed.exchanges`. This is where
the pool is left behind: the flush writes what waits in frames, the frames that do not wait hold
what is in the file, and so the pages of the pool are those of the file.

The page may be a new one. Then the file may get longer, by that page alone, since a new page comes
right behind the pages that were there when the file was opened.
-/

namespace PagedStorage.Cli

open Pool

variable {limit? : Option Nat} {c d : Contents} {f : PageFile} {id : PageId} {rid : RecordId}
  {page : Page} {config : PoolConfig} {q : Pool Policy}

/-! ## The map of records -/

/-- The file with given contents, before it is opened. -/
def fileOf (limit? : Option Nat) (c : Contents) : PageFile := { store := .onFile limit? c }

def pageCount (c : Contents) : Nat := c.size / pageSize

/-- The record under an address in a file with given contents. -/
def record? (limit? : Option Nat) (c : Contents) (rid : RecordId) : Option (List UInt8) :=
  match (fileOf limit? c).stored rid.page with
  | .ok page => page.liveRecord? rid.slot
  | .error _ => none

theorem has_iff_lt : (fileOf limit? c).Has id ↔ id.toNat < pageCount c := by
  rw [PageFile.Has, PageFile.position_add_pageSize, pageCount, Nat.lt_iff_add_one_le,
    Nat.le_div_iff_mul_le (by decide)]
  rfl

theorem record?_of_stored (h : (fileOf limit? c).stored rid.page = .ok page) :
    record? limit? c rid = page.liveRecord? rid.slot := by
  rw [record?, h]

private theorem record?_of_le (h : pageCount c ≤ rid.page.toNat) : record? limit? c rid = none := by
  rw [record?, PageFile.stored_of_not_has (mt has_iff_lt.1 (Nat.not_lt.2 h))]

theorem lt_of_record? {record : List UInt8} (h : record? limit? c rid = some record) :
    rid.page.toNat < pageCount c :=
  Nat.lt_of_not_le fun hle ↦ Option.some_ne_none record (h.symm.trans (record?_of_le hle))

/-- The map depends on the pages, of which one was exchanged. -/
theorem record?_of_exchange
    (h : ∀ i, (fileOf limit? d).stored i =
      if i = id then .ok page else (fileOf limit? c).stored i) :
    record? limit? d rid =
      if rid.page = id then page.liveRecord? rid.slot else record? limit? c rid := by
  rw [record?, h, record?]
  by_cases hid : rid.page = id
  · rw [if_pos hid, if_pos hid]
  · rw [if_neg hid, if_neg hid]

theorem record?_of_exchange_of_others {old : Page}
    (h : ∀ i, (fileOf limit? d).stored i =
      if i = rid.page then .ok page else (fileOf limit? c).stored i)
    (hold : ∀ i, i.page = rid.page → record? limit? c i = old.liveRecord? i.slot)
    (hothers : ∀ slot, slot ≠ rid.slot → page.liveRecord? slot = old.liveRecord? slot)
    (i : RecordId) :
    record? limit? d i = if i = rid then page.liveRecord? rid.slot else record? limit? c i := by
  rw [record?_of_exchange h]
  by_cases hi : i = rid
  · rw [if_pos hi, hi, if_pos rfl]
  · rw [if_neg hi]
    split
    next heq => rw [hold i heq, hothers _ (Page.slot_ne_of_ne hi heq)]
    next => rfl

/-- A page as runs leave it: filled by storing and deleting, with records that were texts. -/
structure Sheet (page : Page) : Prop where
  tidy : page.Tidy
  spelled : ∀ slot record, page.liveRecord? slot = some record →
    ∃ text, record = Utf8.bytesOf text

theorem sheet_fresh (id : PageId) : Sheet (.fresh id) := ⟨Page.tidy_fresh id, nofun⟩

theorem Sheet.add {page' : Page} {text : String} (h : Sheet page)
    (hadd : page.add (Utf8.bytesOf text) = .ok (rid, page')) : Sheet page' := by
  have htidy : page'.Tidy := Page.Edit.tidy_apply h.tidy (Page.Edit.apply_add hadd)
  obtain ⟨-, -, hlive, hothers⟩ := Page.liveRecord?_of_add h.tidy.readable htidy.readable hadd
  refine ⟨htidy, fun slot record hrecord ↦ ?_⟩
  by_cases hslot : slot = rid.slot
  · rw [hslot, hlive] at hrecord
    exact ⟨text, (Option.some.inj hrecord).symm⟩
  · rw [hothers slot hslot] at hrecord
    exact h.spelled slot record hrecord

theorem Sheet.delete {page' : Page} (h : Sheet page) (hdelete : page.delete rid = .ok page') :
    Sheet page' := by
  obtain ⟨-, -, -, hdead, hothers⟩ := Page.liveRecord?_of_delete h.tidy hdelete
  refine ⟨Page.Edit.tidy_apply (e := .delete rid) h.tidy hdelete, fun slot record hrecord ↦ ?_⟩
  by_cases hslot : slot = rid.slot
  · rw [hslot, hdead] at hrecord
    cases hrecord
  · rw [hothers slot hslot] at hrecord
    exact h.spelled slot record hrecord

/-- Contents that can be opened: every page can be read, and there is an id behind the pages. -/
structure Openable (limit? : Option Nat) (c : Contents) : Prop where
  whole : (fileOf limit? c).Whole
  count_lt : pageCount c < UInt32.size

/-- The contents that runs leave. -/
structure TextFile (limit? : Option Nat) (c : Contents) : Prop extends Openable limit? c where
  sheet : ∀ id page, (fileOf limit? c).stored id = .ok page → Sheet page

theorem textFile_empty : TextFile limit? {} := by
  have hnot (id : PageId) : ¬ (fileOf limit? {}).Has id := mt has_iff_lt.1 (Nat.not_lt_zero _)
  refine ⟨⟨⟨fun id hid ↦ absurd hid (hnot id), fun id hid ↦ absurd hid (hnot id),
    fun id _ ↦ .inr fun i _ ↦ Contents.byte_of_size_le _ (Nat.zero_le _)⟩,
    (by decide : 0 < UInt32.size)⟩, fun id page hpage ↦ ?_⟩
  rw [PageFile.stored_of_not_has (hnot id)] at hpage
  cases hpage

theorem TextFile.exists_stored (hc : TextFile limit? c) (hid : id.toNat < pageCount c) :
    ∃ page, (fileOf limit? c).stored id = .ok page ∧ Sheet page := by
  obtain ⟨page, hpage⟩ := hc.whole.readable id (has_iff_lt.2 hid)
  exact ⟨page, hpage, hc.sheet id page hpage⟩

theorem TextFile.fits (hc : TextFile limit? c) (hid : (fileOf limit? c).Has id) :
    (fileOf limit? c).Fits id :=
  ⟨hc.whole.withinLimit id hid, Nat.lt_of_le_of_lt (has_iff_lt.1 hid) hc.count_lt⟩

theorem TextFile.canHold (hc : TextFile limit? c) :
    (fileOf limit? c).store.CanHold (pageCount c * pageSize) := by
  cases hcount : pageCount c with
  | zero =>
    rw [Nat.zero_mul]
    exact fun limit _ ↦ Nat.zero_le limit
  | succ n =>
    have hlt := hc.count_lt
    have hid : (UInt32.ofNat n).toNat = n := UInt32.toNat_ofNat_of_lt' (by omega)
    have hhas : (fileOf limit? c).Has (.ofNat n) := has_iff_lt.2 (by rw [hid]; omega)
    have hfits := hc.whole.withinLimit _ hhas
    rwa [PageFile.position_add_pageSize, hid] at hfits

/-- Only pages that texts were stored on, or fresh ones, have come in. -/
theorem TextFile.of_exchange (hc : TextFile limit? c) (hd : Openable limit? d)
    (h : ∀ i page, (fileOf limit? d).stored i = .ok page →
      (fileOf limit? c).stored i = .ok page ∨ Sheet page) : TextFile limit? d :=
  ⟨hd, fun i page hpage ↦ (h i page hpage).elim (hc.sheet i page) fun hsheet ↦ hsheet⟩

theorem pageCount_le_of_exchange (hd : TextFile limit? d)
    (h : ∀ i, (fileOf limit? d).stored i = if i = id then .ok page else (fileOf limit? c).stored i)
    (hid : id.toNat ≤ pageCount c) : pageCount d ≤ pageCount c + 1 := by
  by_contra hle
  have hcount := hd.count_lt
  have hbehind : (UInt32.ofNat (pageCount c + 1)).toNat = pageCount c + 1 :=
    UInt32.toNat_ofNat_of_lt' (by omega)
  have hne : UInt32.ofNat (pageCount c + 1) ≠ id := by
    rintro rfl
    omega
  have hlt : (UInt32.ofNat (pageCount c + 1)).toNat < pageCount d := by omega
  obtain ⟨old, hold, -⟩ := hd.exists_stored hlt
  rw [h, if_neg hne] at hold
  have hlt := has_iff_lt.1 (PageFile.has_of_stored hold)
  omega

/-! ## Opening -/

/-- A file that was opened with given contents. -/
structure Opened (limit? : Option Nat) (c : Contents) (f : PageFile) : Prop where
  sameBytes : (fileOf limit? c).SameBytes f
  willing : f.store.Willing
  next_eq : f.ids.next.toNat = pageCount c
  pageCount_eq : f.pageCount = pageCount c

theorem exists_opened (hc : Openable limit? c) :
    ∃ f t, PageFile.load (.onFile limit? c) = (.ok f, t) ∧ Opened limit? c f := by
  obtain ⟨f, t, hload, hsame, hwilling⟩ := hc.whole.load (Nat.le_of_lt hc.count_lt)
  refine ⟨f, t, hload, hsame, hwilling, ?_, ?_⟩
  · obtain ⟨u, headers, -, -, rfl⟩ := PageFile.load_eq hload
    exact UInt32.toNat_ofNat_of_lt' hc.count_lt
  · exact (PageFile.Opened.load hload).indexed.trans (by rw [hsame.contents_eq]; rfl)

/-- The pool of a run. -/
abbrev poolOn (f : PageFile) (config : PoolConfig) : Pool Policy :=
  .ofFile f (.ofKind config.frames config.replacer) config.frames

theorem header?_of_load {t : Store} (hload : PageFile.load (.onFile limit? c) = (.ok f, t))
    (ho : Opened limit? c f) (hpage : (fileOf limit? c).stored id = .ok page) :
    f.header? id = some page.header := by
  have hlt := has_iff_lt.1 (PageFile.has_of_stored hpage)
  rw [← ho.pageCount_eq, ← PageFile.isSome_header?_iff, Option.isSome_iff_exists] at hlt
  obtain ⟨h, hheader⟩ := hlt
  rw [← ho.sameBytes.stored_eq] at hpage
  have hthere := PageFile.mirrors_of_load hload id h hheader
  rw [hheader, Except.ok.inj (hthere.headerOf_eq.symm.trans
    (PageFile.hasHeader_of_stored hpage).headerOf_eq)]

theorem Opened.ahead (ho : Opened limit? c f) : f.Ahead := by
  have hnext : f.pageCount ≤ f.ids.next.toNat :=
    Nat.le_of_eq (ho.pageCount_eq.trans ho.next_eq.symm)
  refine ⟨.inl ?_, .inl hnext⟩
  rw [ho.next_eq, ho.sameBytes.contents_eq]
  exact Nat.le_refl _

theorem Opened.count_lt (ho : Opened limit? c f) : pageCount c < UInt32.size :=
  ho.next_eq ▸ f.ids.next.toNat_lt

theorem Opened.lacksLast (ho : Opened limit? c f) : f.LacksLast := by
  have hcount := ho.count_lt
  refine ⟨fun id hid ↦ ?_, (ho.pageCount_eq ▸ hcount : f.pageCount < UInt32.size)⟩
  rw [PageFile.Has, ho.sameBytes.contents_eq] at hid
  have hlt : id.toNat < pageCount c := has_iff_lt.1 hid
  omega

theorem Opened.stored_eq (ho : Opened limit? c f) : f.stored = (fileOf limit? c).stored :=
  funext ho.sameBytes.stored_eq

theorem Opened.settled (ho : Opened limit? c f) (hpos : 0 < config.frames) :
    (poolOn f config).Settled (fileOf limit? c).stored := by
  rw [← ho.stored_eq]
  exact settled_ofFile ho.ahead ho.willing hpos (Nat.le_refl _)

/-! ## Writing back -/

/-- A pool over an opened file after an errand that changed one page, which may be a new one. -/
structure Changed (f : PageFile) (config : PoolConfig) (id : PageId) (page : Page)
    (q : Pool Policy) : Prop where
  errand : (poolOn f config).Errand {id} [] ∅ q
  content_eq : q.content id = .ok page
  sheet : Sheet page
  ids : q.file.ids = f.ids ∨ id = f.ids.next ∧ q.file.ids.next.toNat = f.ids.next.toNat + 1

theorem Changed.lacksLast (h : Changed f config id page q) (ho : Opened limit? c f)
    (hpos : 0 < config.frames) (hid : id.toNat + 1 < UInt32.size) : q.LacksLast := by
  refine h.errand.lacksLast (ho.settled hpos).ready.toSound ?_ (lacksLast_ofFile ho.lacksLast)
  rintro i rfl
  exact hid

theorem Changed.lt_or_eq {i : PageId} (h : Changed f config id page q) (ho : Opened limit? c f)
    (hi : q.file.ids.Covers (i.toNat + 1)) (hlast : i.toNat + 1 < UInt32.size) :
    i.toNat < pageCount c ∨ i = id := by
  have hcount := ho.count_lt
  have hnext := ho.next_eq
  rw [IdCounter.Covers] at hi
  obtain heq | ⟨hid, heq⟩ := h.ids
  · rw [heq] at hi
    exact .inl (by omega)
  · have hor : i.toNat < pageCount c ∨ i.toNat = pageCount c := by omega
    refine hor.imp_right fun heq' ↦ UInt32.toNat_inj.1 ?_
    rw [heq', hid, hnext]

/-- All that waits can be written, if the page can be. -/
theorem Changed.flushes (h : Changed f config id page q) (ho : Opened limit? c f)
    (hc : TextFile limit? c) (hpos : 0 < config.frames) (hfits : (fileOf limit? c).Fits id) :
    ∃ r, q.flushAll = (.ok (), r) := by
  have hp := (ho.settled hpos).ready
  have hq : q.Faithful ∅ := h.errand.faithful_over hp.toFaithful
  have hlacks := h.lacksLast ho hpos hfits.2
  have hmedium := (h.errand.medium_eq hp.toFaithful).trans ho.sameBytes.medium_eq
  have hwritable : q.Writable := by
    intro i hi
    have ⟨g, hg, _⟩ := hi
    have hlast := hlacks.frames i g hg
    refine ⟨hlacks.file.extensible, PageFile.Fits.congr (f := fileOf limit? c) ?_ hmedium⟩
    obtain hlt | rfl := h.lt_or_eq ho (hq.covers_of_marked hi) hlast
    · exact ⟨hc.whole.withinLimit i (has_iff_lt.2 hlt), hlast⟩
    · exact hfits
  have hunused (i : PageId) : q.users i = 0 := by
    rw [h.errand.users_eq hp.toSound, users_ofFile, List.count_nil]
  rcases hflush : q.flushAll with ⟨res, r⟩
  obtain ⟨rfl, -⟩ := flushAll_ok hq.toSound (h.errand.willing hp.toFaithful ho.willing)
    (fun i ↦ not_full_of_unused (hunused i)) hwritable hflush
  exact ⟨r, rfl⟩

/-- After the flush the pool shows the pages of the file, but for the one that was changed. -/
theorem Changed.content_of_flush {r : Pool Policy} (h : Changed f config id page q)
    (ho : Opened limit? c f) (hc : TextFile limit? c) (hpos : 0 < config.frames)
    (hid : id.toNat + 1 < UInt32.size) (hflush : q.flushAll = (.ok (), r)) (i : PageId) :
    r.content i = if i = id then .ok page else (fileOf limit? c).stored i := by
  have hp := ho.settled hpos
  have hsound := hp.ready.toSound
  have hq : q.Faithful ∅ := h.errand.faithful_over hp.ready.toFaithful
  have hspares := spares_of_flushAll hq.toSound (hq.at i) hflush
  by_cases hne : i = id
  · subst hne
    rw [if_pos rfl, hspares.content_eq (holds_of_content h.content_eq), h.content_eq]
  · rw [if_neg hne, ← hp.content_eq]
    by_cases hi : (poolOn f config).Holds i
    · have hkept := (h.errand.spares hsound (hp.ready.at i) hne).content_eq hi
      rw [hspares.content_eq (hi.congr hkept), hkept]
    · -- A page that was not there is not there now.
      have hgone : ¬ r.Holds i := by
        intro hholds
        have hcovers := (sound_of_flushAll hq.toSound hflush).covers_of_holds hholds
        rw [(served_of_flushAll hq hflush).ids_eq] at hcovers
        have hlast := ((h.lacksLast ho hpos hid).flushAll hq.toSound hflush).lt_of_holds hholds
        have hlt := (h.lt_or_eq ho hcovers hlast).resolve_right hne
        obtain ⟨old, hold, -⟩ := hc.exists_stored hlt
        exact hi (holds_of_content ((congrFun hp.content_eq i).trans hold))
      rw [Holds, not_not] at hi hgone
      rw [hi, hgone]

/-- So the file holds the pages that it held before, but for this one. -/
theorem Changed.exchanges {r : Pool Policy} (h : Changed f config id page q)
    (ho : Opened limit? c f) (hc : TextFile limit? c) (hpos : 0 < config.frames)
    (hid : id.toNat + 1 < UInt32.size) (hflush : q.flushAll = (.ok (), r)) :
    TextFile limit? r.file.store.contents ∧ ∀ i, (fileOf limit? r.file.store.contents).stored i =
      if i = id then .ok page else (fileOf limit? c).stored i := by
  have hp := (ho.settled hpos).ready.toFaithful
  have hr := h.errand.atRest_of_flush ho.ahead hpos (Nat.le_refl _) hflush
  have hserved := served_of_flushAll (h.errand.faithful_over hp) hflush
  have hmedium : r.file.store.medium = .file limit? :=
    (h.errand.medium_of_flush ho.ahead hflush).trans ho.sameBytes.medium_eq
  have hbytes : r.file.SameBytes (fileOf limit? r.file.store.contents) := ⟨hmedium.symm, rfl⟩
  have hwhole := hserved.whole (h.errand.whole hp (hc.whole.congr ho.sameBytes))
  have hstored (i : PageId) : (fileOf limit? r.file.store.contents).stored i =
      if i = id then .ok page else (fileOf limit? c).stored i := by
    rw [hbytes.stored_eq, ← hr.content_eq_stored, h.content_of_flush ho hc hpos hid hflush]
  have hq := h.errand.sound (ho.settled hpos).ready.toSound
  have hcount := ((h.lacksLast ho hpos hid).flushAll hq hflush).file.count_lt
  refine ⟨hc.of_exchange ⟨hwhole.congr hbytes, hcount⟩ fun i old hold ↦ ?_, hstored⟩
  rw [hstored] at hold
  split at hold
  · cases hold
    exact .inr h.sheet
  · exact .inl hold

end PagedStorage.Cli
