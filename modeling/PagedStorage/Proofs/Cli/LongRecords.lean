import PagedStorage.Proofs.Cli.Session
import PagedStorage.Proofs.Heap.ChainGrowth
import PagedStorage.Proofs.Heap.ChainRuns
import PagedStorage.Proofs.Heap.Reopening
import PagedStorage.Proofs.Pool.Tidiness

/-!
# Long records and the command line

A heap keeps its chains apart from its own pages, but in a file there are only pages with records
and pages without, and a run of the program takes all of the former for the pages of its heap. A
record that it stores goes to the last of them. If this page is on a chain and has room, then the
long record on the chain is read with the new one in between. All other long records are read as
before.

## Any file that a heap has left

`Cli.InsertRuns.actsOnChains` says so of every file that a heap has left, and of every run that
stores a record in it, whatever runs of this kind came before. What has to be known of the file is
that all its pages are tidy, whether they are on a chain, in the heap or left over from a record
that could not be stored. It is for this that tidiness is proved of all pages in a pool and not only
of those that some heap answers for.

A chain is read by its first page and not by a heap, so "what is read of a chain" is a function of
the contents. Storing exchanges one page. The links of this page stay, the chains that come to it
are read with one record more, and the others as before (`Stores.actsOn`).

## A record that gets longer

At the end stands a heap that stores one record of nine bytes as a long record, flushes, and a run
that stores another one. It goes to the page of the chain, and the long record is not what it was.
-/

namespace PagedStorage.Cli

open Pool

variable {limit? : Option Nat} {c d : Contents} {f : PageFile} {t : Store} {id head : PageId}
  {page page' : Page} {record : List UInt8} {path text : String} {start dir : Directory}
  {line : List String} {settings : Settings} {seed : Nat}

/-! ## What a run stores -/

/-- Contents that can be opened, all pages of which are tidy. -/
structure TidyFile (limit? : Option Nat) (c : Contents) : Prop extends Openable limit? c where
  pages : ∀ id page, (fileOf limit? c).stored id = .ok page → page.Tidy

/-- From `c` to `d` a record was stored, which has made one page from another one. -/
structure Stores (limit? : Option Nat) (c : Contents) (record : List UInt8) (id : PageId)
    (page page' : Page) (d : Contents) : Prop where
  tidy : TidyFile limit? d
  before : page.Tidy
  add : ∃ rid, page.add record = .ok (rid, page')
  lands : ∃ f t, PageFile.load (.onFile limit? c) = (.ok f, t) ∧
    (Heap.ofFile f).Lands (fileOf limit? c).stored record id page
  stored_self : (fileOf limit? d).stored id = .ok page'
  stored_others : ∀ i old, i ≠ id → (fileOf limit? c).stored i = .ok old →
    (fileOf limit? d).stored i = .ok old

private theorem TidyFile.tidy (hc : TidyFile limit? c) : (fileOf limit? c).Tidy :=
  ⟨hc.whole, hc.pages⟩

private theorem exists_stores_of_runOn (hc : TidyFile limit? c) (hpos : 0 < settings.pool.frames)
    (hids : Affords limit? c (Utf8.bytesOf text))
    (hcode : (runOn limit? seed settings (.insert text) (.ok c)).1.code = 0) :
    ∃ id page page', Stores limit? c (Utf8.bytesOf text) id page page'
      (runOn limit? seed settings (.insert text) (.ok c)).2 := by
  obtain ⟨f, t, hload, ho⟩ := exists_opened hc.toOpenable
  have hp := ho.settled hpos
  have hsound := hp.ready.toSound
  rw [runOn_eq_of_load hload hpos, perform] at hcode ⊢
  rcases hinsert : (Heap.ofFile (poolOn f settings.pool).file).insert (poolOn f settings.pool)
    (Utf8.bytesOf text) with ⟨e | rid, h', q⟩
  · rw [hinsert] at hcode
    cases hcode
  rw [hinsert] at hcode
  obtain ⟨id, page, page', hlands, hpage, hadd, herrand, hcontent⟩ :=
    Heap.exists_lands_of_insert hsound (ho.affords hload hpos hids)
      (fun i hi ↦ ho.exists_tidy hc.whole hc.pages hpos hi) hinsert
  rcases hflush : q.flushAll with ⟨e | ⟨⟩, r⟩
  · simp only [shown, conclude, hflush] at hcode
    cases hcode
  have hmedium : r.file.store.medium = .file limit? :=
    (herrand.medium_of_flush ho.ahead hflush).trans ho.sameBytes.medium_eq
  have hbytes : r.file.SameBytes (fileOf limit? r.file.store.contents) := ⟨hmedium.symm, rfl⟩
  have hstored (i : PageId) (old : Page)
      (hold : q.content i = .ok old ∨ i ∉ ({id} : Set PageId) ∧ f.stored i = .ok old) :
      r.file.stored i = .ok old :=
    herrand.stored_of_flush ho.ahead hpos (Nat.le_refl _) hflush hold
  have htidy : r.Tidy :=
    (herrand.tidy hsound (tidy_ofFile (hc.tidy.congr ho.sameBytes))).flushAll hflush
  have hlast : id.toNat + 1 < UInt32.size := by
    obtain ⟨-, hold⟩ | ⟨-, hlast, -⟩ := hlands
    · rw [hp.content_eq] at hold
      exact Nat.lt_of_le_of_lt (has_iff_lt.1 (PageFile.has_of_stored hold)) hc.count_lt
    · exact hlast
  have hlacks : q.LacksLast := by
    refine herrand.lacksLast hsound ?_ (lacksLast_ofFile ho.lacksLast)
    rintro i rfl
    exact hlast
  refine ⟨id, page, page', ?_⟩
  rw [conclude_of_flush hflush]
  refine ⟨⟨⟨htidy.file.toWhole.congr hbytes,
    (hlacks.flushAll (herrand.sound hsound) hflush).file.count_lt⟩,
    (htidy.file.congr hbytes).pages⟩, hpage, ⟨rid, hadd⟩, ⟨f, t, hload, hp.content_eq ▸ hlands⟩, ?_,
    fun i old hne hold ↦ ?_⟩
  · rw [hbytes.stored_eq]
    exact hstored id page' (.inl hcontent)
  · rw [hbytes.stored_eq]
    exact hstored i old (.inr ⟨hne, ho.stored_eq ▸ hold⟩)

/-! ## What is read of the chains -/

/-- The record on a chain, as all pools read it that are made over the file. -/
def ReadsBack (limit? : Option Nat) (c : Contents) (head : PageId) (record : List UInt8) : Prop :=
  ∃ f t, PageFile.load (.onFile limit? c) = (.ok f, t) ∧ ∀ kind n capacity, 0 < n → n ≤ capacity →
    (Heap.readOverflow (Pool.ofFile f (Policy.ofKind capacity kind) n) head).1 = .ok record

theorem readsBack_iff (hc : Openable limit? c) :
    ReadsBack limit? c head record ↔ Heap.recordAt (fileOf limit? c).stored head = .ok record := by
  obtain ⟨f, t, hload, ho⟩ := exists_opened hc
  have hanswer (kind : ReplacerKind) (n capacity : Nat) (hpos : 0 < n) (hcapacity : n ≤ capacity) :
      (Heap.readOverflow (Pool.ofFile f (Policy.ofKind capacity kind) n) head).1 =
        Heap.recordAt (fileOf limit? c).stored head := by
    rw [← ho.stored_eq]
    exact (Heap.readOverflow_of_settled
      (settled_ofFile ho.ahead ho.willing hpos hcapacity) head).1
  constructor
  · rintro ⟨f', t', hload', hreads⟩
    cases hload.symm.trans hload'
    exact (hanswer .lru 1 1 Nat.one_pos (Nat.le_refl 1)).symm.trans
      (hreads .lru 1 1 Nat.one_pos (Nat.le_refl 1))
  · intro hrecord
    exact ⟨f, t, hload, fun kind n capacity hpos hcapacity ↦
      (hanswer kind n capacity hpos hcapacity).trans hrecord⟩

private theorem ReadsBack.eq (hc : Openable limit? c) {other : List UInt8}
    (h : ReadsBack limit? c head record) (h' : ReadsBack limit? c head other) : other = record :=
  Except.ok.inj (((readsBack_iff hc).1 h').symm.trans ((readsBack_iff hc).1 h))

/-- A record meets a chain: it goes to the last page of the file that has records, and this page
is on the chain and has room for it. -/
def Meets (limit? : Option Nat) (c : Contents) (head : PageId) (record : List UInt8) : Prop :=
  ∃ f t pages page, PageFile.load (.onFile limit? c) = (.ok f, t) ∧
    (f.readChain head).1 = .ok pages ∧ page ∈ pages ∧
      (Heap.ofFile f).pages.getLast? = some page.id ∧
      ∃ rid page', page.add record = .ok (rid, page')

/-- To store a record changes what is read of the chains that it meets, and of no other ones. -/
structure ActsOnChains (limit? : Option Nat) (c : Contents) (record : List UInt8) (d : Contents) :
    Prop where
  spares : ∀ head old, ReadsBack limit? c head old → ¬ Meets limit? c head record →
    ReadsBack limit? d head old
  lengthens : ∀ head old, ReadsBack limit? c head old → Meets limit? c head record →
    ∃ longer, ReadsBack limit? d head longer ∧ old.length < longer.length

theorem Opened.readChain_eq (ho : Opened limit? c f) (head : PageId) :
    (f.readChain head).1 = PageFile.chainAt (fileOf limit? c).stored head := by
  rw [PageFile.readChain_of_willing ho.willing, ho.stored_eq]

/-- Pages are stored under their ids, so that a page is only stored in one place. -/
theorem Stores.stored_eq {i : PageId} (h : Stores limit? c record id page page' d)
    (hpage : (fileOf limit? c).stored i = .ok page) : i = id ∧ ∃ f t,
      PageFile.load (.onFile limit? c) = (.ok f, t) ∧ (Heap.ofFile f).pages.getLast? = some id := by
  have hi := (PageFile.readable_of_stored hpage).2
  obtain ⟨f, t, hload, ⟨hlast, hid⟩ | ⟨hnot, -, rfl, -⟩⟩ := h.lands
  · exact ⟨hi.symm.trans (PageFile.readable_of_stored hid).2, f, t, hload, hlast⟩
  · obtain rfl : id = i := hi
    cases hnot.symm.trans hpage

private theorem Stores.exchanges (h : Stores limit? c record id page page' d) (i : PageId)
    (old : Page) (hold : (fileOf limit? c).stored i = .ok old) :
    (fileOf limit? d).stored i = .ok (Heap.exchange page page' old) := by
  by_cases heq : old = page
  · obtain ⟨rfl, -⟩ := h.stored_eq (heq ▸ hold)
    rw [heq, Heap.exchange_self]
    exact h.stored_self
  · rw [Heap.exchange_of_ne heq]
    refine h.stored_others i old ?_ hold
    rintro rfl
    obtain ⟨f, t, -, ⟨-, hid⟩ | ⟨hnot, -⟩⟩ := h.lands
    · exact heq (Except.ok.inj (hold.symm.trans hid))
    · cases hnot.symm.trans hold

theorem Stores.actsOn (h : Stores limit? c record id page page' d) (hc : Openable limit? c) :
    ActsOnChains limit? c record d := by
  obtain ⟨rid, hadd⟩ := h.add
  have hd := h.tidy.toOpenable
  obtain ⟨f, t, hload, ho⟩ := exists_opened hc
  constructor
  case spares =>
    intro head old hold hapart
    have hrecord := (readsBack_iff hc).1 hold
    obtain ⟨pages, -, hread, -⟩ := Heap.recordAt_eq_ok_iff.1 hrecord
    refine (readsBack_iff hd).2
      ((Heap.recordAt_of_add h.before hadd h.exchanges hread hrecord).1 fun hmem ↦ hapart ?_)
    obtain ⟨i, hpage⟩ := PageFile.exists_of_mem_chainAt hread hmem
    obtain ⟨rfl, f', t', hload', hlast⟩ := h.stored_eq hpage
    cases hload.symm.trans hload'
    rw [← (PageFile.readable_of_stored hpage).2] at hlast
    exact ⟨f, t, pages, page, hload, (ho.readChain_eq head).trans hread, hmem, hlast, rid, page',
      hadd⟩
  case lengthens =>
    rintro head old hold ⟨f', t', pages, met, hload', hread, hmem, hlast, rid', met', hmet⟩
    cases hload.symm.trans hload'
    have hrecord := (readsBack_iff hc).1 hold
    rw [ho.readChain_eq] at hread
    obtain ⟨i, hstored⟩ := PageFile.exists_of_mem_chainAt hread hmem
    obtain rfl := (PageFile.readable_of_stored hstored).2
    -- The page that is met is the one on which the record was stored.
    obtain rfl : met = page := by
      obtain ⟨f', t', hload', ⟨hlast', hid⟩ | ⟨-, -, -, hrefuses⟩⟩ := h.lands
      · cases hload.symm.trans hload'
        obtain rfl := Option.some.inj (hlast.symm.trans hlast')
        exact Except.ok.inj (hstored.symm.trans hid)
      · cases hload.symm.trans hload'
        obtain ⟨e, herror⟩ := hrefuses met.id met hlast hstored
        cases hmet.symm.trans herror
    obtain ⟨longer, hlonger, hlength⟩ :=
      (Heap.recordAt_of_add h.before hadd h.exchanges hread hrecord).2 hmem
    exact ⟨longer, (readsBack_iff hd).2 hlonger, hlength⟩

/-! ## Runs that store records -/

/-- The directories that are reached from one by runs of the program, each of which stores a record
in the file at one path. -/
inductive InsertRuns (path : String) (start : Directory) : Directory → Prop
  | start : InsertRuns path start start
  | insert {dir : Directory} {line : List String} {text : String} (seed : Nat) :
      InsertRuns path start dir → Asks path line (.insert text) →
      Affords dir.limit? (contentsAt path dir) (Utf8.bytesOf text) →
      (run seed dir line).1.code = 0 → InsertRuns path start (run seed dir line).2

theorem exists_stores_of_run (hopens : Opens path dir)
    (hc : TidyFile dir.limit? (contentsAt path dir)) (hasks : Asks path line (.insert text))
    (hids : Affords dir.limit? (contentsAt path dir) (Utf8.bytesOf text))
    (hcode : (run seed dir line).1.code = 0) :
    Opens path (run seed dir line).2 ∧ (run seed dir line).2.limit? = dir.limit? ∧
      ∃ id page page', Stores dir.limit? (contentsAt path dir) (Utf8.bytesOf text) id page page'
        (contentsAt path (run seed dir line).2) := by
  obtain ⟨settings, hpos, hout, hopens', hlimit, hcontents⟩ := exists_run_eq hopens hasks seed
  rw [hout] at hcode
  rw [hcontents]
  exact ⟨hopens', hlimit, exists_stores_of_runOn hc hpos hids hcode⟩

theorem InsertRuns.tidy (hruns : InsertRuns path start dir) (hopens : Opens path start)
    (hstart : TidyFile start.limit? (contentsAt path start)) :
    Opens path dir ∧ TidyFile dir.limit? (contentsAt path dir) := by
  induction hruns with
  | start => exact ⟨hopens, hstart⟩
  | insert seed _ hasks hids hcode ih =>
    obtain ⟨hopens', hlimit, id, page, page', hstores⟩ :=
      exists_stores_of_run ih.1 ih.2 hasks hids hcode
    exact ⟨hopens', hlimit ▸ hstores.tidy⟩

section Flushed

variable {file : PageFile} {kind : ReplacerKind} {n capacity : Nat} {h : Heap}
  {p q : Pool Policy} {L : Heap.Ledger}

theorem sameBytes_of_flush (hfile : file.WellFormed) (hmedium : file.store.medium = .file limit?)
    (hrun : Heap.ChainRun (Pool.ofFile file (Policy.ofKind capacity kind) n) h p L)
    (hflush : p.flushAll = (.ok (), q)) :
    q.file.SameBytes (fileOf limit? q.file.store.contents) := by
  have hstart : (Pool.ofFile file (Policy.ofKind capacity kind) n).Sound := sound_ofFile hfile.ahead
  obtain ⟨touched, herrand⟩ := (hrun.soleRun.since hstart).errand
  exact ⟨((herrand.medium_of_flush hfile.ahead hflush).trans hmedium).symm, rfl⟩

/-- What a heap leaves in a file when it is flushed can be worked on by runs of the program, as long
as there is an id behind its pages. -/
theorem tidyFile_of_flush (hfile : file.WellFormed)
    (htidy : ∀ id page, file.stored id = .ok page → page.Tidy)
    (hmedium : file.store.medium = .file limit?)
    (hrun : Heap.ChainRun (Pool.ofFile file (Policy.ofKind capacity kind) n) h p L)
    (hflush : p.flushAll = (.ok (), q)) (hcount : pageCount q.file.store.contents < UInt32.size) :
    TidyFile limit? q.file.store.contents := by
  have hstart : (Pool.ofFile file (Policy.ofKind capacity kind) n).Sound := sound_ofFile hfile.ahead
  obtain ⟨touched, herrand⟩ := (hrun.soleRun.since hstart).errand
  have hq : q.Tidy :=
    (herrand.tidy hstart (tidy_ofFile ⟨hfile.whole, htidy⟩)).flushAll hflush
  have hleft := hq.file.congr (sameBytes_of_flush hfile hmedium hrun hflush)
  exact ⟨⟨hleft.toWhole, hcount⟩, hleft.pages⟩

theorem readsBack_of_flush (hfile : file.WellFormed) (hmedium : file.store.medium = .file limit?)
    (hpos : 0 < n) (hcapacity : n ≤ capacity)
    (hrun : Heap.ChainRun (Pool.ofFile file (Policy.ofKind capacity kind) n) h p L)
    (hflush : p.flushAll = (.ok (), q)) (hq : TidyFile limit? q.file.store.contents)
    (head : PageId) (record : List UInt8) (hhead : L head = some (.stored record)) :
    ReadsBack limit? q.file.store.contents head record := by
  refine (readsBack_iff hq.toOpenable).2 ?_
  rw [funext (sameBytes_of_flush hfile hmedium hrun hflush).stored_eq]
  exact hrun.recordAt_of_flush hfile.ahead hpos hcapacity hflush hhead

end Flushed

/-! ## A record that meets a chain -/

def emptyPool : Pool Policy := Pool.ofFile (fileOf none {}) (Policy.ofKind 2 .lru) 2

/-- The pool of a heap that has stored one long record, on a single page. -/
def chainPool : Pool Policy := (Heap.insertOverflow emptyPool (Utf8.bytesOf "some text")).2

/-- A command line that asks for a record to be stored. -/
def moreText : List String := ["-D", "db", "insert", "more text"]

theorem asks_moreText : Asks "db" moreText (.insert "more text") :=
  ⟨{ path := "db" }, by cbv, rfl, by decide⟩

/-- A directory with one file. -/
def directoryOf (c : Contents) : Directory := ({} : Directory).put ["db"] (.file c)

theorem contentsAt_directoryOf (c : Contents) :
    Opens "db" (directoryOf c) ∧ contentsAt "db" (directoryOf c) = c := by
  have hopen : (directoryOf c).openFile "db" .openOrCreate = (.ok (["db"], c), directoryOf c) := by
    cbv
  exact ⟨⟨_, _, _, hopen⟩, by rw [contentsAt, hopen]⟩

theorem wellFormed_fileOf_empty : (fileOf none {}).WellFormed := by
  refine ⟨⟨.inl (Nat.zero_le _), .inl (Nat.zero_le _)⟩, ⟨0, rfl⟩, fun id hid ↦ ?_,
    fun _ _ ↦ Nat.zero_le _⟩
  exact absurd (has_iff_lt.1 hid) (Nat.not_lt_zero _)

private theorem tidy_fileOf_empty (id : PageId) (page : Page)
    (hpage : (fileOf none {}).stored id = .ok page) : page.Tidy :=
  absurd (has_iff_lt.1 (PageFile.has_of_stored hpage)) (Nat.not_lt_zero _)

private theorem insertOverflow_emptyPool :
    (Heap.insertOverflow emptyPool (Utf8.bytesOf "some text")).1 = .ok 0 := by
  decide +kernel

theorem chainRun_chainPool : Heap.ChainRun emptyPool ⟨[]⟩ chainPool
    (Heap.Ledger.store (fun _ ↦ none) (Utf8.bytesOf "some text") (.ok 0)) := by
  rw [← insertOverflow_emptyPool]
  exact .insertOverflow _ .start (by decide +kernel)

theorem errand_chainPool :
    emptyPool.Faithful ∅ ∧ ∃ touched, emptyPool.Errand touched [] ∅ chainPool := by
  have hstart : emptyPool.Faithful ∅ := faithful_ofFile wellFormed_fileOf_empty.ahead
  exact ⟨hstart, (chainRun_chainPool.soleRun.since hstart.toSound).errand⟩

private theorem flushAll_chainPool : ∃ q, chainPool.flushAll = (.ok (), q) := by
  obtain ⟨hstart, touched, herrand⟩ := errand_chainPool
  have hsound := herrand.sound hstart.toSound
  have hnext : chainPool.file.ids.next.toNat + 1 < UInt32.size := by decide +kernel
  have hmedium : chainPool.file.store.medium = .file none := herrand.medium_eq hstart
  have hroom : chainPool.file.store.CanHold (chainPool.file.ids.next.toNat * pageSize) := by
    intro limit hlimit
    rw [Store.limit?, hmedium] at hlimit
    cases hlimit
  have hreliable : chainPool.file.Reliable :=
    ⟨herrand.willing hstart ⟨fun _ _ ↦ rfl, fun _ _ ↦ rfl, fun _ _ ↦ rfl, fun _ _ ↦ rfl⟩,
      ⟨hroom, hnext⟩, (herrand.sound hstart.toSound).ahead.extensible hnext⟩
  rcases hflush : chainPool.flushAll with ⟨res, q⟩
  have hunused (i : PageId) : chainPool.users i = 0 := by
    rw [herrand.users_eq hstart.toSound, emptyPool, users_ofFile, List.count_nil]
  obtain ⟨rfl, -⟩ := flushAll_ok hsound hreliable.willing
    (fun i ↦ not_full_of_unused (hunused i))
    (fun _ hi ↦ ⟨hreliable.extensible, hreliable.fits (hsound.covers_of_marked hi)⟩) hflush
  exact ⟨q, rfl⟩

section Example

variable {q : Pool Policy}

private theorem carries_chainPool :
    (chainPool.frame 0).page.Carries 0 (Utf8.bytesOf "some text") := by
  have hsteady := errand_chainPool.1
  obtain ⟨-, chain, hb⟩ := chainRun_chainPool.books hsteady (inStep_ofFile (Nat.le_refl 2))
  obtain ⟨⟨piece, l, heq, hrecord⟩, hc, -⟩ := hb.stored 0 (Utf8.bytesOf "some text") rfl
  rw [heq] at hc
  obtain ⟨⟨page, hpage, hcarries⟩, -⟩ := hc.links
  have hcontent : chainPool.content 0 = .ok (chainPool.frame 0).page :=
    content_of_find? hb.faithful.toSteady (by decide +kernel)
  obtain rfl := Except.ok.inj (hcontent.symm.trans hpage)
  have hnext : (chainPool.frame 0).page.next = 0 := by decide +kernel
  rw [hcarries.next_eq] at hnext
  cases l with
  | nil =>
    rw [List.map_nil, List.flatten_singleton] at hrecord
    exact hrecord ▸ hcarries
  | cons x l =>
    have hlt : (0 : PageId) < x.1 := (List.pairwise_cons.1 hc.increasing).1 x.1 List.mem_cons_self
    rw [show x.1 = 0 from hnext] at hlt
    exact absurd hlt (by decide)

private theorem sheet_of_carries {next : PageId} (h : page.Carries next (Utf8.bytesOf text)) :
    Sheet page := by
  obtain ⟨rid, hrecords⟩ := h.records
  have hd := h.tidy.readable.describes
  obtain ⟨l, hl, -, hmem⟩ := Page.exists_records hd.encloses
  obtain rfl := Except.ok.inj (hrecords.symm.trans hl)
  refine ⟨h.tidy, fun slot record hrecord ↦ ⟨text, ?_⟩⟩
  have hget : page.get ⟨page.id, slot⟩ = .ok record :=
    (Page.get_eq_ok_iff hd.encloses).2 ⟨rfl, hrecord⟩
  exact (Prod.ext_iff.1 (List.mem_singleton.1 ((hmem _ _).2 hget))).2

private theorem sameBytes_of_chainPool (hflush : chainPool.flushAll = (.ok (), q)) :
    q.file.SameBytes (fileOf none q.file.store.contents) :=
  sameBytes_of_flush wellFormed_fileOf_empty rfl chainRun_chainPool hflush

theorem stored_of_chainPool (hflush : chainPool.flushAll = (.ok (), q)) :
    (fileOf none q.file.store.contents).stored 0 = .ok (chainPool.frame 0).page ∧
      pageCount q.file.store.contents = 1 := by
  obtain ⟨hstart, touched, herrand⟩ := errand_chainPool
  have hahead := wellFormed_fileOf_empty.ahead
  have hfaithful := herrand.faithful_over hstart
  have hbytes := sameBytes_of_chainPool hflush
  have hcontent : chainPool.content 0 = .ok (chainPool.frame 0).page :=
    content_of_find? hfaithful.toSteady (by decide +kernel)
  have hstored := herrand.stored_of_flush hahead Nat.two_pos (Nat.le_refl 2) hflush (.inl hcontent)
  rw [← hbytes.stored_eq] at hstored
  refine ⟨hstored, Nat.le_antisymm ?_ (has_iff_lt.1 (PageFile.has_of_stored hstored))⟩
  have hnext : chainPool.file.ids.next.toNat = 1 := by decide +kernel
  have hrest := herrand.atRest_of_flush hahead Nat.two_pos (Nat.le_refl 2) hflush
  have hcovers := hrest.faithful.ahead.stored
  rw [(served_of_flushAll hfaithful hflush).ids_eq, IdCounter.Covers, hnext] at hcovers
  exact hcovers.resolve_right (by decide)

theorem tidyFile_of_chainPool (hflush : chainPool.flushAll = (.ok (), q)) :
    TidyFile none q.file.store.contents := by
  refine tidyFile_of_flush wellFormed_fileOf_empty tidy_fileOf_empty rfl chainRun_chainPool
    hflush ?_
  rw [(stored_of_chainPool hflush).2]
  decide

theorem affords_of_chainPool (hflush : chainPool.flushAll = (.ok (), q)) (record : List UInt8) :
    Affords none q.file.store.contents record := by
  refine .inl ?_
  rw [(stored_of_chainPool hflush).2]
  decide

private theorem meets_of_chainPool (hflush : chainPool.flushAll = (.ok (), q)) :
    Meets none q.file.store.contents 0 (Utf8.bytesOf "more text") := by
  obtain ⟨hstored, hcount⟩ := stored_of_chainPool hflush
  obtain ⟨f, t, hload, ho⟩ := exists_opened (tidyFile_of_chainPool hflush).toOpenable
  have hcarries := carries_chainPool
  have hread : PageFile.chainAt (fileOf none q.file.store.contents).stored 0 =
      .ok [(chainPool.frame 0).page] := by
    have hwalk := PageFile.ChainWalk.start hstored hcarries.isOverflow
    rw [hcarries.next_eq] at hwalk
    exact PageFile.chainAt_eq_iff.2 (.whole hwalk)
  have hpages : (Heap.ofFile f).pages = [0] := by
    have hused : (chainPool.frame 0).page.header.isFree = false := by decide +kernel
    have hheader := header?_of_load hload ho hstored
    rw [Heap.ofFile, ho.pageCount_eq, hcount]
    change List.filter (fun id ↦ (f.header? id).any fun h ↦ !h.isFree) [0] = [0]
    rw [List.filter_singleton, hheader, Option.any_some, hused]
    rfl
  have hid : (chainPool.frame 0).page.id = 0 := (PageFile.readable_of_stored hstored).2
  have hadd : ((chainPool.frame 0).page.add (Utf8.bytesOf "more text")).isOk = true := by
    decide +kernel
  refine ⟨f, t, _, _, hload, (ho.readChain_eq 0).trans hread, List.mem_singleton_self _, ?_, ?_⟩
  · rw [hpages, hid]
    rfl
  · cases hok : (chainPool.frame 0).page.add (Utf8.bytesOf "more text") with
    | error e =>
      rw [hok] at hadd
      cases hadd
    | ok result => exact ⟨result.1, result.2, rfl⟩

private theorem code_of_chainPool (hflush : chainPool.flushAll = (.ok (), q)) (seed : Nat) :
    (run seed (directoryOf q.file.store.contents) moreText).1.code = 0 := by
  obtain ⟨hstored, hcount⟩ := stored_of_chainPool hflush
  have hc : TextFile none q.file.store.contents := by
    refine ⟨(tidyFile_of_chainPool hflush).toOpenable, fun id page hpage ↦ ?_⟩
    have hlt := has_iff_lt.1 (PageFile.has_of_stored hpage)
    rw [hcount, Nat.lt_one_iff] at hlt
    obtain rfl : id = 0 := UInt32.toNat_inj.1 hlt
    obtain rfl := Except.ok.inj (hstored.symm.trans hpage)
    exact sheet_of_carries carries_chainPool
  obtain ⟨hopens, hcontents⟩ := contentsAt_directoryOf q.file.store.contents
  obtain ⟨settings, hpos, hout, -⟩ := exists_run_eq hopens asks_moreText seed
  have hlimit : (directoryOf q.file.store.contents).limit? = none := rfl
  rw [hout, hcontents, hlimit]
  obtain ⟨e, hsize, -⟩ | ⟨rid, d, heq, -⟩ | ⟨hfull, -⟩ :=
    hc.runOn_insert hpos seed "more text" (affords_of_chainPool hflush _)
  · have hok : Heap.checkSize (Utf8.bytesOf "more text").length = .ok () := by cbv
    cases hok.symm.trans hsize
  · rw [heq]
  · exact absurd (hasRoom_none _) hfull

end Example

/-! ## What becomes of the long records -/

/-- The long records of a heap that was flushed can be read from its file. A run of the program
that stores a record, whatever such runs came before, changes what is read of the chains that the
record meets, and of no other ones. -/
theorem InsertRuns.actsOnChains {file : PageFile} {kind : ReplacerKind} {n capacity : Nat}
    {h : Heap} {p q : Pool Policy} {L : Heap.Ledger} (hfile : file.WellFormed)
    (htidy : ∀ id page, file.stored id = .ok page → page.Tidy)
    (hmedium : file.store.medium = .file start.limit?) (hpos : 0 < n) (hcapacity : n ≤ capacity)
    (hrun : Heap.ChainRun (Pool.ofFile file (Policy.ofKind capacity kind) n) h p L)
    (hflush : p.flushAll = (.ok (), q)) (hopens : Opens path start)
    (hcontents : contentsAt path start = q.file.store.contents)
    (hcount : pageCount (contentsAt path start) < UInt32.size)
    (hruns : InsertRuns path start dir) (hasks : Asks path line (.insert text))
    (hids : Affords dir.limit? (contentsAt path dir) (Utf8.bytesOf text))
    (hcode : (run seed dir line).1.code = 0) :
    (∀ head record, L head = some (.stored record) →
      ReadsBack start.limit? (contentsAt path start) head record) ∧
    ActsOnChains dir.limit? (contentsAt path dir) (Utf8.bytesOf text)
      (contentsAt path (run seed dir line).2) := by
  rw [hcontents] at hcount
  have hstart := tidyFile_of_flush hfile htidy hmedium hrun hflush hcount
  have hreads := readsBack_of_flush hfile hmedium hpos hcapacity hrun hflush hstart
  rw [← hcontents] at hstart hreads
  constructor
  · exact hreads
  · obtain ⟨hopens', hc⟩ := hruns.tidy hopens hstart
    obtain ⟨-, -, id, page, page', hstores⟩ := exists_stores_of_run hopens' hc hasks hids hcode
    exact hstores.actsOn hc.toOpenable

/-- The record goes to the page that carries the long one, which gets longer. -/
theorem InsertRuns.actsOnChains_moreText : ∃ q, chainPool.flushAll = (.ok (), q) ∧
    (run 0 (directoryOf q.file.store.contents) moreText).1.code = 0 ∧
    ReadsBack none (contentsAt "db" (directoryOf q.file.store.contents)) 0
      (Utf8.bytesOf "some text") ∧
    ∃ longer, ReadsBack none
        (contentsAt "db" (run 0 (directoryOf q.file.store.contents) moreText).2) 0 longer ∧
      (Utf8.bytesOf "some text").length < longer.length := by
  obtain ⟨q, hflush⟩ := flushAll_chainPool
  obtain ⟨hopens, hcontents⟩ := contentsAt_directoryOf q.file.store.contents
  have hcode := code_of_chainPool hflush 0
  have hids : Affords none (contentsAt "db" (directoryOf q.file.store.contents))
      (Utf8.bytesOf "more text") := hcontents.symm ▸ affords_of_chainPool hflush _
  have hcount : pageCount (contentsAt "db" (directoryOf q.file.store.contents)) < UInt32.size := by
    rw [hcontents]
    exact (tidyFile_of_chainPool hflush).count_lt
  obtain ⟨hreads, hacts⟩ := InsertRuns.actsOnChains wellFormed_fileOf_empty tidy_fileOf_empty rfl
    Nat.two_pos (Nat.le_refl 2) chainRun_chainPool hflush hopens hcontents hcount .start
    asks_moreText hids hcode
  have hread := hreads 0 (Utf8.bytesOf "some text") rfl
  refine ⟨q, hflush, hcode, hread, hacts.lengthens 0 _ hread ?_⟩
  rw [hcontents]
  exact meets_of_chainPool hflush

/-- A long record of nine bytes is in a file alone, and is no longer read after a run of the
program that stores another record. -/
theorem moreText_notSpared :
    (Heap.insertOverflow emptyPool (Utf8.bytesOf "some text")).1 = .ok 0 ∧
    ∃ q, chainPool.flushAll = (.ok (), q) ∧
      (run 0 (directoryOf q.file.store.contents) moreText).1.code = 0 ∧
      ReadsBack none (contentsAt "db" (directoryOf q.file.store.contents)) 0
        (Utf8.bytesOf "some text") ∧
      ¬ ReadsBack none (contentsAt "db" (run 0 (directoryOf q.file.store.contents) moreText).2) 0
        (Utf8.bytesOf "some text") := by
  obtain ⟨q, hflush⟩ := flushAll_chainPool
  obtain ⟨hopens, hcontents⟩ := contentsAt_directoryOf q.file.store.contents
  have htidy := tidyFile_of_chainPool hflush
  have hbefore : ReadsBack none q.file.store.contents 0 (Utf8.bytesOf "some text") :=
    readsBack_of_flush wellFormed_fileOf_empty rfl Nat.two_pos (Nat.le_refl 2) chainRun_chainPool
      hflush htidy 0 _ rfl
  have hcode := code_of_chainPool hflush 0
  have hids := affords_of_chainPool hflush (Utf8.bytesOf "more text")
  rw [← hcontents] at htidy hids
  obtain ⟨-, -, id, page, page', hstores⟩ :=
    exists_stores_of_run hopens htidy asks_moreText hids hcode
  refine ⟨insertOverflow_emptyPool, q, hflush, hcode, hcontents.symm ▸ hbefore, fun hafter ↦ ?_⟩
  obtain ⟨longer, hlonger, hlength⟩ := (hstores.actsOn htidy.toOpenable).lengthens 0 _
    (hcontents.symm ▸ hbefore) (hcontents.symm ▸ meets_of_chainPool hflush)
  rw [hafter.eq hstores.tidy.toOpenable hlonger] at hlength
  exact Nat.lt_irrefl _ hlength

end PagedStorage.Cli
