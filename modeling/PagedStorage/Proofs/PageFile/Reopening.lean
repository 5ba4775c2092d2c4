import PagedStorage.Proofs.PageFile.Index
import PagedStorage.Proofs.PageFile.PageMap

/-!
# Opening a file again

The index of a file is made in two ways. A file in use enters the header of each page that it
writes, and a fresh one for each page that it skips; a file that is opened reads the headers from
the store. That both come to the same is an invariant of the file in use, `PageFile.Mirrors`:
every header in its index is the one that its store has for the page.

## Why a write keeps it

A page that is written has its header in the store because it is readable, and then the store has
it for the page alone. A page that is skipped has a fresh one if it is stored as a fresh page.
Where the store was made of whole pages this is always so, and `Steps.mirrors` is the step. The
other pages keep the bytes at their place (`HasHeader.writePage`).

## What is not the same

What was handed out and not written is forgotten when the file is opened again: claimed pages are
free again, and the next id is the first one behind the pages, even if ids behind it were given
out. For the ids to go on like this there must be one behind the pages, so the page with the last
id must not be written. With that page in the file the count of pages has one bit more than an id,
and the ids start over (`reopens_of_lastWritten`).

A failing call that changes bytes breaks the invariant the other way round. The index does not
learn of the pages that such a write leaves in the store, so `WritesReadable` asks that there are
none, and `cutOffWrite_reopens` shows both conditions at work.
-/

namespace PagedStorage

private theorem Contents.slice_read (c : Contents) (start : Nat) {len n : Nat} (h : n ≤ len) :
    Bytes.slice (c.read start len) 0 n = (c.read start n).toList := by
  refine List.ext_getElem? fun i ↦ ?_
  rw [Bytes.getElem?_slice, Nat.zero_add, Array.getElem?_toList, getElem?_read, getElem?_read]
  by_cases hi : i < n
  · rw [if_pos hi]
    exact if_congr (by omega) rfl rfl
  · rw [if_neg hi, if_neg (by omega)]

private theorem Header.ofBytes_congr {a b : Array UInt8} (ha : headerSize ≤ a.size)
    (h : Bytes.slice b 0 headerSize = Bytes.slice a 0 headerSize) : ofBytes b = ofBytes a :=
  ofBytes_eq (h.trans (encode_ofBytes ha).symm)

namespace PageFile

variable {f g start : PageFile} {id : PageId} {p : Page} {h : Header}

/-! ## Headers of pages -/

private theorem headerOf_congr {a b : Array UInt8} (ha : headerSize ≤ a.size)
    (hb : headerSize ≤ b.size) (h : Bytes.slice b 0 headerSize = Bytes.slice a 0 headerSize) :
    headerOf id b = headerOf id a := by
  rw [headerOf, headerOf, Header.isBlank, Header.isBlank, decide_eq_true ha, decide_eq_true hb, h,
    Header.decode, Header.decode, if_neg (Nat.not_lt.2 ha), if_neg (Nat.not_lt.2 hb),
    Header.ofBytes_congr ha h]

/-- The bytes that stand for a page have its header. -/
theorem headerOf_of_pageOf {bytes : Array UInt8} (hsize : headerSize ≤ bytes.size)
    (hpage : pageOf id bytes = .ok p) : headerOf id bytes = .ok p.header := by
  rw [pageOf] at hpage
  rw [headerOf]
  split at hpage
  next hblank =>
    rw [if_pos hblank, ← Except.ok.inj hpage]
    rfl
  next hblank =>
    obtain ⟨q, hq, hrest⟩ := bind_eq_ok_iff.1 hpage
    split at hrest
    next hid =>
      obtain rfl := Except.ok.inj hrest
      obtain ⟨hbytes, hp⟩ := Page.decode_eq_ok_iff.1 hq
      have hheader : Header.ofBytes bytes = q.header := by
        rw [← hbytes]
        exact Header.ofBytes_eq (slice_eq_encodeLayout_iff.1 hp.front).1
      rw [if_neg hblank, Header.decode, if_neg (Nat.not_lt.2 hsize), hheader]
      exact if_pos hid
    next => exact absurd hrest error_ne_ok

theorem hasHeader_of_stored (hstored : f.stored id = .ok p) : HasHeader f.store id p.header := by
  have hhas := has_of_stored hstored
  have hroom : position id + pageSize ≤ f.store.contents.size := hhas
  have hle : headerSize ≤ pageSize := by decide
  rw [stored_of_has hhas, ite_error_eq_ok_iff, Bool.not_eq_true] at hstored
  obtain ⟨hwithin, hpage⟩ := hstored
  have hsize (len : Nat) (hlen : headerSize ≤ len) (hfits : len ≤ pageSize) :
      headerSize ≤ (f.store.contents.read (position id) len).size := by
    rw [Contents.size_read]
    omega
  refine ⟨hwithin, by omega, ?_⟩
  rw [headerOf_congr (hsize pageSize hle (Nat.le_refl _)) (hsize headerSize (Nat.le_refl _) hle)]
  · exact headerOf_of_pageOf (hsize pageSize hle (Nat.le_refl _)) hpage
  · rw [Contents.slice_read _ _ (Nat.le_refl _), Contents.slice_read _ _ hle]

private theorem HasHeader.writePage (hh : HasHeader f.store id h) (hne : id ≠ p.id)
    (hwrite : f.writePage p = (.ok (), g)) : HasHeader g.store id h := by
  have hmedium := (writePage_cases hwrite).2.medium_eq
  have hcontents := contents_of_writePage_ok hwrite
  have hlen : p.image.toList.length = pageSize := Vector.length_toList
  have hpages : id.toNat ≠ p.id.toNat := fun heq ↦ hne (UInt32.toNat_inj.1 heq)
  have hread : g.store.contents.read (position id) headerSize =
      f.store.contents.read (position id) headerSize := by
    rw [hcontents]
    refine Contents.read_write_of_disjoint _ hh.le_size ?_
    rw [hlen]
    unfold position pageSize headerSize
    omega
  constructor
  · rw [Store.isBeyond_congr hmedium]
    exact hh.within
  · rw [hcontents, Contents.size_write]
    exact Nat.le_trans hh.le_size (Nat.le_max_left _ _)
  · rw [hread]
    exact hh.headerOf_eq

/-! ## The index mirrors the store -/

theorem Mirrors.writePage (hf : f.Mirrors) (hp : p.Readable) (hwrite : f.writePage p = (.ok (), g))
    (hgap : ∀ i, f.pageCount ≤ i.toNat → i < p.id → g.stored i = .ok (.fresh i)) : g.Mirrors := by
  intro i k hik
  rw [eq_of_writePage_ok hwrite, header?_entered] at hik
  split at hik
  next hi =>
    rw [hi, ← Option.some.inj hik]
    exact hasHeader_of_stored ((stored_of_writePage hwrite).trans (pageOf_image_iff.2 ⟨hp, rfl⟩))
  next hi =>
    split at hik
    next => exact (hf i k hik).writePage hi hwrite
    next hout =>
      rw [Option.ite_none_right_eq_some] at hik
      obtain ⟨hlt, heq⟩ := hik
      rw [← Option.some.inj heq]
      exact hasHeader_of_stored (hgap i (Nat.le_of_not_lt hout) hlt)

theorem Mirrors.congr (hf : f.Mirrors) (hbytes : f.SameBytes g) (hheaders : g.headers = f.headers) :
    g.Mirrors := by
  intro i k hik
  rw [header?, hheaders] at hik
  exact (hf i k hik).congr hbytes.medium_eq hbytes.contents_eq

/-- The calls that change no byte if they fail. They write no page that cannot be read, nor the one
with the last id. -/
structure WritesReadable (f : PageFile) (c : FileCall) : Prop where
  allOrNothing : f.AllOrNothing c
  readable : ∀ page, c.written? = some page → page.Readable
  lt_last : ∀ page, c.written? = some page → page.id.toNat + 1 < UInt32.size

theorem Steps.mirrors {c : FileCall} {r : Except Error (Option Page)} (hf : f.Mirrors)
    (hindexed : f.Indexed) (hwhole : pageSize ∣ f.store.contents.size)
    (hreadable : ∀ page, c.written? = some page → page.Readable) (h : f.Steps c r g) :
    g.Mirrors := by
  rcases h.writes_or_sameBytes with ⟨page, hpage, -, hwrite⟩ | ⟨hbytes, hheaders⟩
  · have hp := hreadable page hpage
    have hreplaces := replaces_of_writePage hindexed hwhole hp hwrite
    exact hf.writePage hp hwrite hreplaces.stored_of_skipped
  · exact hf.congr hbytes hheaders

theorem Reached.mirrors (hstart : start.Opened) (hsize : pageSize ∣ start.store.contents.size)
    (hf : Reached WritesReadable start f) : f.Mirrors := by
  induction hf with
  | start => exact hstart.mirrors
  | @call f c hf hc ih =>
    obtain ⟨hindexed, hwhole⟩ := (hf.mono fun _ _ hc ↦ hc.allOrNothing).whole hstart hsize
    exact (steps_of_call hc.allOrNothing).mirrors ih hindexed hwhole hc.readable
  | @reschedule f which gate _ ih => exact ih.congr (f.sameBytes_setGate which gate) rfl

/-! ## Opening again -/

theorem Reached.pageCount_lt (hcount : start.pageCount < UInt32.size)
    (hf : Reached WritesReadable start f) : f.pageCount < UInt32.size := by
  induction hf with
  | start => exact hcount
  | call c _ hc ih => exact (steps_of_call hc.allOrNothing).pageCount_lt hc.lt_last ih
  | reschedule which gate _ ih => exact ih

/-- A file over a store of whole pages can be opened again after any run, and has the same index
then. Pages that were handed out are free again, and the next id is the one behind the pages. -/
theorem Reached.reopens (hstart : start.Opened) (hsize : pageSize ∣ start.store.contents.size)
    (hcount : start.pageCount < UInt32.size) (hf : Reached WritesReadable start f) :
    ∃ g t, load f.store.obliging = (.ok g, t) ∧ g.headers = f.headers ∧
      g.freePages = f.freePageIds.length ∧ g.claimed = [] ∧ g.ids.next.toNat = g.pageCount := by
  have hlt := hf.pageCount_lt hcount
  have hindexed := (hf.mono fun _ _ hc ↦ hc.allOrNothing).indexed hstart
  obtain ⟨t, ht⟩ := (hf.mirrors hstart hsize).load hindexed (Nat.le_of_lt hlt)
  exact ⟨_, t, ht, rfl, (length_freePageIds (Nat.le_of_lt hlt)).symm, rfl,
    UInt32.toNat_ofNat_of_lt' hlt⟩

/-- A page that was handed out and not written, when it came into the file as part of a gap, is
claimed until the file is opened again. -/
theorem Reached.reopens_gap :
    let f := ((empty.call .allocate).2.call (.write (.fresh 2))).2
    f.claimed = [0] ∧ f.freePages = 2 ∧ ∃ g t, load f.store.obliging = (.ok g, t) ∧
      g.headers = f.headers ∧ g.claimed = [] ∧ g.freePages = 3 ∧ g.ids.next.toNat = 3 := by
  intro f
  have hallows (file : PageFile) (c : FileCall) (hmemory : file.store.medium = .memory)
      (hreadable : ∀ page, c.written? = some page → page.Readable)
      (hlast : ∀ page, c.written? = some page → page.id.toNat + 1 < UInt32.size) :
      file.WritesReadable c := ⟨allOrNothing_of_memory hmemory, hreadable, hlast⟩
  have hf : Reached WritesReadable empty f := by
    refine .call _ (.call _ .start (hallows _ _ rfl nofun nofun)) (hallows _ _ rfl ?_ ?_)
    · rintro page ⟨⟩
      exact (Page.tidy_fresh 2).readable
    · rintro page ⟨⟩
      decide
  obtain ⟨g, t, hload, hheaders, hfree, hclaimed, hnext⟩ :=
    reopens .empty ⟨0, rfl⟩ (by decide) hf
  have hcount : g.pageCount = 3 := congrArg Array.size hheaders
  exact ⟨rfl, rfl, g, t, hload, hheaders, hclaimed, hfree, hnext.trans hcount⟩

private theorem reopens_of_lastWritten {r : Except Error Unit} (hid : p.id.toNat + 1 = UInt32.size)
    (hp : p.Readable) (h : empty.writePage p = (r, f)) : r = .ok () ∧
      ∃ g t, load f.store.obliging = (.ok g, t) ∧ g.pageCount = UInt32.size ∧ g.ids.next = 0 := by
  have hok : (empty.writePage p).1 = .ok () :=
    fst_writePage_eq_ok_iff.2 ⟨⟨rfl, Store.canHold_of_memory rfl _⟩, by decide⟩
  rw [h] at hok
  obtain rfl : r = .ok () := hok
  have hstep : empty.Steps (.write p) (.ok none) f := .writes rfl h
  have hcount : f.pageCount = UInt32.size := by
    rw [pageCount_of_writePage_ok h, hid]
    exact Nat.max_eq_right (Nat.zero_le _)
  have hindexed : empty.Indexed := Opened.empty.indexed
  have hmirrors : f.Mirrors := by
    refine hstep.mirrors Opened.empty.mirrors hindexed ⟨0, rfl⟩ fun page hpage ↦ ?_
    obtain rfl := Option.some.inj hpage
    exact hp
  obtain ⟨t, ht⟩ := hmirrors.load (hstep.indexed hindexed) (Nat.le_of_eq hcount)
  refine ⟨rfl, _, t, ht, hcount, ?_⟩
  rw [hcount]
  rfl

/-- A page that was cut off leaves the page in front of it in the store, which the index learns of
when the file is opened again, and not before. And where the page with the last id was written, the
ids start over. -/
theorem cutOffWrite_reopens :
    (let f := (shortFile.call (.write (.fresh 1))).2
     shortFile.Opened ∧ pageSize ∣ shortFile.store.contents.size ∧ (Page.fresh 1).Readable ∧
      f.pageCount = 0 ∧ ∃ g t, load f.store.obliging = (.ok g, t) ∧ g.pageCount = 1) ∧
    let f := (empty.call (.write (.fresh 4294967295))).2
    empty.Opened ∧ pageSize ∣ empty.store.contents.size ∧ (Page.fresh 4294967295).Readable ∧
      empty.AllOrNothing (.write (.fresh 4294967295)) ∧
      ∃ g t, load f.store.obliging = (.ok g, t) ∧ g.ids.next.toNat ≠ g.pageCount := by
  constructor
  · rcases hwrite : shortFile.writePage (.fresh 1) with ⟨r, g⟩
    obtain ⟨-, hg, hsize, -⟩ := shortFile_writePage rfl hwrite
    have hfresh := hasHeader_of_stored (shortFile_stored rfl hwrite)
    have hcount : (pageSize + pageSize / 2) / pageSize = 1 := by decide
    have hhave : HaveHeaders g.store 0 (g.store.contents.size / pageSize) [.fresh 0] := by
      rw [hsize, hcount]
      exact .cons hfresh .nil
    obtain ⟨t, ht⟩ := load_of_haveHeaders hhave
    rw [call, hwrite]
    exact ⟨opened_shortFile, ⟨0, rfl⟩, (Page.tidy_fresh 1).readable, by rw [hg]; rfl, _, t, ht, rfl⟩
  · rcases hwrite : empty.writePage (.fresh 4294967295) with ⟨r, f⟩
    have hp := (Page.tidy_fresh 4294967295).readable
    obtain ⟨-, g, t, hload, hcount, hnext⟩ := reopens_of_lastWritten (by decide) hp hwrite
    rw [call, hwrite]
    refine ⟨.empty, ⟨0, rfl⟩, hp, allOrNothing_of_memory rfl, g, t, hload, ?_⟩
    rw [hcount, hnext]
    decide

end PageFile

end PagedStorage
