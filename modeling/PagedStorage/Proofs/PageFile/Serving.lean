import PagedStorage.Proofs.PageFile.Reopening

/-!
# A file that serves a pool

A pool makes four kinds of calls on its file: it reads pages, writes pages that can be read back,
deletes pages, and syncs. What it writes or deletes has an id that was given out before,
`PageFile.Served`, so the counter stays where it is. Giving out an id is a call of its own.

## Files that do what is asked

A store that refuses no call goes on to do so (`Store.Willing`), and as long as the ids fit the
medium it then does all that is asked of it, `PageFile.Reliable`. Two things have to fit. The
medium must have room for the page, which a file with a limit may not have; and there must be an id
behind the pages of the file, `Extensible`, because the index is extended from there on. Only a
write of the page with the last id takes the second away, so `Fits`, the condition on a page, asks
for both room and an id behind it. While ids are left to be given out no page that was given out
can be the last one (`Ahead.extensible`, `Roomy.lt_next`).

## Files that can be read

A store in which every page can be read stays like this, `PageFile.Whole`, whenever calls are
refused and also where a write is cut off at the limit of a file. The page that is cut off comes
after all others, and the pages before it that come into the file by this are fresh ones. What a
write makes of a page is said once, in `Whole.cases_of_writePage`, for writes that succeed, are
refused or are cut off.

The third field of `Whole` concerns the bytes behind the last whole page. They have to be zeros
there, or no page may ever be written at this place. Otherwise a page that is skipped later would
come back with them.

So such a store can be opened again (`Whole.load`), which is what a session over several openings
needs of it.
-/

namespace PagedStorage

namespace Store

variable {s t : Store} {offset : Nat} {block : List UInt8}

/-- No call to come is refused, whatever was refused before. -/
structure Willing (s : Store) : Prop where
  writes : ∀ n, s.writes.calls ≤ n → s.writes.refuses n = false
  reads : ∀ n, s.reads.calls ≤ n → s.reads.refuses n = false
  sizes : ∀ n, s.sizes.calls ≤ n → s.sizes.refuses n = false
  syncs : ∀ n, s.syncs.calls ≤ n → s.syncs.refuses n = false

theorem willing_obliging (s : Store) : s.obliging.Willing :=
  ⟨fun _ _ ↦ rfl, fun _ _ ↦ rfl, fun _ _ ↦ rfl, fun _ _ ↦ rfl⟩

theorem Willing.of_size {r : Except IoFault Nat} (h : s.Willing) (hsize : s.size = (r, t)) :
    r = .ok s.contents.size ∧ t.Willing ∧ t.medium = s.medium := by
  rw [Store.size, Gate.attempt, h.sizes _ (Nat.le_refl _)] at hsize
  cases hsize
  exact ⟨rfl, ⟨h.writes, h.reads, fun n hn ↦ h.sizes n (Nat.le_of_succ_le hn), h.syncs⟩, rfl⟩

theorem Willing.of_read {len : Nat} {r : Except IoFault (Array UInt8)} (h : s.Willing)
    (hread : s.read offset len = (r, t)) : t.Willing ∧ t.medium = s.medium := by
  rw [Store.read, Gate.attempt, h.reads _ (Nat.le_refl _)] at hread
  cases hread
  exact ⟨⟨h.writes, fun n hn ↦ h.reads n (Nat.le_of_succ_le hn), h.sizes, h.syncs⟩, rfl⟩

theorem Willing.sync (h : s.Willing) :
    s.sync = (.ok (), { s with syncs := s.syncs.attempt.2 }) := by
  rw [Store.sync, Gate.attempt, h.syncs _ (Nat.le_refl _)]
  rfl

theorem Cuts.canHold {len : Nat} (h : s.Cuts offset len) : s.CanHold offset := by
  obtain ⟨limit, hlimit, hlt, -⟩ := h
  intro bound hbound
  cases hlimit.symm.trans hbound
  exact Nat.le_of_lt hlt

theorem Willing.of_write {r : Except IoFault Unit} (h : s.Willing)
    (hwrite : s.write offset block = (r, t)) : t.Willing := by
  rw [eq_of_write hwrite]
  exact ⟨fun n hn ↦ h.writes n (Nat.le_of_succ_le hn), h.reads, h.sizes, h.syncs⟩

/-- All that a write can do: nothing, all of it, or a part if it crosses the limit of a file. -/
theorem write_cases {r : Except IoFault Unit} (hblock : block ≠ [])
    (h : s.write offset block = (r, t)) :
    (r ≠ .ok () ∧ t.contents = s.contents) ∨
      ∃ part, t.contents = s.contents.write offset part ∧ s.CanHold offset ∧
        (part = block ∧ r = .ok () ∨
          part.length < block.length ∧ s.Cuts offset block.length ∧ r ≠ .ok ()) := by
  rw [write] at h
  split at h
  next =>
    obtain ⟨hok, hroom⟩ | ⟨-, ⟨cause, herror⟩ | ⟨cause, part, hlen, hcuts, hpart⟩⟩ :=
      s.written_cases offset hblock
    · rw [hok] at h
      cases h
      exact .inr ⟨block, rfl, hroom.mono (Nat.le_add_right _ _), .inl ⟨rfl, rfl⟩⟩
    · rw [herror] at h
      cases h
      exact .inl ⟨error_ne_ok, rfl⟩
    · rw [hpart] at h
      cases h
      exact .inr ⟨part, rfl, hcuts.canHold, .inr ⟨hlen, hcuts, error_ne_ok⟩⟩
  next =>
    cases h
    exact .inl ⟨error_ne_ok, rfl⟩

end Store

private theorem IdCounter.advancePast_of_covers {c : IdCounter} {id : PageId}
    (h : c.Covers (id.toNat + 1)) : c.advancePast id = c := by
  have hlt := c.next.toNat_lt
  have hid := id.toNat_lt
  rw [Covers, UInt32.size] at h
  rw [advancePast, if_neg]
  rw [UInt32.lt_iff_toNat_lt]
  split
  next hlast =>
    rw [UInt32.size] at hlast
    rw [UInt32.toNat_add, UInt32.toNat_one]
    omega
  next => omega

namespace PageFile

variable {f g start : PageFile} {id : PageId} {p : Page}

/-! ## The calls of a pool -/

/-- The calls that a pool makes, but for those that give out ids. -/
def Serves (f : PageFile) (c : FileCall) : Prop :=
  match c with
  | .read _ | .sync => True
  | .write page => page.Readable ∧ f.ids.Covers (page.id.toNat + 1)
  | .delete id => f.ids.Covers (id.toNat + 1)
  | .allocate | .freeOrAllocate => False

/-- The files that are reached by such calls. -/
inductive Served (start : PageFile) : PageFile → Prop
  | start : Served start start
  | call {f : PageFile} (c : FileCall) : Served start f → f.Serves c → Served start (f.call c).2

theorem Served.trans (h : start.Served f) (h' : f.Served g) : start.Served g := by
  induction h' with
  | start => exact h
  | call c _ hc ih => exact .call c ih hc

theorem served_of_readPage {r : Except Error Page} (h : f.readPage id = (r, g)) :
    f.Served g := by
  have hcall : (f.call (.read id)).2 = g := congrArg Prod.snd h
  exact hcall ▸ .call (.read id) .start trivial

theorem served_of_sync {r : Except Error Unit} (h : f.sync = (r, g)) : f.Served g := by
  have hcall : (f.call .sync).2 = g := congrArg Prod.snd h
  exact hcall ▸ .call .sync .start trivial

theorem served_of_writePage {r : Except Error Unit} (hp : p.Readable)
    (hcovers : f.ids.Covers (p.id.toNat + 1)) (h : f.writePage p = (r, g)) : f.Served g := by
  have hcall : (f.call (.write p)).2 = g := congrArg Prod.snd h
  exact hcall ▸ .call (.write p) .start ⟨hp, hcovers⟩

theorem served_of_deletePage {r : Except Error Unit} (hcovers : f.ids.Covers (id.toNat + 1))
    (h : f.deletePage id = (r, g)) : f.Served g := by
  have hcall : (f.call (.delete id)).2 = g := congrArg Prod.snd h
  exact hcall ▸ .call (.delete id) .start hcovers

/-- To delete a page is to write a fresh one, as far as the file is concerned. -/
theorem snd_deletePage (f : PageFile) (id : PageId) :
    (f.deletePage id).2 = (f.writePage (.fresh id)).2 := by
  obtain ⟨r', hwrite⟩ := writePage_of_deletePage (rfl : f.deletePage id = _)
  exact (congrArg Prod.snd hwrite).symm

/-- What reading, syncing and writing keep, a file keeps that serves a pool. -/
theorem Served.induct {P : PageFile → Prop}
    (hread : ∀ {f g : PageFile} {id : PageId} {r : Except Error Page}, P f →
      f.readPage id = (r, g) → P g)
    (hsync : ∀ {f g : PageFile} {r : Except Error Unit}, P f → f.sync = (r, g) → P g)
    (hwrite : ∀ {f g : PageFile} {p : Page} {r : Except Error Unit}, P f → p.Readable →
      f.ids.Covers (p.id.toNat + 1) → f.writePage p = (r, g) → P g)
    (hstart : P start) (h : start.Served f) : P f := by
  induction h with
  | start => exact hstart
  | @call f c _ hc ih =>
    match c, hc with
    | .read _, _ => exact hread ih rfl
    | .sync, _ => exact hsync ih rfl
    | .write _, ⟨hp, hcovers⟩ => exact hwrite ih hp hcovers rfl
    | .delete id, hcovers =>
      have heq : (f.call (.delete id)).2 = (f.writePage (.fresh id)).2 := f.snd_deletePage id
      rw [heq]
      exact hwrite ih (Page.tidy_fresh id).readable hcovers rfl

/-! ## Ids -/

theorem ids_of_writePage {r : Except Error Unit} (hcovers : f.ids.Covers (p.id.toNat + 1))
    (h : f.writePage p = (r, g)) : g.ids = f.ids := by
  obtain ⟨-, -, hids, -⟩ | ⟨-, hids, -⟩ := (writePage_cases h).1
  · rw [hids, IdCounter.advancePast_of_covers hcovers]
  · exact hids

theorem Served.ids_eq (h : start.Served f) : f.ids = start.ids := by
  refine h.induct (P := fun f ↦ f.ids = start.ids) ?_ ?_ ?_ rfl
  · intro f g id r hf hread
    exact (readPage_cases hread).2.1.trans hf
  · intro f g r hf hsync
    exact (sync_cases hsync).2.1.trans hf
  · intro f g p r hf _ hcovers hwrite
    exact (ids_of_writePage hcovers hwrite).trans hf

/-! ## Deleted pages -/

/-- A page that is deleted gets the header of a free page, and this it keeps while other pages are
deleted. -/
theorem header?_of_deletePage {i : PageId} {r : Except Error Unit} (h : f.deletePage id = (r, g))
    (hi : f.header? i = some (.fresh i) ∨ i = id ∧ r = .ok ()) :
    g.header? i = some (.fresh i) := by
  obtain ⟨hwrite, -⟩ | ⟨e, e', hwrite, rfl, -⟩ := deletePage_cases h
  · have hid : (Page.fresh id).header.page = id := rfl
    rw [eq_of_writePage_ok hwrite, header?_entered, hid]
    split
    next heq =>
      rw [heq]
      rfl
    next hne =>
      have hold := hi.resolve_right fun hself ↦ hne hself.1
      have hlt : i.toNat < f.pageCount := (Array.getElem?_eq_some_iff.1 hold).1
      exact (if_pos hlt).trans hold
  · obtain hold | ⟨-, ⟨⟩⟩ := hi
    rw [eq_of_writePage_error hwrite]
    exact hold

theorem mem_freePageIds {i : PageId} (h : f.header? i = some (.fresh i)) :
    i ∈ f.freePageIds := by
  have hlt : i.toNat < f.headers.size := (Array.getElem?_eq_some_iff.1 h).1
  refine List.mem_filter.2 ⟨List.mem_map.2 ⟨_, List.mem_range.2 hlt, UInt32.ofNat_toNat⟩, ?_⟩
  rw [h]
  rfl

/-! ## Reliable files -/

theorem willing_of_readPage {r : Except Error Page} (hf : f.store.Willing)
    (h : f.readPage id = (r, g)) : r = f.stored id ∧ g.store.Willing := by
  have hr : (f.readPage id).1 = answer f.store.medium f.store.contents id :=
    fst_readPage_of_passes (hf.sizes _ (Nat.le_refl _)) (hf.reads _ (Nat.le_refl _))
  rw [← stored_eq, h] at hr
  refine ⟨hr, ?_⟩
  have hsize : f.store.size.2.Willing := (hf.of_size rfl).2.1
  have hread : (f.store.size.2.read (position id) pageSize).2.Willing := (hsize.of_read rfl).1
  rw [readPage_eq] at h
  split at h
  next =>
    cases h
    exact hsize
  next =>
    split at h
    next =>
      cases h
      exact hsize
    next => split at h <;> cases h <;> exact hread

theorem willing_of_sync {r : Except Error Unit} (hf : f.store.Willing)
    (h : f.sync = (r, g)) : r = .ok () ∧ g.store.Willing := by
  rw [sync, hf.sync] at h
  cases h
  exact ⟨rfl, hf.writes, hf.reads, hf.sizes, fun n hn ↦ hf.syncs n (Nat.le_of_succ_le hn)⟩

theorem willing_of_writePage {r : Except Error Unit} (hf : f.store.Willing)
    (h : f.writePage p = (r, g)) : g.store.Willing := by
  rw [writePage] at h
  split at h
  next cause t ht =>
    cases h
    exact hf.of_write ht
  next t ht =>
    obtain ⟨hwrites, hreads, hsizes, hsyncs⟩ := hf.of_write ht
    rw [finishWrite_eq] at h
    split at h <;> cases h <;> exact ⟨hwrites, hreads, hsizes, hsyncs⟩

/-- The medium is the same, and refuses nothing if it refused nothing before. -/
structure Lasts (f g : PageFile) : Prop where
  medium_eq : g.store.medium = f.store.medium
  willing : f.store.Willing → g.store.Willing

theorem Lasts.refl (f : PageFile) : f.Lasts f := ⟨rfl, fun hf ↦ hf⟩

theorem Lasts.trans (h : start.Lasts f) (h' : f.Lasts g) : start.Lasts g :=
  ⟨h'.medium_eq.trans h.medium_eq, fun hstart ↦ h'.willing (h.willing hstart)⟩

theorem lasts_of_readPage {r : Except Error Page} (h : f.readPage id = (r, g)) : f.Lasts g :=
  ⟨(readPage_cases h).1.medium_eq, fun hf ↦ (willing_of_readPage hf h).2⟩

theorem lasts_of_writePage {r : Except Error Unit} (h : f.writePage p = (r, g)) : f.Lasts g :=
  ⟨(writePage_cases h).2.medium_eq, fun hf ↦ willing_of_writePage hf h⟩

theorem lasts_of_deletePage {r : Except Error Unit} (h : f.deletePage id = (r, g)) :
    f.Lasts g := by
  have heq : (f.writePage (.fresh id)).2 = g := by rw [← snd_deletePage, h]
  rw [← heq]
  exact lasts_of_writePage rfl

theorem Served.lasts (h : start.Served f) : start.Lasts f :=
  h.induct (P := fun f ↦ start.Lasts f) (fun hf hread ↦ hf.trans (lasts_of_readPage hread))
    (fun hf hsync ↦ hf.trans
      ⟨(sync_cases hsync).1.medium_eq, fun hg ↦ (willing_of_sync hg hsync).2⟩)
    (fun hf _ _ hwrite ↦ hf.trans (lasts_of_writePage hwrite)) (.refl start)

theorem Served.medium_eq (h : start.Served f) : f.store.medium = start.store.medium :=
  h.lasts.medium_eq

theorem Served.willing (h : start.Served f) (hstart : start.store.Willing) : f.store.Willing :=
  h.lasts.willing hstart

/-- There is an id behind the pages of the file, so a page can be entered. -/
def Extensible (f : PageFile) : Prop := f.pageCount < UInt32.size

/-- The medium has room for the page, and an id is left behind it. -/
def Fits (f : PageFile) (id : PageId) : Prop :=
  f.store.CanHold (position id + pageSize) ∧ id.toNat + 1 < UInt32.size

theorem Fits.congr (h : f.Fits id) (hmedium : g.store.medium = f.store.medium) : g.Fits id :=
  ⟨(Store.canHold_congr hmedium).2 h.1, h.2⟩

theorem Extensible.congr (hf : f.Extensible) (h : g.pageCount = f.pageCount) : g.Extensible :=
  Nat.lt_of_le_of_lt (Nat.le_of_eq h) hf

/-- As long as ids are left to be given out, there is one behind the pages of the file. -/
theorem Ahead.extensible (hf : f.Ahead) (hnext : f.ids.next.toNat + 1 < UInt32.size) :
    f.Extensible :=
  Nat.lt_of_le_of_lt (hf.indexed.resolve_right (Nat.ne_of_lt hnext)) (Nat.lt_of_succ_lt hnext)

theorem Extensible.writePage {r : Except Error Unit} (hf : f.Extensible)
    (hid : p.id.toNat + 1 < UInt32.size) (h : f.writePage p = (r, g)) : g.Extensible := by
  unfold Extensible at *
  rcases pageCount_of_writePage h with heq | heq <;> omega

theorem Extensible.deletePage {r : Except Error Unit} (hf : f.Extensible)
    (hid : id.toNat + 1 < UInt32.size) (h : f.deletePage id = (r, g)) : g.Extensible := by
  obtain ⟨r', hwrite⟩ := writePage_of_deletePage h
  exact Extensible.writePage (p := .fresh id) hf hid hwrite

/-- The medium has room for all ids that were given out, and they are not used up. -/
structure Roomy (f : PageFile) : Prop where
  canHold : f.store.CanHold (f.ids.next.toNat * pageSize)
  next_lt : f.ids.next.toNat + 1 < UInt32.size

/-- A file that does all that a pool asks of it. -/
structure Reliable (f : PageFile) : Prop where
  willing : f.store.Willing
  roomy : f.Roomy
  extensible : f.Extensible

theorem Roomy.lt_next (hf : f.Roomy) (hcovers : f.ids.Covers (id.toNat + 1)) :
    id.toNat + 1 ≤ f.ids.next.toNat :=
  hcovers.resolve_right (Nat.ne_of_lt hf.next_lt)

theorem Roomy.fits (hf : f.Roomy) (hcovers : f.ids.Covers (id.toNat + 1)) : f.Fits id := by
  have hle := hf.lt_next hcovers
  refine ⟨hf.canHold.mono ?_, Nat.lt_of_le_of_lt hle (Nat.lt_of_succ_lt hf.next_lt)⟩
  rw [position_add_pageSize]
  exact Nat.mul_le_mul_right pageSize hle

theorem Roomy.congr (hf : f.Roomy) (hmedium : g.store.medium = f.store.medium)
    (hids : g.ids = f.ids) : g.Roomy := by
  refine ⟨?_, hids ▸ hf.next_lt⟩
  rw [Store.canHold_congr hmedium, hids]
  exact hf.canHold

theorem Reliable.fits (hf : f.Reliable) (hcovers : f.ids.Covers (id.toNat + 1)) : f.Fits id :=
  hf.roomy.fits hcovers

theorem Extensible.of_covered {r : Except Error Unit} (hf : f.Extensible)
    (hnext : f.ids.next.toNat + 1 < UInt32.size) (hcovers : f.ids.Covers (p.id.toNat + 1))
    (h : f.writePage p = (r, g)) : g.Extensible := by
  have hpage := hcovers.resolve_right (Nat.ne_of_lt hnext)
  exact hf.writePage (Nat.lt_of_le_of_lt hpage (Nat.lt_of_succ_lt hnext)) h

theorem Served.extensible (h : start.Served f) (hnext : start.ids.next.toNat + 1 < UInt32.size)
    (hstart : start.Extensible) : f.Extensible := by
  refine (h.induct (P := fun f ↦ f.ids = start.ids ∧ f.Extensible) ?_ ?_ ?_ ⟨rfl, hstart⟩).2
  · rintro f g id r ⟨hids, hext⟩ hread
    exact ⟨(readPage_cases hread).2.1.trans hids, hext.congr (pageCount_of_readPage hread)⟩
  · rintro f g r ⟨hids, hext⟩ hsync
    exact ⟨(sync_cases hsync).2.1.trans hids, hext.congr (pageCount_of_sync hsync)⟩
  · rintro f g p r ⟨hids, hext⟩ - hcovers hwrite
    exact ⟨(ids_of_writePage hcovers hwrite).trans hids,
      hext.of_covered (hids ▸ hnext) hcovers hwrite⟩

theorem Served.reliable (h : start.Served f) (hstart : start.Reliable) : f.Reliable :=
  ⟨h.willing hstart.willing, hstart.roomy.congr h.medium_eq h.ids_eq,
    h.extensible hstart.roomy.next_lt hstart.extensible⟩

theorem fst_writePage_of_canHold (hf : f.store.Willing) (hext : f.Extensible)
    (hroom : f.store.CanHold (position p.id + pageSize)) : (f.writePage p).1 = .ok () :=
  fst_writePage_eq_ok_iff.2 ⟨⟨hf.writes _ (Nat.le_refl _), hroom⟩, hext⟩

theorem fst_deletePage_of_canHold (hf : f.store.Willing) (hext : f.Extensible)
    (hroom : f.store.CanHold (position id + pageSize)) : (f.deletePage id).1 = .ok () := by
  obtain ⟨-, hok⟩ | ⟨e, e', hwrite, -⟩ := deletePage_cases (rfl : f.deletePage id = _)
  · exact hok
  · have hok : (f.writePage (.fresh id)).1 = .ok () := fst_writePage_of_canHold hf hext hroom
    rw [hwrite] at hok
    cases hok

theorem willing_empty : empty.store.Willing :=
  ⟨fun _ _ ↦ rfl, fun _ _ ↦ rfl, fun _ _ ↦ rfl, fun _ _ ↦ rfl⟩

theorem extensible_empty : empty.Extensible := (by decide : 0 < UInt32.size)

theorem fits_empty {limit : Nat} (hlimit : limit < UInt32.size) (id : PageId)
    (hid : id.toNat < limit) : empty.Fits id :=
  ⟨Store.canHold_of_memory rfl _, Nat.lt_of_le_of_lt hid hlimit⟩

/-! ## Files of readable pages -/

/-- Every page of the file can be read and lies before the limit of the medium, and what lies
behind the last one is nothing that a later page is made of. -/
structure Whole (f : PageFile) : Prop where
  readable : ∀ id, f.Has id → ∃ page, f.stored id = .ok page
  withinLimit : ∀ id, f.Has id → f.store.CanHold (position id + pageSize)
  tail : ∀ id, ¬ f.Has id → f.store.Cuts (position id) pageSize ∨
    ∀ i < pageSize, f.store.contents.byte (position id + i) = 0

theorem Whole.congr (hf : f.Whole) (h : f.SameBytes g) : g.Whole := by
  have hhas (id : PageId) : g.Has id ↔ f.Has id := by rw [Has, Has, h.contents_eq]
  refine ⟨fun id hid ↦ ?_, fun id hid ↦ ?_, fun id hid ↦ ?_⟩
  · rw [h.stored_eq]
    exact hf.readable id ((hhas id).1 hid)
  · rw [Store.canHold_congr h.medium_eq]
    exact hf.withinLimit id ((hhas id).1 hid)
  · rw [Store.cuts_congr h.medium_eq, h.contents_eq]
    exact hf.tail id fun hhas' ↦ hid ((hhas id).2 hhas')

/-- A file of whole pages, each of which can be read, and no larger than its medium lets it be. -/
structure WellFormed (f : PageFile) : Prop where
  ahead : f.Ahead
  sized : pageSize ∣ f.store.contents.size
  readable : ∀ id, f.Has id → ∃ page, f.stored id = .ok page
  withinLimit : f.store.CanHold f.store.contents.size

theorem WellFormed.whole (hf : f.WellFormed) : f.Whole := by
  refine ⟨hf.readable, fun id hid ↦ hf.withinLimit.mono hid, fun id hid ↦ .inr fun i _ ↦ ?_⟩
  · refine Contents.byte_of_size_le _ (Nat.le_trans ?_ (Nat.le_add_right _ i))
    obtain ⟨count, hcount⟩ := hf.sized
    rw [Has, hcount] at hid
    rw [hcount]
    unfold position pageSize at *
    omega

/-- A page that comes into the file because a later one is written, in whole or in part, is a
fresh one. -/
theorem Whole.stored_of_passed {page : PageId} {part : List UInt8} (hf : f.Whole)
    (hpart : part.length ≤ pageSize)
    (hcontents : g.store.contents = f.store.contents.write (position page) part)
    (hmedium : g.store.medium = f.store.medium)
    (hbefore : f.store.CanHold (position page)) (hne : id ≠ page) (hnot : ¬ f.Has id)
    (hid : g.Has id) :
    g.stored id = .ok (.fresh id) ∧ g.store.CanHold (position id + pageSize) := by
  have hsize : g.store.contents.size = max f.store.contents.size (position page + part.length) := by
    rw [hcontents, Contents.size_write]
  have hend := hid
  rw [Has, hsize] at hend
  have hpages : id.toNat ≠ page.toNat := fun heq ↦ hne (UInt32.toNat_inj.1 heq)
  -- The page lay beyond the old end and lies within the new one, so it is before the page written.
  have hle : position id + pageSize ≤ position page := by
    rw [Has] at hnot
    unfold position pageSize at *
    omega
  have hwithin : f.store.CanHold (position id + pageSize) := hbefore.mono hle
  have hzero : ∀ i < pageSize, f.store.contents.byte (position id + i) = 0 :=
    (hf.tail id hnot).resolve_left hwithin.not_cuts
  have hwithin' := (Store.canHold_congr hmedium).2 hwithin
  have hinside : g.store.isBeyond (position id) = false :=
    Store.not_isBeyond_iff.2 (hwithin'.mono (Nat.le_add_right _ _))
  refine ⟨stored_of_zeros hid hinside fun i hi ↦ ?_, hwithin'⟩
  rw [hcontents, Contents.byte_write, dif_neg (by omega), hzero i hi]

/-- What a write does to the bytes: nothing, all of it, or a part if it is cut off. -/
theorem contents_of_writePage {r : Except Error Unit} (h : f.writePage p = (r, g)) :
    (r ≠ .ok () ∧ g.store.contents = f.store.contents) ∨
      ∃ part, g.store.contents = f.store.contents.write (position p.id) part ∧
        f.store.CanHold (position p.id) ∧
        (part = p.image.toList ∧ r = .ok () ∨
          part.length < pageSize ∧ f.store.Cuts (position p.id) pageSize ∧ r ≠ .ok ()) := by
  have hlen : p.image.toList.length = pageSize := Vector.length_toList
  rw [writePage] at h
  split at h
  next cause t ht =>
    cases h
    obtain ⟨-, hsame⟩ | ⟨part, hcontents, hbefore, ⟨-, ⟨⟩⟩ | ⟨hlt, hcuts, -⟩⟩ :=
      Store.write_cases (toList_image_ne_nil p) ht
    · exact .inl ⟨error_ne_ok, hsame⟩
    · rw [hlen] at hlt hcuts
      exact .inr ⟨part, hcontents, hbefore, .inr ⟨hlt, hcuts, error_ne_ok⟩⟩
  next t ht =>
    rw [finishWrite_eq] at h
    split at h
    next =>
      cases h
      obtain ⟨hne, -⟩ | ⟨part, hcontents, hbefore, ⟨rfl, -⟩ | ⟨-, -, hne⟩⟩ :=
        Store.write_cases (toList_image_ne_nil p) ht
      · exact absurd rfl hne
      · exact .inr ⟨_, hcontents, hbefore, .inl ⟨rfl, rfl⟩⟩
      · exact absurd rfl hne
    next =>
      cases h
      exact .inl ⟨error_ne_ok, rfl⟩

/-- What a write, which may be refused or cut off, makes of a page: the page stays as it is, or it
is the one that was written, or it comes into the file before that one. -/
theorem Whole.cases_of_writePage {r : Except Error Unit} (hf : f.Whole)
    (h : f.writePage p = (r, g)) (id : PageId) :
    (g.Has id ↔ f.Has id) ∧ g.stored id = f.stored id ∨ id = p.id ∧ r = .ok () ∨
      ¬ f.Has id ∧ g.stored id = .ok (.fresh id) ∧ g.store.CanHold (position id + pageSize) := by
  have hlen : p.image.toList.length = pageSize := Vector.length_toList
  have hmedium := (writePage_cases h).2.medium_eq
  obtain ⟨-, hsame⟩ | ⟨part, hcontents, hbefore, hpart⟩ := contents_of_writePage h
  · exact .inl ⟨by rw [Has, Has, hsame], SameBytes.stored_eq ⟨hmedium, hsame⟩ id⟩
  have hex := exchanges_of_writePage h
  by_cases hhas : g.Has id
  · by_cases hne : id = p.id
    · obtain ⟨-, hok⟩ | ⟨hlt, hcut, -⟩ := hpart
      · exact .inr (.inl ⟨hne, hok⟩)
      · -- A page that was cut off lies behind the end of the file.
        rw [← hne] at hcut hcontents
        have hend := hhas
        rw [Has, hcontents, Contents.size_write] at hend
        exact absurd hcut (hf.withinLimit id (by rw [Has]; omega)).not_cuts
    · by_cases hold : f.Has id
      · exact .inl ⟨iff_of_true hhas hold, hex.stored_eq id hne hold⟩
      · have hle : part.length ≤ pageSize := by
          obtain ⟨rfl, -⟩ | ⟨hlt, -⟩ := hpart
          · exact Nat.le_of_eq hlen
          · exact Nat.le_of_lt hlt
        exact .inr (.inr ⟨hold,
          hf.stored_of_passed hle hcontents hmedium hbefore hne hold hhas⟩)
  · have hold : ¬ f.Has id := fun hold ↦ hhas (hex.has_of_has id hold)
    exact .inl ⟨iff_of_false hhas hold,
      (stored_of_not_has hhas).trans (stored_of_not_has hold).symm⟩

theorem Whole.tail_of_writePage {r : Except Error Unit} {id : PageId} (hf : f.Whole)
    (h : f.writePage p = (r, g)) (hid : ¬ g.Has id) : g.store.Cuts (position id) pageSize ∨
      ∀ i < pageSize, g.store.contents.byte (position id + i) = 0 := by
  have hlen : p.image.toList.length = pageSize := Vector.length_toList
  have hold : ¬ f.Has id := fun hold ↦ hid ((exchanges_of_writePage h).has_of_has id hold)
  rw [Store.cuts_congr (writePage_cases h).2.medium_eq]
  obtain hcut | hzero := hf.tail id hold
  · exact .inl hcut
  obtain ⟨-, hsame⟩ | ⟨part, hcontents, -, hpart⟩ := contents_of_writePage h
  · rw [hsame]
    exact .inr hzero
  rw [Has, hcontents, Contents.size_write] at hid
  -- Beyond the new end nothing has changed; only the written page can have been cut there.
  by_cases hne : id = p.id
  · obtain ⟨rfl, -⟩ | ⟨-, hover, -⟩ := hpart
    · rw [hlen, hne] at hid
      omega
    · exact .inl (hne ▸ hover)
  · have hpages : id.toNat ≠ p.id.toNat := fun heq ↦ hne (UInt32.toNat_inj.1 heq)
    have hle : part.length ≤ pageSize := by
      obtain ⟨rfl, -⟩ | ⟨hlt, -⟩ := hpart
      · exact Nat.le_of_eq hlen
      · exact Nat.le_of_lt hlt
    refine .inr fun i hi ↦ ?_
    rw [hcontents, Contents.byte_write, dif_neg, hzero i hi]
    unfold position pageSize at *
    omega

/-- Writing a readable page keeps this, whatever comes of it. -/
theorem Whole.writePage {r : Except Error Unit} (hf : f.Whole) (hp : p.Readable)
    (h : f.writePage p = (r, g)) : g.Whole := by
  have hmedium := (writePage_cases h).2.medium_eq
  -- What the file serves is an old page, the page written, or one the write passed over.
  refine ⟨fun id hid ↦ ?_, fun id hid ↦ ?_, fun id hid ↦ hf.tail_of_writePage h hid⟩
  · obtain ⟨hhas, hsame⟩ | ⟨rfl, rfl⟩ | ⟨-, hfresh, -⟩ := hf.cases_of_writePage h id
    · rw [hsame]
      exact hf.readable id (hhas.1 hid)
    · exact ⟨p, (stored_of_writePage h).trans (pageOf_image_iff.2 ⟨hp, rfl⟩)⟩
    · exact ⟨_, hfresh⟩
  · obtain ⟨hhas, -⟩ | ⟨rfl, rfl⟩ | ⟨-, -, hwithin⟩ := hf.cases_of_writePage h id
    · rw [Store.canHold_congr hmedium]
      exact hf.withinLimit id (hhas.1 hid)
    · obtain ⟨⟨-, hroom⟩, -⟩ := fst_writePage_eq_ok_iff.1 (congrArg Prod.fst h)
      exact (Store.canHold_congr hmedium).2 hroom
    · exact hwithin

theorem Served.whole (h : start.Served f) (hstart : start.Whole) : f.Whole :=
  h.induct (P := Whole) (fun hf hread ↦ hf.congr (readPage_cases hread).1)
    (fun hf hsync ↦ hf.congr (sync_cases hsync).1)
    (fun hf hp _ hwrite ↦ hf.writePage hp hwrite) hstart

/-! ## A page that is cut off -/

theorem shortFile_deletePage : ∃ e g, shortFile.deletePage 1 = (.error e, g) ∧
    g.ids = {} ∧ ∃ g', g.readPage 0 = (.ok (.fresh 0), g') ∧ g'.ids = {} := by
  rcases hdelete : shortFile.deletePage 1 with ⟨r, g⟩
  obtain ⟨hwrite, -⟩ | ⟨e, e', hwrite, rfl, -⟩ := deletePage_cases hdelete
  · cases (shortFile_writePage rfl hwrite).1
  · have hg := eq_of_writePage_error hwrite
    have hread : (g.readPage 0).1 = .ok (.fresh 0) := by
      rw [fst_readPage_of_passes (by rw [hg]; rfl) (by rw [hg]; rfl), ← stored_eq,
        shortFile_stored rfl hwrite]
    have hids : (g.readPage 0).2.ids = g.ids := (readPage_cases (rfl : g.readPage 0 = _)).2.1
    exact ⟨e', g, rfl, by rw [hg]; rfl, (g.readPage 0).2, Prod.ext hread rfl, by rw [hids, hg]; rfl⟩

/-! ## Opening again -/

theorem willing_of_readHeaders {s t : Store} {headers : Array Header} {first count : Nat}
    {r : Except Error (Array Header)} (hs : s.Willing)
    (h : readHeaders s headers first count = (r, t)) : t.Willing ∧ t.medium = s.medium := by
  induction count generalizing s headers first with
  | zero =>
    cases h
    exact ⟨hs, rfl⟩
  | succ count ih =>
    rw [readHeaders] at h
    split at h
    next cause u hu =>
      cases h
      exact hs.of_read hu
    next bytes u hu =>
      obtain ⟨hwilling, hmedium⟩ := hs.of_read hu
      split at h
      next =>
        cases h
        exact ⟨hwilling, hmedium⟩
      next =>
        obtain ⟨ht, heq⟩ := ih hwilling h
        exact ⟨ht, heq.trans hmedium⟩

theorem willing_of_load {s t : Store} (hs : s.Willing) (h : load s = (.ok f, t)) :
    f.store.Willing ∧ f.store.medium = s.medium := by
  rw [load] at h
  split at h
  next => cases h
  next size u hu =>
    obtain ⟨-, hwilling, hmedium⟩ := hs.of_size hu
    simp only at h
    split at h
    next => cases h
    next headers v hread =>
      cases h
      obtain ⟨hv, heq⟩ := willing_of_readHeaders hwilling hread
      exact ⟨hv, heq.trans hmedium⟩

theorem Whole.load (hf : f.Whole) (hcount : f.store.contents.size / pageSize ≤ UInt32.size) :
    ∃ g t, PageFile.load f.store.obliging = (.ok g, t) ∧ f.SameBytes g ∧ g.store.Willing := by
  have hheaders : ∀ i ∈ List.range' 0 (f.store.contents.size / pageSize),
      ∃ h, HasHeader f.store (.ofNat i) h := by
    intro i hi
    have hlt : i < f.store.contents.size / pageSize := by simpa using hi
    have hid : (UInt32.ofNat i).toNat = i :=
      UInt32.toNat_ofNat_of_lt' (Nat.lt_of_lt_of_le hlt hcount)
    have hhas : f.Has (.ofNat i) := by
      rw [Has, position_add_pageSize, hid]
      exact (Nat.le_div_iff_mul_le (by decide)).1 hlt
    obtain ⟨page, hpage⟩ := hf.readable _ hhas
    exact ⟨_, hasHeader_of_stored hpage⟩
  choose! header hheader using hheaders
  have hhave : HaveHeaders f.store 0 (f.store.contents.size / pageSize)
      ((List.range' 0 (f.store.contents.size / pageSize)).map header) :=
    List.forall₂_map_right_iff.2 (List.forall₂_same.2 hheader)
  obtain ⟨t, ht⟩ := load_of_haveHeaders hhave
  obtain ⟨hwilling, hmedium⟩ := willing_of_load f.store.willing_obliging ht
  have hcontents := contents_of_load ht
  exact ⟨_, t, ht, ⟨hmedium, hcontents⟩, hwilling⟩

end PageFile

end PagedStorage
