import PagedStorage.Proofs.Pool.Appearing

/-!
# The last id

When the page with the last id of 32 bits is in a file there is no id behind its pages, and the file
can take no page any more: the number of the first page that it does not know cannot be told.

## Pages and not the counter

An id that was given out need not be an earlier one: once the counter has come to its end it covers
every id, `IdCounter.Covers`. So it is not the counter that says that the last page is missing, but
the pages themselves, `Pool.LacksLast`: those in frames and those in the file.

A page gets into a frame by its id or as a new one, and into the file from its frame, or because a
page behind it was written. Behind the last id there is none. So calls that name another id keep the
last page out, and so does every errand that touches other pages only.
-/

namespace PagedStorage

namespace PageFile

variable {f g : PageFile} {id : PageId} {p : Page}

/-- The file has no page with the last id, neither in its bytes nor in its index. -/
structure LacksLast (f : PageFile) : Prop where
  bytes : ∀ id, f.Has id → id.toNat + 1 < UInt32.size
  extensible : f.Extensible

theorem LacksLast.count_lt (hf : f.LacksLast) :
    f.store.contents.size / pageSize < UInt32.size := by
  by_contra hle
  have hhas : f.Has (.ofNat (UInt32.size - 1)) := by
    rw [Has, position_add_pageSize]
    exact (Nat.le_div_iff_mul_le (by decide)).1 (Nat.le_of_not_lt hle)
  exact absurd (hf.bytes _ hhas) (by decide)

theorem LacksLast.congr (hf : f.LacksLast) (h : f.SameBytes g)
    (hcount : g.pageCount = f.pageCount) : g.LacksLast :=
  ⟨fun id hid ↦ hf.bytes id (by rwa [Has, ← h.contents_eq]), hf.extensible.congr hcount⟩

theorem LacksLast.writePage {r : Except Error Unit} (hf : f.LacksLast)
    (hid : p.id.toNat + 1 < UInt32.size) (h : f.writePage p = (r, g)) : g.LacksLast := by
  refine ⟨fun id hhas ↦ ?_, hf.extensible.writePage hid h⟩
  obtain hhas | hle := has_of_writePage h hhas
  · exact hf.bytes id hhas
  · exact Nat.lt_of_le_of_lt (Nat.succ_le_succ hle) hid

end PageFile

namespace Pool

variable {ρ : Type} {p q t start : Pool ρ} {f : Nat} {id i : PageId} {u v : Finset PageId}
  {touched : Set PageId} {held : List PageId}

/-- No page has the last id, neither in a frame nor in the file. -/
structure LacksLast (p : Pool ρ) : Prop where
  frames : ∀ id f, p.table.find? id = some f → id.toNat + 1 < UInt32.size
  file : p.file.LacksLast

theorem LacksLast.lt_of_holds (hlacks : p.LacksLast) (h : p.Holds id) :
    id.toNat + 1 < UInt32.size := by
  cases hf : p.table.find? id with
  | none => exact hlacks.file.bytes id (has_of_holds hf h)
  | some f => exact hlacks.frames id f hf

theorem lacksLast_ofFile {s : ρ} {n : Nat} {file : PageFile} (h : file.LacksLast) :
    (ofFile file s n).LacksLast :=
  ⟨by rintro id f ⟨⟩, h⟩

theorem WritesBack.lacksLast {file : PageFile} (h : p.WritesBack file) (hp : p.Sound)
    (hlacks : p.LacksLast) : file.LacksLast := by
  cases h with
  | nothing => exact hlacks.file
  | page hf hwrite => exact hlacks.file.writePage (hp.page_id hf ▸ hlacks.frames _ _ hf) hwrite

variable [Replacer ρ]

theorem Installs.lacksLast {dirty : Bool} {load : PageFile → Except Error Page × PageFile}
    {r : Except Error Handle} (hp : p.Sound) (hnew : p.table.find? id = none)
    (hload : p.Loads id load) (hlacks : p.LacksLast)
    (hid : ∀ {x y : PageFile} {page : Page}, x.LacksLast → load x = (.ok page, y) →
      id.toNat + 1 < UInt32.size)
    (h : p.Installs id dirty load r q) : q.LacksLast := by
  have hframes (hr : r.toBool → id.toNat + 1 < UInt32.size) (j : PageId) (g : Nat)
      (hg : q.table.find? j = some g) : j.toNat + 1 < UInt32.size := by
    obtain ⟨hold, -⟩ | ⟨rfl, hok, -⟩ := h.found hp hnew hload hg
    · exact hlacks.frames j g hold
    · exact hr hok
  cases h with
  | exhausted | unusable => exact ⟨hframes nofun, hlacks.file⟩
  | restored _ _ hidle hheld _ hwrite =>
    have hback : p.WritesBack _ := .page (hp.find?_iff.2 ⟨(isIdle_iff.1 hidle).1, hheld⟩) hwrite
    exact ⟨hframes nofun, hback.lacksLast hp hlacks⟩
  | unloaded htakes herror =>
    obtain ⟨hbytes, -, hcount⟩ := hload.same herror
    exact ⟨hframes nofun, ((writesBack_of_takes hp htakes).lacksLast hp hlacks).congr hbytes hcount⟩
  | loaded htakes hok =>
    have ht := (writesBack_of_takes hp htakes).lacksLast hp hlacks
    obtain ⟨hbytes, -, hcount⟩ := hload.same hok
    exact ⟨hframes fun _ ↦ hid ht hok, ht.congr hbytes hcount⟩

theorem LacksLast.fetch {r : Except Error Handle} (hlacks : p.LacksLast) (hp : p.Sound)
    (h : p.fetch id = (r, q)) : q.LacksLast := by
  obtain ⟨-, -, rfl⟩ | ⟨f, -, -, -, hadjusts, -, hfile⟩ | ⟨hnew, hinstalls⟩ :=
    fetch_cases hp.toSteady h
  · exact hlacks
  · exact ⟨fun i g hg ↦ hlacks.frames i g (hadjusts.table_eq ▸ hg), hfile ▸ hlacks.file⟩
  · refine hinstalls.lacksLast hp hnew (p.loads_readPage id) hlacks fun hx hread ↦ ?_
    obtain ⟨-, -, hstored | ⟨cause, ⟨⟩⟩⟩ := PageFile.readPage_cases hread
    exact hx.bytes id (PageFile.has_of_stored hstored.symm)

theorem LacksLast.newPage {r : Except Error (PageId × Handle)} (hlacks : p.LacksLast)
    (hp : p.Sound) (hnext : p.file.ids.next.toNat + 1 < UInt32.size) (h : p.newPage = (r, q)) :
    q.LacksLast := by
  obtain ⟨r', -, hinstalls⟩ := newPage_cases hp.inFlight_eq h
  exact hinstalls.lacksLast (hp.allocate hnext) (hp.find?_next hnext)
    (loads_fresh (.inl (Nat.le_of_eq (IdCounter.toNat_next_allocate hnext).symm)))
    ⟨hlacks.frames, hlacks.file.congr ⟨rfl, rfl⟩ rfl⟩ fun _ _ ↦ hnext

theorem LacksLast.delete {r : Except Error Unit} (hlacks : p.LacksLast) (hp : p.Sound)
    (hid : id.toNat + 1 < UInt32.size) (h : p.delete id = (r, q)) : q.LacksLast := by
  obtain ⟨-, -, -, -, rfl⟩ | ⟨t, file, hdrops, hdelete, rfl⟩ := delete_cases hp.inFlight_eq
    hp.not_loading h
  · exact hlacks
  · obtain ⟨r', hwrite⟩ := PageFile.writePage_of_deletePage hdelete
    rw [hdrops.file_eq] at hwrite
    refine ⟨fun i g hg ↦ hlacks.frames i g ?_, hlacks.file.writePage (p := .fresh id) hid hwrite⟩
    obtain rfl | ⟨f, s, -, -, -, herase, -, -, htable, -⟩ := hdrops.taken hp.toSteady
    · exact hg
    · have hg : t.table.find? i = some g := hg
      rw [htable, herase, PageTable.find?_erase] at hg
      split at hg
      next => cases hg
      next => exact hg

omit [Replacer ρ] in
theorem LacksLast.congr (hlacks : p.LacksLast) (htable : q.table = p.table)
    (hfile : q.file = p.file) : q.LacksLast :=
  ⟨fun i g hg ↦ hlacks.frames i g (htable ▸ hg), hfile ▸ hlacks.file⟩

omit [Replacer ρ] in
theorem LacksLast.edit {e : Page.Edit} {r : Except Error Unit} (hlacks : p.LacksLast)
    (h : p.edit id e = (r, q)) : q.LacksLast := by
  obtain ⟨-, rfl⟩ | ⟨f, page, -, -, -, -, hadjusts, -, hfile⟩ := edit_cases h
  · exact hlacks
  · exact hlacks.congr hadjusts.table_eq hfile

theorem LacksLast.unpin {dirty : Bool} {r : Except Error Unit} (hlacks : p.LacksLast)
    (h : p.unpin id dirty = (r, q)) : q.LacksLast := by
  obtain ⟨-, -, rfl⟩ | ⟨f, -, ⟨-, -, rfl⟩ | ⟨-, -, hadjusts, -, hfile⟩⟩ := unpin_cases h
  · exact hlacks
  · exact hlacks
  · exact hlacks.congr hadjusts.table_eq hfile

theorem LacksLast.flush {r : Except Error Unit} (hlacks : p.LacksLast) (hp : p.Sound)
    (h : p.flush id = (r, q)) : q.LacksLast := by
  obtain ⟨-, rfl⟩ | ⟨f, hfound, hwrite, hadjusts, -⟩ := flush_cases h
  · exact hlacks
  · have hf := (residentFrame?_eq_some_iff.1 hfound).1
    exact ⟨fun i g hg ↦ hlacks.frames i g (hadjusts.table_eq ▸ hg),
      (WritesBack.page hf hwrite).lacksLast hp hlacks⟩

theorem LacksLast.flushAll {r : Except Error Unit} (hlacks : p.LacksLast) (hp : p.Sound)
    (h : p.flushAll = (r, q)) : q.LacksLast := by
  refine (flushAll_induction (I := fun q ↦ q.Sound ∧ q.LacksLast) ?_ ?_ ⟨hp, hlacks⟩ h).2
  · rintro s t id r ⟨hs, hlacks⟩ hflush
    exact ⟨sound_of_flush hs hflush, hlacks.flush hs hflush⟩
  · rintro s file r ⟨hs, hlacks⟩ hsync
    obtain ⟨hbytes, hids, -⟩ := PageFile.sync_cases hsync
    have hcount := PageFile.pageCount_of_sync hsync
    exact ⟨hs.congr rfl rfl rfl rfl (fun n hn ↦ hids ▸ hn) (hbytes.ahead hids hcount hs.ahead),
      hlacks.frames, hlacks.file.congr hbytes hcount⟩

/-- An errand that leaves the last id alone. -/
theorem Errand.lacksLast (h : Errand touched p held v q) (hp : p.Sound)
    (htouched : ∀ i ∈ touched, i.toNat + 1 < UInt32.size) (hlacks : p.LacksLast) :
    q.LacksLast := by
  induction h with
  | start => exact hlacks
  | fetch h hfetch ih | fetchFails h hfetch ih => exact ih.fetch (h.sound hp) hfetch
  | newPage h hnext hnew ih | newPageFails h hnext hnew ih =>
    exact ih.newPage (h.sound hp) hnext hnew
  | edit _ _ _ _ hedit ih => exact ih.edit hedit
  | unpin _ _ _ hunpin ih => exact ih.unpin hunpin
  | delete h hid _ hdelete ih => exact ih.delete (h.sound hp) (htouched _ hid) hdelete

end Pool
end PagedStorage
