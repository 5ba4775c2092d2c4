import PagedStorage.Proofs.PageFile.Calls

/-!
# A file as a map of pages

What a file answers for each id, and how a call that writes a page changes it: the page that was
written is answered under its id, all others as before, and the pages that were skipped over are
new ones, `PageFile.Replaces`. A call that fails changes nothing but the count of calls,
`afterRefusal`.

## Whole pages

The condition for this is that the store is made of whole pages when the file is opened. It stays
so in every run, and then a page that is skipped over lies entirely behind the old end, where a
write leaves zeros. Zeros stand for a page without records, and no page that was written is one
of zeros. Where a store ends in the middle of a page this is different: the bytes of that page are
still there when it is skipped, and they need not be the start of a fresh page.

## When a page is written

`fst_writePage_eq_ok_iff` says exactly when a write succeeds: the medium takes the call, it has
room, and there is an id behind the pages of the file. The last condition concerns the index alone,
which is extended from the first id behind its pages on. All three can be decided before the call,
so the theorems that ask for success ask for these.
-/

namespace PagedStorage

/-! ## Headers of zeros -/

theorem Header.isBlank_of_zeros {bytes : Array UInt8} (hsize : headerSize ≤ bytes.size)
    (hzero : ∀ i, i < headerSize → bytes[i]? = some 0) : Header.isBlank bytes = true := by
  rw [isBlank, Bool.and_eq_true, List.all_eq_true]
  refine ⟨decide_eq_true hsize, fun b hb ↦ ?_⟩
  obtain ⟨i, hi⟩ := List.mem_iff_getElem?.1 hb
  rw [Bytes.getElem?_slice] at hi
  split at hi
  next hlt =>
    rw [Nat.zero_add, hzero i hlt] at hi
    obtain rfl := Option.some.inj hi
    rfl
  next => cases hi

namespace Store

variable {s : Store} {offset : Nat} {block : List UInt8}

private theorem fst_written_eq_ok_iff (hblock : block ≠ []) :
    (s.written offset block).1 = .ok () ↔ s.CanHold (offset + block.length) := by
  obtain ⟨hok, hroom⟩ | ⟨hnot, ⟨cause, herror⟩ | ⟨cause, part, -, -, herror⟩⟩ :=
    s.written_cases offset hblock
  · rw [hok]
    exact iff_of_true rfl hroom
  · rw [herror]
    exact iff_of_false nofun hnot
  · rw [herror]
    exact iff_of_false nofun hnot

private theorem fst_write_eq_ok_iff (hblock : block ≠ []) : (s.write offset block).1 = .ok () ↔
    s.writes.refuses s.writes.calls = false ∧ s.CanHold (offset + block.length) := by
  rw [← fst_written_eq_ok_iff hblock, write, Gate.attempt]
  rcases s.writes.refuses s.writes.calls with _ | _
  · exact (and_iff_right rfl).symm
  · exact iff_of_false (by rintro ⟨⟩) fun h ↦ Bool.false_ne_true h.1.symm

end Store

namespace PageFile

variable {f g start : PageFile} {id : PageId} {p : Page}

/-! ## Pages that are skipped over -/

/-- The bytes at the place of a page, with zeros from the end of the store on. -/
def bytesAt (f : PageFile) (id : PageId) : Array UInt8 :=
  .ofFn fun i : Fin pageSize ↦ f.store.contents.byte (position id + i)

theorem getElem?_bytesAt {i : Nat} (hi : i < pageSize) :
    (f.bytesAt id)[i]? = some (f.store.contents.byte (position id + i)) := by
  rw [bytesAt, Array.getElem?_ofFn, dif_pos hi]

theorem size_bytesAt : (f.bytesAt id).size = pageSize := Array.size_ofFn

/-- A write makes the store long enough for each page before the one that was written, and leaves
the bytes there as they are, with zeros for those that were missing. -/
theorem read_of_lt_written (h : f.writePage p = (.ok (), g)) (hlt : id.toNat < p.id.toNat) :
    g.Has id ∧ g.store.isBeyond (position id) = false ∧
      g.store.contents.read (position id) pageSize = f.bytesAt id := by
  have hcontents := contents_of_writePage_ok h
  have hsize := size_of_writePage_ok h
  have hpos : position id + pageSize ≤ position p.id := by
    rw [position_add_pageSize, position]
    exact Nat.mul_le_mul_right pageSize hlt
  have hhas : g.Has id := by
    rw [Has, hsize, ← position_add_pageSize]
    omega
  have hroom : pageSize ≤ g.store.contents.size - position id := by
    rw [Has] at hhas
    omega
  refine ⟨hhas, ?_, Array.ext_getElem? fun i ↦ ?_⟩
  · rcases writePage_cases h with ⟨⟨-, -, -, -, hfits⟩ | ⟨⟨e, herror, -⟩, -⟩, hwrites⟩
    · exact Store.not_isBeyond_iff.2 ((Store.canHold_congr hwrites.medium_eq).2
        (hfits.mono (by omega)))
    · cases herror
  · rw [Contents.getElem?_read, Nat.min_eq_left hroom]
    by_cases hi : i < pageSize
    · rw [if_pos hi, getElem?_bytesAt hi, hcontents, Contents.byte_write, dif_neg (by omega)]
    · rw [if_neg hi, Array.getElem?_eq_none (by rw [size_bytesAt]; omega)]

theorem stored_of_zeros (hhas : f.Has id) (hwithin : f.store.isBeyond (position id) = false)
    (hzero : ∀ i < pageSize, f.store.contents.byte (position id + i) = 0) :
    f.stored id = .ok (.fresh id) := by
  have hroom : pageSize ≤ f.store.contents.size - position id := by
    rw [Has] at hhas
    omega
  have hblank : Header.isBlank (f.store.contents.read (position id) pageSize) = true := by
    refine Header.isBlank_of_zeros ?_ fun i hi ↦ ?_
    · rw [Contents.size_read, Nat.min_eq_left hroom]
      decide
    · have hlt : i < pageSize := Nat.lt_trans hi (by decide)
      rw [Contents.getElem?_read, Nat.min_eq_left hroom, if_pos hlt, hzero i hlt]
  rw [stored_of_has hhas, hwithin, if_neg Bool.false_ne_true, pageOf, if_pos hblank]

theorem shortFile_stored {r : Except Error Unit} (hid : p.id = 1)
    (h : shortFile.writePage p = (r, g)) : g.stored 0 = .ok (.fresh 0) := by
  obtain ⟨-, -, hsize, hzero⟩ := shortFile_writePage hid h
  have hhas : g.Has 0 := by
    rw [Has, hsize]
    decide
  refine stored_of_zeros hhas ?_ fun i hi ↦ ?_
  · have hlimit : shortFile.store.limit? = some (pageSize + pageSize / 2) := rfl
    rw [Store.isBeyond_congr (writePage_cases h).2.medium_eq, Store.isBeyond, hlimit]
    decide
  · rw [show position 0 + i = i from Nat.zero_add i, hzero i hi]

theorem stored_of_lt_written (h : f.writePage p = (.ok (), g)) (hlt : id.toNat < p.id.toNat) :
    g.stored id = pageOf id (f.bytesAt id) := by
  obtain ⟨hhas, hbeyond, hread⟩ := read_of_lt_written h hlt
  rw [stored_of_has hhas, hbeyond, if_neg Bool.false_ne_true, hread]

theorem stored_of_skipped (h : f.writePage p = (.ok (), g))
    (hend : f.store.contents.size ≤ position id) (hlt : id.toNat < p.id.toNat) :
    g.stored id = .ok (.fresh id) := by
  have hblank : Header.isBlank (f.bytesAt id) = true := by
    refine Header.isBlank_of_zeros (by rw [size_bytesAt]; decide) fun i hi ↦ ?_
    rw [getElem?_bytesAt (Nat.lt_trans hi (by decide)), Contents.byte_of_size_le _ (by omega)]
  rw [stored_of_lt_written h hlt, pageOf, if_pos hblank]

/-! ## Pages that are replaced -/

/-- A page is written exactly if the medium takes the call and has room for the page, and there is
an id behind the pages of the file. -/
theorem fst_writePage_eq_ok_iff : (f.writePage p).1 = .ok () ↔
    (f.store.writes.refuses f.store.writes.calls = false ∧
      f.store.CanHold (position p.id + pageSize)) ∧ f.pageCount < UInt32.size := by
  have hlen : p.image.toList.length = pageSize := Vector.length_toList
  rw [← hlen, ← Store.fst_write_eq_ok_iff (toList_image_ne_nil p), writePage]
  split
  next cause t ht =>
    rw [ht]
    exact iff_of_false error_ne_ok fun h ↦ error_ne_ok h.1
  next t ht =>
    rw [ht, finishWrite_eq, and_iff_right rfl]
    split
    next hlt => exact iff_of_true rfl hlt
    next hfull => exact iff_of_false error_ne_ok hfull

/-- One page of a file was replaced. -/
structure Replaces (f : PageFile) (id : PageId) (page : Page) (g : PageFile) : Prop where
  stored_self : g.stored id = .ok page
  pageCount_eq : g.pageCount = max f.pageCount (id.toNat + 1)
  stored_of_lt : ∀ i, i ≠ id → i.toNat < f.pageCount → g.stored i = f.stored i
  /-- The pages between the old end and this one are new. -/
  stored_of_skipped : ∀ i, f.pageCount ≤ i.toNat → i < id → g.stored i = .ok (.fresh i)
  stored_of_le : ∀ i, g.pageCount ≤ i.toNat → g.stored i = .error (.pageNotFound i)

/-- To write a readable page is to replace it, if the store is made of whole pages. -/
theorem replaces_of_writePage (hf : f.Indexed) (hwhole : pageSize ∣ f.store.contents.size)
    (hp : p.Readable) (h : f.writePage p = (.ok (), g)) : f.Replaces p.id p g := by
  have hstep : f.Steps (.write p) (.ok none) g := .writes rfl h
  have hg := hstep.indexed hf
  have hex := exchanges_of_writePage h
  refine ⟨?_, pageCount_of_writePage_ok h, fun i hne hlt ↦ ?_, fun i hle hlt ↦ ?_,
    fun i hle ↦ ?_⟩
  · rw [stored_of_writePage h]
    exact pageOf_image_iff.2 ⟨hp, rfl⟩
  · exact hex.stored_eq i hne (hf.has_iff.2 hlt)
  · refine PageFile.stored_of_skipped h ?_ (UInt32.lt_iff_toNat_lt.1 hlt)
    rw [position, ← Nat.div_mul_cancel hwhole, ← hf]
    exact Nat.mul_le_mul_right pageSize hle
  · exact stored_of_not_has fun hhas ↦ Nat.not_lt.2 hle (hg.has_iff.1 hhas)

private theorem replaces_of_deletePage (hf : f.Indexed) (hwhole : pageSize ∣ f.store.contents.size)
    (h : f.deletePage id = (.ok (), g)) : f.Replaces id (.fresh id) g := by
  rcases deletePage_cases h with ⟨hwrite, -⟩ | ⟨e, e', -, herror, -⟩
  · exact replaces_of_writePage hf hwhole (Page.tidy_fresh id).readable hwrite
  · cases herror

/-! ## Calls that fail -/

/-- The file after a write that its medium refused. -/
def afterRefusal (f : PageFile) : PageFile :=
  { f with store := { f.store with writes := f.store.writes.attempt.2 } }

theorem eq_afterRefusal {e : Error} (h : f.writePage p = (.error e, g))
    (hkept : g.store.contents = f.store.contents) : g = f.afterRefusal := by
  rw [eq_of_writePage_error h, hkept]
  rfl

/-! ## Runs -/

theorem Reached.whole (hstart : start.Opened) (hsize : pageSize ∣ start.store.contents.size)
    (hf : Reached AllOrNothing start f) : f.Indexed ∧ pageSize ∣ f.store.contents.size := by
  refine Reached.induct (P := fun f ↦ f.Indexed ∧ pageSize ∣ f.store.contents.size)
    (fun _ _ hc ↦ hc) ?_ ?_ ⟨hstart.indexed, hsize⟩ hf
  · intro f c r g hsteps hkeeps
    exact ⟨hsteps.indexed hkeeps.1, hsteps.dvd_size hkeeps.2⟩
  · intro f which gate hkeeps
    have hbytes := f.sameBytes_setGate which gate
    rw [Indexed, hbytes.contents_eq]
    exact hkeeps

/-- A file that was opened on a store of whole pages acts as a map of pages, after any run of
calls in which a call that fails changes no byte. -/
theorem Reached.actsAsPageMap (hstart : start.Opened)
    (hsize : pageSize ∣ start.store.contents.size) (hf : Reached AllOrNothing start f) :
    (∀ p g, Page.Built p.id p → f.writePage p = (.ok (), g) → f.Replaces p.id p g) ∧
    (∀ id g, f.deletePage id = (.ok (), g) → f.Replaces id (.fresh id) g) ∧
    (∀ p g e, f.AllOrNothing (.write p) → f.writePage p = (.error e, g) → g = f.afterRefusal) ∧
    ∀ id g e, f.AllOrNothing (.delete id) → f.deletePage id = (.error e, g) →
      g = f.afterRefusal := by
  obtain ⟨hindexed, hwhole⟩ := hf.whole hstart hsize
  refine ⟨fun p g hp h ↦ ?_, fun id g h ↦ ?_, fun p g e hc h ↦ ?_, fun id g e hc h ↦ ?_⟩
  · exact replaces_of_writePage hindexed hwhole hp.tidy.readable h
  · exact replaces_of_deletePage hindexed hwhole h
  · exact eq_afterRefusal h (hc.contents_of_writePage h)
  · rcases deletePage_cases h with ⟨-, hok⟩ | ⟨e, e', hwrite, -⟩
    · cases hok
    · exact eq_afterRefusal hwrite (hc.contents_of_deletePage h)

/-- In memory, page 1 is deleted and then page 3 is written, which skips page 2. A file that
refuses to write is left as it was. -/
theorem Reached.actsAsPageMap_skipping :
    let f := (empty.call (.delete 1)).2
    let refusing : PageFile := { f with store := f.store.setGate .write (.closingAfter 0) }
    (∃ p g, f.writePage p = (.ok (), g) ∧ p.isOverflow = true ∧ g.stored 3 = .ok p ∧
      g.stored 1 = f.stored 1 ∧ g.stored 2 = .ok (.fresh 2) ∧
      g.stored 4 = .error (.pageNotFound 4)) ∧
    ∃ e, refusing.deletePage 0 = (.error e, refusing.afterRefusal) := by
  intro f refusing
  have hmemory (file : PageFile) (c : FileCall) (h : file.store.medium = .memory) :
      file.AllOrNothing c := allOrNothing_of_not_cuts fun _ _ ↦ Store.not_cuts_of_memory h _ _
  have hf : Reached AllOrNothing empty f := .call (.delete 1) .start (hmemory _ _ rfl)
  have hrefusing : Reached AllOrNothing empty refusing := .reschedule _ _ hf
  constructor
  · obtain ⟨hwrites, -⟩ := actsAsPageMap .empty ⟨0, rfl⟩ hf
    have hbuilt : Page.Built 3 (Page.fresh 3).markOverflow := .edit (e := .markOverflow) .fresh rfl
    have hr := hwrites (Page.fresh 3).markOverflow _ hbuilt rfl
    have hcount : f.pageCount = 2 := rfl
    refine ⟨_, _, rfl, rfl, hr.stored_self, hr.stored_of_lt 1 (by decide) ?_,
      hr.stored_of_skipped 2 ?_ (by decide), hr.stored_of_le 4 ?_⟩
    · rw [hcount]
      decide
    · rw [hcount]
      decide
    · rw [hr.pageCount_eq, hcount]
      decide
  · obtain ⟨-, -, -, hdelete⟩ := actsAsPageMap .empty ⟨0, rfl⟩ hrefusing
    have hfails : refusing.deletePage 0 =
        (.error (.deleteFailed 0 (.refused .write)), (refusing.deletePage 0).2) := rfl
    have hg := hdelete 0 _ _ (hmemory _ _ rfl) hfails
    exact ⟨_, hfails.trans (congrArg _ hg)⟩

end PageFile

end PagedStorage
