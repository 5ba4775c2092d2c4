import PagedStorage.Proofs.PageFile.Reopening

/-!
# Gaps

A write behind the end of a file skips pages, and the index takes them for fresh ones. Those that
lie behind the end of the store are, because a store grows by zeros. But a store that is opened
may end in the middle of a page. These last bytes are ignored then, and no write that skips the
page clears them, so they come back as the start of the first page that is skipped.

## Which last bytes do no harm

`PageFile.gapsFresh_iff` says for which last bytes all is well nevertheless, `PageFile.EndsFresh`:
their page must look as if it was never written, or as if a page without records was written to
it, in part. There is nothing between these: the first byte of a page that has a header is zero or
the last digit of its id (`HasHeader.byte_eq`), and a page without records is read from a blank
header or from its own image alone.

For other bytes the file cannot read its own page, and in general it cannot be opened again. Only
the first page of a gap can be lost in this way, since the store ends in it.
-/

namespace PagedStorage.PageFile

variable {f g : PageFile} {id : PageId} {p : Page} {s t : Store} {h : Header}

/-! ## Bytes that stand for a fresh page -/

private theorem pageOf_eq_fresh_iff {bytes : Array UInt8} : pageOf id bytes = .ok (.fresh id) ↔
    Header.isBlank bytes = true ∨ bytes = (Page.fresh id).image.toArray := by
  by_cases hblank : Header.isBlank bytes = true
  · rw [pageOf, if_pos hblank]
    exact iff_of_true rfl (.inl hblank)
  · rw [or_iff_right hblank]
    constructor
    · intro hpage
      rw [pageOf, if_neg hblank] at hpage
      obtain ⟨q, hq, hrest⟩ := bind_eq_ok_iff.1 hpage
      split at hrest
      next =>
        rw [← Except.ok.inj hrest]
        exact (Page.decode_eq_ok_iff.1 hq).1.symm
      next => exact absurd hrest error_ne_ok
    · intro hbytes
      rw [hbytes]
      exact pageOf_image_iff.2 ⟨(Page.tidy_fresh id).readable, rfl⟩

/-- A page that has a header starts with a zero or with the last digit of its id. -/
theorem HasHeader.byte_eq (hh : HasHeader s id h) : s.contents.byte (position id) = 0 ∨
    s.contents.byte (position id) = .ofNat (id.toNat % 256) := by
  have hle := hh.le_size
  have hpos : 0 < headerSize := by decide
  have hsize : (s.contents.read (position id) headerSize).size = headerSize := by
    rw [Contents.size_read]
    omega
  have hfirst : (Bytes.slice (s.contents.read (position id) headerSize) 0 headerSize)[0]? =
      some (s.contents.byte (position id)) := by
    rw [Bytes.getElem?_slice, if_pos hpos, Nat.zero_add, Contents.getElem?_read,
      if_pos (by omega), Nat.add_zero]
  have hheader := hh.headerOf_eq
  rw [headerOf] at hheader
  split at hheader
  next hblank =>
    rw [Header.isBlank, Bool.and_eq_true, List.all_eq_true] at hblank
    exact .inl (beq_iff_eq.1 (hblank.2 _ (List.mem_of_getElem? hfirst)))
  next =>
    have hdecode : Header.ofBytes (s.contents.read (position id) headerSize) = h := by
      obtain ⟨k, hk, hrest⟩ := bind_eq_ok_iff.1 hheader
      rw [Header.decode, if_neg (by omega)] at hk
      split at hrest
      next => rw [← Except.ok.inj hrest, ← Except.ok.inj hk]
      next => exact absurd hrest error_ne_ok
    -- The bytes of a header begin with the id that it names, and this is the id of the page.
    rw [← Header.encode_ofBytes (Nat.le_of_eq hsize.symm), hdecode] at hfirst
    have hdigit : h.encode[0]? = some (.ofNat (h.page.toNat % 256)) := rfl
    rw [hdigit, hh.page_eq] at hfirst
    exact .inr (Option.some.inj hfirst).symm

/-! ## Pages that are skipped -/

/-- The bytes behind the last whole page of the store are the start of a fresh page. -/
def EndsFresh (f : PageFile) : Prop :=
  Header.isBlank (f.bytesAt (.ofNat f.pageCount)) = true ∨
    f.bytesAt (.ofNat f.pageCount) = (Page.fresh (.ofNat f.pageCount)).image.toArray

theorem endsFresh_of_zeros
    (hzero : ∀ i < headerSize, f.store.contents.byte (position (.ofNat f.pageCount) + i) = 0) :
    f.EndsFresh := by
  refine .inl (Header.isBlank_of_zeros (by rw [size_bytesAt]; decide) fun i hi ↦ ?_)
  rw [getElem?_bytesAt (Nat.lt_trans hi (by decide)), hzero i hi]

theorem endsFresh_of_dvd (hf : f.Indexed) (hwhole : pageSize ∣ f.store.contents.size)
    (hlt : f.pageCount < UInt32.size) : f.EndsFresh := by
  refine endsFresh_of_zeros fun i _ ↦ Contents.byte_of_size_le _ ?_
  rw [position, UInt32.toNat_ofNat_of_lt' hlt, hf, Nat.div_mul_cancel hwhole]
  exact Nat.le_add_right _ _

/-- A page is lost if the end of the store cannot be its start: it cannot be read, and the store
cannot be opened. -/
theorem not_stored_of_byte (hwrite : f.writePage p = (.ok (), g)) (hlt : id.toNat < p.id.toNat)
    (hzero : f.store.contents.byte (position id) ≠ 0)
    (hdigit : f.store.contents.byte (position id) ≠ .ofNat (id.toNat % 256)) :
    (∀ q, g.stored id ≠ .ok q) ∧ ∀ r u, load g.store.obliging ≠ (.ok r, u) := by
  have hhas := (read_of_lt_written hwrite hlt).1
  have hbyte : g.store.contents.byte (position id) = f.store.contents.byte (position id) := by
    have hpos : position id < position p.id :=
      Nat.mul_lt_mul_of_pos_right hlt (by decide)
    rw [contents_of_writePage_ok hwrite, Contents.byte_write, dif_neg (by omega)]
  rw [← hbyte] at hzero hdigit
  constructor
  · intro q hq
    exact (hasHeader_of_stored hq).byte_eq.elim hzero hdigit
  · intro r u hload
    obtain ⟨k, hk⟩ := exists_hasHeader_of_load hload hhas
    have hcases := hk.byte_eq
    rw [contents_of_load hload] at hcases
    exact hcases.elim hzero hdigit

private theorem stored_of_gap_iff (hf : f.Indexed) (hlt : f.pageCount < p.id.toNat)
    (hwrite : f.writePage p = (.ok (), g)) :
    (∀ k, f.pageCount ≤ k.toNat → k < p.id → g.stored k = .ok (.fresh k)) ↔ f.EndsFresh := by
  have hfirst : (UInt32.ofNat f.pageCount).toNat = f.pageCount :=
    UInt32.toNat_ofNat_of_lt' (Nat.lt_trans hlt p.id.toNat_lt)
  rw [EndsFresh, ← pageOf_eq_fresh_iff, ← stored_of_lt_written hwrite (by rwa [hfirst])]
  constructor
  · intro hgap
    refine hgap _ (Nat.le_of_eq hfirst.symm) ?_
    rwa [UInt32.lt_iff_toNat_lt, hfirst]
  · -- The other pages that are skipped lie behind the end of the store.
    intro hstored k hle hk
    rcases Nat.eq_or_lt_of_le hle with heq | hbehind
    · rwa [heq, UInt32.ofNat_toNat] at hstored
    · refine stored_of_skipped hwrite ?_ (UInt32.lt_iff_toNat_lt.1 hk)
      rw [hf] at hbehind
      unfold position pageSize at *
      omega

/-- After a page was written behind the end of a file that was just opened, the pages before it
are fresh ones and the file can be opened again, exactly if nothing was skipped or the end of the
store looked fresh. -/
theorem gapsFresh_iff (hload : load s = (.ok f, t)) (hp : p.Readable)
    (hid : f.pageCount ≤ p.id.toNat) (hwrite : f.writePage p = (.ok (), g)) :
    ((∀ k, f.pageCount ≤ k.toNat → k < p.id → g.stored k = .ok (.fresh k)) ∧
      ∃ r u, load g.store.obliging = (.ok r, u)) ↔ p.id.toNat = f.pageCount ∨ f.EndsFresh := by
  have hindexed := (Opened.load hload).indexed
  have hgaps : (∀ k, f.pageCount ≤ k.toNat → k < p.id → g.stored k = .ok (.fresh k)) ↔
      p.id.toNat = f.pageCount ∨ f.EndsFresh := by
    rcases Nat.eq_or_lt_of_le hid with heq | hlt
    · refine iff_of_true (fun k hle hk ↦ ?_) (.inl heq.symm)
      rw [UInt32.lt_iff_toNat_lt, ← heq] at hk
      exact absurd hk (Nat.not_lt.2 hle)
    · rw [or_iff_right (Nat.ne_of_gt hlt)]
      exact stored_of_gap_iff hindexed hlt hwrite
  rw [← hgaps, and_iff_left_iff_imp]
  intro hfresh
  have hstep : f.Steps (.write p) (.ok none) g := .writes rfl hwrite
  have hmirrors : g.Mirrors := (mirrors_of_load hload).writePage hp hwrite hfresh
  have hcount : g.pageCount ≤ UInt32.size := by
    have hlt := p.id.toNat_lt
    rw [pageCount_of_writePage_ok hwrite, UInt32.size]
    omega
  obtain ⟨u, hu⟩ := hmirrors.load (hstep.indexed hindexed) hcount
  exact ⟨_, u, hu⟩

/-- A store of three zeros. Page 2 is written to it, and pages 0 and 1 are fresh ones. -/
theorem gapsFresh_zeros :
    ∃ f t g, load (.inMemory { size := 3 }) = (.ok f, t) ∧ f.pageCount = 0 ∧
      f.writePage (.fresh 2) = (.ok (), g) ∧ g.stored 0 = .ok (.fresh 0) ∧
      g.stored 1 = .ok (.fresh 1) ∧ ∃ r u, load g.store.obliging = (.ok r, u) := by
  have hload : load (.inMemory { size := 3 }) = (.ok _, _) := rfl
  have hzero (i : Nat) : ({ size := 3 } : Contents).byte i = 0 := by
    rw [Contents.byte]
    split <;> rfl
  obtain ⟨hfresh, hopens⟩ := (gapsFresh_iff hload (Page.tidy_fresh 2).readable (Nat.zero_le _)
    rfl).2 (.inr (endsFresh_of_zeros fun i _ ↦ hzero _))
  exact ⟨_, _, _, hload, rfl, rfl, hfresh 0 (Nat.zero_le _) (by decide),
    hfresh 1 (Nat.zero_le _) (by decide), hopens⟩

/-- A store of one byte, which is no start of page 0. The byte is ignored when the store is opened,
and after page 1 was written neither can page 0 be read nor can the file be opened again. -/
theorem skippedPage_keepsTail :
    ∃ f t g, load (.inMemory (.ofArray #[0xff])) = (.ok f, t) ∧ f.pageCount = 0 ∧
      f.writePage (.fresh 1) = (.ok (), g) ∧ (∀ q, g.stored 0 ≠ .ok q) ∧
      ∀ r u, load g.store.obliging ≠ (.ok r, u) := by
  obtain ⟨f, t, g, hload, hwrite⟩ : ∃ f t g, load (.inMemory (.ofArray #[0xff])) = (.ok f, t) ∧
    f.writePage (.fresh 1) = (.ok (), g) := ⟨_, _, _, rfl, rfl⟩
  have hcontents : f.store.contents = .ofArray #[0xff] := contents_of_load hload
  have hcount : f.pageCount = 0 := by
    rw [(Opened.load hload).indexed, hcontents]
    rfl
  have hstart : position 0 = 0 := Nat.zero_mul pageSize
  have hbyte : f.store.contents.byte (position 0) = 0xff := by
    rw [hcontents, hstart, Contents.ofArray, Contents.byte_overwrite _ _ _ (by decide)]
    rfl
  have hne : f.store.contents.byte (position 0) ≠ 0 := by
    rw [hbyte]
    decide
  exact ⟨f, t, g, hload, hcount, hwrite, not_stored_of_byte hwrite (by decide) hne hne⟩

end PagedStorage.PageFile
