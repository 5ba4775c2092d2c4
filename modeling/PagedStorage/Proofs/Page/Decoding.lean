import PagedStorage.Page.Decode
import PagedStorage.Proofs.Except
import PagedStorage.Proofs.Page.Layout

/-!
# What the decoder accepts

A block is decoded to a page exactly if it is the image of that page and the page is `Readable`:
its header and directory fit together and stand encoded at the front of the image. So a page is
read back from its image if and only if it is readable, whatever stands in the rest of the block.

## Reading is the inverse of writing

The decoder reads numbers and entries off the block, and a readable page is one whose front is
*encoded* at the front of its image. To get from one to the other, a number that is read from a
stretch and written again is shown to be the stretch (`littleEndian_numberAt`), and the same of an
entry and of the whole header. Nothing is lost on the way, since a stretch of a field has exactly
the bytes of the field.

## One check, one condition

Each check of the decoder is shown to be one part of `Header.Describes`. The records are compared
with their neighbours only, after they were sorted by where they start. In such a list this is as
good as comparing all pairs (`separated_eq_true_iff`), for stretches that are not empty.

The decoder has two kinds of errors. A block of the wrong length is rejected for its length, and
all others under the id that stands in the header, even if it is the header that is at fault.
-/

namespace PagedStorage

/-! ## Reading back what is written -/

namespace Bytes

theorem slice_append (bytes : Array UInt8) (start a b : Nat) :
    slice bytes start a ++ slice bytes (start + a) b = slice bytes start (a + b) := by
  simp only [slice, Array.toList_extract, List.extract_eq_take_drop, Nat.add_sub_cancel_left]
  rw [← List.drop_drop, List.take_add]

/-- A number read from a stretch of the block and written again is the stretch. -/
theorem littleEndian_numberAt {bytes : Array UInt8} {start width : Nat}
    (h : start + width ≤ bytes.size) :
    littleEndian width (numberAt bytes start width) = slice bytes start width := by
  have hlen : (slice bytes start width).length = width := by
    rw [length_slice]
    omega
  have hback := littleEndian_value (slice bytes start width)
  rwa [hlen] at hback

theorem numberAt_lt (bytes : Array UInt8) (start width : Nat) :
    numberAt bytes start width < capacity width := by
  have hcap : ∀ {a b : Nat}, a ≤ b → capacity a ≤ capacity b := by
    intro a b hab
    induction hab with
    | refl => exact Nat.le_refl _
    | step _ ih => exact Nat.le_trans ih (Nat.le_mul_of_pos_left _ (by decide))
  refine Nat.lt_of_lt_of_le (value_lt _) (hcap ?_)
  rw [length_slice]
  exact Nat.min_le_left _ _

theorem toNat_ofNat_numberAt_two (bytes : Array UInt8) (start : Nat) :
    (UInt16.ofNat (numberAt bytes start 2)).toNat = numberAt bytes start 2 :=
  UInt16.toNat_ofNat_of_lt' (numberAt_lt bytes start 2)

private theorem toNat_ofNat_numberAt_four (bytes : Array UInt8) (start : Nat) :
    (UInt32.ofNat (numberAt bytes start 4)).toNat = numberAt bytes start 4 :=
  UInt32.toNat_ofNat_of_lt' (numberAt_lt bytes start 4)

end Bytes

theorem Header.encode_ofBytes {bytes : Array UInt8} (h : headerSize ≤ bytes.size) :
    (ofBytes bytes).encode = Bytes.slice bytes 0 headerSize := by
  have hjoin (a b : Nat) :
      Bytes.slice bytes 0 a ++ Bytes.slice bytes a b = Bytes.slice bytes 0 (a + b) := by
    rw [← Bytes.slice_append, Nat.zero_add]
  unfold headerSize at h
  simp only [encode, ofBytes, Bytes.toNat_ofNat_numberAt_two, Bytes.toNat_ofNat_numberAt_four]
  repeat rw [Bytes.littleEndian_numberAt (by omega)]
  rw [hjoin 4 4, hjoin 8 4, hjoin 12 2, hjoin 14 2, hjoin 16 2, hjoin 18 2, hjoin 20 2, hjoin 22 2]
  rfl

theorem Slot.encode_of_decode {bytes : Array UInt8} {n : Nat} {page : PageId} {s : Slot}
    (h : Slot.decode bytes n page = .ok s) :
    s.encode = Bytes.slice bytes (slotPosition n) slotSize := by
  unfold Slot.decode at h
  simp only at h
  split at h
  · cases h
  next hroom =>
    split at h
    · cases h
    next status hstatus =>
      cases h
      have hcode := SlotStatus.ofCode?_eq_some_iff.1 hstatus
      generalize hpos : slotPosition n = pos at *
      unfold slotSize at hroom ⊢
      simp only [encode, ← hcode, Bytes.toNat_ofNat_numberAt_two]
      repeat rw [Bytes.littleEndian_numberAt (by omega)]
      rw [Bytes.slice_append bytes pos 2 2, Bytes.slice_append bytes pos 4 2,
        Bytes.slice_append bytes pos 6 2]

private theorem Slot.decode_eq_ok_iff {bytes : Array UInt8} {n : Nat} {page : PageId} {s : Slot} :
    Slot.decode bytes n page = .ok s ↔
      Bytes.slice bytes (slotPosition n) slotSize = s.encode :=
  ⟨fun h ↦ (encode_of_decode h).symm, Slot.decode_eq page⟩

theorem length_flatMap_encode (d : List Slot) :
    (d.flatMap Slot.encode).length = d.length * slotSize := by
  have hlen := length_encodeLayout (.fresh 0) d
  rw [encodeLayout, List.length_append, Header.length_encode, slotPosition] at hlen
  omega

private theorem slice_eq_flatMap_encode_iff {bytes : Array UInt8} {d : List Slot} {start : Nat} :
    Bytes.slice bytes start (d.length * slotSize) = d.flatMap Slot.encode ↔
      ∀ (i : Nat) (hi : i < d.length),
        Bytes.slice bytes (start + i * slotSize) slotSize = d[i].encode := by
  induction d generalizing start with
  | nil => simp [Bytes.slice]
  | cons s d ih =>
    have hsplit : Bytes.slice bytes start ((s :: d).length * slotSize) =
        Bytes.slice bytes start slotSize ++
          Bytes.slice bytes (start + slotSize) (d.length * slotSize) := by
      rw [Bytes.slice_append, List.length_cons, Nat.succ_mul, Nat.add_comm slotSize]
    have hshift (i : Nat) : start + (i + 1) * slotSize = start + slotSize + i * slotSize := by
      rw [Nat.succ_mul]
      omega
    rw [hsplit, List.flatMap_cons]
    -- The pieces on both sides are equally long, since the first entry is there in full.
    constructor
    · intro h i hi
      have hlen := congrArg List.length h
      rw [List.length_append, List.length_append, Bytes.length_slice, Bytes.length_slice,
        s.length_encode, length_flatMap_encode] at hlen
      have hfirst : (Bytes.slice bytes start slotSize).length = s.encode.length := by
        rw [Bytes.length_slice, s.length_encode]
        omega
      obtain ⟨hhead, htail⟩ := List.append_inj h hfirst
      cases i with
      | zero => rw [Nat.zero_mul, Nat.add_zero, List.getElem_cons_zero, hhead]
      | succ i =>
        rw [hshift, List.getElem_cons_succ]
        exact ih.1 htail i (by simpa using hi)
    · intro h
      have hhead := h 0 (by simp)
      rw [Nat.zero_mul, Nat.add_zero, List.getElem_cons_zero] at hhead
      rw [hhead, ih.2 fun i hi ↦ ?_]
      have hnext := h (i + 1) (by simpa using hi)
      rwa [hshift, List.getElem_cons_succ] at hnext

theorem slice_eq_encodeLayout_iff {bytes : Array UInt8} {h : Header} {d : List Slot} :
    Bytes.slice bytes 0 (slotPosition d.length) = encodeLayout h d ↔
      Bytes.slice bytes 0 headerSize = h.encode ∧
        ∀ (i : Nat) (hi : i < d.length),
          Bytes.slice bytes (slotPosition i) slotSize = d[i].encode := by
  have hsplit : Bytes.slice bytes 0 (slotPosition d.length) =
      Bytes.slice bytes 0 headerSize ++ Bytes.slice bytes headerSize (d.length * slotSize) := by
    rw [slotPosition, ← Bytes.slice_append, Nat.zero_add]
  have hentries : Bytes.slice bytes headerSize (d.length * slotSize) = d.flatMap (·.encode) ↔
      ∀ (i : Nat) (hi : i < d.length), Bytes.slice bytes (slotPosition i) slotSize = d[i].encode :=
    slice_eq_flatMap_encode_iff
  rw [hsplit, encodeLayout]
  constructor
  · intro heq
    have hlen := congrArg List.length heq
    rw [List.length_append, List.length_append, Bytes.length_slice, Bytes.length_slice,
      h.length_encode, length_flatMap_encode] at hlen
    have hfirst : (Bytes.slice bytes 0 headerSize).length = h.encode.length := by
      rw [Bytes.length_slice, h.length_encode]
      omega
    obtain ⟨hhead, htail⟩ := List.append_inj heq hfirst
    exact ⟨hhead, hentries.1 htail⟩
  · rintro ⟨hhead, htail⟩
    rw [hhead, hentries.2 htail]

namespace Page

/-! ## The checks, one by one -/

private theorem checkFreeSpace_eq_ok_iff {h : Header} :
    checkFreeSpace h = .ok () ↔ slotPosition h.slotCount.toNat ≤ h.lower.toNat ∧
      h.lower.toNat ≤ h.upper.toNat ∧ h.upper.toNat ≤ pageSize := by
  rw [checkFreeSpace, ite_error_eq_ok_iff, UInt16.lt_iff_toNat_lt]
  constructor
  · rintro ⟨hgood, -⟩
    omega
  · rintro ⟨hlow, hmid, hup⟩
    exact ⟨by omega, rfl⟩

/-- What the decoder asks of one entry, its id apart. -/
def EntryFits (h : Header) (s : Slot) : Prop :=
  s.id.toNat < h.slotCount.toNat ∧ s.stop ≤ pageSize ∧ keySize ≤ s.length.toNat ∧
    (s.isUsed → h.upper.toNat ≤ s.start)

private theorem checkEntry_eq_ok_iff {h : Header} {seen : List SlotId} {s : Slot} :
    checkEntry h seen s = .ok () ↔ EntryFits h s ∧ s.id ∉ seen := by
  rw [checkEntry, EntryFits]
  simp only [ite_error_eq_ok_iff, not_or, not_and, UInt16.le_iff_toNat_le,
    UInt16.lt_iff_toNat_lt, Nat.not_le, Nat.not_lt]
  constructor
  · rintro ⟨⟨hid, hseen⟩, ⟨hstop, hkey⟩, hspace, -⟩
    exact ⟨⟨hid, hstop, hkey, hspace⟩, hseen⟩
  · rintro ⟨⟨hid, hstop, hkey, hspace⟩, hseen⟩
    exact ⟨⟨hid, hseen⟩, ⟨hstop, hkey⟩, hspace, trivial⟩

private theorem checkEntries_eq_ok_iff {h : Header} {seen : List SlotId} {d : List Slot} :
    checkEntries h seen d = .ok () ↔
      (∀ s ∈ d, EntryFits h s) ∧ (d.map (·.id)).Nodup ∧ ∀ s ∈ d, s.id ∉ seen := by
  induction d generalizing seen with
  | nil => simp [checkEntries]
  | cons s d ih =>
    rw [checkEntries, bind_eq_ok_iff, List.map_cons, List.nodup_cons, List.forall_mem_cons,
      List.forall_mem_cons]
    constructor
    · rintro ⟨⟨⟩, hs, hd⟩
      obtain ⟨hfit, hseen⟩ := checkEntry_eq_ok_iff.1 hs
      obtain ⟨hfits, hnodup, hnew⟩ := ih.1 hd
      refine ⟨⟨hfit, hfits⟩, ⟨?_, hnodup⟩, hseen, fun t ht hmem ↦
        hnew t ht (List.mem_cons_of_mem _ hmem)⟩
      rintro hmem
      obtain ⟨t, ht, heq⟩ := List.mem_map.1 hmem
      exact hnew t ht (heq ▸ List.mem_cons_self)
    · rintro ⟨⟨hfit, hfits⟩, ⟨hfresh, hnodup⟩, hseen, hnew⟩
      refine ⟨(), checkEntry_eq_ok_iff.2 ⟨hfit, hseen⟩, ih.2 ⟨hfits, hnodup, fun t ht hmem ↦ ?_⟩⟩
      rcases List.mem_cons.1 hmem with heq | hmem
      · exact hfresh (heq ▸ List.mem_map_of_mem ht)
      · exact hnew t ht hmem

private theorem checkFreeSlotCount_eq_ok_iff {h : Header} {d : List Slot} :
    checkFreeSlotCount h d = .ok () ↔ d.countP (·.isFree) = h.freeSlotCount.toNat :=
  ite_ok_eq_ok_iff

/-- In a list ordered by start, comparing neighbours is comparing all pairs. -/
theorem separated_eq_true_iff {d : List Slot} (hsorted : d.Pairwise fun a b ↦ a.start ≤ b.start)
    (hpos : ∀ s ∈ d, s.start < s.stop) : separated d = true ↔ d.Pairwise Slot.Apart := by
  induction d with
  | nil => simp [separated]
  | cons a d ih =>
    rw [List.pairwise_cons] at hsorted
    rw [List.forall_mem_cons] at hpos
    rw [List.pairwise_cons]
    cases d with
    | nil => simp [separated]
    | cons b d =>
      rw [separated, Bool.and_eq_true, decide_eq_true_eq, ih hsorted.2 hpos.2]
      have hab := hsorted.1 b List.mem_cons_self
      have hb := hpos.2 b List.mem_cons_self
      constructor
      · -- The first stretch ends before the second one starts, and no other one starts earlier.
        rintro ⟨hstop, hrest⟩
        refine ⟨fun t ht ↦ .inl (Nat.le_trans hstop ?_), hrest⟩
        rcases List.mem_cons.1 ht with rfl | ht
        · exact Nat.le_refl _
        · exact (List.pairwise_cons.1 hsorted.2).1 t ht
      · rintro ⟨hall, hrest⟩
        refine ⟨?_, hrest⟩
        rcases hall b List.mem_cons_self with hstop | hstop
        · exact hstop
        · -- The second stretch is not empty, so it does not end before the first one starts.
          omega

private theorem checkRecords_eq_ok_iff {h : Header} {d : List Slot}
    (hpos : ∀ s ∈ d, s.start < s.stop) :
    checkRecords h d = .ok () ↔
      d.Pairwise fun a b ↦ a.isUsed → b.isUsed → a.Apart b := by
  have hperm := List.mergeSort_perm (d.filter (·.isUsed)) fun a b ↦ decide (a.start ≤ b.start)
  have hsorted : ((d.filter (·.isUsed)).mergeSort fun a b ↦ decide (a.start ≤ b.start)).Pairwise
      fun a b ↦ decide (a.start ≤ b.start) :=
    List.pairwise_mergeSort (fun a b c hab hbc ↦ by simp only [decide_eq_true_eq] at *; omega)
      (fun a b ↦ by simp only [Bool.or_eq_true, decide_eq_true_eq]; omega) _
  have hapart : separated ((d.filter (·.isUsed)).mergeSort fun a b ↦ decide (a.start ≤ b.start))
      = true ↔ d.Pairwise fun a b ↦ a.isUsed → b.isUsed → a.Apart b := by
    rw [separated_eq_true_iff (hsorted.imp fun hab ↦ of_decide_eq_true hab)
        (fun s hs ↦ hpos s (List.mem_of_mem_filter (hperm.mem_iff.1 hs))),
      hperm.pairwise_iff Slot.Apart.symm, List.pairwise_filter]
  rw [← hapart]
  exact ite_ok_eq_ok_iff

/-! ## The decoder as a whole -/

theorem ofBytes?_eq_some_iff {bytes : Array UInt8} {image : Image} :
    Image.ofBytes? bytes = some image ↔ image.toArray = bytes := by
  rw [Image.ofBytes?]
  split
  next hsize =>
    constructor
    · intro h
      cases h
      rfl
    · rintro rfl
      rfl
  next hsize =>
    constructor
    · intro h
      cases h
    · rintro rfl
      exact absurd image.size_toArray hsize

/-- A block is decoded to the readable page whose image it is, and to no other. -/
theorem decode_eq_ok_iff {bytes : Array UInt8} {p : Page} :
    decode bytes = .ok p ↔ p.image.toArray = bytes ∧ p.Readable := by
  rw [decode]
  split
  next hnone =>
    constructor
    · intro h
      cases h
    · rintro ⟨hbytes, -⟩
      rw [ofBytes?_eq_some_iff.2 hbytes] at hnone
      cases hnone
  next image himage =>
    have hbytes := ofBytes?_eq_some_iff.1 himage
    have hsize : bytes.size = pageSize := by rw [← hbytes, image.size_toArray]
    -- The types keep this lemma off the checks, which have one of their own.
    simp only [@bind_eq_ok_iff Error Header, @bind_eq_ok_iff Error (List Slot),
      check_bind_eq_ok_iff, mapM_range_eq_ok_iff, Slot.decode_eq_ok_iff,
      checkFreeSpace_eq_ok_iff, checkEntries_eq_ok_iff, checkFreeSlotCount_eq_ok_iff]
    constructor
    · rintro ⟨h, hh, d, ⟨hlen, hd⟩, ⟨hlow, hup, htop⟩, ⟨hfits, hnodup, -⟩, hfree, hrec, hp⟩
      cases hp
      refine ⟨hbytes, ?_, ?_⟩
      · constructor
        · exact hlen
        · exact hnodup
        · exact fun s hs ↦ (hfits s hs).1
        · exact hlow
        · exact hup
        · exact htop
        · exact fun s hs ↦ (hfits s hs).2.2.1
        · exact fun s hs ↦ (hfits s hs).2.1
        · exact fun s hs ↦ (hfits s hs).2.2.2
        · exact (checkRecords_eq_ok_iff fun s hs ↦ Slot.start_lt_stop (hfits s hs).2.2.1).1 hrec
        · exact hfree
      · rw [Header.decode, if_neg (by rw [hsize]; decide)] at hh
        cases hh
        rw [HasFront, Image.slice, hbytes, slice_eq_encodeLayout_iff]
        exact ⟨(Header.encode_ofBytes (by rw [hsize]; decide)).symm, hd⟩
    · rintro ⟨heq, hdesc, hfront⟩
      rw [HasFront, Image.slice, heq, slice_eq_encodeLayout_iff] at hfront
      have himg : image = p.image := Vector.toArray_inj.1 (hbytes.trans heq.symm)
      refine ⟨p.header, ?_, p.directory, ⟨hdesc.length_eq, hfront.2⟩, ⟨hdesc.front_le_lower,
        hdesc.lower_le_upper, hdesc.upper_le⟩, ⟨fun s hs ↦ ⟨hdesc.id_lt s hs,
        hdesc.stop_le s hs, hdesc.keySize_le s hs, hdesc.upper_le_start s hs⟩, hdesc.ids_nodup,
        fun _ _ ↦ List.not_mem_nil⟩, hdesc.countFree, ?_, ?_⟩
      · rw [Header.decode, if_neg (by rw [hsize]; decide), Header.ofBytes_eq hfront.1]
      · exact (checkRecords_eq_ok_iff fun s hs ↦
          Slot.start_lt_stop (hdesc.keySize_le s hs)).2 hdesc.apart
      · rw [himg]

/-- A page is read back from its image exactly if it is readable. -/
theorem decode_image_iff {p : Page} : decode p.image.toArray = .ok p ↔ p.Readable := by
  rw [decode_eq_ok_iff]
  exact and_iff_right rfl

/-! ## Errors of the decoder -/

theorem decodeSlot_failsWith (bytes : Array UInt8) (n : Nat) (page : PageId) :
    FailsWith (Error.CorruptionOf page) (Slot.decode bytes n page) := by
  rw [Slot.decode]
  refine .ite (failsWith_error ⟨_, rfl⟩) ?_
  simp only
  split
  · exact failsWith_error ⟨_, rfl⟩
  · exact failsWith_ok _

theorem checkEntries_failsWith (h : Header) (seen : List SlotId) (d : List Slot) :
    FailsWith (Error.CorruptionOf h.page) (checkEntries h seen d) := by
  induction d generalizing seen with
  | nil => exact failsWith_ok _
  | cons s d ih =>
    have hentry : FailsWith (Error.CorruptionOf h.page) (checkEntry h seen s) :=
      .ite (failsWith_error ⟨_, rfl⟩) (.ite (failsWith_error ⟨_, rfl⟩)
        (.ite (failsWith_error ⟨_, rfl⟩) (failsWith_ok _)))
    exact hentry.bind fun _ ↦ ih (s.id :: seen)

/-- A block of another size is rejected for its size. One of the size of a page that is none is
rejected as the page that its header names. -/
theorem decode_eq_error {bytes : Array UInt8} {e : Error} (h : decode bytes = .error e) :
    (bytes.size ≠ pageSize ∧ e = .badPageSize pageSize bytes.size) ∨
      bytes.size = pageSize ∧ e.CorruptionOf (Header.ofBytes bytes).page := by
  rw [decode] at h
  split at h
  next hnone =>
    cases h
    rw [Image.ofBytes?] at hnone
    split at hnone
    next => cases hnone
    next hsize => exact .inl ⟨hsize, rfl⟩
  next image himage =>
    have hsize : bytes.size = pageSize := by
      rw [← ofBytes?_eq_some_iff.1 himage, image.size_toArray]
    rw [Header.decode, if_neg (by rw [hsize]; decide), ok_bind] at h
    generalize Header.ofBytes bytes = header at h ⊢
    have hspace : FailsWith (Error.CorruptionOf header.page) (checkFreeSpace header) :=
      .ite (failsWith_error ⟨_, rfl⟩) (failsWith_ok _)
    have hcount (d : List Slot) :
        FailsWith (Error.CorruptionOf header.page) (checkFreeSlotCount header d) :=
      .ite (failsWith_ok _) (failsWith_error ⟨_, rfl⟩)
    have hrecords (d : List Slot) :
        FailsWith (Error.CorruptionOf header.page) (checkRecords header d) :=
      .ite (failsWith_ok _) (failsWith_error ⟨_, rfl⟩)
    have hentries := FailsWith.mapM (l := List.range header.slotCount.toNat)
      fun n ↦ decodeSlot_failsWith bytes n header.page
    refine .inr ⟨hsize, (hentries.bind fun d ↦ ?_) e h⟩
    exact hspace.bind fun _ ↦ (checkEntries_failsWith header [] d).bind fun _ ↦
      (hcount d).bind fun _ ↦ (hrecords d).bind fun _ ↦ failsWith_ok _

theorem decode_failsWith (bytes : Array UInt8) : FailsWith Error.OfFile (decode bytes) := by
  intro e h
  obtain ⟨-, rfl⟩ | ⟨-, _, rfl⟩ := decode_eq_error h
  · trivial
  · trivial

end Page

end PagedStorage
