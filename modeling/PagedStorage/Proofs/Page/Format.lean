import PagedStorage.Proofs.Page.Decoding
import PagedStorage.Proofs.Page.RecordMap

/-!
# The documented format

Which blocks of bytes are pages, in terms of the numbers that stand in the block (`Documented`) and
not of the checks that the decoder makes one after the other. The decoder accepts exactly these
blocks, takes header and directory from them as they stand, and rejects every other block with an
error that says whether the size was wrong or the page is unusable.

## Where the two descriptions differ

The two statements differ where a check is cheaper than what it is made for. The ids are to be the
numbers below the slot count, and the decoder only looks for one that is too large or comes twice.
No byte is to belong to two records, and the decoder only compares neighbours. That the cheap check
does is a counting argument in the first case, and in the second that stretches are not empty.

## Numbers in a block

`storedSlot` and `storedDirectory` read entries off a block without asking whether it is long enough
or whether the status is one of the two, so that the format can be stated before either is known. On
a block with the layout they are what the decoder reads.
-/

namespace PagedStorage

namespace Bytes

private theorem overwrite_slice {bytes : Array UInt8} {start : Nat} {bs : List UInt8}
    (h : slice bytes start bs.length = bs) : overwrite bytes start bs = bytes := by
  apply Array.ext_getElem?
  intro i
  rw [getElem?_overwrite]
  split
  next hin =>
    have hget := congrArg (·[i - start]?) h
    simp only [getElem?_slice, if_pos (show i - start < bs.length by omega)] at hget
    rw [← hget, Nat.add_sub_cancel' hin.1]
  next => rfl

end Bytes

/-- The byte at a position of the page belongs to the slot. -/
def Slot.Covers (s : Slot) (position : Nat) : Prop := s.start ≤ position ∧ position < s.stop

/-- Slots that are not empty and have no byte in common lie one behind the other. -/
theorem Slot.apart_iff {s t : Slot} (hs : s.start < s.stop) (ht : t.start < t.stop) :
    s.Apart t ↔ ∀ position, ¬(s.Covers position ∧ t.Covers position) := by
  unfold Apart Covers
  constructor
  · intro h position
    omega
  · intro h
    -- The later one of the two starts would be covered by both.
    by_contra hmeet
    have hfirst := h s.start
    have hsecond := h t.start
    omega

namespace Page

/-! ## What stands in a block -/

/-- The number in the status field of the `n`-th directory entry. -/
def storedStatus (bytes : Array UInt8) (n : Nat) : Nat :=
  Bytes.numberAt bytes (slotPosition n + 2) 2

/-- The `n`-th directory entry. -/
def storedSlot (bytes : Array UInt8) (n : Nat) : Slot where
  id := .ofNat (Bytes.numberAt bytes (slotPosition n) 2)
  status := if storedStatus bytes n = 0 then .free else .used
  offset := .ofNat (Bytes.numberAt bytes (slotPosition n + 4) 2)
  length := .ofNat (Bytes.numberAt bytes (slotPosition n + 6) 2)

/-- As many entries as the header tells of, in the order in which they are stored. -/
def storedDirectory (bytes : Array UInt8) : List Slot :=
  (List.range (Header.ofBytes bytes).slotCount.toNat).map (storedSlot bytes)

/-- The block has the size and the layout of a page. -/
structure Documented (bytes : Array UInt8) : Prop where
  size_eq : bytes.size = pageSize
  front_le_lower : headerSize + slotSize * (Header.ofBytes bytes).slotCount.toNat ≤
    (Header.ofBytes bytes).lower.toNat
  lower_le_upper : (Header.ofBytes bytes).lower.toNat ≤ (Header.ofBytes bytes).upper.toNat
  upper_le : (Header.ofBytes bytes).upper.toNat ≤ pageSize
  status_eq : ∀ n < (Header.ofBytes bytes).slotCount.toNat,
    storedStatus bytes n = 0 ∨ storedStatus bytes n = 1
  ids_perm : ((storedDirectory bytes).map (·.id.toNat)).Perm
    (List.range (Header.ofBytes bytes).slotCount.toNat)
  keySize_le : ∀ s ∈ storedDirectory bytes, keySize ≤ s.length.toNat
  stop_le : ∀ s ∈ storedDirectory bytes, s.offset.toNat + s.length.toNat ≤ pageSize
  upper_le_offset : ∀ s ∈ storedDirectory bytes, s.isUsed →
    (Header.ofBytes bytes).upper.toNat ≤ s.offset.toNat
  disjoint : (storedDirectory bytes).Pairwise fun s t ↦ s.isUsed → t.isUsed →
    ∀ position, ¬(s.Covers position ∧ t.Covers position)
  countFree : (storedDirectory bytes).countP (·.isFree) =
    (Header.ofBytes bytes).freeSlotCount.toNat

/-! ## Entries -/

private theorem ofCode?_storedStatus (bytes : Array UInt8) (n : Nat) :
    SlotStatus.ofCode? (.ofNat (storedStatus bytes n)) =
      if storedStatus bytes n = 0 then some .free
      else if storedStatus bytes n = 1 then some .used else none := by
  have hcode (m : Nat) (hm : m < UInt16.size) :
      UInt16.ofNat (storedStatus bytes n) = .ofNat m ↔ storedStatus bytes n = m := by
    rw [← UInt16.toNat_inj, storedStatus, Bytes.toNat_ofNat_numberAt_two,
      UInt16.toNat_ofNat_of_lt' hm]
  have hzero := hcode 0 (by decide)
  have hone := hcode 1 (by decide)
  simp only [SlotStatus.ofCode?, ← hzero, ← hone]
  rfl

/-- An entry is read if it lies in the block and its status is one of the two. -/
theorem decodeSlot_eq_ok_iff {bytes : Array UInt8} {n : Nat} {page : PageId} {s : Slot} :
    Slot.decode bytes n page = .ok s ↔ slotPosition n + slotSize ≤ bytes.size ∧
      (storedStatus bytes n = 0 ∨ storedStatus bytes n = 1) ∧ s = storedSlot bytes n := by
  have hcode : SlotStatus.ofCode? (.ofNat (Bytes.numberAt bytes (slotPosition n + 2) 2)) = _ :=
    ofCode?_storedStatus bytes n
  simp only [Slot.decode, ite_error_eq_ok_iff, Nat.not_lt, hcode]
  refine and_congr_right fun _ ↦ ?_
  by_cases hfree : storedStatus bytes n = 0
  · simp [storedSlot, hfree, eq_comm]
  · by_cases hused : storedStatus bytes n = 1
    · simp [storedSlot, hused, eq_comm]
    · simp [hfree, hused]

/-! ## Both directions -/

theorem stored_of_decode {bytes : Array UInt8} {p : Page} (h : decode bytes = .ok p) :
    p.header = .ofBytes bytes ∧ p.directory = storedDirectory bytes ∧ p.image.toArray = bytes ∧
      ∀ n < (Header.ofBytes bytes).slotCount.toNat,
        storedStatus bytes n = 0 ∨ storedStatus bytes n = 1 := by
  obtain ⟨hbytes, hp⟩ := decode_eq_ok_iff.1 h
  have hfront := hp.front
  rw [HasFront, Image.slice, hbytes, slice_eq_encodeLayout_iff] at hfront
  have hheader : Header.ofBytes bytes = p.header := Header.ofBytes_eq hfront.1
  have hlen : p.directory.length = (Header.ofBytes bytes).slotCount.toNat := by
    rw [hheader, hp.describes.length_eq]
  have hentry (n : Nat) (hn : n < p.directory.length) :=
    decodeSlot_eq_ok_iff.1 (Slot.decode_eq p.id (hfront.2 n hn))
  refine ⟨hheader.symm, ?_, hbytes, fun n hn ↦ (hentry n (by rwa [hlen])).2.1⟩
  refine List.ext_getElem (by rw [hlen, storedDirectory, List.length_map, List.length_range]) ?_
  intro n hn _
  rw [(hentry n hn).2.2]
  simp only [storedDirectory, List.getElem_map, List.getElem_range]

private theorem documented_of_decode {bytes : Array UInt8} {p : Page} (h : decode bytes = .ok p) :
    Documented bytes := by
  have hd := (decode_eq_ok_iff.1 h).2.describes
  obtain ⟨hheader, hdir, hbytes, hstatus⟩ := stored_of_decode h
  rw [hheader, hdir] at hd
  constructor
  · rw [← hbytes, p.image.size_toArray]
  · rw [Nat.mul_comm]
    exact hd.front_le_lower
  · exact hd.lower_le_upper
  · exact hd.upper_le
  · exact hstatus
  · exact hd.encloses.ids_perm
  · exact hd.keySize_le
  · exact hd.stop_le
  · exact hd.upper_le_start
  · refine hd.apart.imp_of_mem fun {s t} hs ht hapart hsused htused ↦ ?_
    exact (Slot.apart_iff (Slot.start_lt_stop (hd.keySize_le s hs))
      (Slot.start_lt_stop (hd.keySize_le t ht))).1 (hapart hsused htused)
  · exact hd.countFree

namespace Documented

variable {bytes : Array UInt8}

/-- The page of a block. -/
def page (hb : Documented bytes) : Page where
  header := .ofBytes bytes
  directory := storedDirectory bytes
  image := ⟨bytes, hb.size_eq⟩

private theorem describes (hb : Documented bytes) :
    (Header.ofBytes bytes).Describes (storedDirectory bytes) := by
  constructor
  · rw [storedDirectory, List.length_map, List.length_range]
  · have hnodup : ((storedDirectory bytes).map (·.id.toNat)).Nodup :=
      hb.ids_perm.nodup_iff.2 List.nodup_range
    rw [← Function.comp_def UInt16.toNat, ← List.map_map] at hnodup
    exact hnodup.of_map
  · intro s hs
    exact List.mem_range.1 (hb.ids_perm.mem_iff.1 (List.mem_map_of_mem hs))
  · have hfront := hb.front_le_lower
    rwa [Nat.mul_comm] at hfront
  · exact hb.lower_le_upper
  · exact hb.upper_le
  · exact hb.keySize_le
  · exact hb.stop_le
  · exact hb.upper_le_offset
  · refine hb.disjoint.imp_of_mem fun {s t} hs ht hdisjoint hsused htused ↦ ?_
    exact (Slot.apart_iff (Slot.start_lt_stop (hb.keySize_le s hs))
      (Slot.start_lt_stop (hb.keySize_le t ht))).2 (hdisjoint hsused htused)
  · exact hb.countFree

private theorem readable (hb : Documented bytes) : hb.page.Readable := by
  have hd := hb.describes
  have hsize : headerSize ≤ bytes.size := by
    rw [hb.size_eq]
    decide
  refine ⟨hd, slice_eq_encodeLayout_iff.2 ⟨?_, fun n hn ↦ ?_⟩⟩
  · exact (Header.encode_ofBytes hsize).symm
  · have hcount : n < (Header.ofBytes bytes).slotCount.toNat := by rwa [← hd.length_eq]
    have hroom : slotPosition n + slotSize ≤ bytes.size := by
      have hfront := hd.front_le_lower
      have hlow := hd.lower_le_upper
      have htop := hd.upper_le
      rw [hb.size_eq]
      unfold slotPosition slotSize at *
      omega
    have hdecode : Slot.decode bytes n 0 = .ok (storedDirectory bytes)[n] := by
      refine decodeSlot_eq_ok_iff.2 ⟨hroom, hb.status_eq n hcount, ?_⟩
      simp only [storedDirectory, List.getElem_map, List.getElem_range]
    exact (Slot.encode_of_decode hdecode).symm

private theorem decode_eq (hb : Documented bytes) : decode bytes = .ok hb.page :=
  decode_eq_ok_iff.2 ⟨rfl, hb.readable⟩

end Documented

/-! ## The decoder and the format -/

/-- What the decoder makes of a block. -/
structure DecodesAsDocumented (bytes : Array UInt8) : Prop where
  accepts_iff : (∃ p, decode bytes = .ok p) ↔ Documented bytes
  /-- An accepted page holds what stands in the block. -/
  parts_eq : ∀ p, decode bytes = .ok p → p.header = .ofBytes bytes ∧
    p.directory = storedDirectory bytes ∧ p.image.toArray = bytes
  slot?_eq : ∀ p, decode bytes = .ok p → ∀ s ∈ storedDirectory bytes, p.slot? s.id = some s
  /-- Header and entries are encoded to what the block starts with. -/
  encode_eq : ∀ p, decode bytes = .ok p →
    Bytes.overwrite bytes 0 (encodeLayout p.header p.directory) = bytes ∧
      p.encode pageSize = .ok bytes
  rejects : ∀ e, decode bytes = .error e →
    (bytes.size ≠ pageSize ∧ e = .badPageSize pageSize bytes.size) ∨
      bytes.size = pageSize ∧ ∃ reason, e = .corruptedPage (Header.ofBytes bytes).page reason

/-- The decoder accepts exactly the blocks with the documented layout, whatever the bytes are. -/
theorem decodesAsDocumented (bytes : Array UInt8) : DecodesAsDocumented bytes where
  accepts_iff := by
    constructor
    · rintro ⟨p, hp⟩
      exact documented_of_decode hp
    · intro hb
      exact ⟨hb.page, hb.decode_eq⟩
  parts_eq p hp := by
    obtain ⟨hheader, hdir, hbytes, -⟩ := stored_of_decode hp
    exact ⟨hheader, hdir, hbytes⟩
  slot?_eq p hp s hs := by
    have hids := (decode_eq_ok_iff.1 hp).2.describes.ids_nodup
    rw [← (stored_of_decode hp).2.1] at hs
    exact (slot?_eq_some_iff hids).2 ⟨hs, rfl⟩
  encode_eq p hp := by
    obtain ⟨rfl, hread⟩ := decode_eq_ok_iff.1 hp
    refine ⟨Bytes.overwrite_slice ?_, by rw [encode, if_pos rfl]⟩
    rw [length_encodeLayout]
    exact hread.front
  rejects _ := decode_eq_error

end Page

end PagedStorage
