import PagedStorage.Proofs.Page.RecordMap

/-!
# What pages admit

An operation on a page fails for a reason that a user can see: a record has a size that no page
admits, there is no room for it, or an address names no slot.

## No other end is reached

The code of a page has more ends than these: sums and differences of sixteen bits that could
overflow, entries that could end outside the image, a sort key that could be too short. None of them
is reached as long as all entries lie inside the page (`withinPage_of_encloses`), of which there are
far fewer than a counter can count. This is asked for and nothing more, so all of it holds of a page
that was read from a block, too, whatever lies over what.

Whether a record is stored is then a question of four numbers, `Page.Admits`, and so a page without
records admits every record that any page admits. A heap and a chain of pages rely on that: a record
that was refused elsewhere for want of room is stored on a new page.

## Kinds of errors

What is answered in the other case says something to the caller. A refusal, whether for the size or
for want of room, is an error to recover from and the page is as it was. And every error of an
operation on a page is one of the page, never one of the medium, which tells the layers above where
an error came from.

Storing and deleting leave the fields alone that join a page to others.
-/

namespace PagedStorage.Page

variable {p q : Page} {record : List UInt8} {id : RecordId} {e : Error}

/-! ## Listing -/

theorem exists_records (hd : p.header.Encloses p.directory) :
    ∃ l, p.records = .ok l ∧ (l.map (·.1)).Nodup ∧
      ∀ id record, (id, record) ∈ l ↔ p.get id = .ok record := by
  have hget : ∀ id ∈ p.recordIds, ∃ record, p.get id = .ok record :=
    fun id ↦ (mem_recordIds_iff hd).1
  choose! record hrecord using hget
  have hlist : p.records = .ok (p.recordIds.map fun id ↦ (id, record id)) := by
    refine mapM_eq_ok_iff.2 (List.forall₂_map_right_iff.2 (List.forall₂_same.2 fun id hid ↦ ?_))
    exact bind_eq_ok_iff.2 ⟨record id, hrecord id hid, rfl⟩
  refine ⟨_, hlist, ?_, fun id r ↦ ?_⟩
  · rw [List.map_map]
    exact (List.map_id' p.recordIds).symm ▸ nodup_recordIds hd.ids_nodup
  · rw [List.mem_map]
    constructor
    · rintro ⟨i, hi, ⟨⟩⟩
      exact hrecord id hi
    · intro hid
      have hmem := (mem_recordIds_iff hd).2 ⟨r, hid⟩
      refine ⟨id, hmem, ?_⟩
      rw [Except.ok.inj ((hrecord id hmem).symm.trans hid)]

/-! ## Failures -/

/-- There is room for the directory, and each entry has room for a key. -/
theorem withinPage_of_encloses {h : Header} {d : List Slot} (hd : h.Encloses d) :
    withinPage d := by
  rw [withinPage, Bool.and_eq_true, decide_eq_true_eq, List.all_eq_true]
  refine ⟨Nat.le_trans hd.front_le_upper hd.upper_le, fun s hs ↦ ?_⟩
  have hkey := hd.keySize_le s hs
  have hstop := hd.stop_le s hs
  rw [Slot.stop] at hstop
  rw [decide_eq_true_eq, Slot.start]
  omega

private theorem exists_settle {h : Header} {d : List Slot} (image : Image) (hd : h.Encloses d) :
    ∃ q, settle h d image = .ok q := by
  rw [settle, if_pos (withinPage_of_encloses hd)]
  exact ⟨_, rfl⟩

theorem slotCount_lt (hd : p.header.Encloses p.directory) :
    p.header.slotCount.toNat + 1 < UInt16.size := by
  have hfront := hd.front_le_lower
  have hlow := hd.lower_le_upper
  have htop := hd.upper_le
  unfold slotPosition headerSize slotSize at hfront
  unfold pageSize at htop
  rw [UInt16.size]
  omega

private theorem exists_isFree_iff (hd : p.header.Encloses p.directory) :
    (∃ s ∈ p.directory, s.isFree) ↔ 0 < p.header.freeSlotCount.toNat := by
  rw [← hd.countFree, List.countP_pos_iff]

private theorem place_eq_error {size : UInt16} (hd : p.header.Encloses p.directory)
    (h : p.place size = .error e) :
    p.header.freeSlotCount.toNat = 0 ∧ p.freeSpace < size.toNat + slotSize ∧
      e = .noRoomInPage (size.toNat + slotSize) p.freeSpace := by
  rw [place] at h
  split at h
  next hpos =>
    -- The header counts free entries, so there is one.
    rw [reuseSlot] at h
    split at h
    next hnone =>
      have hzero := (find?_isFree_eq_none_iff hd).1 hnone
      rw [UInt16.lt_iff_toNat_lt] at hpos
      exact absurd hzero (Nat.ne_of_gt hpos)
    next => cases h
  next hzero =>
    rw [UInt16.lt_iff_toNat_lt] at hzero
    rw [appendSlot] at h
    simp only at h
    split at h
    next hroom =>
      cases h
      exact ⟨Nat.eq_zero_of_not_pos hzero, hroom, rfl⟩
    next =>
      split at h
      next hcount => exact absurd hcount (Nat.ne_of_lt (slotCount_lt hd))
      next => cases h

theorem exists_add_of_place {pl : Placement} (hd : p.header.Encloses p.directory)
    (hcheck : p.checkRecord record.length = .ok ())
    (hplace : p.place (.ofNat record.length) = .ok pl) : ∃ id q, p.add record = .ok (id, q) := by
  obtain ⟨hmin, hmax, hroom⟩ := checkRecord_eq_ok_iff.1 hcheck
  have hsize : (UInt16.ofNat record.length).toNat = record.length :=
    UInt16.toNat_ofNat_of_lt' (Nat.lt_of_le_of_lt hmax (by decide))
  have hway := place_cases hd (by rw [hsize]; exact hroom) hplace
  rw [hsize] at hway
  obtain ⟨hpl, hmem⟩ := Placement.encloses hd hmin hroom hway
  obtain ⟨q, hq⟩ := exists_settle (p.image.overwrite pl.slot.start record) hpl
  refine ⟨⟨p.id, pl.slot.id⟩, q, ?_⟩
  rw [add, hcheck, ok_bind, hplace, ok_bind, if_pos (hpl.stop_le _ hmem)]
  dsimp only
  rw [hq, ok_bind]

/-- A page has room for a record of `n` bytes: the size is a proper one, the free space is larger,
and if no entry is free there is room for a new one as well. -/
def Admits (p : Page) (n : Nat) : Prop :=
  minRecordSize ≤ n ∧ n ≤ maxRecordSize ∧ n < p.freeSpace ∧
    ((∃ s ∈ p.directory, s.isFree) ∨ n + slotSize ≤ p.freeSpace)

/-- What is answered for a record of `n` bytes that is not admitted. -/
def refusal (p : Page) (n : Nat) : Error :=
  if n < minRecordSize then .recordTooSmall n minRecordSize
  else if maxRecordSize < n then .recordTooLarge n maxRecordSize
  else .noRoomInPage (if p.freeSpace ≤ n then n else n + slotSize) p.freeSpace

private theorem checkRecord_eq_error {n : Nat} (h : p.checkRecord n = .error e) :
    ¬ p.Admits n ∧ e = p.refusal n := by
  rw [checkRecord] at h
  rw [refusal]
  split at h
  next hsmall =>
    cases h
    exact ⟨fun hadmits ↦ Nat.not_le.2 hsmall hadmits.1, by rw [if_pos hsmall]⟩
  next hsmall =>
    rw [if_neg hsmall]
    split at h
    next hlarge =>
      cases h
      exact ⟨fun hadmits ↦ Nat.not_le.2 hlarge hadmits.2.1, by rw [if_pos hlarge]⟩
    next hlarge =>
      rw [if_neg hlarge]
      split at h
      next hfull =>
        cases h
        exact ⟨fun hadmits ↦ Nat.not_lt.2 hfull hadmits.2.2.1, by rw [if_pos hfull]⟩
      next => cases h

/-- A record is refused for its size, or because there is no room for it. -/
theorem add_eq_error (hd : p.header.Encloses p.directory) (h : p.add record = .error e) :
    ¬ p.Admits record.length ∧ e = p.refusal record.length := by
  obtain hcheck | ⟨⟨⟩, hcheck, hrest⟩ := bind_eq_error_iff.1 h
  · exact checkRecord_eq_error hcheck
  · -- Past the checks only the search for a place can refuse, and it does so for want of room.
    obtain ⟨hmin, hmax, hroom⟩ := checkRecord_eq_ok_iff.1 hcheck
    have hsize : (UInt16.ofNat record.length).toNat = record.length :=
      UInt16.toNat_ofNat_of_lt' (Nat.lt_of_le_of_lt hmax (by decide))
    obtain hplace | ⟨pl, hplace, -⟩ := bind_eq_error_iff.1 hrest
    · obtain ⟨hnone, hfull, rfl⟩ := place_eq_error hd hplace
      rw [hsize] at hfull ⊢
      refine ⟨?_, ?_⟩
      · rintro ⟨-, -, -, hfree | hfits⟩
        · exact absurd ((exists_isFree_iff hd).1 hfree) (by omega)
        · omega
      · rw [refusal, if_neg (Nat.not_lt.2 hmin), if_neg (Nat.not_lt.2 hmax),
          if_neg (Nat.not_le.2 hroom)]
    · obtain ⟨id, q, hadd⟩ := exists_add_of_place hd hcheck hplace
      cases h.symm.trans hadd

private theorem admits_of_add (hd : p.header.Encloses p.directory)
    (h : p.add record = .ok (id, q)) : p.Admits record.length := by
  obtain ⟨pl, hs⟩ := exists_stores_of_add hd h
  obtain ⟨hmin, hmax, hroom⟩ := checkRecord_eq_ok_iff.1 (bind_eq_ok_iff.1 h).choose_spec.1
  refine ⟨hmin, hmax, hroom, ?_⟩
  obtain ⟨old, others, hr⟩ | ha := hs.way
  · exact .inl ⟨old, List.mem_of_find?_eq_some hr.found, isFree_of_find? hr.found⟩
  · exact .inr ha.room

/-- A record is stored exactly if the page admits it. -/
theorem exists_add_iff (hd : p.header.Encloses p.directory) :
    (∃ id q, p.add record = .ok (id, q)) ↔ p.Admits record.length := by
  constructor
  · rintro ⟨id, q, hadd⟩
    exact admits_of_add hd hadd
  · intro hadmits
    cases hadd : p.add record with
    | ok result => exact ⟨result.1, result.2, rfl⟩
    | error e => exact absurd hadmits (add_eq_error hd hadd).1

theorem isRecoverable_refusal (p : Page) (n : Nat) : (p.refusal n).isRecoverable := by
  rw [refusal]
  split
  · rfl
  · split <;> rfl

theorem isRecoverable_of_add (hp : p.Tidy) (h : p.add record = .error e) : e.isRecoverable := by
  obtain ⟨-, rfl⟩ := add_eq_error hp.packs.encloses h
  exact isRecoverable_refusal p record.length

/-- A page whose free space is that of a page without records admits each record of a proper
size. -/
theorem admits_of_freeSpace {n : Nat} (hspace : p.freeSpace = maxRecordSize + slotSize)
    (hmin : minRecordSize ≤ n) (hmax : n ≤ maxRecordSize) : p.Admits n := by
  rw [Admits, hspace]
  exact ⟨hmin, hmax, Nat.lt_of_le_of_lt hmax (by decide), .inr (Nat.add_le_add_right hmax slotSize)⟩

theorem exists_add_fresh (id : PageId) (hmin : minRecordSize ≤ record.length)
    (hmax : record.length ≤ maxRecordSize) : ∃ r q, (fresh id).add record = .ok (r, q) :=
  (exists_add_iff (tidy_fresh id).packs.encloses).2 (admits_of_freeSpace rfl hmin hmax)

theorem entry_eq_error (h : p.entry id = .error e) : e = .invalidRecordId id := by
  rw [entry] at h
  split at h
  next =>
    split at h
    next => cases h
    next =>
      cases h
      rfl
  next =>
    cases h
    rfl

private theorem withinPage_replaceSlot {d : List Slot} {s : Slot} (h : withinPage d) (hs : s ∈ d)
    (status : SlotStatus) : withinPage (replaceSlot d { s with status := status }) := by
  rw [withinPage, Bool.and_eq_true, decide_eq_true_eq, List.all_eq_true] at h ⊢
  refine ⟨?_, fun t ht ↦ ?_⟩
  · rw [replaceSlot, List.length_map]
    exact h.1
  · obtain ⟨t', ht', rfl⟩ := List.mem_map.1 ht
    split
    · exact h.2 s hs
    · exact h.2 t' ht'

/-- Only an address without a slot cannot be deleted. -/
theorem delete_eq_error (hd : p.header.Encloses p.directory) (h : p.delete id = .error e) :
    e = .invalidRecordId id ∧ p.get id = .error (.invalidRecordId id) := by
  obtain hentry | ⟨s, hentry, hrest⟩ := bind_eq_error_iff.1 h
  · obtain rfl := entry_eq_error hentry
    exact ⟨rfl, get_of_entry_eq_error hentry⟩
  · have hs := List.mem_of_find?_eq_some (entry_eq_ok_iff.1 hentry).2
    have hle : p.directory.countP (·.isFree) ≤ p.directory.length := List.countP_le_length
    rw [hd.countFree, hd.length_eq] at hle
    have hcount := Nat.lt_of_le_of_lt (Nat.succ_le_succ hle) (slotCount_lt hd)
    split at hrest
    next => cases hrest
    next =>
      rw [if_neg (Nat.not_lt.2 (hd.stop_le s hs)), if_neg (Nat.ne_of_lt hcount)] at hrest
      dsimp only at hrest
      rw [settle, if_pos (withinPage_replaceSlot (withinPage_of_encloses hd) hs .free)] at hrest
      cases hrest

theorem liveRecord?_of_delete_error (hd : p.header.Encloses p.directory)
    (h : p.delete id = .error e) (hpage : id.page = p.id) : p.liveRecord? id.slot = none := by
  refine Option.eq_none_iff_forall_ne_some.2 fun record hrecord ↦ ?_
  have hget : p.get id = .ok record := (get_eq_ok_iff hd).2 ⟨hpage, hrecord⟩
  exact error_ne_ok ((delete_eq_error hd h).2.symm.trans hget)

/-! ## Kinds of errors -/

theorem checkRecord_failsWith (p : Page) (n : Nat) : FailsWith Error.OfPage (p.checkRecord n) :=
  .ite (failsWith_error trivial) (.ite (failsWith_error trivial)
    (.ite (failsWith_error trivial) (failsWith_ok ())))

theorem place_failsWith (p : Page) (size : UInt16) : FailsWith Error.OfPage (p.place size) := by
  refine .ite ?_ (.ite (failsWith_error trivial) (.ite (failsWith_error trivial) (failsWith_ok _)))
  rw [reuseSlot]
  split
  · exact failsWith_error trivial
  · exact failsWith_ok _

theorem settle_failsWith (h : Header) (d : List Slot) (image : Image) :
    FailsWith Error.OfPage (settle h d image) :=
  .ite (failsWith_ok _) (failsWith_error trivial)

/-- Whatever a page is like, the errors that it answers are its own. -/
theorem add_failsWith (p : Page) (record : List UInt8) : FailsWith Error.OfPage (p.add record) :=
  (checkRecord_failsWith p _).bind fun _ ↦ (place_failsWith p _).bind fun _ ↦
    .ite ((settle_failsWith _ _ _).bind fun _ ↦ failsWith_ok _) (failsWith_error trivial)

theorem entry_failsWith (p : Page) (id : RecordId) : FailsWith Error.OfPage (p.entry id) := by
  intro e he
  obtain rfl := entry_eq_error he
  trivial

theorem get_failsWith (p : Page) (id : RecordId) : FailsWith Error.OfPage (p.get id) :=
  (entry_failsWith p id).bind fun _ ↦ .ite (failsWith_error trivial)
    (.ite (failsWith_ok _) (failsWith_error trivial))

theorem delete_failsWith (p : Page) (id : RecordId) : FailsWith Error.OfPage (p.delete id) :=
  (entry_failsWith p id).bind fun _ ↦ .ite (failsWith_ok p) (.ite (failsWith_error trivial)
    (.ite (failsWith_error trivial) (settle_failsWith _ _ _)))

theorem records_failsWith (p : Page) : FailsWith Error.OfPage p.records :=
  .mapM fun id ↦ (get_failsWith p id).bind fun _ ↦ failsWith_ok _

/-! ## Fields that stay -/

theorem links_of_add (hp : p.header.Describes p.directory) {r : RecordId}
    (h : p.add record = .ok (r, q)) : q.next = p.next ∧ q.isOverflow = p.isOverflow := by
  obtain ⟨pl, hs⟩ := exists_stores_of_add hp.encloses h
  rw [next, isOverflow, header_of_settle hs.settled]
  obtain ⟨old, others, hr⟩ | ha := hs.way
  · rw [hr.header_eq]
    exact ⟨rfl, rfl⟩
  · rw [ha.header_eq]
    exact ⟨rfl, rfl⟩

theorem links_of_delete (h : p.delete id = .ok q) :
    q.next = p.next ∧ q.isOverflow = p.isOverflow := by
  obtain ⟨s, -, -, ⟨-, rfl⟩ | hf⟩ := delete_cases h
  · exact ⟨rfl, rfl⟩
  · rw [next, isOverflow, header_of_settle hf.settled]
    exact ⟨rfl, rfl⟩

theorem records_of_add (hp : p.Tidy) {r : RecordId} (h : p.add record = .ok (r, q)) :
    ∃ l m, p.records = .ok l ∧ q.records = .ok m ∧ m.Perm ((r, record) :: l) := by
  have hd := hp.readable.describes
  have hq : q.Tidy := Edit.tidy_apply hp (Edit.apply_add h)
  obtain ⟨-, hdead, -⟩ := (actsAsRecordMap_of_tidy hp).add_ok _ _ _ h
  obtain ⟨l, hl, hlnodup, hlmem⟩ := exists_records hd.encloses
  obtain ⟨m, hm, hmnodup, hmmem⟩ := exists_records hq.packs.encloses
  have hnew (b : List UInt8) : (r, b) ∉ l := by
    intro hb
    cases hdead.symm.trans ((get_eq_ok_iff hd.encloses).1 ((hlmem r b).1 hb)).2
  have hnodup : ((r, record) :: l).Nodup :=
    List.nodup_cons.2 ⟨hnew record, List.Nodup.of_map _ hlnodup⟩
  refine ⟨l, m, hl, hm, (List.perm_ext_iff_of_nodup (List.Nodup.of_map _ hmnodup) hnodup).2
    (Prod.forall.2 fun i b ↦ ?_)⟩
  rw [hmmem, get_of_add_iff hp h, ← hlmem, List.mem_cons, Prod.mk.injEq, or_comm]

theorem records_of_blank (hblank : p.directory = []) : p.records = .ok [] := by
  rw [records, recordIds, hblank]
  rfl

theorem records_of_add_blank (hp : p.Tidy) (hblank : p.directory = []) {r : RecordId}
    (h : p.add record = .ok (r, q)) : q.records = .ok [(r, record)] := by
  obtain ⟨l, m, hl, hm, hperm⟩ := records_of_add hp h
  obtain rfl := Except.ok.inj (hl.symm.trans (records_of_blank hblank))
  rw [hm, List.perm_singleton.1 hperm]

end PagedStorage.Page
