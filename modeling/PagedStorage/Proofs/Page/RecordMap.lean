import PagedStorage.Proofs.Page.Editing

/-!
# A page as a map of records

What a page stores is a finite map from slot ids to byte strings, `Page.liveRecord?`. On every
page that is built by edits, reading, storing and deleting records are reading, updating and
erasing in this map, and nothing else changes it: this is `Page.ActsAsRecordMap`.

## Why one record does not touch another

The header, the directory and all records share one image, so the point is that no record is
touched by what happens to another one. Two facts carry this. The stretches of all entries, the
free ones included, are disjoint and lie behind the front of the page (`Page.Tidy`), and a change
of the directory exchanges at most one entry and keeps the others (`liveRecord?_eq_of_others`).

The second one is stated with a list of the others that both pages have in common, in whatever
order. An edit sorts the directory again, so the position of an entry says nothing about it.

## Which half needs which

To store a record, the new page has to be readable: then no other record shares a byte with the new
one, and this is all that `liveRecord?_of_add` asks. A page that is tidy stays tidy, so there it
always holds, while on a page that was read from a block it may fail (`Page.ReuseClear`). To delete
a record is to write zeros over its stretch, which on a tidy page belongs to nothing else. Changing
the fields of the header that join pages is outside the map altogether.

Addresses of records carry the id of their page. A page answers for its own id only, so two
addresses on one page differ in the slot.
-/

namespace PagedStorage.Page

/-! ## The map -/

/-- The bytes of the record in a slot, if the slot is used. -/
def liveRecord? (p : Page) (slot : SlotId) : Option (List UInt8) :=
  ((p.slot? slot).filter (·.isUsed)).map fun s ↦ p.image.slice s.start s.length.toNat

theorem liveRecord?_eq_some_iff {p : Page} (hids : (p.directory.map (·.id)).Nodup) {slot : SlotId}
    {record : List UInt8} : p.liveRecord? slot = some record ↔
      ∃ s ∈ p.directory, s.id = slot ∧ s.isUsed ∧
        p.image.slice s.start s.length.toNat = record := by
  rw [liveRecord?, Option.map_eq_some_iff]
  constructor
  · rintro ⟨s, hs, hrecord⟩
    rw [Option.filter_eq_some_iff, slot?_eq_some_iff hids] at hs
    exact ⟨s, hs.1.1, hs.1.2, hs.2, hrecord⟩
  · rintro ⟨s, hs, hid, hused, hrecord⟩
    refine ⟨s, ?_, hrecord⟩
    rw [Option.filter_eq_some_iff, slot?_eq_some_iff hids]
    exact ⟨⟨hs, hid⟩, hused⟩

/-- Entries that two pages have in common hold the same records on both, if their bytes are the
same. -/
theorem liveRecord?_eq_of_others {p q : Page} {others : List Slot} {slot : SlotId}
    (hp : (p.directory.map (·.id)).Nodup) (hq : (q.directory.map (·.id)).Nodup)
    (hpdir : ∀ s, s.id = slot → (s ∈ p.directory ↔ s ∈ others))
    (hqdir : ∀ s, s.id = slot → (s ∈ q.directory ↔ s ∈ others))
    (hbytes : ∀ s ∈ others, s.isUsed →
      q.image.slice s.start s.length.toNat = p.image.slice s.start s.length.toNat) :
    q.liveRecord? slot = p.liveRecord? slot := by
  apply Option.ext
  intro record
  rw [liveRecord?_eq_some_iff hp, liveRecord?_eq_some_iff hq]
  constructor
  · rintro ⟨s, hs, hid, hused, hrecord⟩
    have hother := (hqdir s hid).1 hs
    exact ⟨s, (hpdir s hid).2 hother, hid, hused, (hbytes s hother hused).symm.trans hrecord⟩
  · rintro ⟨s, hs, hid, hused, hrecord⟩
    have hother := (hpdir s hid).1 hs
    exact ⟨s, (hqdir s hid).2 hother, hid, hused, (hbytes s hother hused).trans hrecord⟩

theorem mem_iff_of_perm_cons {d others : List Slot} {new s : Slot} (hperm : d.Perm (new :: others))
    (hne : s.id ≠ new.id) : s ∈ d ↔ s ∈ others := by
  rw [hperm.mem_iff, List.mem_cons]
  exact or_iff_right fun heq ↦ hne (congrArg Slot.id heq)

/-! ## Reading -/

theorem exists_slot_of_lt {p : Page} (hd : p.header.Encloses p.directory) {slot : SlotId}
    (hlt : slot.toNat < p.header.slotCount.toNat) : ∃ s, p.slot? slot = some s := by
  obtain ⟨s, hs, hid⟩ := List.mem_map.1 (hd.ids_perm.mem_iff.2 (List.mem_range.2 hlt))
  exact ⟨s, (slot?_eq_some_iff hd.ids_nodup).2 ⟨hs, UInt16.toNat_inj.1 hid⟩⟩

theorem slot?_eq_none_of_le {p : Page} (hd : p.header.Encloses p.directory) {slot : SlotId}
    (hle : p.header.slotCount.toNat ≤ slot.toNat) : p.slot? slot = none := by
  rw [slot?_eq_none_iff]
  rintro s hs rfl
  exact absurd (hd.id_lt s hs) (Nat.not_lt.2 hle)

theorem get_of_entry_eq_error {p : Page} {id : RecordId} {e : Error} (h : p.entry id = .error e) :
    p.get id = .error e := by
  rw [get, h]
  rfl

theorem get_of_entry {p : Page} {id : RecordId} {s : Slot} (h : p.entry id = .ok s) :
    p.get id = if s.isFree then .error (.recordFreed id)
      else if s.stop ≤ pageSize then .ok (p.image.slice s.start s.length.toNat)
      else .error (.fault .outOfBounds) := by
  rw [get, h]
  rfl

theorem get_eq_of_slot? {p : Page} (hd : p.header.Encloses p.directory) {id : RecordId} {s : Slot}
    (hpage : id.page = p.id) (hs : p.slot? id.slot = some s) :
    p.get id = if s.isFree then .error (.recordFreed id)
      else .ok (p.image.slice s.start s.length.toNat) := by
  have hstop := hd.stop_le s (List.mem_of_find?_eq_some hs)
  rw [get_of_entry (entry_eq_ok_iff.2 ⟨hpage, hs⟩), if_pos hstop]

/-- Reading is a look-up in the map. -/
theorem get_eq_ok_iff {p : Page} (hd : p.header.Encloses p.directory) {id : RecordId}
    {record : List UInt8} :
    p.get id = .ok record ↔ id.page = p.id ∧ p.liveRecord? id.slot = some record := by
  rw [liveRecord?]
  by_cases hpage : id.page = p.id
  · cases hs : p.slot? id.slot with
    | none =>
      rw [get, entry, if_pos hpage, hs]
      constructor
      · rintro ⟨⟩
      · rintro ⟨-, ⟨⟩⟩
    | some s =>
      rw [get_eq_of_slot? hd hpage hs, Option.filter_some, s.isUsed_eq_not_isFree]
      cases hfree : s.isFree with
      | true =>
        constructor
        · rintro ⟨⟩
        · rintro ⟨-, ⟨⟩⟩
      | false =>
        simp [hpage]
  · rw [get, entry, if_neg hpage]
    constructor
    · rintro ⟨⟩
    · rintro ⟨h, -⟩
      exact absurd h hpage

/-- A used entry is read as the record that it points to. -/
theorem get_of_mem {p : Page} (hd : p.header.Encloses p.directory) {s : Slot}
    (hs : s ∈ p.directory) (hused : s.isUsed) :
    p.get ⟨p.id, s.id⟩ = .ok (p.image.slice s.start s.length.toNat) :=
  (get_eq_ok_iff hd).2
    ⟨rfl, (liveRecord?_eq_some_iff hd.ids_nodup).2 ⟨s, hs, rfl, hused, rfl⟩⟩

theorem get_eq_recordFreed {p : Page} (hd : p.header.Encloses p.directory) {id : RecordId}
    (hpage : id.page = p.id) (hlt : id.slot.toNat < p.header.slotCount.toNat)
    (hdead : p.liveRecord? id.slot = none) : p.get id = .error (.recordFreed id) := by
  obtain ⟨s, hs⟩ := exists_slot_of_lt hd hlt
  have hfree : s.isFree := by
    rw [liveRecord?, hs, Option.map_eq_none_iff, Option.filter_some,
      s.isUsed_eq_not_isFree] at hdead
    cases hfree : s.isFree with
    | true => rfl
    | false => simp [hfree] at hdead
  rw [get_eq_of_slot? hd hpage hs, if_pos hfree]

theorem get_eq_invalidRecordId {p : Page} (hd : p.header.Encloses p.directory) {id : RecordId}
    (h : id.page ≠ p.id ∨ p.header.slotCount ≤ id.slot) :
    p.get id = .error (.invalidRecordId id) := by
  rw [get, entry]
  by_cases hpage : id.page = p.id
  · obtain hother | hle := h
    · exact absurd hpage hother
    · rw [if_pos hpage, slot?_eq_none_of_le hd (UInt16.le_iff_toNat_le.1 hle)]
      rfl
  · rw [if_neg hpage]
    rfl

/-! ## Listing -/

theorem nodup_recordIds {p : Page} (hids : (p.directory.map (·.id)).Nodup) :
    p.recordIds.Nodup := by
  have hsub : ((p.directory.filter (·.isUsed)).map (·.id)).Nodup :=
    hids.sublist (List.filter_sublist.map _)
  have hmap := hsub.map (f := RecordId.mk p.id) fun a b hab ↦ by injection hab
  rwa [List.map_map] at hmap

/-- The list of addresses holds exactly the records that can be read. -/
theorem mem_recordIds_iff {p : Page} (hd : p.header.Encloses p.directory) {id : RecordId} :
    id ∈ p.recordIds ↔ ∃ record, p.get id = .ok record := by
  rw [recordIds, List.mem_map]
  constructor
  · rintro ⟨s, hs, rfl⟩
    rw [List.mem_filter] at hs
    exact ⟨_, get_of_mem hd hs.1 hs.2⟩
  · rintro ⟨record, hget⟩
    obtain ⟨hpage, hlive⟩ := (get_eq_ok_iff hd).1 hget
    obtain ⟨s, hs, hid, hused, -⟩ := (liveRecord?_eq_some_iff hd.ids_nodup).1 hlive
    refine ⟨s, List.mem_filter.2 ⟨hs, hused⟩, ?_⟩
    rw [hid, ← hpage]

/-! ## Storing -/

namespace Placement.Stores

variable {pl : Placement} {p q : Page} {record : List UInt8} {id : RecordId}

private theorem exists_others (hs : pl.Stores p record id q) (hd : p.header.Describes p.directory) :
    ∃ others, q.directory.Perm (pl.slot :: others) ∧
      (∀ s, s.id ≠ pl.slot.id → (s ∈ p.directory ↔ s ∈ others)) ∧
      p.liveRecord? pl.slot.id = none := by
  have hq := directory_of_settle hs.settled
  obtain ⟨old, others, hr⟩ | ha := hs.way
  · refine ⟨others, hq.trans hr.after, fun s hne ↦ ?_, ?_⟩
    · exact mem_iff_of_perm_cons hr.before (by rwa [← hr.id_eq])
    · have hold : p.slot? pl.slot.id = some old :=
        (slot?_eq_some_iff hd.ids_nodup).2 ⟨List.mem_of_find?_eq_some hr.found, hr.id_eq.symm⟩
      have hfree : old.isFree := isFree_of_find? hr.found
      rw [liveRecord?, hold, Option.filter_some, old.isUsed_eq_not_isFree, hfree]
      rfl
  · refine ⟨p.directory, hq.trans ha.after, fun _ _ ↦ Iff.rfl, ?_⟩
    rw [liveRecord?, slot?_eq_none_of_le hd.encloses (Nat.le_of_eq (by rw [ha.id_eq]))]
    rfl

private theorem slice_slot (hs : pl.Stores p record id q) (hq : q.Readable) :
    q.image.slice pl.slot.start record.length = record := by
  have hfront := hq.front_le_start hs.mem_slot hs.used
  rw [(directory_of_settle hs.settled).length_eq] at hfront
  have hstop := hs.stop_le
  rw [hs.stop_eq] at hstop
  rw [slice_of_settle hs.settled hfront, Image.slice_overwrite _ hstop]

private theorem slice_of_apart (hs : pl.Stores p record id q) (hq : q.Readable) {t : Slot}
    (ht : t ∈ q.directory) (hused : t.isUsed) (hapart : pl.slot.Apart t) :
    q.image.slice t.start t.length.toNat = p.image.slice t.start t.length.toNat := by
  have hfront := hq.front_le_start ht hused
  rw [(directory_of_settle hs.settled).length_eq] at hfront
  rw [slice_of_settle hs.settled hfront]
  refine Image.slice_overwrite_of_disjoint p.image ?_
  rw [t.start_add_length, ← hs.stop_eq]
  exact hapart.symm

end Placement.Stores

/-- To store a record is to give a value to a slot id that had none, as long as the page that is
made can be read back. -/
theorem liveRecord?_of_add {p q : Page} {record : List UInt8} {id : RecordId} (hp : p.Readable)
    (hq : q.Readable) (h : p.add record = .ok (id, q)) :
    id.page = p.id ∧ p.liveRecord? id.slot = none ∧ q.liveRecord? id.slot = some record ∧
      ∀ slot, slot ≠ id.slot → q.liveRecord? slot = p.liveRecord? slot := by
  have hd := hp.describes
  obtain ⟨pl, hs⟩ := exists_stores_of_add hd.encloses h
  obtain ⟨others, hperm, hothers, hdead⟩ := hs.exists_others hd
  have hapart := (List.pairwise_cons.1 (hq.describes.perm hperm).apart).1
  have hslot : id.slot = pl.slot.id := by rw [hs.id_eq]
  rw [hslot]
  refine ⟨by rw [hs.id_eq], hdead, ?_, fun slot hne ↦ ?_⟩
  · refine (liveRecord?_eq_some_iff hq.describes.ids_nodup).2
      ⟨pl.slot, hperm.mem_iff.2 List.mem_cons_self, rfl, hs.used, ?_⟩
    rw [hs.length_eq]
    exact hs.slice_slot hq
  · refine liveRecord?_eq_of_others hd.ids_nodup hq.describes.ids_nodup
      (fun s hid ↦ hothers s (by rwa [hid]))
      (fun s hid ↦ mem_iff_of_perm_cons hperm (by rwa [hid])) fun t ht hused ↦ ?_
    exact hs.slice_of_apart hq (hperm.mem_iff.2 (List.mem_cons_of_mem _ ht)) hused
      (hapart t ht hs.used hused)

/-! ## Deleting -/

/-- To delete a record is to take the value of its slot id away. -/
theorem liveRecord?_of_delete {p q : Page} {id : RecordId} (hp : p.Tidy)
    (h : p.delete id = .ok q) :
    id.page = p.id ∧ id.slot.toNat < p.header.slotCount.toNat ∧
      q.header.slotCount = p.header.slotCount ∧ q.liveRecord? id.slot = none ∧
      ∀ slot, slot ≠ id.slot → q.liveRecord? slot = p.liveRecord? slot := by
  have hids := hp.packs.ids_nodup
  obtain ⟨s, hpage, hslot, hcase⟩ := delete_cases h
  obtain ⟨hmem, hid⟩ := (slot?_eq_some_iff hids).1 hslot
  have hlt := hp.packs.id_lt s hmem
  rw [hid] at hlt
  refine ⟨hpage, hlt, ?_⟩
  obtain ⟨hfree, rfl⟩ | hf := hcase
  · refine ⟨rfl, ?_, fun _ _ ↦ rfl⟩
    rw [liveRecord?, hslot, Option.filter_some, s.isUsed_eq_not_isFree, hfree]
    rfl
  have hq : q.Tidy := hf.tidy hp.packs
  obtain ⟨others, hbefore, hafter⟩ := hf.exists_perm hids
  have hperm := (directory_of_settle hf.settled).trans hafter
  have hapart := (List.pairwise_cons.1 (hp.packs.perm hbefore).apart_all).1
  refine ⟨by rw [header_of_settle hf.settled], ?_, fun slot hne ↦ ?_⟩
  · -- The entry that answers to the id is the freed one.
    have hfreed : q.slot? id.slot = some { s with status := .free } :=
      (slot?_eq_some_iff hq.packs.ids_nodup).2 ⟨hperm.mem_iff.2 List.mem_cons_self, hid⟩
    rw [liveRecord?, hfreed]
    rfl
  · refine liveRecord?_eq_of_others hids hq.packs.ids_nodup
      (fun t ht ↦ mem_iff_of_perm_cons hbefore (by rw [ht, hid]; exact hne))
      (fun t ht ↦ mem_iff_of_perm_cons hperm (by rw [ht]; exact fun heq ↦ hne (heq.trans hid)))
      fun t ht _ ↦ ?_
    have hfront := hq.front_le_start (hperm.mem_iff.2 (List.mem_cons_of_mem _ ht))
    rw [(directory_of_settle hf.settled).length_eq] at hfront
    rw [slice_of_settle hf.settled hfront]
    refine Image.slice_overwrite_of_disjoint p.image ?_
    rw [t.start_add_length, List.length_replicate, s.start_add_length]
    exact (hapart t ht).symm

/-! ## Changing the header -/

private theorem get_withHeader {p : Page} (hp : p.Tidy) {h : Header}
    (hpage : h.page = p.header.page) : (p.withHeader h).get = p.get := by
  funext id
  have hentry : (p.withHeader h).entry id = p.entry id := by
    rw [entry, entry, Page.id, Page.id, withHeader, hpage]
    rfl
  cases hs : p.entry id with
  | error e => rw [get_of_entry_eq_error hs, get_of_entry_eq_error (hentry.trans hs)]
  | ok s =>
    have hmem : s ∈ p.directory := List.mem_of_find?_eq_some (entry_eq_ok_iff.1 hs).2
    have hlow := hp.packs.front_le_lower
    have hupper := hp.packs.lower_le_upper
    have hstart := hp.packs.upper_le_start_all s hmem
    unfold slotPosition at hlow
    rw [get_of_entry hs, get_of_entry (hentry.trans hs), slice_withHeader p h (by omega)]

/-! ## Built pages -/

/-- The page is a map from record addresses to byte strings. -/
structure ActsAsRecordMap (p : Page) : Prop where
  get_eq_ok_iff : ∀ id record,
    p.get id = .ok record ↔ id.page = p.id ∧ p.liveRecord? id.slot = some record
  get_invalid : ∀ id : RecordId, id.page ≠ p.id ∨ p.header.slotCount ≤ id.slot →
    p.get id = .error (.invalidRecordId id)
  get_freed : ∀ id : RecordId, id.page = p.id → id.slot < p.header.slotCount →
    p.liveRecord? id.slot = none → p.get id = .error (.recordFreed id)
  add_ok : ∀ record id q, p.add record = .ok (id, q) →
    id.page = p.id ∧ p.liveRecord? id.slot = none ∧ q.get id = .ok record ∧
      ∀ other, other ≠ id → ∀ r, q.get other = .ok r ↔ p.get other = .ok r
  delete_ok : ∀ id q, p.delete id = .ok q → q.get id = .error (.recordFreed id) ∧
    ∀ other, other ≠ id → ∀ r, q.get other = .ok r ↔ p.get other = .ok r
  link_left : ∀ other, (p.link other).1.get = p.get
  link_right : ∀ other : Page, (other.link p).2.get = p.get
  markOverflow : p.markOverflow.get = p.get
  nodup_recordIds : p.recordIds.Nodup
  mem_recordIds : ∀ id, id ∈ p.recordIds ↔ ∃ record, p.get id = .ok record

private theorem get_eq_ok_congr {p q : Page} (hp : p.Tidy) (hq : q.Tidy) (hpage : q.id = p.id)
    {id : RecordId} (h : id.page = p.id → q.liveRecord? id.slot = p.liveRecord? id.slot)
    (record : List UInt8) : q.get id = .ok record ↔ p.get id = .ok record := by
  rw [get_eq_ok_iff hq.packs.encloses, get_eq_ok_iff hp.packs.encloses, hpage]
  exact and_congr_right fun heq ↦ by rw [h heq]

theorem slot_ne_of_ne {a b : RecordId} (hne : a ≠ b) (hpage : a.page = b.page) :
    a.slot ≠ b.slot := by
  obtain ⟨page, slot⟩ := a
  obtain ⟨page', slot'⟩ := b
  rintro heq
  exact hne (RecordId.mk.injEq .. ▸ ⟨hpage, heq⟩)

theorem actsAsRecordMap_of_tidy {p : Page} (hp : p.Tidy) : p.ActsAsRecordMap where
  get_eq_ok_iff _ _ := Page.get_eq_ok_iff hp.packs.encloses
  get_invalid _ := get_eq_invalidRecordId hp.packs.encloses
  get_freed _ hpage hlt :=
    get_eq_recordFreed hp.packs.encloses hpage (UInt16.lt_iff_toNat_lt.1 hlt)
  add_ok record id q h := by
    have happly := Edit.apply_add h
    have hq := Edit.tidy_apply hp happly
    have hid := Edit.id_apply happly
    obtain ⟨hpage, hdead, hlive, hothers⟩ := liveRecord?_of_add hp.readable hq.readable h
    refine ⟨hpage, hdead, ?_, fun other hne r ↦ get_eq_ok_congr hp hq hid (fun heq ↦ ?_) r⟩
    · exact (Page.get_eq_ok_iff hq.packs.encloses).2 ⟨hpage.trans hid.symm, hlive⟩
    · exact hothers other.slot (slot_ne_of_ne hne (heq.trans hpage.symm))
  delete_ok id q h := by
    have hq := Edit.tidy_apply (e := .delete id) hp h
    have hid := Edit.id_apply (e := .delete id) h
    obtain ⟨hpage, hlt, hcount, hdead, hothers⟩ := liveRecord?_of_delete hp h
    refine ⟨?_, fun other hne r ↦ get_eq_ok_congr hp hq hid (fun heq ↦ ?_) r⟩
    · exact get_eq_recordFreed hq.packs.encloses (hpage.trans hid.symm)
        (by rw [hcount]; exact hlt) hdead
    · exact hothers other.slot (slot_ne_of_ne hne (heq.trans hpage.symm))
  link_left _ := get_withHeader hp rfl
  link_right _ := get_withHeader hp rfl
  markOverflow := get_withHeader hp rfl
  nodup_recordIds := Page.nodup_recordIds hp.packs.ids_nodup
  mem_recordIds _ := mem_recordIds_iff hp.packs.encloses

theorem get_of_add_iff {p q : Page} {record r : List UInt8} {new id : RecordId} (hp : p.Tidy)
    (h : p.add record = .ok (new, q)) :
    q.get id = .ok r ↔ p.get id = .ok r ∨ id = new ∧ r = record := by
  have hmap := actsAsRecordMap_of_tidy hp
  obtain ⟨-, hdead, hnew, hothers⟩ := hmap.add_ok _ _ _ h
  by_cases hid : id = new
  · subst hid
    have hold : p.get id ≠ .ok r := fun hget ↦ by
      cases hdead.symm.trans ((hmap.get_eq_ok_iff _ _).1 hget).2
    rw [hnew, or_iff_right hold, and_iff_right rfl, Except.ok.injEq, eq_comm]
  · rw [hothers id hid, or_iff_left fun hright ↦ hid hright.1]

/-- A page that is built by edits acts as a map of records. -/
theorem Built.actsAsRecordMap {id : PageId} {p : Page} (hp : Built id p) : p.ActsAsRecordMap :=
  actsAsRecordMap_of_tidy hp.tidy

theorem Built.actsAsRecordMap_add_fresh : ∃ id q,
    (Page.fresh 3).add (List.replicate 9 7) = .ok (id, q) ∧ Built 3 q ∧ q.ActsAsRecordMap ∧
      q.get id = .ok (List.replicate 9 7) := by
  have hok : ((Page.fresh 3).add (List.replicate 9 7)).isOk = true := by decide +kernel
  cases hadd : (Page.fresh 3).add (List.replicate 9 7) with
  | error e =>
    rw [hadd] at hok
    cases hok
  | ok result =>
    have hbuilt : Built 3 result.2 :=
      Built.edit (e := .add (List.replicate 9 7)) .fresh (by rw [Edit.apply, hadd]; rfl)
    have hstored := (Built.actsAsRecordMap .fresh).add_ok _ _ _ hadd
    exact ⟨result.1, result.2, rfl, hbuilt, Built.actsAsRecordMap hbuilt, hstored.2.2.1⟩

end PagedStorage.Page
