import PagedStorage.Proofs.Page.Searching

/-!
# The records of a page in order

The directory decides in which order records are listed, and it is sorted again whenever one of
them is stored or deleted. On every page that edits lead to, the list is in the order of the keys,
to store or to delete a record puts one address in or takes one out and moves no other, and a
search for a key answers the first address in the list whose record starts with it. This is
`Page.ListsByKey`.

## Why the others keep their places

Free entries stay in the directory under a key of zeros, so an entry that is set free or taken over
moves. What keeps the others in place is that the sort is stable (`filter_sortDirectory`): entries
that were in order before it stand behind it as they stood. Their keys are still those of the
image, since no two stretches of a tidy page meet.

Two records may have one key. They are then listed in the order in which their entries stood before,
which is why the statement is about the list with one address erased and not about a list that is
sorted anew.

## Failing edits

`Page.after` is any run of edits, of which some may fail. An edit that fails leaves the page as it
was, and so the list.
-/

namespace PagedStorage.Page

variable {p q : Page} {id : RecordId} {record : List UInt8}

/-! ## Sorting again -/

/-- Entries that are in order keep their places among each other when the directory is sorted. -/
theorem filter_sortDirectory {image : Image} {d : List Slot} {keep : Slot → Bool}
    (h : (d.filter keep).Pairwise fun a b ↦ sortKey image a ≤ sortKey image b) :
    (sortDirectory image d).filter keep = d.filter keep := by
  have hdir : (d.filter keep).Sublist (sortDirectory image d) := by
    rw [sortDirectory_eq_mergeSort]
    exact List.sublist_mergeSort inOrder_trans inOrder_total
      (h.imp fun hab ↦ decide_eq_true hab) List.filter_sublist
  -- As many of these entries are in the sorted directory, so there are no others between them.
  have hfilter := hdir.filter keep
  rw [List.filter_filter] at hfilter
  simp only [Bool.and_self] at hfilter
  exact (hfilter.eq_of_length ((sortDirectory_perm image d).filter keep).length_eq.symm).symm

/-! ## The other records -/

private theorem filter_recordIds (p : Page) (slot : SlotId) :
    p.recordIds.filter (·.slot != slot) =
      ((p.directory.filter (·.id != slot)).filter (·.isUsed)).map fun s ↦ ⟨p.id, s.id⟩ := by
  rw [recordIds, List.filter_map, List.filter_filter, List.filter_filter]
  refine congrArg _ (List.filter_congr fun s _ ↦ ?_)
  rw [Function.comp_apply, Bool.and_comm]

theorem erase_recordIds (hids : (p.directory.map (·.id)).Nodup) (hpage : id.page = p.id) :
    p.recordIds.erase id = p.recordIds.filter (·.slot != id.slot) := by
  rw [(nodup_recordIds hids).erase_eq_filter]
  refine List.filter_congr fun other hother ↦ ?_
  obtain ⟨s, -, rfl⟩ := List.mem_map.1 hother
  rw [Bool.eq_iff_iff, bne_iff_ne, bne_iff_ne, ne_eq, ne_eq, not_iff_not]
  constructor
  · rintro rfl
    rfl
  · intro hslot
    obtain ⟨page, slot⟩ := id
    exact RecordId.mk.injEq .. ▸ ⟨hpage.symm, hslot⟩

/-- When one entry is exchanged and no key of another record changes, the others are listed as
before. -/
theorem filter_recordIds_of_settle {h : Header} {d : List Slot} {image : Image} {slot : SlotId}
    (ho : p.Ordered) (hsettle : settle h d image = .ok q) (hid : q.id = p.id)
    (hothers : d.filter (·.id != slot) = p.directory.filter (·.id != slot))
    (hkeys : ∀ s ∈ p.directory, s.isUsed → s.id ≠ slot → sortKey image s = sortKey p.image s) :
    q.recordIds.filter (·.slot != slot) = p.recordIds.filter (·.slot != slot) := by
  have hkept : (d.filter fun s ↦ s.isUsed && s.id != slot) =
      p.directory.filter fun s ↦ s.isUsed && s.id != slot := by
    rw [← List.filter_filter, hothers, List.filter_filter]
  have hsorted : (d.filter fun s ↦ s.isUsed && s.id != slot).Pairwise
      fun a b ↦ sortKey image a ≤ sortKey image b := by
    rw [hkept]
    refine (List.Pairwise.filter _ ho).imp_of_mem fun {a b} ha hb hab ↦ ?_
    simp only [List.mem_filter, Bool.and_eq_true, bne_iff_ne] at ha hb
    rwa [hkeys a ha.1 ha.2.1 ha.2.2, hkeys b hb.1 hb.2.1 hb.2.2]
  have hdir : q.directory = sortDirectory image d := by rw [(settle_eq_ok_iff.1 hsettle).2]
  rw [filter_recordIds, filter_recordIds, hid, List.filter_filter, List.filter_filter, hdir,
    filter_sortDirectory hsorted, hkept]

theorem Tidy.apart (hp : p.Tidy) {s t : Slot} (hs : s ∈ p.directory) (ht : t ∈ p.directory)
    (hne : t.id ≠ s.id) : s.Apart t := by
  obtain ⟨others, hperm⟩ := exists_perm_cons hs
  have hall := (List.pairwise_cons.1 (hp.packs.perm hperm).apart_all).1
  exact hall t ((mem_iff_of_perm_cons hperm hne).1 ht)

theorem sortKey_overwrite {s t : Slot} {image : Image} {bs : List UInt8}
    (hlen : s.stop = s.start + bs.length) (hkey : keySize ≤ t.length.toNat) (hapart : s.Apart t) :
    sortKey (image.overwrite s.start bs) t = sortKey image t := by
  refine Image.slice_overwrite_of_disjoint image ?_
  have hstop := t.start_add_length
  unfold Slot.Apart at hapart
  omega

/-! ## Deleting and storing -/

private theorem delete_of_live (hd : p.header.Describes p.directory) (hid : id ∈ p.recordIds) :
    ∃ s q, id = ⟨p.id, s.id⟩ ∧ p.delete id = .ok q ∧ p.Frees s q := by
  obtain ⟨record, hget⟩ := (mem_recordIds_iff hd.encloses).1 hid
  cases hdelete : p.delete id with
  | error e => cases hget.symm.trans (delete_eq_error hd.encloses hdelete).2
  | ok q =>
    obtain ⟨s, hpage, hslot, ⟨hfree, -⟩ | hf⟩ := delete_cases hdelete
    · rw [get_eq_of_slot? hd.encloses hpage hslot, if_pos hfree] at hget
      cases hget
    · obtain ⟨-, hsid⟩ := (slot?_eq_some_iff hd.ids_nodup).1 hslot
      exact ⟨s, q, by rw [hsid, ← hpage], rfl, hf⟩

/-- To delete a record takes its address out of the list. -/
theorem recordIds_of_delete (hp : p.Tidy) (ho : p.Ordered) (hid : id ∈ p.recordIds) :
    ∃ q, p.delete id = .ok q ∧ q.recordIds = p.recordIds.erase id := by
  have hids := hp.packs.ids_nodup
  obtain ⟨s, q, rfl, hdelete, hf⟩ := delete_of_live hp.readable.describes hid
  have hqid : q.id = p.id := Edit.id_apply (e := .delete ⟨p.id, s.id⟩) hdelete
  have hsame : q.recordIds.filter (·.slot != s.id) = p.recordIds.filter (·.slot != s.id) := by
    refine filter_recordIds_of_settle ho hf.settled hqid
      (filter_replaceSlot p.directory { s with status := .free }) ?_
    intro t ht _ hne
    exact sortKey_overwrite (by rw [List.length_replicate, s.start_add_length])
      (hp.packs.keySize_le t ht) (hp.apart hf.mem ht hne)
  -- The deleted record is listed no more.
  have hgone : ∀ other ∈ q.recordIds, other.slot != s.id := by
    intro other hother
    have hq := (hf.tidy hp.packs).readable.describes
    obtain ⟨record, hget⟩ := (mem_recordIds_iff hq.encloses).1 hother
    rw [bne_iff_ne]
    intro hslot
    rw [get_eq_ok_iff hq.encloses, hslot, (liveRecord?_of_delete hp hdelete).2.2.2.1] at hget
    cases hget.2
  refine ⟨q, hdelete, ?_⟩
  rw [erase_recordIds hids rfl, ← hsame, List.filter_eq_self.2 hgone]

/-- To store a record puts its address into the list. -/
theorem recordIds_of_add (hp : p.Tidy) (ho : p.Ordered) (hadd : p.add record = .ok (id, q)) :
    id ∈ q.recordIds ∧ q.recordIds.erase id = p.recordIds := by
  have hd := hp.readable.describes
  obtain ⟨pl, hplace, hs⟩ := exists_place_of_add hd.encloses hadd
  have hq : q.Tidy := hs.tidy hp.packs
  have hqid : q.id = p.id := Edit.id_apply (Edit.apply_add hadd)
  obtain ⟨hpage, hdead, hlive, -⟩ := liveRecord?_of_add hp.readable hq.readable hadd
  have hsame : q.recordIds.filter (·.slot != pl.slot.id) =
      p.recordIds.filter (·.slot != pl.slot.id) := by
    refine filter_recordIds_of_settle ho hs.settled hqid (filter_directory_of_place hplace) ?_
    intro t ht hused hne
    exact sortKey_overwrite hs.stop_eq (hp.packs.keySize_le t ht)
      (hq.apart hs.mem_slot (hs.mem_of_used ht hused) hne)
  -- The slot that the record was given held none before.
  have hnew : ∀ other ∈ p.recordIds, other.slot != pl.slot.id := by
    intro other hother
    obtain ⟨r, hget⟩ := (mem_recordIds_iff hd.encloses).1 hother
    rw [bne_iff_ne]
    intro heq
    rw [hs.id_eq] at hdead
    rw [get_eq_ok_iff hd.encloses, heq, hdead] at hget
    cases hget.2
  refine ⟨?_, ?_⟩
  · exact (mem_recordIds_iff hq.packs.encloses).2
      ⟨record, (get_eq_ok_iff hq.packs.encloses).2 ⟨hpage.trans hqid.symm, hlive⟩⟩
  · rw [erase_recordIds hq.packs.ids_nodup (hpage.trans hqid.symm), hs.id_eq, hsame,
      List.filter_eq_self.2 hnew]

/-! ## Pages built by edits -/

/-- The records of a page are listed in the order of their keys, and are found by them. -/
structure ListsByKey (p : Page) : Prop where
  /-- The listed records, in the order of the list, start with keys that do not get smaller. -/
  sorted : ∃ records, List.Forall₂ (fun id record ↦ p.get id = .ok record) p.recordIds records ∧
    (records.map (·.take keySize)).Pairwise (· ≤ ·)
  delete_live : ∀ id ∈ p.recordIds, ∃ q, p.delete id = .ok q ∧ q.recordIds = p.recordIds.erase id
  add_ok : ∀ record id q, p.add record = .ok (id, q) →
    id ∈ q.recordIds ∧ q.recordIds.erase id = p.recordIds
  find_eq : ∀ key : List UInt8, key.length = keySize →
    p.find key = match p.recordIds.find? (p.startsWith key) with
      | some id => .ok id
      | none => .error (.recordNotFound p.id)

private theorem exists_sorted_records (hd : p.header.Describes p.directory) (ho : p.Ordered) :
    ∃ records, List.Forall₂ (fun id record ↦ p.get id = .ok record) p.recordIds records ∧
      (records.map (·.take keySize)).Pairwise (· ≤ ·) := by
  refine ⟨(p.directory.filter (·.isUsed)).map fun s ↦ p.image.slice s.start s.length.toNat, ?_, ?_⟩
  · refine List.forall₂_map_left_iff.2 (List.forall₂_map_right_iff.2 (List.forall₂_same.2 ?_))
    intro s hs
    obtain ⟨hs, hused⟩ := List.mem_filter.1 hs
    exact get_of_mem hd.encloses hs hused
  · rw [List.map_map, List.pairwise_map]
    refine (List.Pairwise.filter _ ho).imp_of_mem fun {a b} ha hb hab ↦ ?_
    rwa [sortKey_eq_take p.image (hd.keySize_le a (List.mem_of_mem_filter ha)),
      sortKey_eq_take p.image (hd.keySize_le b (List.mem_of_mem_filter hb))] at hab

/-- Every run of edits on a new page, failing ones included, leads to a page whose records are
listed in the order of their keys and found by them. -/
theorem listsByKey_after (id : PageId) (edits : List Edit) :
    ((fresh id).after edits).ListsByKey := by
  have hbuilt : Built id ((fresh id).after edits) := built_iff_exists_after.2 ⟨edits, rfl⟩
  have hd := hbuilt.tidy.readable.describes
  constructor
  · exact exists_sorted_records hd hbuilt.ordered
  · exact fun _ hid ↦ recordIds_of_delete hbuilt.tidy hbuilt.ordered hid
  · exact fun _ _ _ hadd ↦ recordIds_of_add hbuilt.tidy hbuilt.ordered hadd
  · exact fun _ hkey ↦ find_of_ordered hd hbuilt.ordered hkey

end PagedStorage.Page
