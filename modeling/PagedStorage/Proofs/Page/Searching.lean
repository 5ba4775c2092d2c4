import Mathlib.Data.List.Find
import Mathlib.Data.List.TakeWhile
import PagedStorage.Page.Search
import PagedStorage.Proofs.Page.Admission
import PagedStorage.Proofs.Page.Runs

/-!
# Searching a page

A search for a key halves the directory and looks through the entries with that key from where the
halving ends. The pages of this library are in order, and on them the search answers the first
listed record that starts with the key (`find_of_ordered`).

## Halving

Two facts carry what is said of the search. Whatever the test, halving ends where the test changes
(`partitionPoint_boundary`): the invariant is about the two ends of the part that is left, and does
not need the test to be monotone. And on a directory in order there is only one such place, so that
the entries looked through are all entries with the key (`candidates_of_ordered`).

## Keys and records

The key of an entry is read from the image, from the first bytes of its stretch. A record has at
least as many, so the key of a used entry is how its record starts, and what the search answers can
be said without the directory: as a search through the listed records.

## Pages that were read

A page that was read from a block need not be in order: the decoder takes the entries as they stand.
There the search still never answers a wrong record, since it compares the key of each entry that it
looks through. But it can miss one, and `Page.Searches` says when: unless the search for the key of
each record comes upon a record. Where no slot is free and all keys differ, only a directory in
order is searched without fail. A record that is missed stands at the end, on a page with two
records whose directory stands the other way round.
-/

namespace PagedStorage

/-! ## Where halving ends -/

private theorem narrow_boundary (test : Nat → Bool) (base : Nat) {size : Nat} (hpos : 0 < size) :
    base ≤ narrow test base size ∧ narrow test base size < base + size ∧
      (narrow test base size = base ∨ test (narrow test base size) = true) ∧
      (narrow test base size + 1 < base + size → test (narrow test base size) = true →
        test (narrow test base size + 1) = false) := by
  fun_induction narrow test base size with
  | case1 base size hsize => exact ⟨by omega, by omega, .inl rfl, by omega⟩
  | case2 base size hsize half hmid ih =>
    obtain ⟨hlow, hhigh, hpass, hnext⟩ := ih (by omega)
    refine ⟨by omega, by omega, .inr ?_, fun h ↦ hnext (by omega)⟩
    rcases hpass with heq | hpass
    · rw [heq]
      exact hmid
    · exact hpass
  | case3 base size hsize half hmid ih =>
    obtain ⟨hlow, hhigh, hpass, hnext⟩ := ih (by omega)
    refine ⟨by omega, by omega, hpass, fun h htest ↦ ?_⟩
    by_cases hin : narrow test base (size - half) + 1 < base + (size - half)
    · exact hnext hin htest
    · -- The lower part ends at the position that failed, or right behind it if the size was odd.
      have hlast : narrow test base (size - half) + 1 = base + half ∨
          narrow test base (size - half) = base + half := by omega
      rcases hlast with heq | heq
      · rw [heq]
        exact Bool.not_eq_true _ ▸ hmid
      · rw [heq] at htest
        exact absurd htest hmid

/-- Whatever the test, the position before the answer passes it and the answer does not. -/
theorem partitionPoint_boundary (test : Nat → Bool) (size : Nat) :
    partitionPoint test size ≤ size ∧
      (0 < partitionPoint test size → test (partitionPoint test size - 1) = true) ∧
      (partitionPoint test size < size → test (partitionPoint test size) = false) := by
  by_cases hsize : size = 0
  · rw [partitionPoint, if_pos hsize]
    exact ⟨Nat.zero_le _, fun h ↦ absurd h (Nat.lt_irrefl 0), fun h ↦ by omega⟩
  · obtain ⟨-, hhigh, hpass, hnext⟩ := narrow_boundary test 0 (Nat.pos_of_ne_zero hsize)
    rw [Nat.zero_add] at hhigh hnext
    simp only [partitionPoint, if_neg hsize]
    split
    next htest => exact ⟨hhigh, fun _ ↦ by rwa [Nat.add_sub_cancel], fun h ↦ hnext h htest⟩
    next htest =>
      refine ⟨Nat.le_of_lt hhigh, fun h ↦ ?_, fun _ ↦ Bool.not_eq_true _ ▸ htest⟩
      rcases hpass with heq | hpass
      · omega
      · exact absurd hpass htest

namespace Page

variable {p : Page} {key : List UInt8} {id : RecordId}

/-! ## What a search looks through -/

/-- The position in the directory that the search for a key starts from. -/
def searchStart (p : Page) (key : List UInt8) : Nat :=
  partitionPoint
    (fun i ↦ decide ((p.directory.map (sortKey p.image)).toArray.getD i [] < key))
    p.directory.length

/-- The entries that the search looks through: those with the key, from there on. -/
def candidates (p : Page) (key : List UInt8) : List Slot :=
  (p.directory.drop (p.searchStart key)).takeWhile fun s ↦ sortKey p.image s == key

/-- The search answers the first of them that is used. -/
theorem find_eq_of_encloses (hd : p.header.Encloses p.directory) (key : List UInt8) :
    p.find key = match (p.candidates key).find? (·.isUsed) with
      | some s => .ok ⟨p.id, s.id⟩
      | none => .error (.recordNotFound p.id) := by
  rw [find, if_pos (withinPage_of_encloses hd)]
  rfl

private theorem exists_find_iff (hd : p.header.Describes p.directory) :
    (∃ id, p.find key = .ok id) ↔ ∃ s ∈ p.candidates key, s.isUsed := by
  rw [find_eq_of_encloses hd.encloses]
  cases hfound : (p.candidates key).find? (·.isUsed) with
  | some s =>
    exact iff_of_true ⟨_, rfl⟩ ⟨s, List.mem_of_find?_eq_some hfound, List.find?_some hfound⟩
  | none =>
    refine iff_of_false (fun ⟨_, h⟩ ↦ by cases h) fun ⟨s, hs, hused⟩ ↦ ?_
    exact List.find?_eq_none.1 hfound s hs hused

private theorem mem_directory_of_mem_candidates {s : Slot} (hs : s ∈ p.candidates key) :
    s ∈ p.directory ∧ sortKey p.image s = key := by
  rw [candidates] at hs
  have hkey := List.mem_takeWhile_imp hs
  exact ⟨List.mem_of_mem_drop ((List.takeWhile_sublist _).mem hs), beq_iff_eq.1 hkey⟩

theorem getD_keys {i : Nat} (hi : i < p.directory.length) :
    (p.directory.map (sortKey p.image)).toArray.getD i [] = sortKey p.image p.directory[i] := by
  simp [Array.getD, hi]

private theorem sortKey_lt_of_searchStart {i : Nat} (hi : i + 1 < p.directory.length)
    (hstart : p.searchStart key = i + 1) :
    sortKey p.image p.directory[i] < key := by
  obtain ⟨-, hbefore, -⟩ := partitionPoint_boundary
    (fun i ↦ decide ((p.directory.map (sortKey p.image)).toArray.getD i [] < key))
    p.directory.length
  rw [searchStart] at hstart
  rw [hstart, Nat.add_sub_cancel, getD_keys (Nat.lt_of_succ_lt hi), decide_eq_true_eq] at hbefore
  exact hbefore (Nat.succ_pos i)

/-! ## Keys and records -/

theorem sortKey_eq_take (image : Image) {s : Slot} (h : keySize ≤ s.length.toNat) :
    sortKey image s = (image.slice s.start s.length.toNat).take keySize := by
  have hslice : image.slice (s.start + 0) keySize =
      ((image.slice s.start s.length.toNat).drop 0).take keySize :=
    Bytes.slice_add image.toArray s.start 0 (by rwa [Nat.zero_add])
  rwa [Nat.add_zero, List.drop_zero] at hslice

theorem sortKey_eq_iff (image : Image) {s : Slot} (h : keySize ≤ s.length.toNat)
    (hkey : key.length = keySize) :
    sortKey image s = key ↔ key <+: image.slice s.start s.length.toNat := by
  rw [List.prefix_iff_eq_take, hkey, sortKey_eq_take image h, eq_comm]

private theorem exists_mem_of_get (hd : p.header.Encloses p.directory) {record : List UInt8}
    (hget : p.get id = .ok record) : ∃ s ∈ p.directory, s.isUsed ∧ id = ⟨p.id, s.id⟩ ∧
      p.image.slice s.start s.length.toNat = record := by
  obtain ⟨hpage, hlive⟩ := (get_eq_ok_iff hd).1 hget
  obtain ⟨s, hs, hslot, hused, hrecord⟩ := (liveRecord?_eq_some_iff hd.ids_nodup).1 hlive
  exact ⟨s, hs, hused, by rw [hslot, ← hpage], hrecord⟩

/-- Whether the record at an address can be read and starts with a key. -/
def startsWith (p : Page) (key : List UInt8) (id : RecordId) : Bool :=
  match p.get id with
  | .ok record => key.isPrefixOf record
  | .error _ => false

private theorem startsWith_of_mem (hd : p.header.Describes p.directory)
    (hkey : key.length = keySize) {s : Slot} (hs : s ∈ p.directory) (hused : s.isUsed) :
    p.startsWith key ⟨p.id, s.id⟩ = (sortKey p.image s == key) := by
  rw [startsWith, get_of_mem hd.encloses hs hused, Bool.eq_iff_iff, List.isPrefixOf_iff_prefix,
    beq_iff_eq, sortKey_eq_iff p.image (hd.keySize_le s hs) hkey]

/-- The first listed record that starts with a key is the one of the first used entry with it. -/
theorem find?_recordIds (hd : p.header.Describes p.directory) (hkey : key.length = keySize) :
    p.recordIds.find? (p.startsWith key) =
      ((p.directory.filter fun s ↦ sortKey p.image s == key).find? (·.isUsed)).map
        fun s ↦ ⟨p.id, s.id⟩ := by
  rw [recordIds, List.find?_map, List.find?_filter, List.find?_filter]
  refine congrArg _ (List.find?_congr fun s hs ↦ ?_)
  rw [Function.comp_apply, decide_eq_decide, and_comm]
  exact and_congr_left fun hused ↦ by rw [startsWith_of_mem hd hkey hs hused]

/-! ## Directories in order -/

private theorem exists_append_of_ordered (ho : p.Ordered) (key : List UInt8) :
    ∃ small large, p.directory = small ++ large ∧ (∀ s ∈ small, sortKey p.image s < key) ∧
      (∀ s ∈ large, key ≤ sortKey p.image s) ∧
      large.Pairwise fun a b ↦ sortKey p.image a ≤ sortKey p.image b := by
  rw [Ordered] at ho
  generalize p.directory = d at ho ⊢
  induction d with
  | nil => exact ⟨[], [], rfl, by simp, by simp, .nil⟩
  | cons s rest ih =>
    obtain ⟨hfirst, hrest⟩ := List.pairwise_cons.1 ho
    by_cases hs : sortKey p.image s < key
    · obtain ⟨small, large, rfl, hsmall, hlarge, hpairs⟩ := ih hrest
      exact ⟨s :: small, large, rfl, List.forall_mem_cons.2 ⟨hs, hsmall⟩, hlarge, hpairs⟩
    · have hle := List.not_lt.1 hs
      exact ⟨[], s :: rest, rfl, by simp,
        List.forall_mem_cons.2 ⟨hle, fun t ht ↦ List.le_trans hle (hfirst t ht)⟩, ho⟩

private theorem takeWhile_eq_filter {image : Image} {large : List Slot}
    (hpairs : large.Pairwise fun a b ↦ sortKey image a ≤ sortKey image b)
    (hlarge : ∀ s ∈ large, key ≤ sortKey image s) :
    large.takeWhile (fun s ↦ sortKey image s == key) =
      large.filter fun s ↦ sortKey image s == key := by
  induction large with
  | nil => rfl
  | cons s rest ih =>
    obtain ⟨hfirst, hrest⟩ := List.pairwise_cons.1 hpairs
    obtain ⟨hs, hlater⟩ := List.forall_mem_cons.1 hlarge
    by_cases heq : (sortKey image s == key) = true
    · rw [List.takeWhile_cons, List.filter_cons, if_pos heq, if_pos heq, ih hrest hlater]
    · rw [List.takeWhile_cons, List.filter_cons, if_neg heq, if_neg heq, eq_comm,
        List.filter_eq_nil_iff]
      -- A later entry with the key would have a key between that of this one and the key.
      intro t ht hkey
      exact heq (beq_iff_eq.2 (List.le_antisymm (beq_iff_eq.1 hkey ▸ hfirst t ht) hs))

theorem searchStart_of_append {small large : List Slot} (hdir : p.directory = small ++ large)
    (hsmall : ∀ s ∈ small, sortKey p.image s < key)
    (hlarge : ∀ s ∈ large, key ≤ sortKey p.image s) : p.searchStart key = small.length := by
  refine partitionPoint_eq (by rw [hdir, List.length_append]; omega) fun i hi ↦ ?_
  rw [getD_keys hi, decide_eq_decide]
  by_cases hlt : i < small.length
  · refine iff_of_true (hsmall _ ?_) hlt
    simp [hdir, List.getElem_append_left hlt]
  · refine iff_of_false (List.not_lt.2 (hlarge _ ?_)) hlt
    simp [hdir, List.getElem_append_right (Nat.le_of_not_lt hlt)]

/-- In a directory in order the search looks through all entries with the key. -/
theorem candidates_of_ordered (ho : p.Ordered) (key : List UInt8) :
    p.candidates key = p.directory.filter fun s ↦ sortKey p.image s == key := by
  obtain ⟨small, large, hdir, hsmall, hlarge, hpairs⟩ := exists_append_of_ordered ho key
  have hnone : (small.filter fun s ↦ sortKey p.image s == key) = [] := by
    refine List.filter_eq_nil_iff.2 fun s hs hkey ↦ ?_
    exact List.lt_irrefl key (beq_iff_eq.1 hkey ▸ hsmall s hs)
  rw [candidates, searchStart_of_append hdir hsmall hlarge, hdir, List.drop_left,
    takeWhile_eq_filter hpairs hlarge, List.filter_append, hnone, List.nil_append]

/-- On a page in order the search answers the first listed record that starts with the key. -/
theorem find_of_ordered (hd : p.header.Describes p.directory) (ho : p.Ordered)
    (hkey : key.length = keySize) :
    p.find key = match p.recordIds.find? (p.startsWith key) with
      | some id => .ok id
      | none => .error (.recordNotFound p.id) := by
  rw [find_eq_of_encloses hd.encloses, find?_recordIds hd hkey, candidates_of_ordered ho]
  cases (p.directory.filter fun s ↦ sortKey p.image s == key).find? (·.isUsed) <;> rfl

/-! ## Pages that were read -/

/-- The search finds a record for every key that one starts with. -/
def FindsAll (p : Page) : Prop :=
  ∀ key : List UInt8, key.length = keySize →
    (∃ id record, p.get id = .ok record ∧ key <+: record) → ∃ id, p.find key = .ok id

/-- How far the search of a page can be relied on. -/
structure Searches (p : Page) : Prop where
  /-- It answers a record that starts with the key, or that there is none. -/
  sound : ∀ key, (∃ id record, p.find key = .ok id ∧ p.get id = .ok record ∧ key <+: record) ∨
    p.find key = .error (.recordNotFound p.id)
  /-- It finds every record exactly if it comes upon each one that it is sent for. -/
  findsAll_iff : p.FindsAll ↔ ∀ s ∈ p.directory, s.isUsed →
    ∃ t ∈ p.candidates (sortKey p.image s), t.isUsed
  findsAll_of_ordered : p.Ordered → p.FindsAll
  /-- Where all slots hold records and no two start alike, only an order will do. -/
  ordered_of_findsAll : (∀ s ∈ p.directory, s.isUsed) →
    (p.directory.map (sortKey p.image)).Nodup → p.FindsAll → p.Ordered

theorem length_sortKey (hd : p.header.Describes p.directory) {s : Slot} (hs : s ∈ p.directory) :
    (sortKey p.image s).length = keySize := by
  have hkey := hd.keySize_le s hs
  have hstop := hd.stop_le s hs
  rw [← s.start_add_length] at hstop
  exact Image.length_slice p.image (by omega)

private theorem findsAll_iff_candidates (hd : p.header.Describes p.directory) :
    p.FindsAll ↔ ∀ s ∈ p.directory, s.isUsed →
      ∃ t ∈ p.candidates (sortKey p.image s), t.isUsed := by
  constructor
  · intro h s hs hused
    have hget := get_of_mem hd.encloses hs hused
    refine (exists_find_iff hd).1 (h _ (length_sortKey hd hs) ⟨_, _, hget, ?_⟩)
    exact (sortKey_eq_iff p.image (hd.keySize_le s hs) (length_sortKey hd hs)).1 rfl
  · rintro h key hkey ⟨id, record, hget, hprefix⟩
    obtain ⟨s, hs, hused, -, rfl⟩ := exists_mem_of_get hd.encloses hget
    obtain rfl := (sortKey_eq_iff p.image (hd.keySize_le s hs) hkey).2 hprefix
    exact (exists_find_iff hd).2 (h s hs hused)

private theorem sortKey_lt_of_mem_candidates (hnodup : (p.directory.map (sortKey p.image)).Nodup)
    {i : Nat} (hi : i + 1 < p.directory.length) {t : Slot}
    (ht : t ∈ p.candidates (sortKey p.image p.directory[i + 1])) :
    sortKey p.image p.directory[i] <
      sortKey p.image p.directory[i + 1] := by
  set key := sortKey p.image p.directory[i + 1] with hkey
  refine sortKey_lt_of_searchStart hi ?_
  -- The entry at which the search starts has the key, too, so it is the entry itself.
  have hlt : p.searchStart key < p.directory.length := by
    by_contra hge
    rw [candidates, List.drop_of_length_le (Nat.le_of_not_lt hge)] at ht
    cases ht
  have hfirst : sortKey p.image p.directory[p.searchStart key] = key := by
    by_contra hne
    rw [candidates, List.drop_eq_getElem_cons hlt, List.takeWhile_cons_of_neg (by simpa)] at ht
    cases ht
  have hsame := @List.Nodup.getElem_inj_iff _ _ hnodup (p.searchStart key)
    (by rwa [List.length_map]) (i + 1) (by rwa [List.length_map])
  rw [List.getElem_map, List.getElem_map] at hsame
  exact hsame.1 (hfirst.trans hkey)

/-- What can be relied on when a page that was read from a block is searched. -/
theorem searches_of_decode {bytes : Array UInt8} (hdecode : decode bytes = .ok p) : p.Searches := by
  have hd := (decode_eq_ok_iff.1 hdecode).2.describes
  constructor
  · intro key
    rw [find_eq_of_encloses hd.encloses]
    cases hfound : (p.candidates key).find? (·.isUsed) with
    | none => exact .inr rfl
    | some s =>
      obtain ⟨hs, rfl⟩ := mem_directory_of_mem_candidates (List.mem_of_find?_eq_some hfound)
      refine .inl ⟨_, _, rfl, get_of_mem hd.encloses hs (List.find?_some hfound), ?_⟩
      exact (sortKey_eq_iff p.image (hd.keySize_le s hs) (length_sortKey hd hs)).1 rfl
  · exact findsAll_iff_candidates hd
  · intro ho
    refine (findsAll_iff_candidates hd).2 fun s hs hused ↦ ⟨s, ?_, hused⟩
    rw [candidates_of_ordered ho]
    exact List.mem_filter.2 ⟨hs, beq_self_eq_true _⟩
  · intro hall hnodup hfinds
    rw [Ordered, ← List.isChain_iff_pairwise, List.isChain_iff_getElem]
    intro i hi
    obtain ⟨t, ht, -⟩ := (findsAll_iff_candidates hd).1 hfinds _ (List.getElem_mem hi)
      (hall _ (List.getElem_mem hi))
    exact List.le_of_lt (sortKey_lt_of_mem_candidates hnodup hi ht)

/-! ## A record that is missed -/

/-- The header of a page with two records of eight bytes. -/
def pairHeader : Header :=
  { Header.fresh 0 with lower := 40, upper := 8176, slotCount := 2 }

/-- The entry of a record of ones. -/
def lowEntry : Slot where
  id := 1
  status := .used
  offset := 8176
  length := 8

/-- The entry of a record of twos. -/
def highEntry : Slot where
  id := 0
  status := .used
  offset := 8184
  length := 8

def ones : List UInt8 := List.replicate 8 1

def twos : List UInt8 := List.replicate 8 2

/-- A page with both records, whose directory may stand in either order. -/
def pairPage (d : List Slot) : Page where
  header := pairHeader
  directory := d
  image := ((Image.zero.overwrite 8184 twos).overwrite 8176 ones).overwrite 0
    (encodeLayout pairHeader d)

private theorem describes_pairHeader : pairHeader.Describes [lowEntry, highEntry] where
  length_eq := rfl
  ids_nodup := by decide
  id_lt := by decide
  front_le_lower := by decide
  lower_le_upper := by decide
  upper_le := by decide
  keySize_le := by decide
  stop_le := by decide
  upper_le_start := by decide
  apart := List.pairwise_pair.2 fun _ _ ↦ .inl (by decide)
  countFree := by decide

private theorem readable_pairPage {d : List Slot} (hd : [lowEntry, highEntry].Perm d) :
    (pairPage d).Readable :=
  readable_overwrite _ (describes_pairHeader.perm hd)

private theorem sortKey_pairPage {d : List Slot} (hd : [lowEntry, highEntry].Perm d) :
    sortKey (pairPage d).image lowEntry = ones ∧ sortKey (pairPage d).image highEntry = twos := by
  have hfront : ∀ start, 8176 ≤ start → 0 + (encodeLayout pairHeader d).length ≤ start := by
    intro start hstart
    rw [length_encodeLayout, ← hd.length_eq, Nat.zero_add]
    exact Nat.le_trans (by decide) hstart
  constructor
  · exact (Image.slice_overwrite_of_disjoint _ (.inr (hfront 8176 (by decide)))).trans
      (@Image.slice_overwrite _ 8176 ones (by decide))
  · exact (Image.slice_overwrite_of_disjoint _ (.inr (hfront 8184 (by decide)))).trans
      ((@Image.slice_overwrite_of_disjoint _ 8184 keySize 8176 ones (.inr (by decide))).trans
        (@Image.slice_overwrite _ 8184 twos (by decide)))

/-- With the directory in order both records are found. -/
theorem searches_pairPage :
    decode (pairPage [lowEntry, highEntry]).image.toArray = .ok (pairPage [lowEntry, highEntry]) ∧
      (pairPage [lowEntry, highEntry]).Ordered ∧ (pairPage [lowEntry, highEntry]).FindsAll := by
  have hdecode := decode_image_iff.2 (readable_pairPage (.refl _))
  have hordered : (pairPage [lowEntry, highEntry]).Ordered := by
    obtain ⟨hlow, hhigh⟩ := sortKey_pairPage (.refl _)
    refine List.pairwise_pair.2 ?_
    rw [hlow, hhigh]
    decide
  exact ⟨hdecode, hordered, (searches_of_decode hdecode).findsAll_of_ordered hordered⟩

/-- With the directory the other way round the page is read as well, but the search misses a record
that is there. -/
theorem find_misses_record :
    decode (pairPage [highEntry, lowEntry]).image.toArray = .ok (pairPage [highEntry, lowEntry]) ∧
      (pairPage [highEntry, lowEntry]).get ⟨0, 1⟩ = .ok ones ∧
      (pairPage [highEntry, lowEntry]).find ones = .error (.recordNotFound 0) := by
  have hperm : [lowEntry, highEntry].Perm [highEntry, lowEntry] := .swap _ _ _
  have hd := (readable_pairPage hperm).describes
  obtain ⟨hlow, hhigh⟩ := sortKey_pairPage hperm
  refine ⟨decode_image_iff.2 (readable_pairPage hperm), ?_, ?_⟩
  · exact (get_of_mem hd.encloses (List.mem_cons_of_mem _ List.mem_cons_self) rfl).trans
      (congrArg Except.ok hlow)
  · -- No key is smaller, so the search starts at the first entry, which is not the one.
    have hstart : (pairPage [highEntry, lowEntry]).searchStart ones = 0 := by
      refine searchStart_of_append (List.nil_append _).symm (by simp) ?_
      refine List.forall_mem_cons.2 ⟨?_, List.forall_mem_singleton.2 ?_⟩
      · rw [hhigh]
        decide
      · rw [hlow]
        decide
    have hnone : (pairPage [highEntry, lowEntry]).candidates ones = [] := by
      rw [candidates, hstart, List.drop_zero]
      refine List.takeWhile_cons_of_neg ?_
      rw [hhigh]
      decide
    rw [find_eq_of_encloses hd.encloses, hnone]
    rfl

end Page

end PagedStorage
