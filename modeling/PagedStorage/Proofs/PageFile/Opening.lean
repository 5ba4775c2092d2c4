import PagedStorage.Proofs.PageFile.Calls

/-!
# Opening a file

To open a file is to read the header of each whole page in its store. Which header that is depends
on the bytes alone, `PageFile.HasHeader`. So a store that refuses no call is opened exactly if it
has a header for each page, and the index is the list of these headers; a store that does refuse
calls either fails to be opened or gives the same index.

## Two directions

`haveHeaders_of_load` takes a file that was opened and gives the headers in its store, for any
schedule of failures. `load_of_haveHeaders` goes back, for a store that refuses no call. The list
of headers is counted from a first page on, because reading goes through the pages by number and
both are inductions on how many are left.

## What is the same after opening again

`PageFile.Mirrors` says of a file in use what opening would find: every header in the index is the
one that the store has for the page. It is what a run has to keep for `Mirrors.load`, which opens
the store again and gets the same index. Opening itself establishes it (`Opened.mirrors`), and
nothing of the pages apart from their headers is needed for it.
-/

namespace PagedStorage

namespace Store

variable {s t : Store} {offset len : Nat} {bytes : Array UInt8}

theorem of_read_eq_ok (hlen : len ≠ 0) (h : s.read offset len = (.ok bytes, t)) :
    s.isBeyond offset = false ∧ offset + len ≤ s.contents.size ∧
      bytes = s.contents.read offset len ∧ t.medium = s.medium := by
  rw [read] at h
  split at h
  next gate hgate =>
    obtain ⟨hstretch, rfl⟩ := Prod.mk.inj h
    rw [stretch, ite_error_eq_ok_iff, Bool.not_eq_true] at hstretch
    obtain ⟨hbeyond, hstretch⟩ := hstretch
    by_cases hend : offset + len ≤ s.contents.size
    · rw [if_pos hend] at hstretch
      exact ⟨hbeyond, hend, (Except.ok.inj hstretch).symm, rfl⟩
    · rw [if_neg hend] at hstretch
      split at hstretch
      next => exact absurd hstretch error_ne_ok
      next =>
        rw [if_neg hlen] at hstretch
        exact absurd hstretch error_ne_ok
  next => exact absurd (Prod.mk.inj h).1 error_ne_ok

private theorem read_of_passes (hpass : ∀ n, s.reads.refuses n = false)
    (hbeyond : s.isBeyond offset = false) (hend : offset + len ≤ s.contents.size) :
    s.read offset len =
      (.ok (s.contents.read offset len), { s with reads := s.reads.attempt.2 }) := by
  rw [read, Gate.attempt, hpass, stretch, hbeyond, if_neg Bool.false_ne_true, if_pos hend]
  rfl

end Store

namespace PageFile

variable {f g : PageFile} {id : PageId} {s t : Store} {h : Header}

/-! ## Headers in a store -/

/-- The bytes of the store have a header for the page. -/
structure HasHeader (s : Store) (id : PageId) (h : Header) : Prop where
  within : s.isBeyond (position id) = false
  le_size : position id + headerSize ≤ s.contents.size
  headerOf_eq : headerOf id (s.contents.read (position id) headerSize) = .ok h

theorem HasHeader.congr (hh : HasHeader s id h) (hmedium : t.medium = s.medium)
    (hcontents : t.contents = s.contents) : HasHeader t id h := by
  constructor
  · rw [Store.isBeyond_congr hmedium]
    exact hh.within
  · rw [hcontents]
    exact hh.le_size
  · rw [hcontents]
    exact hh.headerOf_eq

theorem HasHeader.page_eq (hh : HasHeader s id h) : h.page = id := by
  have hheader := hh.headerOf_eq
  rw [headerOf] at hheader
  split at hheader
  next =>
    rw [← Except.ok.inj hheader]
    rfl
  next =>
    obtain ⟨k, -, hk⟩ := bind_eq_ok_iff.1 hheader
    split at hk
    next hpage => rwa [← Except.ok.inj hk]
    next => exact absurd hk error_ne_ok

/-! ## Reading headers -/

private theorem medium_of_readHeaders {headers result : Array Header} {first count : Nat}
    (hread : readHeaders s headers first count = (.ok result, t)) : t.medium = s.medium := by
  induction count generalizing s headers first with
  | zero => rw [← (Prod.mk.inj hread).2]
  | succ count ih =>
    rw [readHeaders] at hread
    split at hread
    next => exact absurd (Prod.mk.inj hread).1 error_ne_ok
    next bytes u hu =>
      split at hread
      next => exact absurd (Prod.mk.inj hread).1 error_ne_ok
      next => exact (ih hread).trans (Store.of_read_eq_ok (by decide) hu).2.2.2

/-- The pages from a number on have these headers. -/
def HaveHeaders (s : Store) (first count : Nat) (headers : List Header) : Prop :=
  List.Forall₂ (fun i h ↦ HasHeader s (.ofNat i) h) (List.range' first count) headers

theorem HaveHeaders.congr {first count : Nat} {headers : List Header}
    (hh : HaveHeaders s first count headers) (hmedium : t.medium = s.medium)
    (hcontents : t.contents = s.contents) : HaveHeaders t first count headers :=
  hh.imp fun _ _ hi ↦ hi.congr hmedium hcontents

private theorem haveHeaders_of_readHeaders {headers result : Array Header} {first count : Nat}
    (hread : readHeaders s headers first count = (.ok result, t)) :
    ∃ rest, HaveHeaders s first count rest ∧ result = headers ++ rest.toArray := by
  induction count generalizing s headers first with
  | zero =>
    refine ⟨[], .nil, ?_⟩
    rw [← Except.ok.inj (Prod.mk.inj hread).1, Array.append_empty]
  | succ count ih =>
    rw [readHeaders] at hread
    split at hread
    next => exact absurd (Prod.mk.inj hread).1 error_ne_ok
    next bytes u hu =>
      split at hread
      next => exact absurd (Prod.mk.inj hread).1 error_ne_ok
      next header hheader =>
        -- The read has changed what the store counts, but none of its headers.
        obtain ⟨hwithin, hend, hbytes, hmedium⟩ := Store.of_read_eq_ok (by decide) hu
        obtain ⟨rest, hrest, hresult⟩ := ih hread
        rw [hbytes] at hheader
        refine ⟨header :: rest, ?_, ?_⟩
        · rw [HaveHeaders, List.range'_succ]
          exact .cons ⟨hwithin, hend, hheader⟩
            (hrest.congr hmedium.symm (contents_of_read hu).symm)
        · rw [hresult, List.push_append_toArray]

private theorem readHeaders_of_haveHeaders (hpass : ∀ n, s.reads.refuses n = false)
    {rest : List Header} (headers : Array Header) {first count : Nat}
    (hrest : HaveHeaders s first count rest) :
    ∃ t, readHeaders s headers first count = (.ok (headers ++ rest.toArray), t) := by
  induction count generalizing s headers first rest with
  | zero =>
    rw [HaveHeaders, List.range'_zero, List.forall₂_nil_left_iff] at hrest
    exact ⟨s, by rw [hrest, Array.append_empty]; rfl⟩
  | succ count ih =>
    rw [HaveHeaders, List.range'_succ, List.forall₂_cons_left_iff] at hrest
    obtain ⟨header, rest, hheader, hrest, rfl⟩ := hrest
    have hread := Store.read_of_passes hpass hheader.within hheader.le_size
    have hlater : HaveHeaders { s with reads := s.reads.attempt.2 } (first + 1) count rest :=
      HaveHeaders.congr hrest rfl rfl
    obtain ⟨t, ht⟩ :=
      ih (s := { s with reads := s.reads.attempt.2 }) hpass (headers.push header) hlater
    refine ⟨t, ?_⟩
    simp only [readHeaders, hread, hheader.headerOf_eq]
    rw [ht, List.push_append_toArray]

/-! ## Opening -/

/-- The index of a file that was opened has the headers in the store. -/
theorem haveHeaders_of_load (hload : load s = (.ok f, t)) :
    HaveHeaders f.store 0 (s.contents.size / pageSize) f.headers.toList := by
  have hcontents := contents_of_load hload
  obtain ⟨u, headers, hsame, hread, rfl⟩ := load_eq hload
  have hmedium := medium_of_readHeaders hread
  obtain ⟨rest, hrest, rfl⟩ := haveHeaders_of_readHeaders hread
  rw [Array.empty_append]
  exact hrest.congr hmedium (hcontents.trans hsame.symm)

/-- A store that refuses no call is opened if it has a header for each page. -/
theorem load_of_haveHeaders {headers : List Header}
    (hh : HaveHeaders s 0 (s.contents.size / pageSize) headers) :
    ∃ t, load s.obliging = (.ok { store := t, headers := headers.toArray
                                  freePages := headers.toArray.countP (·.isFree)
                                  ids := ⟨.ofNat (s.contents.size / pageSize)⟩ }, t) := by
  have hsize : s.obliging.size =
    (.ok s.contents.size, { s.obliging with sizes := s.obliging.sizes.attempt.2 }) := rfl
  have hthere : HaveHeaders { s.obliging with sizes := s.obliging.sizes.attempt.2 } 0
    (s.contents.size / pageSize) headers := hh.congr rfl rfl
  obtain ⟨t, ht⟩ := readHeaders_of_haveHeaders (fun _ ↦ rfl) #[] hthere
  refine ⟨t, ?_⟩
  rw [Array.empty_append] at ht
  simp only [load, hsize, ht]

/-- Every header in the index is the one that the store has for the page. -/
def Mirrors (f : PageFile) : Prop := ∀ id h, f.header? id = some h → HasHeader f.store id h

theorem mirrors_of_load (hload : load s = (.ok f, t)) : f.Mirrors := by
  intro id h hid
  obtain ⟨hlen, hget⟩ := List.forall₂_iff_get.1 (haveHeaders_of_load hload)
  rw [header?, Array.getElem?_eq_some_iff] at hid
  obtain ⟨hlt, rfl⟩ := hid
  have hheader := hget id.toNat (by rw [hlen]; exact hlt) hlt
  simpa using hheader

theorem exists_hasHeader_of_load (hload : load s = (.ok f, t))
    (hid : position id + pageSize ≤ s.contents.size) : ∃ h, HasHeader f.store id h := by
  have hcontents := contents_of_load hload
  have hlt : id.toNat < f.pageCount := by
    rw [← (Opened.load hload).indexed.has_iff, Has, hcontents]
    exact hid
  exact ⟨_, mirrors_of_load hload id _ (Array.getElem?_eq_getElem hlt)⟩

theorem Opened.mirrors (hf : f.Opened) : f.Mirrors := by
  rcases hf with _ | hload
  · exact fun id h hid ↦ absurd hid nofun
  · exact mirrors_of_load hload

/-- In a file that was just opened no page is claimed, and ids are given out from the page count
on. -/
theorem Opened.fields (hf : f.Opened) :
    f.claimed = [] ∧ f.freePages = f.headers.countP (·.isFree) ∧
      f.ids.next = .ofNat f.pageCount := by
  have hindexed := hf.indexed
  rcases hf with _ | hload
  · exact ⟨rfl, rfl, rfl⟩
  · have hcontents := contents_of_load hload
    obtain ⟨u, headers, -, -, rfl⟩ := load_eq hload
    refine ⟨rfl, rfl, ?_⟩
    rw [hindexed, hcontents]

/-- A file whose index mirrors its store is opened again with the same index. -/
theorem Mirrors.load (hf : f.Mirrors) (hindexed : f.Indexed) (hle : f.pageCount ≤ UInt32.size) :
    ∃ t, PageFile.load f.store.obliging =
      (.ok { store := t, headers := f.headers, freePages := f.headers.countP (·.isFree)
             ids := ⟨.ofNat f.pageCount⟩ }, t) := by
  have hthere : HaveHeaders f.store 0 (f.store.contents.size / pageSize) f.headers.toList := by
    rw [← hindexed]
    refine List.forall₂_iff_get.2 ⟨List.length_range', fun i hi hi' ↦ ?_⟩
    have hlt : i < f.pageCount := hi'
    have hid : (UInt32.ofNat i).toNat = i :=
      UInt32.toNat_ofNat_of_lt' (Nat.lt_of_lt_of_le hlt hle)
    have hheader : f.header? (.ofNat i) = some (f.headers.toList.get ⟨i, hi'⟩) := by
      rw [header?, hid]
      exact Array.getElem?_eq_getElem hlt
    rw [List.get_eq_getElem, List.getElem_range', Nat.zero_add, Nat.one_mul]
    exact hf _ _ hheader
  obtain ⟨t, ht⟩ := load_of_haveHeaders hthere
  rw [← hindexed] at ht
  exact ⟨t, ht⟩

end PageFile

end PagedStorage
