import PagedStorage.Proofs.PageFile.Opening

/-!
# The index of a file

Besides its store a file keeps a header for each page, the pages that were handed out and not
written since, and a counter of the pages that are free to be handed out. The counter is never
counted anew: a write that skips pages adds to it, a write of a page compares what the page was
with what it is, and handing out takes one away.

## The view of the index

The view of the index is `pageCount` and `header?`, with one equation for each of the two steps
that enter a page, skipping to it (`header?_bridge`) and entering its header
(`header?_updateHeader`). The array of headers and how it is extended are not seen behind these.
A page is on offer, `isOnOffer`, if its header says that it is free and nobody claims it, and the
counter should be the number of pages on offer.

## Why the claims matter for the counter

`PageFile.Accounted` says that the counter is right, and that only pages of the file are claimed.
The latter is needed for the former. A page comes into the file as part of a gap, and it is counted
as free if its id was not given out, so it must not have been claimed before it was there. And when
a page is entered the counter goes down only if the page was on offer, so a claimed page has to be
known as claimed. That the page that is entered was on offer is what keeps the counter from going
below zero, which the program does not check.

Each of the two steps is proved to keep the accounts by what it changes of `isOnOffer`: skipping
puts pages on offer that are not in the index before, and entering changes the one page that is
entered. `countP_add_of_eq_off` counts both.

## What does not matter

The bytes in the store do not matter for this, so it survives a medium that writes in part and
then reports a failure (`steps_or_cutOff`). They matter for the number of pages alone: a write that
is cut off can bring pages into the store that the index does not learn of, so without
`AllOrNothing` there are no more pages in the index than in the store, and with it there are as
many.

The ids matter, because the counter of ids cannot pass the last one: `PageFile.InOrder`, the index
as a user sees it, is what holds while the last id is spared, `SparesLast`.
-/

namespace PagedStorage

theorem countP_add_of_eq_off {α : Type} {l : List α} {a : α} {p q : α → Bool} (hl : l.Nodup)
    (ha : a ∈ l) (h : ∀ x ∈ l, x ≠ a → q x = p x) :
    l.countP q + (p a).toNat = l.countP p + (q a).toNat := by
  induction l with
  | nil => exact absurd ha List.not_mem_nil
  | cons b l ih =>
    rw [List.nodup_cons] at hl
    have hcons (r : α → Bool) : (b :: l).countP r = l.countP r + (r b).toNat := by
      rw [List.countP_cons]
      cases r b <;> rfl
    rw [hcons, hcons]
    -- The member occurs once, so past it the tests agree, and before it they agree on the head.
    rcases List.mem_cons.1 ha with rfl | ha
    · have hrest : l.countP q = l.countP p := by
        refine List.countP_congr fun x hx ↦ ?_
        rw [h x (List.mem_cons_of_mem _ hx) (ne_of_mem_of_not_mem hx hl.1)]
      omega
    · have hb : q b = p b := h b List.mem_cons_self (ne_of_mem_of_not_mem ha hl.1).symm
      have hrest := ih hl.2 ha fun x hx ↦ h x (List.mem_cons_of_mem _ hx)
      rw [hb]
      omega

theorem IdCounter.lt_size_of_next_le {c : IdCounter} (h : c.next ≤ c.allocate.2.next) :
    c.next.toNat + 1 < UInt32.size := by
  have hlt := c.next.toNat_lt
  rw [allocate, UInt32.le_iff_toNat_le, UInt32.toNat_add, UInt32.toNat_one] at h
  rw [UInt32.size]
  omega

namespace PageFile

variable {f g start : PageFile} {id : PageId} {p : Page}

/-! ## Ids of pages -/

/-- The ids of the pages of the file, in order. -/
def indexedIds (f : PageFile) : List PageId := (List.range f.pageCount).map UInt32.ofNat

/-- Whether a page is free to be handed out. -/
def isOnOffer (f : PageFile) (id : PageId) : Bool := (f.header? id).any (f.isAvailable id)

theorem isSome_header?_iff : (f.header? id).isSome ↔ id.toNat < f.pageCount := by
  rw [header?, Option.isSome_iff_ne_none, ne_eq, Array.getElem?_eq_none_iff, Nat.not_le, pageCount]

private theorem header?_eq_none_of_le (h : f.pageCount ≤ id.toNat) : f.header? id = none := by
  rw [header?, Array.getElem?_eq_none_iff]
  exact h

theorem mem_ids_iff {m n : Nat} (h : m + n ≤ UInt32.size) :
    id ∈ (List.range' m n).map UInt32.ofNat ↔ m ≤ id.toNat ∧ id.toNat < m + n := by
  rw [List.mem_map]
  constructor
  · rintro ⟨i, hi, rfl⟩
    rw [List.mem_range'_1] at hi
    rw [UInt32.toNat_ofNat_of_lt' (Nat.lt_of_lt_of_le hi.2 h)]
    exact hi
  · intro hid
    exact ⟨id.toNat, List.mem_range'_1.2 hid, UInt32.ofNat_toNat⟩

@[simp] theorem mem_indexedIds_iff (h : f.pageCount ≤ UInt32.size) :
    id ∈ f.indexedIds ↔ id.toNat < f.pageCount := by
  rw [indexedIds, List.range_eq_range', mem_ids_iff (by omega), Nat.zero_add]
  exact and_iff_right (Nat.zero_le _)

theorem nodup_indexedIds (h : f.pageCount ≤ UInt32.size) : f.indexedIds.Nodup := by
  refine List.nodup_range.map_on fun i hi j hj hij ↦ ?_
  rw [List.mem_range] at hi hj
  rw [← UInt32.toNat_ofNat_of_lt' (Nat.lt_of_lt_of_le hi h), hij,
    UInt32.toNat_ofNat_of_lt' (Nat.lt_of_lt_of_le hj h)]

theorem isOnOffer_eq :
    f.isOnOffer id = ((f.header? id).any (·.isFree) && !f.claimed.contains id) := by
  rw [isOnOffer]
  rcases f.header? id with _ | h
  · rfl
  · rfl

theorem isOnOffer_congr (hheader : g.header? id = f.header? id)
    (hclaimed : id ∈ g.claimed ↔ id ∈ f.claimed) : g.isOnOffer id = f.isOnOffer id := by
  simp only [isOnOffer_eq, hheader, List.contains_eq_mem, hclaimed]

/-! ## Skipping pages -/

@[simp] theorem mem_skippedIds_iff {i : PageId} :
    i ∈ f.skippedIds id ↔ f.pageCount ≤ i.toNat ∧ i < id := by
  rw [UInt32.lt_iff_toNat_lt]
  by_cases h : f.pageCount ≤ id.toNat
  · have hid := id.toNat_lt
    rw [skippedIds, mem_ids_iff (by rw [UInt32.size]; omega), Nat.add_sub_cancel' h]
  · rw [skippedIds, Nat.sub_eq_zero_of_le (Nat.le_of_not_le h)]
    exact iff_of_false List.not_mem_nil (by omega)

private theorem indexedIds_bridge : (f.bridge id).indexedIds = f.indexedIds ++ f.skippedIds id := by
  have hsum : max f.pageCount id.toNat = f.pageCount + (id.toNat - f.pageCount) := by omega
  rw [indexedIds, pageCount_bridge, hsum, List.range_eq_range', ← List.range'_append_1,
    List.map_append, ← List.range_eq_range', Nat.zero_add]
  rfl

theorem header?_bridge {i : PageId} : (f.bridge id).header? i =
    if i.toNat < f.pageCount then f.header? i else if i < id then some (.fresh i) else none := by
  have happend : (f.bridge id).headers =
      f.headers ++ ((f.skippedIds id).map Header.fresh).toArray := rfl
  rw [header?, happend, Array.getElem?_append, header?]
  refine ite_congr rfl (fun _ ↦ rfl) fun hout ↦ ?_
  have hle : f.headers.size ≤ i.toNat := Nat.le_of_not_lt hout
  rw [List.getElem?_toArray, List.getElem?_map, skippedIds, List.getElem?_map, pageCount]
  -- Behind the old headers lie those of the skipped pages, in order.
  by_cases hlt : i < id
  · have hlt' := UInt32.lt_iff_toNat_lt.1 hlt
    rw [List.getElem?_range' (by omega), if_pos hlt, Nat.one_mul, Nat.add_sub_cancel' hle]
    simp
  · have hge := Nat.not_lt.1 (UInt32.lt_iff_toNat_lt.not.1 hlt)
    rw [if_neg hlt, List.getElem?_eq_none (by rw [List.length_range']; omega)]
    rfl

/-- The pages that were skipped and whose ids were given out before are claimed. -/
@[simp] theorem mem_claimed_bridge {i : PageId} : i ∈ (f.bridge id).claimed ↔
    (f.pageCount ≤ i.toNat ∧ i < id ∧ i < f.ids.next) ∨ i ∈ f.claimed := by
  have hclaimed : (f.bridge id).claimed =
      ((f.skippedIds id).partition (· < f.ids.next)).1 ++ f.claimed := rfl
  rw [hclaimed, List.mem_append, List.partition_eq_filter_filter, List.mem_filter,
    mem_skippedIds_iff, decide_eq_true_eq, and_assoc]

/-! ## Entering a page -/

theorem header?_updateHeader {h : Header} {i : PageId} (hpage : h.page.toNat ≤ f.pageCount) :
    (f.updateHeader h).header? i = if i = h.page then some h else f.header? i := by
  have hheaders : (f.updateHeader h).headers = if h.page.toNat < f.headers.size then
      f.headers.setIfInBounds h.page.toNat h else f.headers.push h := rfl
  rw [pageCount] at hpage
  rw [header?, hheaders, header?]
  split
  next hin =>
    rw [Array.getElem?_setIfInBounds, if_pos hin]
    exact if_congr (eq_comm.trans UInt32.toNat_inj) rfl rfl
  next hout =>
    rw [Array.getElem?_push, ← Nat.le_antisymm hpage (Nat.le_of_not_lt hout)]
    exact if_congr UInt32.toNat_inj rfl rfl

@[simp] theorem mem_claimed_updateHeader {h : Header} {i : PageId} :
    i ∈ (f.updateHeader h).claimed ↔ i ∈ f.claimed ∧ i ≠ h.page := by
  have hclaimed : (f.updateHeader h).claimed = f.claimed.filter (· != h.page) := rfl
  rw [hclaimed, List.mem_filter, bne_iff_ne]

/-- The index after a page was entered: the page, the pages that were there, and new ones between
them. -/
theorem header?_entered {h : Header} {i : PageId} : (f.entered h).header? i =
    if i = h.page then some h else if i.toNat < f.pageCount then f.header? i
      else if i < h.page then some (.fresh i) else none := by
  have hle : h.page.toNat ≤ (f.bridge h.page).pageCount := by
    rw [pageCount_bridge]
    exact Nat.le_max_right _ _
  have hupdate : (f.entered h).header? i = ((f.bridge h.page).updateHeader h).header? i := rfl
  rw [hupdate, header?_updateHeader hle, header?_bridge]

@[simp] theorem mem_claimed_entered {h : Header} {i : PageId} : i ∈ (f.entered h).claimed ↔
    ((f.pageCount ≤ i.toNat ∧ i < h.page ∧ i < f.ids.next) ∨ i ∈ f.claimed) ∧ i ≠ h.page := by
  have hupdate : (f.entered h).claimed = ((f.bridge h.page).updateHeader h).claimed := rfl
  rw [hupdate, mem_claimed_updateHeader, mem_claimed_bridge]

/-! ## The counter of free pages -/

/-- Only pages of the file are claimed, and the counter is the number of pages on offer. -/
structure Accounted (f : PageFile) : Prop where
  header_page : ∀ id h, f.header? id = some h → h.page = id
  pageCount_le : f.pageCount ≤ UInt32.size
  claimed_lt : ∀ id ∈ f.claimed, id.toNat < f.pageCount
  freePages_eq : f.freePages = f.indexedIds.countP f.isOnOffer

theorem isOnOffer_eq_false_of_le (h : f.pageCount ≤ id.toNat) : f.isOnOffer id = false := by
  rw [isOnOffer, header?_eq_none_of_le h, Option.any_none]

theorem Accounted.congr (hf : f.Accounted) (hheaders : g.headers = f.headers)
    (hclaimed : g.claimed = f.claimed) (hfree : g.freePages = f.freePages) : g.Accounted := by
  obtain ⟨store, headers, claimed, freePages, ids⟩ := g
  dsimp only at hheaders hclaimed hfree
  subst hheaders hclaimed hfree
  exact ⟨hf.header_page, hf.pageCount_le, hf.claimed_lt, hf.freePages_eq⟩

theorem Accounted.freePages_pos (hf : f.Accounted) (h : f.isOnOffer id) : 0 < f.freePages := by
  have hlt : id.toNat < f.pageCount := by
    by_contra hle
    rw [isOnOffer_eq_false_of_le (Nat.not_lt.1 hle)] at h
    exact Bool.false_ne_true h
  rw [hf.freePages_eq, List.countP_pos_iff]
  exact ⟨id, (mem_indexedIds_iff hf.pageCount_le).2 hlt, h⟩

private theorem isOnOffer_bridge_of_lt {i : PageId} (hi : i.toNat < f.pageCount) (id : PageId) :
    (f.bridge id).isOnOffer i = f.isOnOffer i := by
  refine isOnOffer_congr (header?_bridge.trans (if_pos hi)) ?_
  rw [mem_claimed_bridge]
  exact or_iff_right fun h ↦ Nat.not_le.2 hi h.1

private theorem Accounted.isOnOffer_bridge {i : PageId} (hf : f.Accounted)
    (hi : i ∈ f.skippedIds id) : (f.bridge id).isOnOffer i = !decide (i < f.ids.next) := by
  obtain ⟨hle, hlt⟩ := mem_skippedIds_iff.1 hi
  have hclaimed : i ∈ (f.bridge id).claimed ↔ i < f.ids.next := by
    rw [mem_claimed_bridge]
    constructor
    · rintro (⟨-, -, hnext⟩ | hold)
      · exact hnext
      · exact absurd (hf.claimed_lt i hold) (Nat.not_lt.2 hle)
    · exact fun hnext ↦ .inl ⟨hle, hlt, hnext⟩
  rw [isOnOffer_eq, header?_bridge, if_neg (Nat.not_lt.2 hle), if_pos hlt,
    List.contains_eq_mem, decide_eq_decide.2 hclaimed]
  rfl

theorem Accounted.bridge (hf : f.Accounted) (id : PageId) : (f.bridge id).Accounted := by
  have hid := id.toNat_lt
  constructor
  · intro i h hi
    rw [header?_bridge] at hi
    split at hi
    next => exact hf.header_page i h hi
    next =>
      rw [Option.ite_none_right_eq_some] at hi
      rw [← Option.some.inj hi.2]
      rfl
  · have hle := hf.pageCount_le
    rw [pageCount_bridge]
    rw [UInt32.size] at hle ⊢
    omega
  · intro i hi
    rw [pageCount_bridge]
    rcases mem_claimed_bridge.1 hi with ⟨-, hlt, -⟩ | hi
    · exact Nat.lt_of_lt_of_le (UInt32.lt_iff_toNat_lt.1 hlt) (Nat.le_max_right _ _)
    · exact Nat.lt_of_lt_of_le (hf.claimed_lt i hi) (Nat.le_max_left _ _)
  · have hfree : (f.bridge id).freePages =
        f.freePages + ((f.skippedIds id).partition (· < f.ids.next)).2.length := rfl
    rw [hfree, hf.freePages_eq, indexedIds_bridge, List.countP_append,
      List.partition_eq_filter_filter, ← List.countP_eq_length_filter]
    congr 1
    · refine List.countP_congr fun i hi ↦ ?_
      rw [isOnOffer_bridge_of_lt ((mem_indexedIds_iff hf.pageCount_le).1 hi)]
    · refine List.countP_congr fun i hi ↦ ?_
      rw [hf.isOnOffer_bridge hi]
      rfl

/-- Entering the header of a page changes whether this page is on offer, and nothing else. -/
theorem isOnOffer_updateHeader {h : Header} {i : PageId} (hpage : h.page.toNat ≤ f.pageCount) :
    (f.updateHeader h).isOnOffer i = if i = h.page then h.isFree else f.isOnOffer i := by
  by_cases hi : i = h.page
  · have hclaimed : i ∉ (f.updateHeader h).claimed := fun hmem ↦
      (mem_claimed_updateHeader.1 hmem).2 hi
    rw [isOnOffer_eq, header?_updateHeader hpage, if_pos hi, if_pos hi]
    simp [hclaimed]
  · rw [if_neg hi]
    exact isOnOffer_congr ((header?_updateHeader hpage).trans (if_neg hi))
      (mem_claimed_updateHeader.trans (and_iff_left hi))

/-- A page leaves the pages on offer if it was one of them, and joins them if it is free now. -/
theorem countP_updateHeader {h : Header} (hf : f.pageCount ≤ UInt32.size)
    (hpage : h.page.toNat ≤ f.pageCount) :
    (f.updateHeader h).indexedIds.countP (f.updateHeader h).isOnOffer +
        (f.isOnOffer h.page).toNat =
      f.indexedIds.countP f.isOnOffer + h.isFree.toNat := by
  have hself : (f.updateHeader h).isOnOffer h.page = h.isFree := by
    rw [isOnOffer_updateHeader hpage, if_pos rfl]
  have hothers (i : PageId) (hi : i ≠ h.page) :
      (f.updateHeader h).isOnOffer i = f.isOnOffer i := by
    rw [isOnOffer_updateHeader hpage, if_neg hi]
  rw [← hself]
  -- A page of the file changes what it counts for; a page behind the last one is a new id.
  by_cases hlt : h.page.toNat < f.pageCount
  · have hids : (f.updateHeader h).indexedIds = f.indexedIds := by
      rw [indexedIds, pageCount_updateHeader, if_pos hlt, indexedIds]
    rw [hids]
    exact countP_add_of_eq_off (nodup_indexedIds hf) ((mem_indexedIds_iff hf).2 hlt)
      fun i _ hi ↦ hothers i hi
  · have hlast : f.pageCount = h.page.toNat := Nat.le_antisymm (Nat.le_of_not_lt hlt) hpage
    have hids : (f.updateHeader h).indexedIds = f.indexedIds ++ [h.page] := by
      rw [indexedIds, pageCount_updateHeader, if_neg hlt, List.range_succ, List.map_append,
        indexedIds, List.map_singleton, hlast, UInt32.ofNat_toNat]
    have hold : f.indexedIds.countP (f.updateHeader h).isOnOffer =
        f.indexedIds.countP f.isOnOffer := by
      refine List.countP_congr fun i hi ↦ ?_
      have hi := (mem_indexedIds_iff hf).1 hi
      rw [hothers i (by rintro rfl; exact hlt hi)]
    rw [hids, List.countP_append, hold, isOnOffer_eq_false_of_le (Nat.le_of_not_lt hlt),
      List.countP_singleton]
    rcases (f.updateHeader h).isOnOffer h.page with _ | _ <;> rfl

private theorem Accounted.updateHeader (hf : f.Accounted) {h : Header}
    (hpage : h.page.toNat ≤ f.pageCount) : (f.updateHeader h).Accounted := by
  have hcount : (f.updateHeader h).pageCount = max f.pageCount (h.page.toNat + 1) := by
    rw [pageCount_updateHeader]
    split <;> omega
  have hid := h.page.toNat_lt
  have hle := hf.pageCount_le
  constructor
  · intro i k hi
    rw [header?_updateHeader hpage] at hi
    split at hi
    next heq =>
      rw [← Option.some.inj hi, heq]
    next => exact hf.header_page i k hi
  · rw [hcount]
    rw [UInt32.size] at hle ⊢
    omega
  · intro i hi
    rw [hcount]
    exact Nat.lt_of_lt_of_le (hf.claimed_lt i (mem_claimed_updateHeader.1 hi).1)
      (Nat.le_max_left _ _)
  · have hfree : (f.updateHeader h).freePages = if h.isFree
        then (if f.isOnOffer h.page then f.freePages - 1 else f.freePages) + 1
        else if f.isOnOffer h.page then f.freePages - 1 else f.freePages := rfl
    have hsum := countP_updateHeader hle hpage
    rw [← hf.freePages_eq] at hsum
    rw [hfree]
    -- The counter is not zero when a page on offer is taken out of it.
    have hpos : f.isOnOffer h.page → 0 < f.freePages := hf.freePages_pos
    rcases hbefore : f.isOnOffer h.page with _ | _ <;> rcases hafter : h.isFree with _ | _ <;>
      simp only [hbefore, hafter, Bool.toNat_true, Bool.toNat_false, if_true, if_false,
        Bool.false_eq_true, true_implies] at hsum hpos ⊢ <;> omega

private theorem Accounted.entered (hf : f.Accounted) (h : Header) : (f.entered h).Accounted := by
  have hgap := (hf.bridge h.page).updateHeader (h := h) (by
    rw [pageCount_bridge]
    exact Nat.le_max_right _ _)
  exact hgap.congr rfl rfl rfl

/-! ## Handing out pages -/

theorem isOnOffer_of_firstAvailable? (h : f.firstAvailable? = some id) :
    id ∈ f.indexedIds ∧ f.isOnOffer id :=
  ⟨List.mem_of_find?_eq_some h, List.find?_some h⟩

private theorem Accounted.exists_firstAvailable? (hf : f.Accounted) (hfree : f.freePages ≠ 0) :
    ∃ id, f.firstAvailable? = some id := by
  rw [hf.freePages_eq] at hfree
  obtain ⟨id, hid, hoffer⟩ := List.countP_pos_iff.1 (Nat.pos_of_ne_zero hfree)
  rw [← Option.isSome_iff_exists, firstAvailable?, List.find?_isSome]
  exact ⟨id, hid, hoffer⟩

/-- The page that is claimed is one page less on offer. -/
theorem Accounted.claim (hf : f.Accounted) (hid : f.firstAvailable? = some id) :
    ({ f with claimed := id :: f.claimed, freePages := f.freePages - 1 } : PageFile).Accounted := by
  obtain ⟨hmem, hoffer⟩ := isOnOffer_of_firstAvailable? hid
  have hlt := (mem_indexedIds_iff hf.pageCount_le).1 hmem
  refine ⟨hf.header_page, hf.pageCount_le, List.forall_mem_cons.2 ⟨hlt, hf.claimed_lt⟩, ?_⟩
  have hself : ({ f with claimed := id :: f.claimed, freePages := f.freePages - 1 } :
      PageFile).isOnOffer id = false := by
    rw [isOnOffer_eq]
    simp
  have hsum := countP_add_of_eq_off (p := f.isOnOffer)
    (q := ({ f with claimed := id :: f.claimed, freePages := f.freePages - 1 } :
      PageFile).isOnOffer) (nodup_indexedIds hf.pageCount_le) hmem fun i _ hne ↦
        isOnOffer_congr rfl (List.mem_cons.trans (or_iff_right hne))
  rw [hself, hoffer, ← hf.freePages_eq] at hsum
  exact Nat.sub_eq_of_eq_add hsum.symm

/-! ## Steps -/

theorem Steps.accounted {c : FileCall} {r : Except Error (Option Page)} (h : f.Steps c r g)
    (hf : f.Accounted) : g.Accounted := by
  rcases h with hbytes | ⟨-, hbytes⟩ | hbytes | ⟨hc, hwrite⟩ | hc | ⟨-, hid, -, -⟩
  case writes =>
    have hstore : ({ f with store := g.store } : PageFile).Accounted := hf.congr rfl rfl rfl
    rw [eq_of_writePage_ok hwrite]
    exact hstore.entered _
  case reuses => exact (hf.claim hid).congr rfl rfl rfl
  all_goals exact hf.congr rfl rfl rfl

/-- A counter that does not start again stays ahead of the pages. -/
theorem Steps.covers {c : FileCall} {r : Except Error (Option Page)} (h : f.Steps c r g)
    (hnext : f.ids.next ≤ g.ids.next) (hf : f.ids.Covers f.pageCount) :
    g.ids.Covers g.pageCount := by
  rcases h with hbytes | ⟨-, hbytes⟩ | hbytes | ⟨hc, hwrite⟩ | hc | ⟨-, hid, -, -⟩
  case writes page =>
    rw [pageCount_of_writePage_ok hwrite, eq_of_writePage_ok hwrite]
    rcases Nat.le_total f.pageCount (page.id.toNat + 1) with hle | hle
    · rw [Nat.max_eq_right hle]
      exact f.ids.covers_advancePast page.id
    · rw [Nat.max_eq_left hle]
      exact hf.advancePast page.id
  case allocates =>
    exact hf.allocate (IdCounter.lt_size_of_next_le hnext)
  all_goals exact hf

theorem Steps.next_le {c : FileCall} {r : Except Error (Option Page)} (h : f.Steps c r g)
    (hr : ∀ page, r = .ok (some page) → page.id.toNat + 1 < UInt32.size) :
    f.ids.next ≤ g.ids.next := by
  rw [UInt32.le_iff_toNat_le]
  rcases h with hbytes | ⟨-, hbytes⟩ | hbytes | ⟨hc, hwrite⟩ | hc | ⟨-, hid, -, -⟩
  case writes page =>
    rw [eq_of_writePage_ok hwrite]
    exact f.ids.next_le_next_advancePast page.id
  case allocates =>
    have hnext := IdCounter.toNat_next_allocate (hr f.allocate.1 rfl)
    exact Nat.le_of_lt (Nat.lt_of_lt_of_eq (Nat.lt_succ_self _) hnext.symm)
  all_goals exact Nat.le_refl _

/-- There are no more pages in the index than in the store. -/
theorem Steps.pageCount_le {c : FileCall} {r : Except Error (Option Page)} (h : f.Steps c r g)
    (hf : f.pageCount ≤ f.store.contents.size / pageSize) :
    g.pageCount ≤ g.store.contents.size / pageSize := by
  rcases h.writes_or_sameBytes with ⟨page, -, -, hwrite⟩ | ⟨hbytes, hheaders⟩
  · rw [pageCount_of_writePage_ok hwrite, size_of_writePage_ok hwrite]
    unfold pageSize at *
    omega
  · rw [pageCount, hheaders, hbytes.contents_eq]
    exact hf

/-! ## Opening -/

private theorem map_header?_indexedIds (h : f.pageCount ≤ UInt32.size) :
    f.indexedIds.map f.header? = f.headers.toList.map some := by
  rw [indexedIds, List.map_map]
  refine List.ext_getElem (by simp [pageCount]) fun i hi _ ↦ ?_
  have hlt : i < f.pageCount := by simpa using hi
  have hid : (UInt32.ofNat i).toNat = i := UInt32.toNat_ofNat_of_lt' (Nat.lt_of_lt_of_le hlt h)
  rw [List.getElem_map, List.getElem_range, Function.comp_apply, header?, hid, List.getElem_map,
    Array.getElem_toList]
  exact Array.getElem?_eq_getElem hlt

theorem freePageIds_eq (f : PageFile) :
    f.freePageIds = f.indexedIds.filter fun id ↦ (f.header? id).any (·.isFree) := rfl

theorem length_freePageIds (h : f.pageCount ≤ UInt32.size) :
    f.freePageIds.length = f.headers.countP (·.isFree) := by
  have hcount : f.freePageIds.length =
      (f.indexedIds.map f.header?).countP (·.any (·.isFree)) := by
    rw [freePageIds_eq, ← List.countP_eq_length_filter, List.countP_map]
    rfl
  rw [hcount, map_header?_indexedIds h, List.countP_map, Array.countP_toList.symm]
  rfl

theorem countP_isOnOffer (f : PageFile) :
    f.indexedIds.countP f.isOnOffer = f.freePageIds.countP fun id ↦ !f.claimed.contains id := by
  rw [freePageIds_eq, List.countP_filter]
  refine List.countP_congr fun id _ ↦ ?_
  rw [isOnOffer_eq, Bool.and_comm]

theorem Opened.accounted (hf : f.Opened) (hle : f.pageCount ≤ UInt32.size) : f.Accounted := by
  obtain ⟨hclaimed, hfree, -⟩ := hf.fields
  refine ⟨fun id h hid ↦ (hf.mirrors id h hid).page_eq, hle, fun id hid ↦ ?_, ?_⟩
  · rw [hclaimed] at hid
    exact absurd hid List.not_mem_nil
  · have hall : ∀ id ∈ f.freePageIds, (!f.claimed.contains id) = true := by
      intro id _
      rw [hclaimed]
      rfl
    rw [hfree, countP_isOnOffer, List.countP_eq_length.2 hall, length_freePageIds hle]

theorem Opened.covers (hf : f.Opened) (hlt : f.pageCount < UInt32.size) :
    f.ids.Covers f.pageCount := by
  obtain ⟨-, -, hnext⟩ := hf.fields
  exact .inl (Nat.le_of_eq (by rw [hnext, UInt32.toNat_ofNat_of_lt' hlt]))

/-- The counter of free pages is right after every run. -/
theorem Reached.accounted {allows : PageFile → FileCall → Prop} (hstart : start.Opened)
    (hle : start.pageCount ≤ UInt32.size) (hf : Reached allows start f) : f.Accounted :=
  hf.induct_of_cutOff (fun _ _ _ hsteps ↦ hsteps.accounted)
    (fun _ _ _ haccounted ↦ haccounted.congr rfl rfl rfl) (hstart.accounted hle)

/-! ## The index of a file in use -/

/-- The last id is neither written nor answered. -/
structure SparesLast (f : PageFile) (c : FileCall) : Prop where
  of_written : ∀ page, c.written? = some page → page.id.toNat + 1 < UInt32.size
  of_answered : ∀ page, (f.call c).1 = .ok (some page) → page.id.toNat + 1 < UInt32.size

/-- What is in the index, and what the counter of free pages counts. -/
structure InOrder (f : PageFile) : Prop where
  isSome_header?_iff : ∀ id, (f.header? id).isSome ↔ id.toNat < f.pageCount
  header_page : ∀ id h, f.header? id = some h → h.page = id
  lt_next : ∀ id, id.toNat < f.pageCount → id < f.ids.next
  claimed_lt : ∀ id ∈ f.claimed, id.toNat < f.pageCount
  freePages_eq : f.freePages = f.freePageIds.countP fun id ↦ !f.claimed.contains id
  /-- The counter is not zero where a page that is entered is taken off it. -/
  freePages_pos : ∀ id g, f.trackGap id = .ok g → g.isOnOffer id → 0 < g.freePages
  /-- There is a page to hand out if the counter is not zero. -/
  no_violation : ∀ v, f.freeOrAllocate.1 ≠ .error (.violation v)

private theorem Accounted.no_violation (hf : f.Accounted) (v : Violation) :
    f.freeOrAllocate.1 ≠ .error (.violation v) := by
  rw [freeOrAllocate]
  split
  next => exact error_ne_ok.symm
  next hfree =>
    obtain ⟨id, hid⟩ := hf.exists_firstAvailable? hfree
    rcases hread : f.readPage id with ⟨r, g⟩
    simp only [hid, hread]
    rcases r with e | page
    · intro hviolation
      have hkind := readPage_failsWith hread e rfl
      rwa [Except.error.inj hviolation] at hkind
    · exact error_ne_ok.symm

private theorem Accounted.inOrder (hf : f.Accounted) (hlt : f.pageCount < UInt32.size)
    (hnext : f.ids.Covers f.pageCount) : f.InOrder where
  isSome_header?_iff _ := isSome_header?_iff
  header_page := hf.header_page
  lt_next id hid := by
    rw [UInt32.lt_iff_toNat_lt]
    rcases hnext with hle | hlast
    · exact Nat.lt_of_lt_of_le hid hle
    · omega
  claimed_lt := hf.claimed_lt
  freePages_eq := hf.freePages_eq.trans f.countP_isOnOffer
  freePages_pos id g hgap := by
    rw [trackGap_eq, if_pos hlt] at hgap
    cases hgap
    exact (hf.bridge id).freePages_pos
  no_violation := hf.no_violation

theorem Steps.pageCount_lt {c : FileCall} {r : Except Error (Option Page)} (h : f.Steps c r g)
    (hwritten : ∀ page, c.written? = some page → page.id.toNat + 1 < UInt32.size)
    (hlt : f.pageCount < UInt32.size) : g.pageCount < UInt32.size := by
  rcases h.writes_or_sameBytes with ⟨page, hpage, -, hwrite⟩ | ⟨-, hheaders⟩
  · rw [pageCount_of_writePage_ok hwrite]
    exact Nat.max_lt.2 ⟨hlt, hwritten page hpage⟩
  · rwa [pageCount, hheaders]

/-- The index of a file is in order after every run that spares the last id, whatever the medium
refuses. Its pages are those in the store, if no write was cut off, and are in the store in any
case. -/
theorem Reached.indexInOrder (hstart : start.Opened) (hcount : start.pageCount < UInt32.size)
    (hf : Reached SparesLast start f) : f.InOrder ∧
      f.pageCount ≤ f.store.contents.size / pageSize ∧
      (Reached AllOrNothing start f → f.pageCount = f.store.contents.size / pageSize) := by
  have haccounted := hf.accounted hstart (Nat.le_of_lt hcount)
  have hkeeps : f.pageCount < UInt32.size ∧ f.ids.Covers f.pageCount ∧
      f.pageCount ≤ f.store.contents.size / pageSize := by
    refine Reached.induct_of_cutOff (P := fun f ↦ f.pageCount < UInt32.size ∧
      f.ids.Covers f.pageCount ∧ f.pageCount ≤ f.store.contents.size / pageSize) ?_ ?_ ?_ hf
    · rintro f c hc hsteps ⟨hlt, hnext, hle⟩
      exact ⟨hsteps.pageCount_lt hc.of_written hlt,
        hsteps.covers (hsteps.next_le hc.of_answered) hnext, hsteps.pageCount_le hle⟩
    · rintro f store hsize ⟨hlt, hnext, hle⟩
      exact ⟨hlt, hnext, Nat.le_trans hle (Nat.div_le_div_right hsize)⟩
    · exact ⟨hcount, hstart.covers hcount, Nat.le_of_eq hstart.indexed⟩
  obtain ⟨hlt, hnext, hle⟩ := hkeeps
  exact ⟨haccounted.inOrder hlt hnext, hle, fun hwhole ↦ hwhole.indexed hstart⟩

/-- A page is handed out, and before it is written another one is written that lies further out.
The first one is claimed from then on, the page between them is free. -/
theorem Reached.indexInOrder_gap :
    let f := ((empty.call .allocate).2.call (.write (.fresh 2))).2
    f.InOrder ∧ f.pageCount = f.store.contents.size / pageSize ∧ f.pageCount = 3 ∧
      f.claimed = [0] ∧ f.freePages = 2 := by
  intro f
  have hallocate : empty.SparesLast .allocate := by
    refine ⟨nofun, fun page hpage ↦ ?_⟩
    rw [← Option.some.inj (Except.ok.inj hpage)]
    decide
  have hwrite : (empty.call .allocate).2.SparesLast (.write (.fresh 2)) := by
    refine ⟨fun page hpage ↦ ?_, nofun⟩
    rw [← Option.some.inj hpage]
    decide
  have hf : Reached SparesLast empty f := .call _ (.call _ .start hallocate) hwrite
  have hwhole : Reached AllOrNothing empty f :=
    .call _ (.call _ .start (allOrNothing_of_memory rfl)) (allOrNothing_of_memory rfl)
  obtain ⟨horder, -, hcount⟩ := indexInOrder .empty (by decide) hf
  exact ⟨horder, hcount hwhole, rfl, rfl, rfl⟩

/-- A page that is cut off is not indexed, also if the page in front of it has come into the store
in this way. -/
theorem cutOffWrite_unindexed :
    let f := (shortFile.call (.write (.fresh 1))).2
    shortFile.Opened ∧ Reached SparesLast shortFile f ∧ f.pageCount = 0 ∧
      f.store.contents.size / pageSize = 1 := by
  rcases hwrite : shortFile.writePage (.fresh 1) with ⟨r, g⟩
  obtain ⟨rfl, hg, hsize, -⟩ := shortFile_writePage rfl hwrite
  have hspares : shortFile.SparesLast (.write (.fresh 1)) := by
    refine ⟨?_, fun page hpage ↦ ?_⟩
    · rintro page ⟨⟩
      decide
    · rw [call, hwrite] at hpage
      cases hpage
  refine ⟨opened_shortFile, .call _ .start hspares, ?_, ?_⟩
  · rw [call, hwrite, hg]
    rfl
  · rw [call, hwrite, hsize]
    decide

end PageFile

end PagedStorage
