import PagedStorage.Proofs.Heap.Calls

/-!
# A heap as a map of records

What a heap stores is a finite map from record addresses to byte strings, `Heap.record?`, spread
over the pages of the heap. Storing, reading, deleting and listing records are updating, reading,
erasing and listing in this map, and a call that fails leaves it as it was,
`Heap.ActsAsRecordMap`. This is so in every run, whoever else uses the pool meanwhile, whichever
pages the policy gives up and whatever calls the medium refuses.

## The pages of a heap

The map is a function of the contents of the heap's pages. So all that is asked of others is that
they leave these contents alone, and most of the argument is that every call of the heap is an
errand that touches one page at most.

`Heap.Kept` is what the heap keeps of its pages: none of them twice, all changes told of, and on
each page records and no part of a chain. The pages are tidy, so edits on them are safe and the map
of a page changes as that of `Page` does. A new page has a new id, so it is none of them.

## Runs with others

In a run others make calls that use no id twice, and may change any page that is not one of the
heap. They may pin and flush the pages of the heap as well, but neither delete nor change them. So
the contents of the heap's pages are spared by each of their steps (`Kept.of_spares`), and the map
stays.
-/

namespace PagedStorage.Heap

open Pool

variable {ρ : Type} {p q : Pool ρ} {h h' : Heap} {id : PageId} {rid : RecordId}
  {page page' : Page}

/-! ## The map -/

/-- The record under an address, if it is stored on a page of the heap. -/
def record? (h : Heap) (p : Pool ρ) (rid : RecordId) : Option (List UInt8) :=
  if rid.page ∈ h.pages then
    match p.content rid.page with
    | .ok page => page.liveRecord? rid.slot
    | .error _ => none
  else none

theorem record?_of_mem (hid : rid.page ∈ h.pages) (hpage : p.content rid.page = .ok page) :
    h.record? p rid = page.liveRecord? rid.slot := by
  rw [record?, if_pos hid, hpage]

theorem record?_of_notMem (hid : rid.page ∉ h.pages) : h.record? p rid = none := if_neg hid

private theorem record?_congr (hsame : ∀ id ∈ h.pages, q.content id = p.content id) :
    h.record? q = h.record? p := by
  funext rid
  by_cases hid : rid.page ∈ h.pages
  · rw [record?, record?, if_pos hid, if_pos hid, hsame _ hid]
  · rw [record?_of_notMem hid, record?_of_notMem hid]

/-- The pages of a heap as the heap keeps them: none of them twice, all changes told of, and on
each page records and no part of an overflow chain. -/
structure Kept (h : Heap) (p : Pool ρ) : Prop where
  nodup : h.pages.Nodup
  faithfulAt : ∀ id ∈ h.pages, p.FaithfulAt ∅ id
  sheet : ∀ id ∈ h.pages, ∃ page, p.content id = .ok page ∧ page.Tidy ∧ page.isOverflow = false

theorem kept_nil : (Heap.mk []).Kept p :=
  ⟨List.nodup_nil, fun _ hid ↦ absurd hid List.not_mem_nil,
    fun _ hid ↦ absurd hid List.not_mem_nil⟩

theorem Kept.holds (hk : h.Kept p) (hid : id ∈ h.pages) : p.Holds id := by
  obtain ⟨page, hpage, -⟩ := hk.sheet id hid
  exact holds_of_content hpage

theorem Kept.tidy (hk : h.Kept p) (hid : id ∈ h.pages) :
    p.FaithfulAt ∅ id ∧ ∃ page, p.content id = .ok page ∧ page.Tidy := by
  obtain ⟨page, hpage, htidy, -⟩ := hk.sheet id hid
  exact ⟨hk.faithfulAt id hid, page, hpage, htidy⟩

theorem Kept.page_id (hk : h.Kept p) (hp : p.Sound) (hid : id ∈ h.pages)
    (hpage : p.content id = .ok page) : page.id = id :=
  ((hk.faithfulAt id hid).readable hp hpage).2

/-- Whoever spares the pages of a heap leaves its records as they are. -/
theorem Kept.of_spares (hk : h.Kept p) (hs : ∀ id ∈ h.pages, p.Spares q ∅ id) :
    h.Kept q ∧ h.record? q = h.record? p := by
  have hsame (id : PageId) (hid : id ∈ h.pages) : q.content id = p.content id :=
    (hs id hid).content_eq (hk.holds hid)
  refine ⟨⟨hk.nodup, fun id hid ↦ (hs id hid).toFaithfulAt, fun id hid ↦ ?_⟩,
    record?_congr hsame⟩
  rw [hsame id hid]
  exact hk.sheet id hid

theorem Grows.record?_eq (hg : h.Grows p id page h') (hk : h.Kept p) (hid : rid.page = id) :
    h.record? p rid = page.liveRecord? rid.slot := by
  cases hg with
  | same _ hmem hpage => exact record?_of_mem (hid ▸ hmem) (hid ▸ hpage)
  | added _ _ _ hnot hfresh =>
    rw [hfresh, record?_of_notMem fun hmem ↦ hnot (hid ▸ hk.holds hmem)]
    rfl

theorem Grows.mem_iff (hg : h.Grows p id page h') {i : PageId} :
    i ∈ h'.pages ↔ i = id ∨ i ∈ h.pages := by
  cases hg with
  | same heq hmem =>
    rw [heq]
    exact ⟨.inr, fun hi ↦ hi.elim (fun heq ↦ heq ▸ hmem) fun hi ↦ hi⟩
  | added hpages =>
    rw [hpages, List.mem_append, List.mem_singleton, or_comm]

private theorem Grows.isPrefix (hg : h.Grows p id page h') : h.pages <+: h'.pages := by
  cases hg with
  | same heq => rw [heq]
  | added hpages => exact ⟨[id], hpages.symm⟩

variable [Replacer ρ]

theorem Kept.of_errand {touched : Set PageId} {held : List PageId} (hk : h.Kept p) (hp : p.Sound)
    (herrand : p.Errand touched held ∅ q) (hnot : ∀ id ∈ h.pages, id ∉ touched) :
    h.Kept q ∧ h.record? q = h.record? p :=
  hk.of_spares fun id hid ↦ herrand.spares hp (hk.faithfulAt id hid) (hnot id hid)

/-! ## Changing one page -/

/-- If one page of a heap is changed, a new one perhaps, the records on it are what changes. -/
theorem Kept.of_change (hk : h.Kept p) (hp : p.Sound) (hg : h.Grows p id page h')
    (hplain : page'.isOverflow = page.isOverflow) (htidy : page'.Tidy)
    (herrand : p.Errand {id} [] ∅ q) (hcontent : q.content id = .ok page') :
    h'.Kept q ∧ ∀ rid, h'.record? q rid =
      if rid.page = id then page'.liveRecord? rid.slot else h.record? p rid := by
  have hothers (i : PageId) (hi : i ∈ h.pages) (hne : i ≠ id) : p.Spares q ∅ i :=
    herrand.spares hp (hk.faithfulAt i hi) hne
  have hsame (i : PageId) (hi : i ∈ h.pages) (hne : i ≠ id) : q.content i = p.content i :=
    (hothers i hi hne).content_eq (hk.holds hi)
  -- The heap either knew the page already or takes it up now; both ways it stays a plain one.
  have hself : p.FaithfulAt ∅ id ∧ page.isOverflow = false ∧ h'.pages.Nodup := by
    cases hg with
    | same heq hmem hpage =>
      obtain ⟨old, hold, -, hflag⟩ := hk.sheet id hmem
      obtain rfl := Except.ok.inj (hold.symm.trans hpage)
      exact ⟨hk.faithfulAt id hmem, hflag, heq ▸ hk.nodup⟩
    | added hpages _ _ hnot hfresh =>
      have hnew : id ∉ h.pages := fun hmem ↦ hnot (hk.holds hmem)
      refine ⟨faithfulAt_of_absent (find?_of_not_holds hp.toSteady hnot), hfresh ▸ rfl, ?_⟩
      rw [hpages]
      exact hk.nodup.append (List.nodup_singleton id)
        (List.disjoint_singleton.2 hnew)
  obtain ⟨hid, hflag, hnodup⟩ := hself
  refine ⟨⟨hnodup, fun i hi ↦ ?_, fun i hi ↦ ?_⟩, fun rid ↦ ?_⟩
  · by_cases hne : i = id
    · subst hne
      exact herrand.faithfulAt_over hp hid
    · exact (hothers i ((hg.mem_iff.1 hi).resolve_left hne) hne).toFaithfulAt
  · by_cases hne : i = id
    · subst hne
      exact ⟨page', hcontent, htidy, hplain.trans hflag⟩
    · have hi := (hg.mem_iff.1 hi).resolve_left hne
      rw [hsame i hi hne]
      exact hk.sheet i hi
  · by_cases hne : rid.page = id
    · rw [if_pos hne]
      exact record?_of_mem (hg.mem_iff.2 (.inl hne)) (hne ▸ hcontent)
    · rw [if_neg hne]
      by_cases hmem : rid.page ∈ h.pages
      · obtain ⟨old, hold, -⟩ := hk.sheet _ hmem
        rw [record?_of_mem hmem hold, record?_of_mem (hg.mem_iff.2 (.inr hmem))
          ((hsame _ hmem hne).trans hold)]
      · rw [record?_of_notMem hmem,
          record?_of_notMem fun hmem' ↦ hmem ((hg.mem_iff.1 hmem').resolve_left hne)]

/-! ## Storing and deleting -/

section Storing

variable {record : List UInt8} {e : Error}

theorem Kept.inserts {res : Except Error RecordId} (hk : h.Kept p) (hp : p.Sound)
    (hnext : p.file.ids.next.toNat + 1 < UInt32.size)
    (hcall : h.insert p record = (res, h', q)) : h.Inserts p record res h' q :=
  insert_cases (u := ∅) hp (.inl hnext) (fun _ hid ↦ hk.tidy hid) hcall

/-- To store a record is to give a value to an address that had none. -/
theorem Kept.insert_ok (hk : h.Kept p) (hp : p.Sound)
    (hnext : p.file.ids.next.toNat + 1 < UInt32.size)
    (hcall : h.insert p record = (.ok rid, h', q)) :
    h'.Kept q ∧ h.pages <+: h'.pages ∧ h.record? p rid = none ∧
      ∀ i, h'.record? q i = if i = rid then some record else h.record? p i := by
  generalize hres : (Except.ok rid : Except Error RecordId) = res at hcall
  have hinserts := hk.inserts hp hnext hcall
  cases hinserts with
  | refused => cases hres
  | hindered => cases hres
  | @stored r id page page' _ _ _ hgrows htidy hadd herrand hcontent =>
    cases hres
    have htidy' := Page.Edit.tidy_apply htidy (Page.Edit.apply_add hadd)
    have hid : page.id = id := by
      cases hgrows with
      | same _ hmem hpage => exact hk.page_id hp hmem hpage
      | added _ _ _ _ hfresh =>
        rw [hfresh]
        rfl
    obtain ⟨hrid, hdead, hlive, hothers⟩ :=
      Page.liveRecord?_of_add htidy.readable htidy'.readable hadd
    rw [hid] at hrid
    obtain ⟨hk', hrecords⟩ := hk.of_change hp hgrows
      (Page.links_of_add htidy.readable.describes hadd).2 htidy' herrand hcontent
    refine ⟨hk', hgrows.isPrefix, (hgrows.record?_eq hk hrid).trans hdead, fun i ↦ ?_⟩
    rw [hrecords]
    by_cases hi : i = rid
    · rw [if_pos hi, hi, if_pos hrid, hlive]
    · rw [if_neg hi]
      split
      next hpage =>
        rw [hgrows.record?_eq hk hpage]
        exact hothers i.slot (Page.slot_ne_of_ne hi (hpage.trans hrid.symm))
      next => rfl

theorem Kept.insert_error (hk : h.Kept p) (hp : p.Sound)
    (hnext : p.file.ids.next.toNat + 1 < UInt32.size)
    (hcall : h.insert p record = (.error e, h', q)) :
    h' = h ∧ h.Kept q ∧ h.record? q = h.record? p := by
  generalize hres : (Except.error e : Except Error RecordId) = res at hcall
  have hinserts := hk.inserts hp hnext hcall
  cases hinserts with
  | refused => exact ⟨rfl, hk, rfl⟩
  | hindered _ _ herrand => exact ⟨rfl, hk.of_errand hp herrand fun id _ ↦ Set.notMem_empty id⟩
  | stored => cases hres

/-- To delete a record is to take the value of its address away. -/
theorem Kept.delete_ok (hk : h.Kept p) (hp : p.Sound) (hcall : delete p rid = (.ok (), q)) :
    h.Kept q ∧ ∀ i, h.record? q i = if i = rid then none else h.record? p i := by
  obtain ⟨e, ⟨⟩, -⟩ | ⟨page, page', hshows, hdelete, -, herrand, hcontent, -⟩ :=
    delete_cases hp hcall
  by_cases hmem : rid.page ∈ h.pages
  · obtain ⟨hid, old, hpage, htidy⟩ := hk.tidy hmem
    obtain rfl := hshows.eq hid hpage
    have htidy' := Page.Edit.tidy_apply (e := .delete rid) htidy hdelete
    obtain ⟨-, -, -, hdead, hothers⟩ := Page.liveRecord?_of_delete htidy hdelete
    have hgrows : h.Grows p rid.page page h := .same rfl hmem hpage
    obtain ⟨hk', hrecords⟩ := hk.of_change hp hgrows (Page.links_of_delete hdelete).2 htidy'
      herrand hcontent
    refine ⟨hk', fun i ↦ ?_⟩
    rw [hrecords]
    by_cases hi : i = rid
    · rw [if_pos hi, hi, if_pos rfl, hdead]
    · rw [if_neg hi]
      split
      next hpage' =>
        rw [hgrows.record?_eq hk hpage']
        exact hothers i.slot (Page.slot_ne_of_ne hi hpage')
      next => rfl
  · -- A record on a page of somebody else, which is no record of this heap.
    obtain ⟨hk', hsame⟩ := hk.of_errand hp herrand fun id hid heq ↦ hmem (heq ▸ hid)
    refine ⟨hk', fun i ↦ ?_⟩
    rw [hsame]
    split
    next hi => rw [hi, record?_of_notMem hmem]
    next => rfl

theorem Kept.delete_error (hk : h.Kept p) (hp : p.Sound) (hcall : delete p rid = (.error e, q)) :
    h.Kept q ∧ h.record? q = h.record? p := by
  obtain ⟨e, ⟨⟩, herrand, -⟩ | ⟨page, page', -, -, ⟨⟩, -⟩ := delete_cases hp hcall
  exact hk.of_errand hp herrand fun id _ ↦ Set.notMem_empty id

end Storing

/-! ## Calls as errands -/

section Errands

variable {record : List UInt8}

/-- To store a record touches one page, which is one of the heap or new. -/
theorem Kept.errand_of_insert {res : Except Error RecordId} (hk : h.Kept p) (hp : p.Sound)
    (hnext : p.file.ids.next.toNat + 1 < UInt32.size)
    (hcall : h.insert p record = (res, h', q)) : h'.Kept q ∧ ∃ touched,
      p.Errand touched [] ∅ q ∧ ∀ i, i ∈ touched ∨ i ∈ h'.pages → i ∈ h.pages ∨ ¬ p.Holds i := by
  have hkept : h'.Kept q := by
    cases res with
    | ok rid => exact (hk.insert_ok hp hnext hcall).1
    | error e =>
      obtain ⟨rfl, hk', -⟩ := hk.insert_error hp hnext hcall
      exact hk'
  refine ⟨hkept, ?_⟩
  cases hk.inserts hp hnext hcall with
  | refused => exact ⟨∅, .start, fun i hi ↦ .inl (hi.resolve_left (Set.notMem_empty i))⟩
  | hindered _ _ herrand =>
    exact ⟨∅, herrand, fun i hi ↦ .inl (hi.resolve_left (Set.notMem_empty i))⟩
  | @stored _ id _ _ _ _ _ hgrows _ _ herrand _ =>
    have hid : id ∈ h.pages ∨ ¬ p.Holds id := by
      cases hgrows with
      | same _ hmem _ => exact .inl hmem
      | added _ _ _ hnot _ => exact .inr hnot
    refine ⟨{id}, herrand, fun i hi ↦ ?_⟩
    rcases hi.imp_right hgrows.mem_iff.1 with rfl | rfl | hi
    · exact hid
    · exact hid
    · exact .inl hi

theorem Kept.errand_of_delete {res : Except Error Unit} (hk : h.Kept p) (hp : p.Sound)
    (hcall : delete p rid = (res, q)) : h.Kept q ∧ p.Errand {rid.page} [] ∅ q := by
  obtain ⟨e, rfl, herrand, -⟩ | ⟨_, _, -, -, rfl, herrand, -⟩ := delete_cases hp hcall
  · exact ⟨(hk.delete_error hp hcall).1, herrand.mono (Set.empty_subset _)⟩
  · exact ⟨(hk.delete_ok hp hcall).1, herrand⟩

end Errands

/-! ## Reading and listing -/

theorem Kept.get_cases {res : Except Error (Option (List UInt8))} (hk : h.Kept p) (hp : p.Sound)
    (hcall : get p rid = (res, q)) : h.Kept q ∧ h.record? q = h.record? p ∧
      (rid.page ∈ h.pages → ∀ answer, res = .ok answer → answer = h.record? p rid) := by
  obtain ⟨herrand, hres⟩ := Heap.get_cases hp hcall
  obtain ⟨hk', hsame⟩ := hk.of_errand hp herrand fun id _ ↦ Set.notMem_empty id
  refine ⟨hk', hsame, ?_⟩
  rintro hmem answer rfl
  obtain ⟨e, ⟨⟩, -⟩ | ⟨page, hshows, hfound⟩ := hres
  obtain ⟨hid, old, hpage, htidy⟩ := hk.tidy hmem
  obtain rfl := hshows.eq hid hpage
  rw [found_get htidy.readable (hk.page_id hp hmem hpage).symm] at hfound
  rw [Except.ok.inj hfound, record?_of_mem hmem hpage]

omit [Replacer ρ] in
theorem Kept.listAll_eq_ok (hk : h.Kept p) (hp : p.Sound) {ids : List PageId}
    {l : List (RecordId × List UInt8)} (hnodup : ids.Nodup) (hids : ∀ id ∈ ids, id ∈ h.pages)
    (hlist : listAll p.content ids = .ok l) : (l.map (·.1)).Nodup ∧
      ∀ rid record, (rid, record) ∈ l ↔ rid.page ∈ ids ∧ h.record? p rid = some record := by
  induction ids generalizing l with
  | nil =>
    cases hlist
    exact ⟨List.nodup_nil, fun _ _ ↦ iff_of_false List.not_mem_nil fun h ↦ List.not_mem_nil h.1⟩
  | cons id ids ih =>
    obtain ⟨hnew, hnodup⟩ := List.nodup_cons.1 hnodup
    obtain ⟨page, records, more, hpage, hrecords, hmore, rfl⟩ := listAll_cons_eq_ok_iff.1 hlist
    obtain ⟨hmoreNodup, hmoreMem⟩ := ih hnodup (fun i hi ↦ hids i (List.mem_cons_of_mem _ hi)) hmore
    have hmem := hids id List.mem_cons_self
    obtain ⟨-, old, hold, htidy⟩ := hk.tidy hmem
    obtain rfl := Except.ok.inj (hold.symm.trans hpage)
    have hd := htidy.readable.describes
    obtain ⟨l, hl, hlnodup, hlmem⟩ := Page.exists_records hd.encloses
    obtain rfl := Except.ok.inj (hl.symm.trans hrecords)
    -- A page's own listing and the heap's record table agree on the page's numbers.
    have hhere : ∀ rid record, (rid, record) ∈ l ↔
        rid.page = id ∧ h.record? p rid = some record := by
      intro rid record
      rw [hlmem, Page.get_eq_ok_iff hd.encloses, hk.page_id hp hmem hpage]
      refine and_congr_right fun heq ↦ ?_
      rw [record?_of_mem (heq ▸ hmem) (heq ▸ hpage)]
    refine ⟨?_, fun rid record ↦ ?_⟩
    · rw [List.map_append]
      refine hlnodup.append hmoreNodup fun rid hrid hrid' ↦ ?_
      obtain ⟨⟨_, record⟩, hin, rfl⟩ := List.mem_map.1 hrid
      obtain ⟨⟨_, record'⟩, hin', heq⟩ := List.mem_map.1 hrid'
      have hfirst := ((hhere _ record).1 hin).1
      have hlater := ((hmoreMem _ record').1 hin').1
      dsimp only at heq
      rw [heq, hfirst] at hlater
      exact hnew hlater
    · rw [List.mem_append, hhere, hmoreMem, List.mem_cons, or_and_right]

theorem Kept.scan_cases {res : Except Error (List (RecordId × List UInt8))} (hk : h.Kept p)
    (hp : p.Sound) (hcall : h.scan p = (res, q)) : h.Kept q ∧ h.record? q = h.record? p ∧
      ∀ l, res = .ok l → (l.map (·.1)).Nodup ∧
        ∀ rid record, (rid, record) ∈ l ↔ h.record? p rid = some record := by
  obtain ⟨herrand, hlist⟩ := scanPages_cases hp
    (fun id hid ↦ ⟨hk.faithfulAt id hid, hk.holds hid⟩) hcall
  obtain ⟨hk', hsame⟩ := hk.of_errand hp herrand fun id _ ↦ Set.notMem_empty id
  refine ⟨hk', hsame, fun l hl ↦ ?_⟩
  obtain ⟨hnodup, hmem⟩ := hk.listAll_eq_ok hp hk.nodup (fun id hid ↦ hid) (hlist l hl)
  refine ⟨hnodup, fun rid record ↦ (hmem rid record).trans (and_iff_right_of_imp fun hsome ↦ ?_)⟩
  by_contra hnot
  rw [record?_of_notMem hnot] at hsome
  cases hsome

/-! ## Runs -/

/-- The runs of a heap on a pool that others use as well. These make calls that use no id twice
and may change any page that is not one of the heap. -/
inductive Run (start : Pool ρ) : Heap → Pool ρ → Prop
  | start : Run start ⟨[]⟩ start
  | insert {h : Heap} {p : Pool ρ} (record : List UInt8) : Run start h p →
      p.file.ids.next.toNat + 1 < UInt32.size →
      Run start (h.insert p record).2.1 (h.insert p record).2.2
  | get {h : Heap} {p : Pool ρ} (rid : RecordId) : Run start h p → Run start h (get p rid).2
  | delete {h : Heap} {p : Pool ρ} (rid : RecordId) : Run start h p → Run start h (delete p rid).2
  | scan {h : Heap} {p : Pool ρ} : Run start h p → Run start h (h.scan p).2
  | call {h : Heap} {p : Pool ρ} (c : PoolCall) : Run start h p → p.Permits c →
      (∀ id ∈ h.pages, c ≠ .delete id) → Run start h (p.call c).2
  | edit {h : Heap} {p : Pool ρ} (id : PageId) (e : Page.Edit) : Run start h p → id ∉ h.pages →
      Run start h (p.edit id e).2

theorem Kept.of_call {c : PoolCall} (hk : h.Kept p) (hp : p.Sound) (hc : p.Permits c)
    (hne : ∀ id ∈ h.pages, c ≠ .delete id) :
    h.Kept (p.call c).2 ∧ h.record? (p.call c).2 = h.record? p :=
  hk.of_spares fun id hid ↦ spares_of_permitted hp hc (hk.faithfulAt id hid) (hne id hid)

omit [Replacer ρ] in
theorem Kept.of_edit (hk : h.Kept p) (hp : p.Sound) (hid : id ∉ h.pages) (e : Page.Edit) :
    h.Kept (p.edit id e).2 ∧ h.record? (p.edit id e).2 = h.record? p :=
  hk.of_spares fun i hi ↦ spares_of_edit hp (hk.faithfulAt i hi) (by rintro rfl; exact hid hi) rfl

theorem Run.kept {start : Pool ρ} (hstart : start.Sound) (hrun : Run start h p) :
    p.Sound ∧ h.Kept p := by
  induction hrun with
  | start => exact ⟨hstart, kept_nil⟩
  | @insert h p record _ hnext ih =>
    obtain ⟨hp, hk⟩ := ih
    obtain ⟨hk', touched, herrand, -⟩ := hk.errand_of_insert hp hnext (rfl : h.insert p record = _)
    exact ⟨herrand.sound hp, hk'⟩
  | @get h p rid _ ih =>
    obtain ⟨hp, hk⟩ := ih
    exact ⟨(Heap.get_cases hp rfl).1.sound hp, (hk.get_cases hp rfl).1⟩
  | @delete h p rid _ ih =>
    obtain ⟨hp, hk⟩ := ih
    obtain ⟨hk', herrand⟩ := hk.errand_of_delete hp (rfl : Heap.delete p rid = _)
    exact ⟨herrand.sound hp, hk'⟩
  | @scan h p _ ih =>
    obtain ⟨hp, hk⟩ := ih
    exact ⟨(scanPages_cases hp (fun id hid ↦ ⟨hk.faithfulAt id hid, hk.holds hid⟩) rfl).1.sound hp,
      (hk.scan_cases hp rfl).1⟩
  | call c _ hc hne ih => exact ⟨sound_of_call ih.1 hc, (ih.2.of_call ih.1 hc hne).1⟩
  | edit id e _ hid ih => exact ⟨sound_of_edit ih.1 rfl, (ih.2.of_edit ih.1 hid e).1⟩

/-- The heap is a map from record addresses to byte strings. -/
structure ActsAsRecordMap (h : Heap) (p : Pool ρ) : Prop where
  insert_ok : p.file.ids.next.toNat + 1 < UInt32.size →
    ∀ record rid h' q, h.insert p record = (.ok rid, h', q) →
      h.pages <+: h'.pages ∧ h.record? p rid = none ∧
        ∀ i, h'.record? q i = if i = rid then some record else h.record? p i
  insert_error : p.file.ids.next.toNat + 1 < UInt32.size →
    ∀ record e h' q, h.insert p record = (.error e, h', q) →
      h' = h ∧ h.record? q = h.record? p
  insert_tooSmall : p.file.ids.next.toNat + 1 < UInt32.size → ∀ record,
    ((∃ n min, (h.insert p record).1 = .error (.recordTooSmall n min)) ↔ record.length < 8)
  insert_tooLarge : p.file.ids.next.toNat + 1 < UInt32.size → ∀ record,
    ((∃ n max, (h.insert p record).1 = .error (.recordTooLarge n max)) ↔ 8160 < record.length)
  delete_ok : ∀ rid q, delete p rid = (.ok (), q) →
    ∀ i, h.record? q i = if i = rid then none else h.record? p i
  delete_error : ∀ rid e q, delete p rid = (.error e, q) → h.record? q = h.record? p
  get_ok : ∀ rid answer q, rid.page ∈ h.pages → get p rid = (.ok answer, q) →
    answer = h.record? p rid
  get_keeps : ∀ rid, h.record? (get p rid).2 = h.record? p
  scan_ok : ∀ l q, h.scan p = (.ok l, q) → (l.map (·.1)).Nodup ∧
    ∀ rid record, (rid, record) ∈ l ↔ h.record? p rid = some record
  scan_keeps : h.record? (h.scan p).2 = h.record? p

end PagedStorage.Heap
