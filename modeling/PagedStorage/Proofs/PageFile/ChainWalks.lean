import PagedStorage.Proofs.PageFile.Chains

/-!
# How reading a chain ends

The links of a chain come from the store and may lead anywhere: back to a page of the chain, to the
page itself, to a page that cannot be read or out of the file. `ChainEnds` says what reading a chain
comes to, in terms of the pages that the store holds and without a bound on the number of steps.
There is exactly one end to every chain, and `readChain` finds it (`chainAt_eq_iff`).

## Why there is an end

That there is an end is a matter of counting. A walk that goes on has come to a page that it did not
see before and that can be read, and of these there are no more than the store has room for
(`ChainWalk.exists_stops`). So the bound that the walk is given is never the reason why it stops,
and any other one that is at least the number of pages in the store would do as well
(`chainFrom_eq_of_bound`).

## Walks and routes

A `Route` is a list of pages each of which leads to the next one, with no condition on the pages; a
`ChainWalk` is a route from the head on that met no page twice and followed no link 0. The walk is
what the program has behind it at any time, and its list of pages that were met is the route
backwards. Whether a walk can go on depends on where it leads, `Stops`, and not on how it came
there.
-/

namespace PagedStorage.PageFile

variable {c : PageId → Except Error Page} {f : PageFile} {head id stop i : PageId}
  {ids visited : List PageId} {n m bound : Nat} {first page : Page} {pages rest : List Page}
  {r : Except Error (List Page)} {d : PageId → Except Error Page} {swap : Page → Page}

/-! ## Routes -/

/-- From page `id` on, the links lead over the pages at `ids`, which are `pages`, to page `stop`. -/
inductive Route (c : PageId → Except Error Page) :
    PageId → List PageId → List Page → PageId → Prop where
  | refl (id : PageId) : Route c id [] [] id
  | step {id stop : PageId} {ids : List PageId} {page : Page} {pages : List Page} :
    c id = .ok page → Route c page.next ids pages stop → Route c id (id :: ids) (page :: pages) stop

namespace Route

private theorem snoc (h : Route c id ids pages stop) (hread : c stop = .ok page) :
    Route c id (ids ++ [stop]) (pages ++ [page]) page.next := by
  induction h with
  | refl id => exact .step hread (.refl _)
  | step hfirst _ ih => exact .step hfirst (ih hread)

private theorem exists_of_mem (h : Route c id ids pages stop) (hi : i ∈ ids) :
    ∃ page, c i = .ok page := by
  induction h with
  | refl id => cases hi
  | step hfirst _ ih =>
    obtain rfl | hi := List.mem_cons.1 hi
    · exact ⟨_, hfirst⟩
    · exact ih hi

private theorem exists_of_mem_pages (h : Route c id ids pages stop) (hpage : page ∈ pages) :
    ∃ i, c i = .ok page := by
  induction h with
  | refl id => cases hpage
  | @step id _ _ _ _ hfirst _ ih =>
    obtain rfl | hpage := List.mem_cons.1 hpage
    · exact ⟨id, hfirst⟩
    · exact ih hpage

private theorem map (h : Route c id ids pages stop) (hnext : ∀ page, (swap page).next = page.next)
    (hswap : ∀ i page, c i = .ok page → d i = .ok (swap page)) :
    Route d id ids (pages.map swap) stop := by
  induction h with
  | refl id => exact .refl id
  | step hfirst _ ih => exact .step (hswap _ _ hfirst) (by rwa [hnext])

private theorem length_eq (h : Route c id ids pages stop) : pages.length = ids.length := by
  induction h with
  | refl id => rfl
  | step _ _ ih => rw [List.length_cons, List.length_cons, ih]

private theorem chainFrom_eq (h : Route c id ids pages stop) (hnodup : ids.Nodup) (hzero : 0 ∉ ids)
    (hnew : ∀ i ∈ ids, i ∉ visited) (n : Nat) :
    chainFrom c head visited id (ids.length + n) =
      (chainFrom c head (ids.reverse ++ visited) stop n).map (pages ++ ·) := by
  induction h generalizing visited with
  | refl id =>
    rw [List.length_nil, Nat.zero_add, List.reverse_nil, List.nil_append]
    cases chainFrom c head visited id n <;> rfl
  | @step id stop ids page pages hread hroute ih =>
    obtain ⟨hid, hnodup⟩ := List.nodup_cons.1 hnodup
    obtain ⟨hzero, hrest⟩ := not_or.1 (mt List.mem_cons.2 hzero)
    obtain ⟨hfresh, hothers⟩ := List.forall_mem_cons.1 hnew
    have hlater : ∀ i ∈ ids, i ∉ id :: visited := by
      intro i hi hmem
      obtain rfl | hmem := List.mem_cons.1 hmem
      · exact hid hi
      · exact hothers i hi hmem
    rw [List.length_cons, Nat.add_right_comm, chainFrom, if_neg (Ne.symm hzero), if_neg hfresh,
      hread, ok_bind, ih hnodup hrest hlater, List.reverse_cons, List.append_assoc,
      List.singleton_append]
    cases chainFrom c head (ids.reverse ++ id :: visited) stop n <;> rfl

end Route

/-! ## Walks from the head -/

/-- A walk along the chain of page `head`, as far as it came: its first page is a flagged overflow
page, no page was met twice, and no link that was followed was 0. The next link is `stop`. -/
structure ChainWalk (c : PageId → Except Error Page) (head : PageId) (first : Page)
    (ids : List PageId) (rest : List Page) (stop : PageId) : Prop where
  first_eq : c head = .ok first
  flagged : first.isOverflow = true
  route : Route c first.next ids rest stop
  nodup : (head :: ids).Nodup
  ne_zero : 0 ∉ ids

/-- There is no page to go on with at `stop`: the link is 0 or leads to a page that was met, or the
page cannot be read. -/
def Stops (c : PageId → Except Error Page) (seen : List PageId) (stop : PageId) : Prop :=
  stop = 0 ∨ stop ∈ seen ∨ ∃ e, c stop = .error e

private theorem exists_page_of_not_stops (h : ¬ Stops c visited stop) :
    stop ≠ 0 ∧ stop ∉ visited ∧ ∃ page, c stop = .ok page := by
  rw [Stops, not_or, not_or] at h
  refine ⟨h.1, h.2.1, ?_⟩
  cases hread : c stop with
  | ok page => exact ⟨page, rfl⟩
  | error e => exact absurd ⟨e, hread⟩ h.2.2

namespace ChainWalk

theorem start (hfirst : c head = .ok first) (hflag : first.isOverflow = true) :
    ChainWalk c head first [] [] first.next :=
  ⟨hfirst, hflag, .refl _, List.nodup_singleton _, List.not_mem_nil⟩

private theorem snoc (h : ChainWalk c head first ids rest stop) (hne : stop ≠ 0)
    (hnew : stop ∉ head :: ids) (hread : c stop = .ok page) :
    ChainWalk c head first (ids ++ [stop]) (rest ++ [page]) page.next where
  first_eq := h.first_eq
  flagged := h.flagged
  route := h.route.snoc hread
  nodup := by
    rw [← List.cons_append]
    exact List.nodup_append.2 ⟨h.nodup, List.nodup_singleton _, fun i hi j hj heq ↦
      hnew (List.mem_singleton.1 hj ▸ heq ▸ hi)⟩
  ne_zero hmem := by
    obtain hmem | hmem := List.mem_append.1 hmem
    · exact h.ne_zero hmem
    · exact hne (List.mem_singleton.1 hmem).symm

/-- The pages that were met are different ones, and each of them can be read. -/
theorem length_lt (h : ChainWalk c head first ids rest stop)
    (hbound : ∀ i page, c i = .ok page → i.toNat < bound) : ids.length < bound := by
  have hnodup : ((head :: ids).map (·.toNat)).Nodup :=
    h.nodup.map fun _ _ ↦ UInt32.toNat_inj.1
  have hsub : (head :: ids).map (·.toNat) ⊆ List.range bound := by
    intro k hk
    obtain ⟨i, hi, rfl⟩ := List.mem_map.1 hk
    obtain rfl | hi := List.mem_cons.1 hi
    · exact List.mem_range.2 (hbound _ _ h.first_eq)
    · obtain ⟨page, hread⟩ := h.route.exists_of_mem hi
      exact List.mem_range.2 (hbound i page hread)
  have hle := (List.subperm_of_subset hnodup hsub).length_le
  rwa [List.length_map, List.length_cons, List.length_range] at hle

/-- Each walk comes to a stop. The number of pages that can be read and were not met yet gets
smaller with every step. -/
theorem exists_stops (h : ChainWalk c head first ids rest stop)
    (hbound : ∀ i page, c i = .ok page → i.toNat < bound) :
    ∃ ids rest stop, ChainWalk c head first ids rest stop ∧ Stops c (head :: ids) stop := by
  induction hleft : bound - ids.length using Nat.strongRecOn
    generalizing ids rest stop with
  | ind left ih =>
    by_cases hstops : Stops c (head :: ids) stop
    · exact ⟨ids, rest, stop, h, hstops⟩
    · obtain ⟨hne, hnew, page, hread⟩ := exists_page_of_not_stops hstops
      have hlonger := h.snoc hne hnew hread
      have hlt := hlonger.length_lt hbound
      rw [List.length_append, List.length_singleton] at hlt
      refine ih _ ?_ hlonger rfl
      rw [List.length_append, List.length_singleton]
      omega

theorem chainFrom_eq (h : ChainWalk c head first ids rest stop) (hlt : ids.length < m) :
    ∃ n, chainFrom c head [head] first.next m =
      (chainFrom c head (ids.reverse ++ [head]) stop (n + 1)).map (rest ++ ·) := by
  obtain ⟨hhead, hnodup⟩ := List.nodup_cons.1 h.nodup
  have hnew : ∀ i ∈ ids, i ∉ [head] := by
    intro i hi hmem
    exact hhead (List.mem_singleton.1 hmem ▸ hi)
  obtain ⟨n, rfl⟩ := Nat.exists_eq_add_of_lt hlt
  exact ⟨n, by rw [Nat.add_assoc, h.route.chainFrom_eq hnodup h.ne_zero hnew]⟩

end ChainWalk

private theorem mem_reverse_append_singleton : i ∈ ids.reverse ++ [head] ↔ i ∈ head :: ids := by
  rw [List.mem_append, List.mem_reverse, List.mem_singleton, List.mem_cons, or_comm]

private theorem chainFrom_of_stops (hstops : Stops c visited stop) (n m : Nat) :
    chainFrom c head visited stop (n + 1) = chainFrom c head visited stop (m + 1) := by
  rw [chainFrom, chainFrom]
  by_cases hzero : stop = 0
  · rw [if_pos hzero, if_pos hzero]
  rw [if_neg hzero, if_neg hzero]
  by_cases hseen : stop ∈ visited
  · rw [if_pos hseen, if_pos hseen]
  · obtain ⟨e, hread⟩ := (hstops.resolve_left hzero).resolve_left hseen
    rw [if_neg hseen, if_neg hseen, hread]
    rfl

/-! ## The ends of chains -/

/-- What reading the chain of page `head` comes to, where the pages are `c`. -/
inductive ChainEnds (c : PageId → Except Error Page) (head : PageId) :
    Except Error (List Page) → Prop where
  /-- The links end with 0. -/
  | whole {first : Page} {ids : List PageId} {rest : List Page} :
    ChainWalk c head first ids rest 0 → ChainEnds c head (.ok (first :: rest))
  /-- The head can be read and is no overflow page. -/
  | notOverflow {first : Page} : c head = .ok first → first.isOverflow = false →
    ChainEnds c head (.error (.notOverflowPage head))
  /-- A link leads back to a page of the chain. -/
  | loop {first : Page} {ids : List PageId} {rest : List Page} {stop : PageId} :
    ChainWalk c head first ids rest stop → stop ≠ 0 → stop ∈ head :: ids →
      ChainEnds c head (.error (.corruptedPage stop (.chainLoop head)))
  | unreadableHead {e : Error} : c head = .error e → ChainEnds c head (.error e)
  /-- A page behind the head is the first that cannot be read. -/
  | unreadable {first : Page} {ids : List PageId} {rest : List Page} {stop : PageId} {e : Error} :
    ChainWalk c head first ids rest stop → stop ≠ 0 → stop ∉ head :: ids → c stop = .error e →
      ChainEnds c head (.error e)

private theorem chainAt_of_flagged (hfirst : c head = .ok first) (hflag : first.isOverflow = true) :
    chainAt c head =
      (chainFrom c head [head] first.next (UInt32.size + 1)).map (first :: ·) := by
  rw [chainAt, hfirst, ok_bind, if_pos hflag]
  cases chainFrom c head [head] first.next (UInt32.size + 1) <;> rfl

/-- The number of page ids is bound enough for any walk. -/
theorem ChainWalk.chainAt_eq (h : ChainWalk c head first ids rest stop) :
    ∃ n, chainAt c head =
      (chainFrom c head (ids.reverse ++ [head]) stop (n + 1)).map fun last ↦
        first :: (rest ++ last) := by
  have hlt : ids.length < UInt32.size := h.length_lt fun i _ _ ↦ i.toNat_lt
  obtain ⟨n, hfrom⟩ := h.chainFrom_eq (Nat.lt_succ_of_lt hlt)
  refine ⟨n, ?_⟩
  rw [chainAt_of_flagged h.first_eq h.flagged, hfrom]
  cases chainFrom c head (ids.reverse ++ [head]) stop (n + 1) <;> rfl

private theorem ChainEnds.chainAt_eq (h : ChainEnds c head r) : chainAt c head = r := by
  cases h with
  | whole hwalk =>
    obtain ⟨n, hchain⟩ := hwalk.chainAt_eq
    rw [hchain, chainFrom, if_pos rfl, Except.map, List.append_nil]
  | notOverflow hfirst hflag =>
    rw [chainAt, hfirst, ok_bind, hflag]
    rfl
  | loop hwalk hne hmem =>
    obtain ⟨n, hchain⟩ := hwalk.chainAt_eq
    rw [hchain, chainFrom, if_neg hne, if_pos (mem_reverse_append_singleton.2 hmem)]
    rfl
  | unreadableHead hread =>
    rw [chainAt, hread]
    rfl
  | unreadable hwalk hne hnew hread =>
    obtain ⟨n, hchain⟩ := hwalk.chainAt_eq
    rw [hchain, chainFrom, if_neg hne, if_neg (mt mem_reverse_append_singleton.1 hnew), hread]
    rfl

private theorem exists_chainEnds (c : PageId → Except Error Page) (head : PageId) :
    ∃ r, ChainEnds c head r := by
  cases hfirst : c head with
  | error e => exact ⟨_, .unreadableHead hfirst⟩
  | ok first =>
    cases hflag : first.isOverflow with
    | false => exact ⟨_, .notOverflow hfirst hflag⟩
    | true =>
      obtain ⟨ids, rest, stop, hwalk, hstops⟩ :=
        (ChainWalk.start hfirst hflag).exists_stops fun i _ _ ↦ i.toNat_lt
      by_cases hzero : stop = 0
      · subst hzero
        exact ⟨_, .whole hwalk⟩
      by_cases hseen : stop ∈ head :: ids
      · exact ⟨_, .loop hwalk hzero hseen⟩
      · obtain ⟨e, hread⟩ := (hstops.resolve_left hzero).resolve_left hseen
        exact ⟨_, .unreadable hwalk hzero hseen hread⟩

theorem chainAt_eq_iff : chainAt c head = r ↔ ChainEnds c head r := by
  constructor
  · rintro rfl
    obtain ⟨r, hends⟩ := exists_chainEnds c head
    rwa [hends.chainAt_eq]
  · exact ChainEnds.chainAt_eq

theorem exists_of_mem_chainAt (hread : chainAt c head = .ok pages) (hpage : page ∈ pages) :
    ∃ i, c i = .ok page := by
  cases chainAt_eq_iff.1 hread with
  | whole hwalk =>
    obtain rfl | hpage := List.mem_cons.1 hpage
    · exact ⟨head, hwalk.first_eq⟩
    · exact hwalk.route.exists_of_mem_pages hpage

theorem chainAt_map (hnext : ∀ page, (swap page).next = page.next)
    (hover : ∀ page, (swap page).isOverflow = page.isOverflow)
    (h : ∀ i page, c i = .ok page → d i = .ok (swap page)) (hread : chainAt c head = .ok pages) :
    chainAt d head = .ok (pages.map swap) := by
  cases chainAt_eq_iff.1 hread with
  | @whole first ids rest hwalk =>
    have hswapped : ChainWalk d head (swap first) ids (rest.map swap) 0 :=
      ⟨h _ _ hwalk.first_eq, by rw [hover, hwalk.flagged],
        by rw [hnext]; exact hwalk.route.map hnext h, hwalk.nodup, hwalk.ne_zero⟩
    exact chainAt_eq_iff.2 (.whole hswapped)

/-- Any bound that is at least the number of pages that can be read gives the same. -/
theorem chainFrom_eq_of_bound (hfirst : c head = .ok first) (hflag : first.isOverflow = true)
    (hbound : ∀ i page, c i = .ok page → i.toNat < bound) (hn : bound ≤ n) (hm : bound ≤ m) :
    chainFrom c head [head] first.next n = chainFrom c head [head] first.next m := by
  obtain ⟨ids, rest, stop, hwalk, hstops⟩ := (ChainWalk.start hfirst hflag).exists_stops hbound
  have hlt := hwalk.length_lt hbound
  obtain ⟨n', hn'⟩ := hwalk.chainFrom_eq (Nat.lt_of_lt_of_le hlt hn)
  obtain ⟨m', hm'⟩ := hwalk.chainFrom_eq (Nat.lt_of_lt_of_le hlt hm)
  have hstops' : Stops c (ids.reverse ++ [head]) stop :=
    hstops.imp_right (Or.imp_left mem_reverse_append_singleton.2)
  rw [hn', hm', chainFrom_of_stops hstops' n' m']

/-! ## Chains in a file -/

private theorem toNat_lt_of_stored (h : f.stored i = .ok page) :
    i.toNat < f.store.contents.size / pageSize := by
  have hhas := has_of_stored h
  rw [Has, position_add_pageSize] at hhas
  exact (Nat.le_div_iff_mul_le (by decide)).2 hhas

/-- Chains are read to their ends. -/
structure ReadsChain (f : PageFile) (head : PageId) : Prop where
  /-- The answer is the end of the chain, which there is one of in any case. -/
  eq_iff : ∀ r, (f.readChain head).1 = r ↔ ChainEnds (fun i ↦ (f.readPage i).1) head r
  /-- A chain has no more pages than the store. -/
  length_le : ∀ pages, (f.readChain head).1 = .ok pages →
    pages.length ≤ f.store.contents.size / pageSize
  /-- The walk behind the head needs no more steps than the store has pages. With any larger number
  of steps it answers the same. -/
  followChain_eq : ∀ first g, f.readPage head = (.ok first, g) → first.isOverflow = true →
    ∀ n, f.store.contents.size / pageSize ≤ n →
      (g.followChain head [head] first.next n).1 =
        (g.followChain head [head] first.next (UInt32.size + 1)).1

/-- On every store that refuses no call, whatever it holds, reading the chain of any page comes to
an end, and to the one that the pages in the store give it. -/
theorem readsChain_of_willing (hf : f.store.Willing) (head : PageId) : f.ReadsChain head := by
  have hreads : (fun i ↦ (f.readPage i).1) = f.stored :=
    funext fun i ↦ (willing_of_readPage hf (r := (f.readPage i).1) rfl).1
  have hbound : ∀ i page, f.stored i = .ok page →
      i.toNat < min (f.store.contents.size / pageSize) UInt32.size :=
    fun i _ hstored ↦ Nat.lt_min.2 ⟨toNat_lt_of_stored hstored, i.toNat_lt⟩
  constructor
  · intro r
    rw [hreads, readChain_of_willing hf, chainAt_eq_iff]
  · intro pages hchain
    rw [readChain_of_willing hf, chainAt_eq_iff] at hchain
    cases hchain with
    | whole hwalk =>
      rw [List.length_cons, hwalk.route.length_eq]
      exact Nat.lt_of_lt_of_le (hwalk.length_lt hbound) (Nat.min_le_left _ _)
  · intro first g hread hflag n hn
    obtain ⟨g', hread', hg, hstored⟩ := readPage_of_willing hf rfl head
    obtain ⟨hfirst, rfl⟩ := Prod.mk.inj (hread.symm.trans hread')
    rw [followChain_of_willing hg hstored, followChain_of_willing hg hstored]
    exact chainFrom_eq_of_bound hfirst.symm hflag hbound (Nat.le_trans (Nat.min_le_left _ _) hn)
      (Nat.le_succ_of_le (Nat.min_le_right _ _))

/-! ## A page linked to itself -/

/-- A page that is its own next page. -/
def ringPage : Page := ((Page.fresh 1).link (.fresh 1)).1

def ringFile : PageFile := (PageFile.empty.writePage ringPage).2

/-- The chain of the page does not end, and reading it does. -/
theorem readsChain_ringFile : ringFile.store.Willing ∧ ringFile.ReadsChain 1 ∧
    (ringFile.readChain 1).1 = .error (.corruptedPage 1 (.chainLoop 1)) := by
  have hwrite : PageFile.empty.writePage ringPage = (.ok (), ringFile) := rfl
  have hwilling := willing_of_writePage willing_empty hwrite
  have hreadable : ringPage.Readable :=
    (Page.Edit.tidy_apply (e := .linkTo (.fresh 1)) (Page.tidy_fresh 1) rfl).readable
  have hstored : ringFile.stored 1 = .ok ringPage :=
    (stored_of_writePage hwrite).trans (pageOf_image_iff.2 ⟨hreadable, rfl⟩)
  obtain ⟨g, hread, -⟩ := readPage_of_willing hwilling rfl 1
  have hfirst : (ringFile.readPage 1).1 = .ok ringPage := by rw [hread, hstored]
  have hreads := readsChain_of_willing hwilling 1
  have hwalk : ChainWalk (fun i ↦ (ringFile.readPage i).1) 1 ringPage [] [] 1 :=
    .start hfirst rfl
  exact ⟨hwilling, hreads, (hreads.eq_iff _).2 (.loop hwalk (by decide) List.mem_cons_self)⟩

end PagedStorage.PageFile
