import PagedStorage.Proofs.Heap.Walks
import PagedStorage.Proofs.Pool.Appearing

/-!
# Chains of pages

What a heap makes of a long record is a chain: pages that carry the pieces of the record, one
each, and lead from one to the next, `Heap.IsChain`. The ids on a chain increase, since all its
pages are new when they are joined to it. So a walk along a chain ends, and sees every page of it
once (`IsChain.follow_eq`).

## Building a chain

While a chain is built its last page is pinned, and carries the link `0` that ends a chain. It is
joined to the next page before it is unpinned, `Heap.Storing`. From then on the page is as any
other, and what is built behind it does not concern it.

A piece goes through four steps: a new page is pinned (`Joining`), it is linked to the last one
(`Linking`), the two together are `Prolongs`, and the piece is stored and the page before it is
unpinned, `Extends`. At each of them the storing can end, because there is no page to be had or the
page does not take the piece (`Balks`), and then the last page keeps its piece and no page behind it
has one, `Stops`. The two outcomes are what the induction over the pieces uses
(`Storing.extends_or`).

## What is known of the pages behind the last one

The pages that a call may write to are those whose ids were not given out when it began,
`Heap.newIds`. There is nothing under such an id, or a fresh page in place of nothing, so there is
no record under it, `Heap.Bare`. This is what is left of "nothing is there" when the file gets
longer meanwhile, and it is kept by everything that is done on pages in front.
-/

namespace PagedStorage

namespace Page

variable {p q : Page} {record : List UInt8} {next : PageId}

/-- A page of a chain, with the link to the page behind it and the piece that is stored on it. -/
structure Carries (p : Page) (next : PageId) (piece : List UInt8) : Prop where
  tidy : p.Tidy
  isOverflow : p.isOverflow = true
  next_eq : p.next = next
  records : ∃ rid, p.records = .ok [(rid, piece)]

/-- A page of a chain on which nothing is stored so far. -/
structure Joined (p : Page) : Prop where
  tidy : p.Tidy
  isOverflow : p.isOverflow = true
  next_eq : p.next = 0
  directory_eq : p.directory = []
  freeSpace_eq : p.freeSpace = maxRecordSize + slotSize

private theorem joined_markOverflow (id : PageId) : (fresh id).markOverflow.Joined :=
  ⟨Edit.tidy_apply (e := .markOverflow) (tidy_fresh id) rfl, rfl, rfl, rfl, rfl⟩

private theorem joined_link (p : Page) (id : PageId) : (p.link (fresh id)).2.Joined :=
  ⟨Edit.tidy_apply (e := .linkFrom p) (tidy_fresh id) rfl, rfl, rfl, rfl, rfl⟩

theorem Joined.carries (hp : p.Joined) {rid : RecordId} (h : p.add record = .ok (rid, q)) :
    q.Carries 0 record := by
  have happly := Edit.apply_add h
  obtain ⟨hnext, hover⟩ := links_of_add hp.tidy.readable.describes h
  exact ⟨Edit.tidy_apply hp.tidy happly, hover.trans hp.isOverflow, hnext.trans hp.next_eq, rid,
    records_of_add_blank hp.tidy hp.directory_eq h⟩

private theorem Carries.link (hp : p.Carries next record) (q : Page) :
    (p.link q).1.Carries q.id record := by
  have hget := (actsAsRecordMap_of_tidy hp.tidy).link_left q
  have hrecords : (p.link q).1.records = p.records := by
    rw [Page.records, Page.records, hget]
    rfl
  refine ⟨Edit.tidy_apply (e := .linkTo q) hp.tidy rfl, rfl, rfl, ?_⟩
  rw [hrecords]
  exact hp.records

end Page

namespace Pool

variable {ρ : Type} {p q : Pool ρ} {g g' : Guard} {i : PageId} {u : Finset PageId}
  {e : Page.Edit} {page : Page}

/-- The ids that were not given out so far. -/
def newIds (p : Pool ρ) : Set PageId := {i | p.file.ids.next.toNat ≤ i.toNat}

theorem not_holds_of_newIds (hp : p.Sound) (hnext : p.file.ids.next.toNat + 1 < UInt32.size)
    (hi : i ∈ p.newIds) : ¬ p.Holds i :=
  fun hholds ↦ Nat.not_lt.2 hi (hp.lt_next_of_holds hnext hholds)

/-- There is no record under the id: no page, or none that has records. -/
def Bare (p : Pool ρ) (id : PageId) : Prop :=
  ∀ page, p.content id = .ok page → page.records = .ok []

theorem bare_of_not_holds (h : ¬ p.Holds i) : p.Bare i := by
  intro page hpage
  exact absurd (holds_of_content hpage) h

theorem Bare.congr (h : p.Bare i) (hsame : q.content i = p.content i) : q.Bare i := by
  rw [Bare, hsame]
  exact h

theorem Grips.content_of_setPage (h : q.Grips g) (hq : q.Steady)
    (happly : e.apply (q.page g.handle) = .ok page) (hne : i ≠ g.page) :
    (q.setPage g.handle page).content i = q.content i :=
  (content_of_edit hq (h.edit_eq hq happly)).1 i hne

theorem Errand.change_apart [Replacer ρ] {touched : Set PageId} {held : List PageId}
    {v : Finset PageId} (h : Errand touched p held v q) (hp : p.Sound) (hgrips : q.Grips g)
    (hheld : g.page ∈ held) (hid : g.page ∈ touched) (hsafe : e.Safe (q.page g.handle))
    (happly : e.apply (q.page g.handle) = .ok page) (hother : q.Grips g')
    (hne : g'.page ≠ g.page) :
    Errand touched p held (insert g.page v) (q.setPage g.handle page) ∧
      ((q.setPage g.handle page).Grips g ∧ (q.setPage g.handle page).page g.handle = page) ∧
      (q.setPage g.handle page).Grips g' ∧
        (q.setPage g.handle page).page g'.handle = q.page g'.handle := by
  have hq := h.sound hp
  obtain ⟨herrand, hself⟩ := h.change hp hgrips hheld hid hsafe happly
  exact ⟨herrand, hself, hother.of_edit_ne hq hne (hgrips.edit_eq hq.toSteady happly)⟩

theorem Grips.spares_of_setPage (h : q.Grips g) (hq : q.Sound)
    (happly : e.apply (q.page g.handle) = .ok page) (hi : q.FaithfulAt u i) (hne : i ≠ g.page) :
    q.Spares (q.setPage g.handle page) u i :=
  spares_of_edit hq hi hne (h.edit_eq hq.toSteady happly)

theorem spares_of_release [Replacer ρ] (hq : q.Sound) (hi : q.FaithfulAt u i)
    (hne : i ≠ g.page) : q.Spares (q.release g) u i :=
  spares_of_unpin hq hi (fun _ ↦ Iff.rfl) (fun hmem ↦ hmem) (fun heq ↦ absurd heq hne)
    (fun heq ↦ absurd heq hne) rfl

end Pool

namespace Heap

open Pool

variable {α ρ : Type} {c : PageId → Except Error Page} {head id i : PageId}
  {piece record : List UInt8} {l : List (PageId × List UInt8)}

/-! ## Chains -/

/-- The link that leads to a chain: its first page, or `0` where there is no page. -/
def headLink : List (PageId × List UInt8) → PageId
  | [] => 0
  | (id, _) :: _ => id

/-- Each page carries its piece and leads to the page behind it. -/
def Links (c : PageId → Except Error Page) : List (PageId × List UInt8) → Prop
  | [] => True
  | (id, piece) :: rest =>
    (∃ page, c id = .ok page ∧ page.Carries (headLink rest) piece) ∧ Links c rest

/-- The pages `c` hold a chain. -/
structure IsChain (c : PageId → Except Error Page) (l : List (PageId × List UInt8)) : Prop where
  links : Links c l
  increasing : (l.map (·.1)).Pairwise (· < ·)

private theorem Links.congr {d : PageId → Except Error Page} (hl : Links c l)
    (h : ∀ x ∈ l, d x.1 = c x.1) : Links d l := by
  induction l with
  | nil => trivial
  | cons x l ih =>
    rw [List.forall_mem_cons] at h
    obtain ⟨hpage, hrest⟩ := hl
    rw [← h.1] at hpage
    exact ⟨hpage, ih hrest h.2⟩

theorem Links.of_mem {x : PageId × List UInt8} (hl : Links c l) (hx : x ∈ l) :
    ∃ page next, c x.1 = .ok page ∧ page.Carries next x.2 ∧
      (next ≠ 0 → ∃ y ∈ l, y.1 = next) := by
  induction l with
  | nil => cases hx
  | cons y l ih =>
    obtain ⟨⟨page, hpage, hcarries⟩, hrest⟩ := hl
    rcases List.mem_cons.1 hx with rfl | hx
    · refine ⟨page, _, hpage, hcarries, fun hnext ↦ ?_⟩
      cases l with
      | nil => exact absurd rfl hnext
      | cons z l => exact ⟨z, List.mem_cons_of_mem _ List.mem_cons_self, rfl⟩
    · obtain ⟨page, next, hpage, hcarries, hnext⟩ := ih hrest hx
      refine ⟨page, next, hpage, hcarries, fun hne ↦ ?_⟩
      obtain ⟨z, hz, heq⟩ := hnext hne
      exact ⟨z, List.mem_cons_of_mem _ hz, heq⟩

theorem IsChain.congr {d : PageId → Except Error Page} (hc : IsChain c l)
    (h : ∀ x ∈ l, d x.1 = c x.1) : IsChain d l := ⟨hc.links.congr h, hc.increasing⟩

theorem IsChain.nodup (hc : IsChain c l) : (l.map (·.1)).Nodup :=
  hc.increasing.imp UInt32.ne_of_lt

/-- The links on a chain do not lead out of it. -/
theorem IsChain.closed (hc : IsChain c l) : Closed c {i | i ∈ l.map (·.1)} := by
  constructor
  intro i hi page hpage hne
  obtain ⟨x, hx, rfl⟩ := List.mem_map.1 hi
  obtain ⟨page', next, hpage', hcarries, hnext⟩ := hc.links.of_mem hx
  obtain rfl := Except.ok.inj (hpage'.symm.trans hpage)
  obtain ⟨y, hy, heq⟩ := hnext (hcarries.next_eq ▸ hne)
  exact List.mem_map.2 ⟨y, hy, heq.trans hcarries.next_eq.symm⟩

theorem IsChain.cons {page : Page} {next : PageId} {piece' : List UInt8}
    (hc : IsChain c ((next, piece') :: l)) (hpage : c id = .ok page)
    (hcarries : page.Carries next piece) (hlt : id < next) :
    IsChain c ((id, piece) :: (next, piece') :: l) := by
  refine ⟨⟨⟨page, hpage, hcarries⟩, hc.links⟩, List.pairwise_cons.2 ⟨fun i hi ↦ ?_, hc.increasing⟩⟩
  rcases List.mem_cons.1 hi with rfl | hi
  · exact hlt
  · exact UInt32.lt_trans hlt ((List.pairwise_cons.1 hc.increasing).1 i hi)

theorem IsChain.length_le (hc : IsChain c l) : l.length ≤ UInt32.size := by
  have hnodup : ((l.map (·.1)).map UInt32.toNat).Nodup :=
    hc.nodup.map fun _ _ ↦ UInt32.toNat_inj.1
  have hsub : ((l.map (·.1)).map UInt32.toNat).Subperm (List.range UInt32.size) := by
    refine List.subperm_of_subset hnodup fun n hn ↦ ?_
    obtain ⟨i, -, rfl⟩ := List.mem_map.1 hn
    exact List.mem_range.2 i.toNat_lt
  simpa using hsub.length_le

/-- A walk along a chain sees all its pages. -/
theorem IsChain.follow_eq {see : Page → Except Error α} {f : PageId × List UInt8 → α}
    {visited : List PageId} {n : Nat} (hc : IsChain c ((id, piece) :: l))
    (hvisited : ∀ i ∈ visited, i < id) (hn : l.length < n)
    (hsee : ∀ x ∈ (id, piece) :: l, ∀ page next, c x.1 = .ok page → page.Carries next x.2 →
      see page = .ok (f x)) :
    follow c see head visited id n = .ok (((id, piece) :: l).map f) := by
  induction l generalizing id piece visited n with
  | nil =>
    obtain ⟨n, rfl⟩ := Nat.exists_eq_add_one.2 hn
    obtain ⟨⟨page, hpage, hcarries⟩, -⟩ := hc.links
    have hnew : id ∉ visited := fun hmem ↦ UInt32.lt_irrefl id (hvisited id hmem)
    have hnext : page.next = 0 := hcarries.next_eq
    rw [follow, if_neg hnew, hpage, ok_bind, if_pos hcarries.isOverflow,
      hsee _ List.mem_cons_self page _ hpage hcarries, ok_bind, if_pos hnext]
    rfl
  | cons y l ih =>
    obtain ⟨next, piece'⟩ := y
    obtain ⟨n, rfl⟩ := Nat.exists_eq_add_one.2 (Nat.zero_lt_of_lt hn)
    obtain ⟨⟨page, hpage, hcarries⟩, hrest⟩ := hc.links
    obtain ⟨hbelow, hincreasing⟩ := List.pairwise_cons.1 hc.increasing
    have hlt : id < next := hbelow next List.mem_cons_self
    have hnew : id ∉ visited := fun hmem ↦ UInt32.lt_irrefl id (hvisited id hmem)
    have hnext : page.next = next := hcarries.next_eq
    have hne : page.next ≠ 0 := by
      rw [hnext]
      rintro rfl
      exact UInt32.not_lt_zero hlt
    have hvisited' (i : PageId) (hi : i ∈ id :: visited) : i < next := by
      rcases List.mem_cons.1 hi with rfl | hi
      · exact hlt
      · exact UInt32.lt_trans (hvisited i hi) hlt
    have hwalk := ih ⟨hrest, hincreasing⟩ hvisited' (Nat.lt_of_succ_lt_succ hn)
      fun x hx ↦ hsee x (List.mem_cons_of_mem _ hx)
    rw [follow, if_neg hnew, hpage, ok_bind, if_pos hcarries.isOverflow,
      hsee _ List.mem_cons_self page _ hpage hcarries, ok_bind, if_neg hne, hnext, hwalk]
    rfl

/-- On a chain is the record that its pieces make up. -/
theorem IsChain.recordAt_eq (hc : IsChain c ((id, piece) :: l)) :
    recordAt c id = .ok (piece :: l.map (·.2)).flatten := by
  have hwalk : follow c recordBytes id [] id (UInt32.size + 1) =
      .ok (((id, piece) :: l).map (·.2)) :=
    hc.follow_eq nofun (Nat.lt_succ_of_lt hc.length_le) fun x _ page next _ hcarries ↦ by
      obtain ⟨rid, hrecords⟩ := hcarries.records
      rw [recordBytes, hrecords]
      exact congrArg Except.ok (List.append_nil _)
  rw [recordAt, hwalk]
  rfl

/-! ## Building a chain -/

section Building

variable [Replacer ρ] {p₀ p q s t : Pool ρ} {g g' : Guard} {pieces : List (List UInt8)}
  {held : List PageId} {v : Finset PageId} {u : Finset PageId}

/-- The work of `p₀` has come to the point where the last page of the chain so far is pinned and
holds its piece. -/
structure Storing (p₀ : Pool ρ) (g : Guard) (piece : List UInt8) (p : Pool ρ) : Prop where
  errand : ∃ v, p₀.Errand p₀.newIds [g.page] v p
  grips : p.Grips g
  dirty : g.dirty = true
  mem_newIds : g.page ∈ p₀.newIds
  lt_next : g.page.toNat < p.file.ids.next.toNat
  carries : (p.page g.handle).Carries 0 piece

/-- A new page was pinned and joined to the chain. -/
structure Joining (p₀ : Pool ρ) (held : List PageId) (g : Guard) (s : Pool ρ) : Prop where
  errand : ∃ v, p₀.Errand p₀.newIds (g.page :: held) v s
  grips : s.Grips g
  dirty : g.dirty = true
  mem_newIds : g.page ∈ p₀.newIds
  lt_next : g.page.toNat < s.file.ids.next.toNat
  joined : (s.page g.handle).Joined
  behind : ∀ i : PageId, g.page.toNat < i.toNat → ¬ s.Holds i

theorem next_joinChain {prev : Option Guard} (hp : p.Sound)
    (hnext : p.file.ids.next.toNat + 1 < UInt32.size) (hguard : p.guardNew = (.ok g, t)) :
    (joinChain t prev g).file.ids.next.toNat = p.file.ids.next.toNat + 1 := by
  have hids := ids_of_newPage hp hnext (newPage_of_guardNew hguard).1
  cases prev with
  | none =>
    rw [joinChain, file_setPage]
    exact hids
  | some prev =>
    rw [joinChain, file_setPage, file_setPage]
    exact hids

theorem joining_of_first (hp : p.Sound) (hnext : p.file.ids.next.toNat + 1 < UInt32.size)
    (hguard : p.guardNew = (.ok g, t)) : Joining p [] g (joinChain t none g) := by
  obtain ⟨hgrips, hid, -, hfresh⟩ := grips_of_guardNew hp hnext hguard
  obtain ⟨hnew, hdirty⟩ := newPage_of_guardNew hguard
  have hmem : g.page ∈ p.newIds := by
    rw [hid]
    exact Nat.le_refl _
  have hheld : p.Errand p.newIds [g.page] ∅ t := Errand.start.guardNew hnext hguard
  have hmark : Page.Edit.markOverflow.apply (t.page g.handle) =
      .ok (t.page g.handle).markOverflow := rfl
  obtain ⟨hchanged, hgrips', hpage⟩ := hheld.change (e := .markOverflow) hp hgrips
    (List.mem_singleton_self _) hmem trivial hmark
  refine ⟨⟨_, hchanged⟩, hgrips', hdirty, hmem, ?_, ?_, fun i hi hholds ↦ ?_⟩
  · rw [next_joinChain hp hnext hguard, hid]
    exact Nat.lt_succ_self _
  · rw [joinChain, hpage, hfresh]
    exact Page.joined_markOverflow _
  · rw [hid] at hi
    refine not_holds_of_newPage hp hnext (Nat.le_of_lt hi) ?_ hnew
      (hholds.congr (hgrips.content_of_setPage (hheld.sound hp).toSteady hmark ?_).symm)
    · rintro ⟨rfl, -⟩
      exact Nat.lt_irrefl _ hi
    · rw [hid]
      rintro rfl
      exact Nat.lt_irrefl _ hi

theorem next_of_first (hp : p.Sound) (hnext : p.file.ids.next.toNat + 1 < UInt32.size)
    (hguard : p.guardNew = (.ok g, t)) (page : Page) :
    ((joinChain t none g).setPage g.handle page).file.ids.next.toNat =
      p.file.ids.next.toNat + 1 := by
  rw [file_setPage]
  exact next_joinChain hp hnext hguard

theorem Joining.storing_first {rid : RecordId} {page : Page} (hj : Joining p [] g s) (hp : p.Sound)
    (hadd : (s.page g.handle).add piece = .ok (rid, page)) :
    Storing p g piece (s.setPage g.handle page) := by
  obtain ⟨v, hjoined⟩ := hj.errand
  obtain ⟨hchanged, hgrips, hpage⟩ := hjoined.change hp hj.grips List.mem_cons_self
    hj.mem_newIds (Page.Edit.safe_of_tidy hj.joined.tidy _) (Page.Edit.apply_add hadd)
  refine ⟨⟨_, hchanged⟩, hgrips, hj.dirty, hj.mem_newIds, ?_, ?_⟩
  · rw [file_setPage]
    exact hj.lt_next
  · rw [hpage]
    exact hj.joined.carries hadd

/-- Two pinned pages were linked: `g` leads to `g'`, and all other pages are as before. -/
structure Linking (t : Pool ρ) (g g' : Guard) (s : Pool ρ) : Prop where
  left : s.Grips g
  right : s.Grips g'
  left_page : s.page g.handle = ((t.page g.handle).link (t.page g'.handle)).1
  right_page : s.page g'.handle = ((t.page g.handle).link (t.page g'.handle)).2
  content_eq : ∀ i, i ≠ g.page → i ≠ g'.page → s.content i = t.content i
  spares : ∀ u i, i ≠ g.page → i ≠ g'.page → t.FaithfulAt u i → t.Spares s u i

private theorem linking_joinChain {touched : Set PageId} (h : p₀.Errand touched held v t)
    (hp₀ : p₀.Sound) (hleft : t.Grips g) (hright : t.Grips g') (hheld : g.page ∈ held)
    (hheld' : g'.page ∈ held) (hid : g.page ∈ touched) (hid' : g'.page ∈ touched)
    (hne : g.page ≠ g'.page) :
    (∃ w, p₀.Errand touched held w (joinChain t (some g) g')) ∧
      Linking t g g' (joinChain t (some g) g') := by
  -- First the page before is joined to the new one, then the new one to the page before.
  have hbefore : (Page.Edit.linkTo (t.page g'.handle)).apply (t.page g.handle) =
      .ok ((t.page g.handle).link (t.page g'.handle)).1 := rfl
  obtain ⟨h₁, ⟨hleft₁, hpage₁⟩, hright₁, hpage₁'⟩ :=
    h.change_apart (e := .linkTo _) hp₀ hleft hheld hid trivial hbefore hright hne.symm
  have hafter : (Page.Edit.linkFrom (t.page g.handle)).apply
      ((t.setPage g.handle ((t.page g.handle).link (t.page g'.handle)).1).page g'.handle) =
      .ok ((t.page g.handle).link (t.page g'.handle)).2 := by
    rw [hpage₁']
    rfl
  obtain ⟨h₂, ⟨hright₂, hpage₂'⟩, hleft₂, hpage₂⟩ :=
    h₁.change_apart (e := .linkFrom _) hp₀ hright₁ hheld' hid' trivial hafter hleft₁ hne
  have ht := h.sound hp₀
  have ht₁ := h₁.sound hp₀
  refine ⟨⟨_, h₂⟩, hleft₂, hright₂, hpage₂.trans hpage₁, hpage₂', fun i hi hi' ↦ ?_,
    fun u i hi hi' hfaithful ↦ ?_⟩
  · exact (hright₁.content_of_setPage ht₁.toSteady hafter hi').trans
      (hleft.content_of_setPage ht.toSteady hbefore hi)
  · have hspares := hleft.spares_of_setPage ht hbefore hfaithful hi
    exact hspares.trans (hright₁.spares_of_setPage ht₁ hafter hspares.toFaithfulAt hi')

/-- The last page `g` leads to a page that was pinned behind it, which has no piece so far. -/
structure Prolongs (p₀ p : Pool ρ) (g : Guard) (piece : List UInt8) (g' : Guard)
    (s : Pool ρ) : Prop where
  joining : Joining p₀ [g.page] g' s
  page_eq : g'.page = p.file.ids.next
  next_eq : s.file.ids.next.toNat = p.file.ids.next.toNat + 1
  grips : s.Grips g
  carries : (s.page g.handle).Carries g'.page piece
  spares : ∀ u i, i ≠ g.page → i ≠ g'.page → p.FaithfulAt u i → p.Spares s u i

/-- A further page, to which the last one leads from now on. -/
theorem Storing.prolongs (hs : Storing p₀ g piece p) (hp₀ : p₀.Sound)
    (hnext : p.file.ids.next.toNat + 1 < UInt32.size) (hguard : p.guardNew = (.ok g', t)) :
    Prolongs p₀ p g piece g' (joinChain t (some g) g') := by
  obtain ⟨v, herrand⟩ := hs.errand
  have hp := herrand.sound hp₀
  obtain ⟨hgrips', hid, -, hfresh⟩ := grips_of_guardNew hp hnext hguard
  obtain ⟨hnew, hdirty⟩ := newPage_of_guardNew hguard
  obtain ⟨hgrips, hpage⟩ := hs.grips.of_newPage hp hnext hnew
  have hlt := hs.lt_next
  have hne : g.page ≠ g'.page := by
    intro heq
    rw [heq, hid] at hlt
    exact Nat.lt_irrefl _ hlt
  have hmem : g'.page ∈ p₀.newIds := by
    rw [hid]
    exact Nat.le_trans hs.mem_newIds (Nat.le_of_lt hlt)
  have hcount : (joinChain t (some g) g').file.ids.next.toNat = p.file.ids.next.toNat + 1 :=
    next_joinChain hp hnext hguard
  obtain ⟨hover, hlinks⟩ := linking_joinChain (herrand.guardNew hnext hguard) hp₀ hgrips hgrips'
    (List.mem_cons_of_mem _ (List.mem_singleton_self _)) List.mem_cons_self hs.mem_newIds hmem hne
  refine ⟨⟨hover, hlinks.right, hdirty, hmem, ?_, ?_, fun i hi hholds ↦ ?_⟩, hid, hcount,
    hlinks.left, ?_, fun u i hi hi' hfaithful ↦ ?_⟩
  · rw [hcount, hid]
    exact Nat.lt_succ_self _
  · rw [hlinks.right_page, hfresh]
    exact Page.joined_link _ _
  · rw [hid] at hi
    have hne₁ : i ≠ g.page := fun heq ↦ Nat.lt_asymm hlt (heq ▸ hi)
    have hne₂ : i ≠ p.file.ids.next := fun heq ↦ Nat.lt_irrefl _ (heq ▸ hi)
    exact not_holds_of_newPage hp hnext (Nat.le_of_lt hi) (fun hr ↦ hne₂ hr.1) hnew
      (hholds.congr (hlinks.content_eq i hne₁ (hid ▸ hne₂)).symm)
  · have hcarries : ((t.page g.handle).link (t.page g'.handle)).1.Carries
        (t.page g'.handle).id piece := Page.Carries.link (hpage ▸ hs.carries) _
    rw [hlinks.left_page]
    rw [hfresh] at hcarries ⊢
    exact hcarries
  · have hspares := spares_of_newPage hp hnext hfaithful hnew
    exact hspares.trans (hlinks.spares u i hi hi' hspares.toFaithfulAt)

theorem Prolongs.ne_page (h : Prolongs p₀ p g piece g' s)
    (hi : i.toNat < p.file.ids.next.toNat) : i ≠ g'.page := by
  rintro rfl
  rw [h.page_eq] at hi
  exact Nat.lt_irrefl _ hi

theorem Joining.bare (hj : Joining p₀ held g s) (hs : s.Steady) (hi : g.page.toNat ≤ i.toNat) :
    s.Bare i := by
  rcases Nat.lt_or_eq_of_le hi with hlt | heq
  · exact bare_of_not_holds (hj.behind i hlt)
  · obtain rfl := UInt32.toNat_inj.1 heq
    intro page hpage
    rw [hj.grips.content_eq hs] at hpage
    rw [← Except.ok.inj hpage]
    exact Page.records_of_blank hj.joined.directory_eq

/-- A piece was stored on a page of its own behind the last one, which was joined to it and then
unpinned. -/
structure Extends (p₀ p : Pool ρ) (g : Guard) (piece : List UInt8) (g' : Guard)
    (piece' : List UInt8) (q : Pool ρ) : Prop where
  storing : Storing p₀ g' piece' q
  next_eq : q.file.ids.next.toNat = p.file.ids.next.toNat + 1
  page_eq : g'.page = p.file.ids.next
  content : ∃ page, q.content g.page = .ok page ∧ page.Carries g'.page piece
  spares : ∀ u i, i ≠ g.page → i.toNat < p.file.ids.next.toNat → p.FaithfulAt u i →
    p.Spares q u i

/-- The page that was joined gets its piece, and the page before it is unpinned. -/
theorem Prolongs.extends_of_add {piece' : List UInt8} {rid : RecordId} {page : Page}
    (h : Prolongs p₀ p g piece g' s) (hs : Storing p₀ g piece p) (hp₀ : p₀.Sound)
    (hadd : (s.page g'.handle).add piece' = .ok (rid, page)) :
    Extends p₀ p g piece g' piece' ((s.setPage g'.handle page).release g) := by
  have hj := h.joining
  have hne : g.page ≠ g'.page := h.ne_page hs.lt_next
  obtain ⟨v, herrand⟩ := hj.errand
  have happly := Page.Edit.apply_add hadd
  obtain ⟨hchanged, ⟨hself, hpage⟩, hother, hsame⟩ := herrand.change_apart (e := .add _) hp₀
    hj.grips List.mem_cons_self hj.mem_newIds (Page.Edit.safe_of_tidy hj.joined.tidy _) happly
    h.grips hne
  have hsound := hchanged.sound hp₀
  have hreleased := hchanged.release (g := g) (List.mem_cons_of_mem _ (List.mem_singleton_self _))
    fun _ ↦ hs.dirty
  rw [List.erase_cons_tail (by simpa using hne.symm), List.erase_cons_head] at hreleased
  obtain ⟨hself', hpage'⟩ := hself.of_unpin_ne hsound hne.symm
    (rfl : (s.setPage g'.handle page).unpin g.page g.dirty = _)
  have hids : ((s.setPage g'.handle page).release g).file.ids = s.file.ids :=
    congrArg PageFile.ids ((file_release _ _).trans (file_setPage _ _ _))
  refine ⟨⟨⟨_, hreleased⟩, hself', hj.dirty, hj.mem_newIds, ?_, ?_⟩, ?_, h.page_eq,
    ⟨_, ?_, h.carries⟩, fun u i hi hlt hfaithful ↦ ?_⟩
  · rw [hids]
    exact hj.lt_next
  · exact (hpage'.trans hpage).symm ▸ hj.joined.carries hadd
  · rw [hids, h.next_eq]
  · rw [content_of_release hsound.toSteady, hother.content_eq hsound.toSteady, hsame]
  · have h₁ := h.spares u i hi (h.ne_page hlt) hfaithful
    have h₂ := hj.grips.spares_of_setPage (herrand.sound hp₀) happly h₁.toFaithfulAt
      (h.ne_page hlt)
    exact (h₁.trans h₂).trans (spares_of_release hsound h₂.toFaithfulAt hi)

/-- The storing came to an end when a piece was to be stored behind the last page. This page keeps
its piece, and no page behind it has one. -/
structure Stops (p₀ p : Pool ρ) (g : Guard) (piece : List UInt8) (q : Pool ρ) : Prop where
  errand : p₀.Errand p₀.newIds [] ∅ q
  spares : ∀ u i, i ≠ g.page → i.toNat < p.file.ids.next.toNat → p.FaithfulAt u i →
    p.Spares q u i
  content : ∃ page next, q.content g.page = .ok page ∧ page.Carries next piece
  bare : ∀ i : PageId, p.file.ids.next.toNat ≤ i.toNat → q.Bare i

private theorem Storing.stops_of_guardNew (hs : Storing p₀ g piece p) (hp₀ : p₀.Sound)
    (hnext : p.file.ids.next.toNat + 1 < UInt32.size) (hguard : p.guardNew = (.error e, t)) :
    Stops p₀ p g piece (t.release g) := by
  obtain ⟨v, herrand⟩ := hs.errand
  have hp := herrand.sound hp₀
  have hnew := newPage_of_guardNew_error hguard
  have hfails := Errand.newPageFails herrand hnext hnew
  have ht := hfails.sound hp₀
  obtain ⟨hgrips, hpage⟩ := hs.grips.of_newPage hp hnext hnew
  refine ⟨hfails.release_last fun _ ↦ hs.dirty, fun u i hi _ hfaithful ↦ ?_,
    ⟨_, 0, ?_, hpage.symm ▸ hs.carries⟩, fun i hi ↦ ?_⟩
  · have hspares := spares_of_newPage hp hnext hfaithful hnew
    exact hspares.trans (spares_of_release ht hspares.toFaithfulAt hi)
  · exact (content_of_release ht.toSteady g _).trans (hgrips.content_eq ht.toSteady)
  · have hnone := not_holds_of_newPage hp hnext hi (by rintro ⟨-, ⟨⟩⟩) hnew
    exact (bare_of_not_holds hnone).congr (content_of_release ht.toSteady g i)

private theorem Prolongs.stops (h : Prolongs p₀ p g piece g' s) (hs : Storing p₀ g piece p)
    (hp₀ : p₀.Sound) : Stops p₀ p g piece ((s.release g').release g) := by
  have hj := h.joining
  obtain ⟨w, hjoined⟩ := hj.errand
  have hfirst := hjoined.release (g := g') List.mem_cons_self fun _ ↦ hj.dirty
  rw [List.erase_cons_head] at hfirst
  have hsound := hjoined.sound hp₀
  have hsound' := hfirst.sound hp₀
  have hsame (i : PageId) : ((s.release g').release g).content i = s.content i :=
    (content_of_release hsound'.toSteady g i).trans (content_of_release hsound.toSteady g' i)
  refine ⟨hfirst.release_last fun _ ↦ hs.dirty, fun u i hi hlt hfaithful ↦ ?_,
    ⟨_, _, (hsame _).trans (h.grips.content_eq hsound.toSteady), h.carries⟩,
    fun i hi ↦ Bare.congr ?_ (hsame i)⟩
  · have h₁ := h.spares u i hi (h.ne_page hlt) hfaithful
    have h₂ := spares_of_release (g := g') hsound h₁.toFaithfulAt (h.ne_page hlt)
    exact (h₁.trans h₂).trans (spares_of_release hsound' h₂.toFaithfulAt hi)
  · exact hj.bare hsound.toSteady (by rwa [h.page_eq])

/-- Why a piece is not stored on a new page: there is none to be had, or it does not take it. -/
def Balks (p : Pool ρ) (e : Error) : Prop := p.newPage.1 = .error e ∨ e.OfPage

/-- Either the piece comes behind the last page, or the storing is over. -/
theorem Storing.extends_or {res : Except Error (Option PageId)} {piece' : List UInt8}
    (hs : Storing p₀ g piece p) (hp₀ : p₀.Sound)
    (hnext : p.file.ids.next.toNat + 1 < UInt32.size)
    (h : storePieces p (some g) (piece' :: pieces) = (res, q)) :
    (∃ g' t r, Extends p₀ p g piece g' piece' t ∧ storePieces t (some g') pieces = (r, q) ∧
      res = r.map fun _ ↦ some g'.page) ∨
    (∃ e, res = .error e ∧ Balks p e) ∧ Stops p₀ p g piece q := by
  rw [storePieces] at h
  split at h
  next e t hguard =>
    cases h
    have hnew := newPage_of_guardNew_error hguard
    exact .inr ⟨⟨e, rfl, .inl (congrArg Prod.fst hnew)⟩, hs.stops_of_guardNew hp₀ hnext hguard⟩
  next g' t hguard =>
    have hprolongs := hs.prolongs hp₀ hnext hguard
    simp only at h
    split at h
    next e hadd =>
      cases h
      exact .inr ⟨⟨e, rfl, .inr (Page.add_failsWith _ _ e hadd)⟩, hprolongs.stops hs hp₀⟩
    next rid page hadd =>
      have hextends := hprolongs.extends_of_add hs hp₀ hadd
      split at h
      next e s hrest =>
        cases h
        exact .inl ⟨g', _, _, hextends, hrest, rfl⟩
      next head s hrest =>
        cases h
        exact .inl ⟨g', _, _, hextends, hrest, rfl⟩

theorem Extends.carries {piece' : List UInt8} (hext : Extends p₀ p g piece g' piece' t)
    (hp₀ : p₀.Sound) (hs : Storing p₀ g piece p) (hnext : p.file.ids.next.toNat + 1 < UInt32.size)
    (hspares : ∀ u i, i ≠ g'.page → i.toNat < t.file.ids.next.toNat → t.FaithfulAt u i →
      t.Spares q u i) : ∃ page, q.content g.page = .ok page ∧ page.Carries g'.page piece := by
  obtain ⟨page, hpage, hcarries⟩ := hext.content
  obtain ⟨v, herrand⟩ := hext.storing.errand
  have hlt := hs.lt_next
  have hnew : p₀.FaithfulAt ∅ g.page := by
    refine faithfulAt_of_absent (find?_of_not_holds hp₀.toSteady ?_)
    refine not_holds_of_newIds hp₀ ?_ hs.mem_newIds
    have hle : p₀.file.ids.next.toNat ≤ g.page.toNat := hs.mem_newIds
    omega
  have hne : g.page ≠ g'.page := by
    intro heq
    rw [heq, hext.page_eq] at hlt
    exact Nat.lt_irrefl _ hlt
  have hkept := hspares _ g.page hne (by rw [hext.next_eq]; omega) (herrand.keeps hp₀ hnew).1
  exact ⟨page, (hkept.content_eq (holds_of_content hpage)).trans hpage, hcarries⟩

/-- The rest of the pieces come behind the last page, whose content stays when it is unpinned. -/
theorem Storing.storePieces_cases {res : Except Error (Option PageId)}
    (hs : Storing p₀ g piece p) (hp₀ : p₀.Sound)
    (hroom : p.file.ids.next.toNat + pieces.length < UInt32.size)
    (h : storePieces p (some g) pieces = (res, q)) :
    p₀.Errand p₀.newIds [] ∅ q ∧
    (∀ u i, i ≠ g.page → i.toNat < p.file.ids.next.toNat → p.FaithfulAt u i → p.Spares q u i) ∧
    ∀ r, res = .ok r → ∃ l, l.map (·.2) = pieces ∧ IsChain q.content ((g.page, piece) :: l) ∧
      ∀ x ∈ (g.page, piece) :: l, x.1 ∈ p₀.newIds := by
  induction pieces generalizing p g piece res with
  | nil =>
    obtain ⟨v, herrand⟩ := hs.errand
    have hp := herrand.sound hp₀
    cases h
    refine ⟨herrand.release_last fun _ ↦ hs.dirty,
      fun u i hi _ hfaithful ↦ spares_of_release hp hfaithful hi, fun r _ ↦ ?_⟩
    refine ⟨[], rfl, ⟨⟨⟨_, ?_, hs.carries⟩, trivial⟩, List.pairwise_singleton _ _⟩, ?_⟩
    · exact (content_of_release hp.toSteady g _).trans (hs.grips.content_eq hp.toSteady)
    · rintro x hx
      rw [List.mem_singleton.1 hx]
      exact hs.mem_newIds
  | cons piece' pieces ih =>
    rw [List.length_cons] at hroom
    have hlt := hs.lt_next
    obtain ⟨g', t, r, hext, hrest, rfl⟩ | ⟨⟨e, rfl, -⟩, hstops⟩ := hs.extends_or hp₀ (by omega) h
    · have hcount := hext.next_eq
      obtain ⟨hover, hspares, hchain⟩ := ih hext.storing (by omega) hrest
      have hbefore {i : PageId} (hi : i.toNat < p.file.ids.next.toNat) : i ≠ g'.page := by
        rintro rfl
        rw [hext.page_eq] at hi
        exact Nat.lt_irrefl _ hi
      refine ⟨hover, fun u i hi hilt hfaithful ↦ ?_, fun r' hr' ↦ ?_⟩
      · have h₁ := hext.spares u i hi hilt hfaithful
        exact h₁.trans (hspares u i (hbefore hilt) (by omega) h₁.toFaithfulAt)
      · cases r with
        | error e => cases hr'
        | ok head =>
        obtain ⟨l, rfl, hl, hmem⟩ := hchain head rfl
        obtain ⟨page, hpage, hcarries⟩ := hext.carries hp₀ hs (by omega) hspares
        have hfirst : g.page < g'.page := by
          rw [hext.page_eq]
          exact UInt32.lt_iff_toNat_lt.2 hlt
        exact ⟨(g'.page, piece') :: l, rfl, hl.cons hpage hcarries hfirst,
          List.forall_mem_cons.2 ⟨hs.mem_newIds, hmem⟩⟩
    · exact ⟨hstops.errand, hstops.spares, fun _ hr ↦ absurd hr error_ne_ok⟩

theorem starts_or {res : Except Error (Option PageId)} (hp : p.Sound)
    (hnext : p.file.ids.next.toNat + 1 < UInt32.size)
    (h : storePieces p none (piece :: pieces) = (res, q)) :
    (∃ g s r, Storing p g piece s ∧ g.page = p.file.ids.next ∧
      s.file.ids.next.toNat = p.file.ids.next.toNat + 1 ∧
      storePieces s (some g) pieces = (r, q) ∧ res = r.map fun _ ↦ some g.page) ∨
    (∃ e, res = .error e ∧ Balks p e) ∧ p.Errand p.newIds [] ∅ q ∧
      ∀ i : PageId, p.file.ids.next.toNat ≤ i.toNat → q.Bare i := by
  rw [storePieces] at h
  split at h
  next e t hguard =>
    cases h
    have hnew := newPage_of_guardNew_error hguard
    exact .inr ⟨⟨e, rfl, .inl (congrArg Prod.fst hnew)⟩, .newPageFails .start hnext hnew,
      fun i hi ↦ bare_of_not_holds (not_holds_of_newPage hp hnext hi (by rintro ⟨-, ⟨⟩⟩) hnew)⟩
  next g t hguard =>
    have hj := joining_of_first hp hnext hguard
    have hid := (grips_of_guardNew hp hnext hguard).2.1
    obtain ⟨v, hjoined⟩ := hj.errand
    have hs := (hjoined.sound hp).toSteady
    simp only at h
    split at h
    next e hadd =>
      cases h
      refine .inr ⟨⟨e, rfl, .inr (Page.add_failsWith _ _ e hadd)⟩,
        hjoined.release_last fun _ ↦ hj.dirty, fun i hi ↦ ?_⟩
      exact (hj.bare hs (by rwa [hid])).congr (content_of_release hs g i)
    next rid page hadd =>
      have hids := next_of_first hp hnext hguard page
      split at h
      next e s hrest =>
        cases h
        exact .inl ⟨g, _, _, hj.storing_first hp hadd, hid, hids, hrest, rfl⟩
      next head s hrest =>
        cases h
        exact .inl ⟨g, _, _, hj.storing_first hp hadd, hid, hids, hrest, rfl⟩

/-- Pieces are stored on new pages alone, and if all of them are, these pages are a chain. -/
theorem storePieces_cases {res : Except Error (Option PageId)} (hp : p.Sound)
    (hroom : p.file.ids.next.toNat + pieces.length < UInt32.size)
    (h : storePieces p none pieces = (res, q)) :
    p.Errand p.newIds [] ∅ q ∧ ∀ head, res = .ok (some head) → ∃ piece l,
      piece :: l.map (·.2) = pieces ∧ IsChain q.content ((head, piece) :: l) ∧
        ∀ x ∈ (head, piece) :: l, x.1 ∈ p.newIds := by
  cases pieces with
  | nil =>
    cases h
    exact ⟨.start, nofun⟩
  | cons piece pieces =>
    rw [List.length_cons] at hroom
    obtain ⟨g, s, r, hs, -, hids, hrest, rfl⟩ | ⟨⟨e, rfl, -⟩, hover, -⟩ :=
      starts_or hp (by omega) h
    · obtain ⟨hover, -, hchain⟩ := hs.storePieces_cases hp (by omega) hrest
      refine ⟨hover, fun head hhead ↦ ?_⟩
      obtain ⟨first, rfl, heq⟩ := map_eq_ok_iff.1 hhead
      obtain rfl := Option.some.inj heq
      obtain ⟨l, rfl, hl, hmem⟩ := hchain first rfl
      exact ⟨piece, l, rfl, hl, hmem⟩
    · exact ⟨hover, nofun⟩

private theorem Storing.next_of_storePieces {r : Option PageId} (hs : Storing p₀ g piece p)
    (hp₀ : p₀.Sound) (hroom : p.file.ids.next.toNat + pieces.length < UInt32.size)
    (h : storePieces p (some g) pieces = (.ok r, q)) :
    q.file.ids.next.toNat = p.file.ids.next.toNat + pieces.length := by
  induction pieces generalizing p g piece r with
  | nil =>
    cases h
    rw [release?, file_release]
    rfl
  | cons piece' pieces ih =>
    rw [List.length_cons] at hroom ⊢
    obtain ⟨g', t, r', hext, hrest, hr⟩ | ⟨⟨e, ⟨⟩, -⟩, -⟩ := hs.extends_or hp₀ (by omega) h
    obtain ⟨first, rfl, -⟩ := map_eq_ok_iff.1 hr.symm
    have hcount := hext.next_eq
    rw [ih hext.storing (by omega) hrest, hcount]
    omega

theorem next_of_storePieces {r : Option PageId} (hp : p.Sound)
    (hroom : p.file.ids.next.toNat + pieces.length < UInt32.size)
    (h : storePieces p none pieces = (.ok r, q)) :
    q.file.ids.next.toNat = p.file.ids.next.toNat + pieces.length := by
  cases pieces with
  | nil =>
    cases h
    rfl
  | cons piece pieces =>
    rw [List.length_cons] at hroom ⊢
    obtain ⟨g, s, r', hs, -, hids, hrest, hr⟩ | ⟨⟨e, ⟨⟩, -⟩, -⟩ :=
      starts_or hp (by omega) h
    obtain ⟨first, rfl, -⟩ := map_eq_ok_iff.1 hr.symm
    rw [hs.next_of_storePieces hp (by omega) hrest, hids]
    omega

theorem overflowPieces_ne_nil (hsize : minRecordSize ≤ record.length) :
    overflowPieces record ≠ [] := by
  intro hnone
  have hempty := flatten_pieces (ceilDiv record.length (ceilDiv record.length maxRecordSize)) record
  rw [show pieces _ record = [] from hnone] at hempty
  rw [← hempty] at hsize
  exact absurd hsize (by decide)

private theorem storePieces_ne_none {prev : Option Guard} (hne : pieces ≠ []) :
    (storePieces p prev pieces).1 ≠ .ok none := by
  cases pieces with
  | nil => exact absurd rfl hne
  | cons piece pieces =>
    rw [storePieces]
    split
    next => exact error_ne_ok
    next =>
      simp only
      split
      next => exact error_ne_ok
      next =>
        split
        next => exact error_ne_ok
        next =>
          rintro ⟨⟩

theorem insertOverflow_eq_error_iff (hsize : minRecordSize ≤ record.length) :
    insertOverflow p record = (.error e, q) ↔
      storePieces p none (overflowPieces record) = (.error e, q) := by
  rw [insertOverflow, if_neg (Nat.not_lt.2 hsize)]
  split
  next hstore =>
    rw [hstore]
    simp only [Prod.mk.injEq, Except.error.injEq]
  next hstore =>
    rw [hstore]
    simp only [Prod.mk.injEq, reduceCtorEq, false_and]
  next hstore =>
    exact absurd (congrArg Prod.fst hstore) (storePieces_ne_none (overflowPieces_ne_nil hsize))

/-- A record is stored when its pieces are, and its chain begins with the first of them. -/
theorem insertOverflow_eq_ok_iff : insertOverflow p record = (.ok head, q) ↔
    minRecordSize ≤ record.length ∧
      storePieces p none (overflowPieces record) = (.ok (some head), q) := by
  rw [insertOverflow]
  split
  next hsmall =>
    exact iff_of_false (fun h ↦ error_ne_ok (congrArg Prod.fst h))
      fun h ↦ Nat.not_lt.2 h.1 hsmall
  next hsize =>
    rw [and_iff_right (Nat.not_lt.1 hsize)]
    split
    next hstore => simp only [hstore, Prod.mk.injEq, reduceCtorEq, false_and]
    next hstore => simp only [hstore, Prod.mk.injEq, Except.ok.injEq, Option.some.injEq]
    next hstore =>
      simp only [hstore, Prod.mk.injEq, reduceCtorEq, Except.ok.injEq, false_and]

/-- A record is stored on pages that were not there before, and if it is stored in full they are a
chain. -/
theorem insertOverflow_cases {res : Except Error PageId} (hp : p.Sound)
    (hroom : p.file.ids.next.toNat + (overflowPieces record).length < UInt32.size)
    (h : insertOverflow p record = (res, q)) :
    (∃ touched, p.Errand touched [] ∅ q ∧ ∀ i ∈ touched, ¬ p.Holds i) ∧
    ∀ head, res = .ok head → ∃ piece l, (piece :: l.map (·.2)).flatten = record ∧
      IsChain q.content ((head, piece) :: l) ∧ ∀ x ∈ (head, piece) :: l, ¬ p.Holds x.1 := by
  have hnew (hsize : minRecordSize ≤ record.length) : ∀ i ∈ p.newIds, ¬ p.Holds i := by
    have hpos := List.length_pos_iff.2 (overflowPieces_ne_nil hsize)
    exact fun i hi ↦ not_holds_of_newIds hp (by omega) hi
  cases res with
  | error e =>
    refine ⟨?_, fun _ hok ↦ absurd hok error_ne_ok⟩
    rcases Nat.lt_or_ge record.length minRecordSize with hsmall | hsize
    · rw [insertOverflow, if_pos hsmall] at h
      cases h
      exact ⟨∅, .start, fun i hi ↦ absurd hi (Set.notMem_empty i)⟩
    · have hstore := (insertOverflow_eq_error_iff hsize).1 h
      exact ⟨_, (storePieces_cases hp hroom hstore).1, hnew hsize⟩
  | ok head =>
    obtain ⟨hsize, hstore⟩ := insertOverflow_eq_ok_iff.1 h
    obtain ⟨hover, hchain⟩ := storePieces_cases hp hroom hstore
    refine ⟨⟨_, hover, hnew hsize⟩, ?_⟩
    rintro _ ⟨⟩
    obtain ⟨piece, l, hpieces, hl, hmem⟩ := hchain head rfl
    refine ⟨piece, l, ?_, hl, fun x hx ↦ hnew hsize _ (hmem x hx)⟩
    rw [hpieces]
    exact flatten_pieces _ record

end Building

end Heap

end PagedStorage
