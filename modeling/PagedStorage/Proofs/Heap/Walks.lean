import PagedStorage.Heap.Overflow
import PagedStorage.Proofs.Heap.Calls
import PagedStorage.Proofs.Pool.FailedDeletes

/-!
# Walks along chains

A walk goes from page to page as the links say. It changes nothing, and every page that it has
seen was there at the start. Which pages these are, and what the walk answers, the contents of the
pages determine, `Heap.follow`, as far as the pool can pin the pages. A pool that is ready can, so
there all reading operations of a heap are functions of the contents.

## What a walk has seen

Two things are said of a walk. For any pool and any medium, `walkChain_cases`: it is an errand that
touches nothing, and whatever it answers was seen on pages that belong to chains and whose ids were
given out. And for a pool that is ready, `walkChain_of_ready`: it answers what `Heap.follow` does.
The first is what deletions build on, which may meet anything. The second needs the ids that the
walk comes to to be closed under the links, `Heap.Closed`, since a page outside of them could appear
on the way.

## Deleting chains

Deleting a chain is to walk along it and then to delete the pages that were seen. Either the walk
fails, and nothing happens, or pages of chains are deleted up to the first one that is refused. So
no page is changed that is on no chain (`errand_of_deleteOverflow`), whatever the links are. The ids
were given out, so that a deletion that is cut off makes no page that nobody knows of.
-/

namespace PagedStorage

namespace Pool

variable {ρ : Type} {p q t : Pool ρ} {id i : PageId}

variable [Replacer ρ] {g : Guard} {r : Except Error Unit}

private theorem covers_of_guard (hp : p.Sound) (h : p.guard id = (.ok g, t)) :
    (t.page g.handle).id = id ∧ p.file.ids.Covers (id.toNat + 1) := by
  obtain ⟨hfetch, rfl, -⟩ := fetch_of_guard h
  have ht := sound_of_fetch hp hfetch
  have hgrips := grips_of_guard hp h
  obtain ⟨hresident, hpage⟩ := ht.find?_iff.1 hgrips.find?_eq
  have hindexed := ht.indexed _ _ hresident hpage
  rw [← ids_of_fetch hp hfetch]
  exact ⟨hgrips.page_eq ▸ hindexed.page_id, hindexed.covers⟩

private theorem header?_of_delete (hp : p.Steady) (h : p.delete id = (r, q))
    (hi : p.file.header? i = some (.fresh i) ∨ i = id ∧ r = .ok ()) :
    q.file.header? i = some (.fresh i) := by
  obtain ⟨-, -, -, rfl, rfl⟩ | ⟨t, file, hdrops, hdelete, rfl⟩ := delete_cases hp.inFlight_eq
    hp.not_loading h
  · obtain hold | ⟨-, ⟨⟩⟩ := hi
    exact hold
  · rw [hdrops.file_eq] at hdelete
    exact PageFile.header?_of_deletePage hdelete hi

end Pool

namespace Heap

open Pool

variable {α ρ : Type} {see : Page → Except Error α} {head id i : PageId} {visited : List PageId}
  {n : Nat} {c : PageId → Except Error Page} {seen : List α}

/-! ## Chains of contents -/

/-- A walk where the pages are `c`. -/
def follow (c : PageId → Except Error Page) (see : Page → Except Error α) (head : PageId)
    (visited : List PageId) (id : PageId) : Nat → Except Error (List α)
  | 0 => .error (.corruptedPage id (.chainLoop head))
  | budget + 1 =>
    if id ∈ visited then .error (.corruptedPage id (.chainLoop head))
    else do
      let page ← c id
      if page.isOverflow then
        let seen ← see page
        if page.next = 0 then .ok [seen]
        else
          let rest ← follow c see head (id :: visited) page.next budget
          .ok (seen :: rest)
      else .error (.notOverflowPage id)

theorem follow_succ_eq_ok_iff {page : Page} (hnew : id ∉ visited) (hc : c id = .ok page) :
    follow c see head visited id (n + 1) = .ok seen ↔
      ∃ a rest, (page.isOverflow = true ∧ see page = .ok a) ∧ seen = a :: rest ∧
        if page.next = 0 then rest = []
        else follow c see head (id :: visited) page.next n = .ok rest := by
  rw [follow, if_neg hnew, hc, ok_bind]
  by_cases hover : page.isOverflow
  · rw [if_pos hover, bind_eq_ok_iff]
    refine exists_congr fun a ↦ ?_
    split
    next =>
      constructor
      · rintro ⟨hsee, ⟨⟩⟩
        exact ⟨[], ⟨hover, hsee⟩, rfl, rfl⟩
      · rintro ⟨rest, ⟨-, hsee⟩, rfl, rfl⟩
        exact ⟨hsee, rfl⟩
    next =>
      rw [bind_eq_ok_iff]
      constructor
      · rintro ⟨hsee, rest, hrest, ⟨⟩⟩
        exact ⟨rest, ⟨hover, hsee⟩, rfl, hrest⟩
      · rintro ⟨rest, ⟨-, hsee⟩, rfl, hrest⟩
        exact ⟨hsee, rest, hrest, rfl⟩
  · rw [if_neg hover]
    refine iff_of_false error_ne_ok ?_
    rintro ⟨a, rest, ⟨hover', -⟩, -⟩
    exact hover hover'

theorem exists_of_follow (h : follow c see head visited id (n + 1) = .ok seen) :
    id ∉ visited ∧ ∃ page a rest, c id = .ok page ∧ (page.isOverflow = true ∧ see page = .ok a) ∧
      seen = a :: rest ∧
        if page.next = 0 then rest = []
        else follow c see head (id :: visited) page.next n = .ok rest := by
  have hnew : id ∉ visited := by
    intro hmem
    rw [follow, if_pos hmem] at h
    cases h
  cases hc : c id with
  | error e =>
    rw [follow, if_neg hnew, hc] at h
    cases h
  | ok page =>
    obtain ⟨a, rest, hstep⟩ := (follow_succ_eq_ok_iff hnew hc).1 h
    exact ⟨hnew, page, a, rest, rfl, hstep⟩

/-- A walk that comes to its end does so wherever the pages that it has seen are. -/
theorem follow_mono {d : PageId → Except Error Page}
    (hcd : ∀ i page, c i = .ok page → page.isOverflow = true → d i = .ok page)
    (h : follow c see head visited id n = .ok seen) :
    follow d see head visited id n = .ok seen := by
  induction n generalizing visited id seen with
  | zero => exact absurd h error_ne_ok
  | succ n ih =>
    obtain ⟨hnew, page, a, rest, hpage, ⟨hover, hsee⟩, hseen, hrest⟩ := exists_of_follow h
    refine (follow_succ_eq_ok_iff hnew (hcd id page hpage hover)).2
      ⟨a, rest, ⟨hover, hsee⟩, hseen, ?_⟩
    split at hrest
    next hlast => rwa [if_pos hlast]
    next hlast =>
      rw [if_neg hlast]
      exact ih hrest

/-- The record on a chain where the pages are `c`. -/
def recordAt (c : PageId → Except Error Page) (head : PageId) : Except Error (List UInt8) :=
  (follow c recordBytes head [] head (UInt32.size + 1)).map List.flatten

theorem recordAt_eq_ok_iff_follow {data : List UInt8} :
    recordAt c head = .ok data ↔ ∃ parts,
      follow c recordBytes head [] head (UInt32.size + 1) = .ok parts ∧ parts.flatten = data :=
  map_eq_ok_iff

variable {p q t : Pool ρ} {page : Page} {u : Finset PageId} {ids : List PageId}

variable [Replacer ρ]

/-! ## Walking -/

/-- What is shown after an errand that changes nothing was shown before. -/
theorem Shows.of_errand (h : Shows t id page) (hp : p.Sound) (herrand : p.Errand ∅ [] ∅ t) :
    Shows p id page := by
  intro u hid hholds
  have hs := herrand.spares hp hid (Set.notMem_empty id)
  have hsame := hs.content_eq hholds
  rw [← hsame]
  exact h u hs.toFaithfulAt (hholds.congr hsame)

/-- What was seen is there to be seen on a page that belongs to a chain, and the id of this page was
given out. -/
def Sees (p : Pool ρ) (see : Page → Except Error α) (a : α) : Prop :=
  ∃ page, Shows p page.id page ∧ p.file.ids.Covers (page.id.toNat + 1) ∧
    page.isOverflow = true ∧ see page = .ok a

private theorem sees_of_guard {g : Guard} {a : α} (hp : p.Sound) (h : p.guard id = (.ok g, t))
    (hover : (t.page g.handle).isOverflow = true) (hsee : see (t.page g.handle) = .ok a) :
    Sees p see a := by
  obtain ⟨hid, hcovers⟩ := covers_of_guard hp h
  exact ⟨_, hid.symm ▸ shows_of_guard hp h, hid.symm ▸ hcovers, hover, hsee⟩

private theorem Sees.of_errand {a : α} (h : Sees t see a) (hp : p.Sound)
    (herrand : p.Errand ∅ [] ∅ t) (hids : t.file.ids = p.file.ids) : Sees p see a := by
  obtain ⟨page, hshows, hcovers, hover, hsee⟩ := h
  exact ⟨page, hshows.of_errand hp herrand, hids ▸ hcovers, hover, hsee⟩

/-- A walk changes nothing, and what it answers was seen on pages that belong to chains. -/
theorem walkChain_cases {res : Except Error (List α)} (hp : p.Sound)
    (h : walkChain p see head visited id n = (res, q)) :
    p.Errand ∅ [] ∅ q ∧ q.file.ids = p.file.ids ∧ ∀ l, res = .ok l → ∀ a ∈ l, Sees p see a := by
  induction n generalizing p visited id res with
  | zero =>
    cases h
    exact ⟨.start, rfl, nofun⟩
  | succ n ih =>
    rw [walkChain] at h
    split at h
    next =>
      cases h
      exact ⟨.start, rfl, nofun⟩
    next =>
    split at h
    next e t hguard =>
      cases h
      exact ⟨errand_of_guard_error hguard, ids_of_fetch hp (fetch_of_guard_error hguard), nofun⟩
    next g t hguard =>
      have hvisit : p.Errand ∅ [] ∅ (t.release g) := errand_of_visit hguard g.dirty
      have hids := ids_of_visit hp hguard g
      simp only at h
      split at h
      next hover =>
        split at h
        next =>
          cases h
          exact ⟨hvisit, hids, nofun⟩
        next a hsee =>
          -- The page itself is settled before the walk goes on; what the rest shows is carried back
          -- over this visit.
          have hfirst : Sees p see a := sees_of_guard hp hguard hover hsee
          split at h
          next =>
            cases h
            refine ⟨hvisit, hids, ?_⟩
            rintro _ ⟨⟩ b hb
            rw [List.mem_singleton.1 hb]
            exact hfirst
          next =>
            split at h
            next e s hrest =>
              cases h
              obtain ⟨herrand, hids', -⟩ := ih (hvisit.sound hp) hrest
              exact ⟨hvisit.trans herrand, hids'.trans hids, nofun⟩
            next rest s hrest =>
              cases h
              obtain ⟨herrand, hids', hseen⟩ := ih (hvisit.sound hp) hrest
              refine ⟨hvisit.trans herrand, hids'.trans hids, ?_⟩
              rintro _ ⟨⟩ b hb
              rcases List.mem_cons.1 hb with rfl | hb
              · exact hfirst
              · exact (hseen rest rfl b hb).of_errand hp hvisit hids
      next =>
        cases h
        exact ⟨hvisit, hids, nofun⟩

theorem errand_of_readOverflow {res : Except Error (List UInt8)} (hp : p.Sound)
    (h : readOverflow p head = (res, q)) : p.Errand ∅ [] ∅ q := by
  rw [readOverflow] at h
  split at h
  next hwalk =>
    cases h
    exact (walkChain_cases hp hwalk).1
  next hwalk =>
    cases h
    exact (walkChain_cases hp hwalk).1

/-! ## Deleting pages -/

theorem errand_of_deletePages {res : Except Error Unit} (hp : p.Sound)
    (hids : ∀ i ∈ ids, p.file.ids.Covers (i.toNat + 1)) (h : deletePages p ids = (res, q)) :
    p.Errand {i | i ∈ ids} [] ∅ q := by
  induction ids generalizing p with
  | nil =>
    cases h
    exact .start
  | cons id ids ih =>
    rw [List.forall_mem_cons] at hids
    have hdeletes {r : Except Error Unit} {t : Pool ρ} (ht : p.delete id = (r, t)) :
        p.Errand {i | i ∈ id :: ids} [] ∅ t := .delete .start List.mem_cons_self hids.1 ht
    rw [deletePages] at h
    split at h
    next e t ht =>
      cases h
      exact hdeletes ht
    next t ht =>
      have hsame := (served_of_delete hp.toSteady hids.1 ht).ids_eq
      have hrest := ih ((hdeletes ht).sound hp) (fun i hi ↦ hsame ▸ hids.2 i hi) h
      exact (hdeletes ht).trans (hrest.mono fun i hi ↦ List.mem_cons_of_mem _ hi)

theorem served_of_deletePages {res : Except Error Unit} (hp : p.Sound)
    (hids : ∀ i ∈ ids, p.file.ids.Covers (i.toNat + 1)) (h : deletePages p ids = (res, q)) :
    p.file.Served q.file := by
  induction ids generalizing p with
  | nil =>
    cases h
    exact .start
  | cons id ids ih =>
    rw [List.forall_mem_cons] at hids
    rw [deletePages] at h
    split at h
    next e t ht =>
      cases h
      exact served_of_delete hp.toSteady hids.1 ht
    next t ht =>
      have hserved := served_of_delete hp.toSteady hids.1 ht
      exact hserved.trans (ih (sound_of_delete hp (.inl hids.1) ht)
        (fun i hi ↦ hserved.ids_eq ▸ hids.2 i hi) h)

theorem fresh_of_deletePages (hp : p.Sound) (hids : ∀ i ∈ ids, p.file.ids.Covers (i.toNat + 1))
    (h : deletePages p ids = (.ok (), q))
    (hi : p.FaithfulAt u i ∧ (p.content i = .ok (.fresh i) ∧ p.file.header? i = some (.fresh i) ∨
      i ∈ ids)) : q.content i = .ok (.fresh i) ∧ q.file.header? i = some (.fresh i) := by
  induction ids generalizing p with
  | nil =>
    cases h
    exact hi.2.resolve_right List.not_mem_nil
  | cons id ids ih =>
    rw [List.forall_mem_cons] at hids
    rw [deletePages] at h
    split at h
    next => cases h
    next t ht =>
      have hsame := (served_of_delete hp.toSteady hids.1 ht).ids_eq
      refine ih (sound_of_delete hp (.inl hids.1) ht) (fun j hj ↦ hsame ▸ hids.2 j hj) h ?_
      obtain ⟨hfaithful, hfresh⟩ := hi
      by_cases hself : i = id
      · subst hself
        exact ⟨faithfulAt_of_delete hp hfaithful ht,
          .inl ⟨content_of_delete hp ht, header?_of_delete hp.toSteady ht (.inr ⟨rfl, rfl⟩)⟩⟩
      · have hs := spares_of_delete hp hfaithful hself ht
        refine ⟨hs.toFaithfulAt, hfresh.imp (fun hfresh ↦ ?_) fun hmem ↦ ?_⟩
        · obtain ⟨hcontent, hheader⟩ := hfresh
          exact ⟨(hs.content_eq (holds_of_content hcontent)).trans hcontent,
            header?_of_delete hp.toSteady ht (.inl hheader)⟩
        · exact (List.mem_cons.1 hmem).resolve_left hself

/-- If the medium refuses nothing, pages are deleted up to the first one in use. -/
theorem fst_deletePages (hp : p.Sound) (hwilling : p.file.store.Willing)
    (hext : p.file.Extensible)
    (hids : ∀ i ∈ ids, p.file.ids.Covers (i.toNat + 1) ∧ p.file.Fits i) :
    (deletePages p ids).1 =
      (ids.find? fun i ↦ 0 < p.users i).elim (.ok ()) fun i ↦ .error (.pagePinned i) := by
  induction ids generalizing p with
  | nil => rfl
  | cons id ids ih =>
    rw [List.forall_mem_cons] at hids
    obtain ⟨⟨hcovers, hfits⟩, hids⟩ := hids
    rcases hdelete : p.delete id with ⟨r, t⟩
    rw [deletePages, hdelete]
    rcases Nat.eq_zero_or_pos (p.users id) with hunused | hused
    · obtain rfl := delete_ok hp hwilling hext hunused hfits hdelete
      have hserved := served_of_delete hp.toSteady hcovers hdelete
      have husers (i : PageId) : t.users i = p.users i := users_of_delete hp hdelete
      have hrest := ih (sound_of_delete hp (.inl hcovers) hdelete) (hserved.willing hwilling)
        (extensible_of_delete hp.toSteady hext hfits.2 hdelete)
        fun i hi ↦ ⟨hserved.ids_eq ▸ (hids i hi).1, (hids i hi).2.congr hserved.medium_eq⟩
      simp only [husers] at hrest
      rw [List.find?_cons_of_neg (by simpa using hunused)]
      exact hrest
    · obtain ⟨rfl, -⟩ := eq_of_delete_used hp.toSteady hused hdelete
      rw [List.find?_cons_of_pos (by simpa using hused)]
      rfl

/-- Pages that nobody uses can be deleted then. -/
theorem deletePages_ok {res : Except Error Unit} (hp : p.Sound)
    (hwilling : p.file.store.Willing) (hext : p.file.Extensible)
    (hids : ∀ i ∈ ids, p.file.ids.Covers (i.toNat + 1) ∧ p.users i = 0 ∧ p.file.Fits i)
    (h : deletePages p ids = (res, q)) : res = .ok () := by
  have hall := fst_deletePages hp hwilling hext fun i hi ↦ ⟨(hids i hi).1, (hids i hi).2.2⟩
  have hnone : ids.find? (fun i ↦ 0 < p.users i) = none :=
    List.find?_eq_none.2 fun i hi ↦ by simpa using (hids i hi).2.1
  rw [h, hnone] at hall
  exact hall

/-! ## Deleting chains -/

/-- To delete a chain either fails on the way along it, and nothing happens, or touches pages of
chains only. -/
theorem deleteOverflow_cases {res : Except Error Unit} (hp : p.Sound)
    (h : deleteOverflow p head = (res, q)) :
    (∃ e, res = .error e ∧ (walkOverflow p (fun page ↦ .ok page.id) head).1 = .error e ∧
      p.Errand ∅ [] ∅ q) ∨
    ∃ ids t, walkOverflow p (fun page ↦ .ok page.id) head = (.ok ids, t) ∧
      p.Errand ∅ [] ∅ t ∧ t.file.ids = p.file.ids ∧ deletePages t ids = (res, q) ∧
      ∀ i ∈ ids, p.file.ids.Covers (i.toNat + 1) ∧
        ∃ page, Shows p i page ∧ page.isOverflow = true := by
  rw [deleteOverflow] at h
  split at h
  next e t hwalk =>
    cases h
    exact .inl ⟨e, rfl, congrArg Prod.fst hwalk, (walkChain_cases hp hwalk).1⟩
  next ids t hwalk =>
    obtain ⟨herrand, hids, hseen⟩ := walkChain_cases hp hwalk
    refine .inr ⟨ids, t, hwalk, herrand, hids, h, fun i hi ↦ ?_⟩
    obtain ⟨page, hshows, hcovers, hover, heq⟩ := hseen ids rfl i hi
    rw [← Except.ok.inj heq]
    exact ⟨hcovers, page, hshows, hover⟩

theorem errand_of_deleteOverflow {res : Except Error Unit} (hp : p.Sound)
    (h : deleteOverflow p head = (res, q)) : ∃ touched, p.Errand touched [] ∅ q ∧
      ∀ i ∈ touched, ∃ page, Shows p i page ∧ page.isOverflow = true := by
  obtain ⟨e, -, -, herrand⟩ | ⟨ids, t, -, herrand, hids, hdelete, hseen⟩ :=
    deleteOverflow_cases hp h
  · exact ⟨∅, herrand, fun i hi ↦ absurd hi (Set.notMem_empty i)⟩
  · refine ⟨{i | i ∈ ids}, (herrand.mono (Set.empty_subset _)).trans ?_,
      fun i hi ↦ (hseen i hi).2⟩
    exact errand_of_deletePages (herrand.sound hp) (fun i hi ↦ hids ▸ (hseen i hi).1) hdelete

/-! ## Answers of pools that are ready -/

variable [LawfulReplacer ρ] {rid : RecordId}

theorem get_of_ready (hp : p.Ready u) (hid : p.Exact rid.page)
    (hc : p.content rid.page = c rid.page) :
    (get p rid).1 = lookUp c rid ∧ p.Reads u (get p rid).2 := by
  rw [get, lookUp, ← hc]
  obtain ⟨e, t, hguard, hcontent, hreads⟩ | ⟨g, t, hguard, hcontent, hreads⟩ :=
    hp.guard_cases hid
  · rw [hguard, hcontent]
    exact ⟨rfl, hreads⟩
  · rw [hguard, hcontent]
    exact ⟨rfl, hreads⟩

theorem scanPages_of_ready (hp : p.Ready u) (hids : ∀ i ∈ ids, p.Exact i ∧ p.content i = c i) :
    (scanPages p ids).1 = listAll c ids ∧ p.Reads u (scanPages p ids).2 := by
  induction ids generalizing p with
  | nil => exact ⟨rfl, hp.reads⟩
  | cons id ids ih =>
    rw [List.forall_mem_cons] at hids
    obtain ⟨⟨hid, hc⟩, hids⟩ := hids
    rw [scanPages, listAll, ← hc]
    obtain ⟨e, t, hguard, hcontent, hreads⟩ | ⟨g, t, hguard, hcontent, hreads⟩ :=
      hp.guard_cases hid
    · rw [hguard, hcontent]
      exact ⟨rfl, hreads⟩
    · rw [hguard, hcontent]
      simp only [ok_bind]
      cases hrecords : (t.page g.handle).records with
      | error e => exact ⟨rfl, hreads⟩
      | ok records =>
        obtain ⟨hrest, hreads'⟩ := ih hreads.ready fun i hi ↦
          ⟨hreads.exact (hids i hi).1, (hreads.content_eq i (hids i hi).1).trans (hids i hi).2⟩
        rw [← hrest]
        simp only [ok_bind]
        cases hscan : scanPages (t.release g) ids with
        | mk res s =>
          rw [hscan] at hreads'
          cases res with
          | error e => exact ⟨rfl, hreads.trans hreads'⟩
          | ok more => exact ⟨rfl, hreads.trans hreads'⟩

/-- The pages that are shown under the ids in `ids`, to which the links on them lead back. -/
structure Closed (c : PageId → Except Error Page) (ids : Set PageId) : Prop where
  next_mem : ∀ i ∈ ids, ∀ page, c i = .ok page → page.next ≠ 0 → page.next ∈ ids

private theorem walkChain_of_ready {ids : Set PageId} (hp : p.Ready u) (hclosed : Closed c ids)
    (hids : ∀ i ∈ ids, p.Exact i ∧ p.content i = c i) (hid : id ∈ ids) :
    (walkChain p see head visited id n).1 = follow c see head visited id n ∧
      p.Reads u (walkChain p see head visited id n).2 := by
  induction n generalizing p visited id with
  | zero => exact ⟨rfl, hp.reads⟩
  | succ n ih =>
    rw [walkChain, follow]
    split
    next => exact ⟨rfl, hp.reads⟩
    next =>
    obtain ⟨hexact, hc⟩ := hids id hid
    have hnext := hclosed.next_mem id hid
    rw [← hc] at hnext ⊢
    obtain ⟨e, t, hguard, hcontent, hreads⟩ | ⟨g, t, hguard, hcontent, hreads⟩ :=
      hp.guard_cases hexact
    · rw [hguard, hcontent]
      exact ⟨rfl, hreads⟩
    · rw [hguard, hcontent]
      simp only [ok_bind]
      split
      next =>
        cases see (t.page g.handle) with
        | error e => exact ⟨rfl, hreads⟩
        | ok seen =>
          simp only [ok_bind]
          split
          next => exact ⟨rfl, hreads⟩
          next hlink =>
            have hids' (i : PageId) (hi : i ∈ ids) : (t.release g).Exact i ∧
                (t.release g).content i = c i :=
              ⟨hreads.exact (hids i hi).1,
                (hreads.content_eq i (hids i hi).1).trans (hids i hi).2⟩
            obtain ⟨hrest, hreads'⟩ := @ih _ (id :: visited) _ hreads.ready
              hids' (hnext _ hcontent hlink)
            rw [← hrest]
            cases hwalk : walkChain (t.release g) see head (id :: visited)
                (t.page g.handle).next n with
            | mk res s =>
              rw [hwalk] at hreads'
              cases res with
              | error e => exact ⟨rfl, hreads.trans hreads'⟩
              | ok more => exact ⟨rfl, hreads.trans hreads'⟩
      next => exact ⟨rfl, hreads⟩

theorem walkOverflow_of_ready {ids : Set PageId} (hp : p.Ready u) (hclosed : Closed c ids)
    (hids : ∀ i ∈ ids, p.Exact i ∧ p.content i = c i) (hhead : head ∈ ids)
    (see : Page → Except Error α) :
    (walkOverflow p see head).1 = follow c see head [] head (UInt32.size + 1) ∧
      p.Reads u (walkOverflow p see head).2 :=
  walkChain_of_ready hp hclosed hids hhead

theorem readOverflow_of_ready {ids : Set PageId} (hp : p.Ready u) (hclosed : Closed c ids)
    (hids : ∀ i ∈ ids, p.Exact i ∧ p.content i = c i) (hhead : head ∈ ids) :
    (readOverflow p head).1 = recordAt c head ∧ p.Reads u (readOverflow p head).2 := by
  obtain ⟨hwalk, hreads⟩ := walkOverflow_of_ready hp hclosed hids hhead
    recordBytes
  rw [readOverflow, recordAt, ← hwalk]
  split
  next h =>
    rw [h] at hreads ⊢
    exact ⟨rfl, hreads⟩
  next h =>
    rw [h] at hreads ⊢
    exact ⟨rfl, hreads⟩

end Heap

end PagedStorage
