import PagedStorage.Proofs.Heap.Records
import PagedStorage.Proofs.Heap.StoringInFull

/-!
# Long records come back

A heap keeps no list of the chains that it made: whoever stored a long record has the id of the
first page. For the chains of a heap this is enough. As long as a chain is not deleted, the record
on it can be read, whatever the heap does meanwhile, and a chain that is deleted leaves fresh pages
behind and nothing else changes, `Heap.KeepsRecords`.

## The books

The reason is that no two chains share a page, and none has a page of the heap. New pages have ids
that no page had, and the ids of deleted pages are not given out by a heap. What a chain was
is known as long as it is there, `Heap.Books`, and each call of the heap touches pages apart from
all chains but one at most. So for every call there are two things to show: that it is an errand
away from the chains (`Books.of_errand`), and what is entered or struck off.

The ledger is what a user would keep: for each id under which a long record was stored, the record,
or that it was deleted. The books add the chain, which the user does not see.

## What is assumed of the run

Only the heap's own calls are made on the pool. It deletes records of its own only, long or not, and
the medium does not fail while long ones are deleted. A deletion that fails half way leaves a chain
without a head, and then nothing can be promised of it. Storing may fail at any point: the pieces
that are left behind are on pages that belong to no chain in the books.
-/

namespace PagedStorage.Heap

open Pool

variable {α ρ : Type} {p q t : Pool ρ} {h h' : Heap} {head id i : PageId}
  {piece record : List UInt8} {l : List (PageId × List UInt8)} {u : Finset PageId}
  {touched : Set PageId}

/-! ## Walks along chains -/

theorem IsChain.holds (hc : IsChain p.content l) (hi : i ∈ l.map (·.1)) : p.Holds i := by
  obtain ⟨x, hx, rfl⟩ := List.mem_map.1 hi
  obtain ⟨page, next, hpage, -⟩ := hc.links.of_mem hx
  exact holds_of_content hpage

theorem IsChain.isOverflow {c : PageId → Except Error Page} {page : Page} (hc : IsChain c l)
    (hi : i ∈ l.map (·.1)) (hpage : c i = .ok page) : page.isOverflow = true := by
  obtain ⟨x, hx, rfl⟩ := List.mem_map.1 hi
  obtain ⟨page', next, hpage', hcarries, -⟩ := hc.links.of_mem hx
  obtain rfl := Except.ok.inj (hpage'.symm.trans hpage)
  exact hcarries.isOverflow

variable [Replacer ρ]

theorem walkOverflow_of_crowded [LawfulReplacer ρ] (hp : p.Steady) (hs : p.InStep)
    (hcrowded : p.Crowded) (hunused : p.users head = 0) (see : Page → Except Error α) :
    ∃ e, (walkOverflow p see head).1 = .error e := by
  have hfetch := fetch_of_crowded hp hs hcrowded hunused
  rw [walkOverflow, walkChain, if_neg List.not_mem_nil]
  split
  next e t _ => exact ⟨e, rfl⟩
  next g t hguard =>
    rw [(fetch_of_guard hguard).1] at hfetch
    cases hfetch

section Answers

variable [LawfulReplacer ρ]

theorem readOverflow_of_chain (hp : p.Ready u) (hc : IsChain p.content ((head, piece) :: l))
    (hcount : ∀ i ∈ ((head, piece) :: l).map (·.1), ¬ p.Full i) :
    (readOverflow p head).1 = .ok (piece :: l.map (·.2)).flatten := by
  rw [← hc.recordAt_eq]
  exact (readOverflow_of_ready hp hc.closed (fun i hi ↦ ⟨⟨hcount i hi, .inl (hc.holds hi)⟩, rfl⟩)
    List.mem_cons_self).1

theorem walkOverflow_of_fresh (hp : p.Ready u) (hfresh : p.content head = .ok (.fresh head))
    (hcount : ¬ p.Full head) (see : Page → Except Error α) :
    (walkOverflow p see head).1 = .error (.notOverflowPage head) := by
  have hclosed : Closed p.content {head} := by
    refine ⟨?_⟩
    rintro i rfl page hpage hne
    obtain rfl := Except.ok.inj (hfresh.symm.trans hpage)
    exact absurd rfl hne
  have hexact : p.Exact head := ⟨hcount, .inl (holds_of_content hfresh)⟩
  rw [(walkOverflow_of_ready hp hclosed (fun i hi ↦ hi ▸ ⟨hexact, rfl⟩) rfl see).1, follow,
    if_neg List.not_mem_nil, hfresh]
  rfl

theorem readOverflow_of_fresh (hp : p.Ready u) (hfresh : p.content head = .ok (.fresh head))
    (hcount : ¬ p.Full head) : (readOverflow p head).1 = .error (.notOverflowPage head) := by
  have hwalk := walkOverflow_of_fresh hp hfresh hcount recordBytes
  rw [readOverflow]
  split
  next h =>
    rw [h] at hwalk
    rw [Except.error.inj hwalk]
  next h =>
    rw [h] at hwalk
    cases hwalk

theorem walkOverflow_of_chain (hp : p.Ready u) (hc : IsChain p.content ((head, piece) :: l))
    (hcount : ∀ i ∈ ((head, piece) :: l).map (·.1), ¬ p.Full i) :
    (walkOverflow p (fun page ↦ .ok page.id) head).1 = .ok (((head, piece) :: l).map (·.1)) := by
  rw [(walkOverflow_of_ready hp hc.closed (fun i hi ↦ ⟨⟨hcount i hi, .inl (hc.holds hi)⟩, rfl⟩)
    List.mem_cons_self _).1]
  refine hc.follow_eq nofun (Nat.lt_succ_of_lt hc.length_le) fun x _ page next hpage _ ↦ ?_
  exact congrArg Except.ok (hp.readable hpage).2

end Answers

/-! ## Deleting a chain -/

/-- To delete a chain is to delete all its pages, unless there is no frame to be had for the walk
along it. -/
theorem deleteOverflow_of_chain {res : Except Error Unit} [LawfulReplacer ρ] (hp : p.Faithful u)
    (hs : p.InStep) (hfile : p.file.Reliable) (hc : IsChain p.content ((head, piece) :: l))
    (hunused : ∀ i ∈ ((head, piece) :: l).map (·.1), p.users i = 0)
    (h : deleteOverflow p head = (res, q)) :
    (p.Crowded ∧ (∃ e, res = .error e) ∧ p.Errand ∅ [] ∅ q) ∨
    res = .ok () ∧ p.Errand {i | i ∈ ((head, piece) :: l).map (·.1)} [] ∅ q ∧
      (walkOverflow p (fun page ↦ .ok page.id) head).1 = .ok (((head, piece) :: l).map (·.1)) ∧
      q.file.Reliable ∧ ∀ i ∈ ((head, piece) :: l).map (·.1),
        q.content i = .ok (.fresh i) ∧ q.file.header? i = some (.fresh i) := by
  have hcount (i : PageId) (hi : i ∈ ((head, piece) :: l).map (·.1)) : ¬ p.Full i :=
    not_full_of_unused (hunused i hi)
  obtain ⟨e, rfl, hwalk, herrand⟩ | ⟨ids, t, hwalk, herrand, hids, hdelete, hseen⟩ :=
    deleteOverflow_cases hp.toSound h
  · refine .inl ⟨?_, ⟨e, rfl⟩, herrand⟩
    by_contra hvacant
    rw [walkOverflow_of_chain (ready_of_reliable hp hs hvacant hfile) hc hcount] at hwalk
    cases hwalk
  · -- A crowded pool fails the walk at its first page, and this walk went through.
    have hvacant : ¬ p.Crowded := by
      intro hcrowded
      obtain ⟨e, herror⟩ := walkOverflow_of_crowded hp.toSteady hs hcrowded
        (hunused head List.mem_cons_self) fun page ↦ .ok page.id
      rw [hwalk] at herror
      cases herror
    have hready := ready_of_reliable hp hs hvacant hfile
    have hall := walkOverflow_of_chain hready hc hcount
    -- The walk reads the chain's own pages, no more and no fewer.
    obtain rfl : ids = ((head, piece) :: l).map (·.1) := by
      rw [hwalk] at hall
      exact Except.ok.inj hall
    have ht := herrand.sound hp.toSound
    have hreliable : t.file.Reliable := by
      have hroomy := hfile.roomy.congr (herrand.medium_eq hp) hids
      exact ⟨herrand.willing hp hfile.willing, hroomy, ht.ahead.extensible hroomy.next_lt⟩
    have hcovers : ∀ i ∈ ((head, piece) :: l).map (·.1), t.file.ids.Covers (i.toNat + 1) :=
      fun i hi ↦ hids ▸ (hseen i hi).1
    have hok := deletePages_ok ht hreliable.willing hreliable.extensible
      (fun i hi ↦ ⟨hcovers i hi, ?_, ?_⟩) hdelete
    · subst hok
      refine .inr ⟨rfl, (herrand.mono (Set.empty_subset _)).trans
        (errand_of_deletePages ht hcovers hdelete), hall,
        (served_of_deletePages ht hcovers hdelete).reliable hreliable, fun i hi ↦ ?_⟩
      exact fresh_of_deletePages ht hcovers hdelete ⟨(herrand.faithful hp).at i, .inr hi⟩
    · rw [herrand.users_eq hp.toSound]
      exact hunused i hi
    · exact hreliable.fits (hcovers i hi)

private theorem deleteOverflow_of_fresh {res : Except Error Unit} [LawfulReplacer ρ]
    (hp : p.Faithful u) (hs : p.InStep) (hfile : p.file.Reliable)
    (hfresh : p.content head = .ok (.fresh head)) (hunused : p.users head = 0)
    (h : deleteOverflow p head = (res, q)) : (∃ e, res = .error e) ∧ p.Errand ∅ [] ∅ q := by
  obtain ⟨e, rfl, -, herrand⟩ | ⟨ids, t, hwalk, -⟩ := deleteOverflow_cases hp.toSound h
  · exact ⟨⟨e, rfl⟩, herrand⟩
  · have herror : ∃ e, (walkOverflow p (fun page ↦ .ok page.id) head).1 = .error e := by
      by_cases hcrowded : p.Crowded
      · exact walkOverflow_of_crowded hp.toSteady hs hcrowded hunused _
      · exact ⟨_, walkOverflow_of_fresh (ready_of_reliable hp hs hcrowded hfile) hfresh
          (not_full_of_unused hunused) _⟩
    obtain ⟨e, herror⟩ := herror
    rw [hwalk] at herror
    cases herror

/-! ## Runs -/

/-- What became of a long record. -/
inductive Fate where
  | stored (record : List UInt8)
  | deleted

/-- The long records that were stored so far, by the first page of their chain. -/
abbrev Ledger := PageId → Option Fate

/-- The ledger after a record was stored, or not. -/
def Ledger.store (L : Ledger) (record : List UInt8) : Except Error PageId → Ledger
  | .ok head => Function.update L head (some (.stored record))
  | .error _ => L

/-- The ledger after a record was deleted, or not. -/
def Ledger.delete (L : Ledger) (head : PageId) : Except Error Unit → Ledger
  | .ok () => Function.update L head (some .deleted)
  | .error _ => L

theorem Ledger.of_erase {L : Ledger} {a : PageId} {fate : Fate}
    (ha : Function.update L head none a = some fate) : a ≠ head ∧ L a = some fate := by
  by_cases heq : a = head
  · subst heq
    rw [Function.update_self] at ha
    cases ha
  · exact ⟨heq, by rwa [Function.update_of_ne heq] at ha⟩

/-- The runs of a heap that stores long records as well. It deletes records of its own only, long
or not, and the medium does not fail while long ones are deleted. -/
inductive ChainRun (start : Pool ρ) : Heap → Pool ρ → Ledger → Prop
  | start : ChainRun start ⟨[]⟩ start fun _ ↦ none
  | insert {h : Heap} {p : Pool ρ} {L : Ledger} (record : List UInt8) : ChainRun start h p L →
      p.file.ids.next.toNat + 1 < UInt32.size →
      ChainRun start (h.insert p record).2.1 (h.insert p record).2.2 L
  | get {h : Heap} {p : Pool ρ} {L : Ledger} (rid : RecordId) : ChainRun start h p L →
      ChainRun start h (get p rid).2 L
  | delete {h : Heap} {p : Pool ρ} {L : Ledger} (rid : RecordId) : ChainRun start h p L →
      rid.page ∈ h.pages → ChainRun start h (delete p rid).2 L
  | scan {h : Heap} {p : Pool ρ} {L : Ledger} : ChainRun start h p L →
      ChainRun start h (h.scan p).2 L
  | insertOverflow {h : Heap} {p : Pool ρ} {L : Ledger} (record : List UInt8) :
      ChainRun start h p L →
      p.file.ids.next.toNat + (overflowPieces record).length < UInt32.size →
      ChainRun start h (insertOverflow p record).2 (L.store record (insertOverflow p record).1)
  | readOverflow {h : Heap} {p : Pool ρ} {L : Ledger} (head : PageId) : ChainRun start h p L →
      ChainRun start h (readOverflow p head).2 L
  | deleteOverflow {h : Heap} {p : Pool ρ} {L : Ledger} (head : PageId) : ChainRun start h p L →
      L head ≠ none → p.file.Reliable →
      ChainRun start h (deleteOverflow p head).2 (L.delete head (deleteOverflow p head).1)

/-- What the ledger says of the pages. -/
structure Books (h : Heap) (p : Pool ρ) (u : Finset PageId) (L : Ledger)
    (chain : PageId → List (PageId × List UInt8)) : Prop where
  kept : h.Kept p
  faithful : p.Faithful u
  stored : ∀ head record, L head = some (.stored record) →
    (∃ piece l, chain head = (head, piece) :: l ∧ (piece :: l.map (·.2)).flatten = record) ∧
      IsChain p.content (chain head) ∧ ∀ i ∈ (chain head).map (·.1), p.users i = 0
  apart : ∀ a b r s, L a = some (.stored r) → L b = some (.stored s) → a ≠ b →
    ((chain a).map (·.1)).Disjoint ((chain b).map (·.1))
  deleted : ∀ head, L head = some .deleted →
    p.content head = .ok (.fresh head) ∧ p.users head = 0 ∧ head ∉ h.pages

namespace Books

variable {L : Ledger} {chain : PageId → List (PageId × List UInt8)}

omit [Replacer ρ] in
theorem start (hp : p.Faithful u) : Books ⟨[]⟩ p u (fun _ ↦ none) fun _ ↦ [] :=
  ⟨kept_nil, hp, nofun, nofun, nofun⟩

omit [Replacer ρ] in
theorem holds (hb : Books h p u L chain) (hhead : L head ≠ none) : p.Holds head := by
  cases hfate : L head with
  | none => exact absurd hfate hhead
  | some fate =>
    cases fate with
    | stored record =>
      obtain ⟨⟨piece, l, heq, -⟩, hc, -⟩ := hb.stored head record hfate
      rw [heq] at hc
      exact hc.holds List.mem_cons_self
    | deleted =>
      exact holds_of_content (hb.deleted head hfate).1

omit [Replacer ρ] in
theorem notMem_pages (hb : Books h p u L chain) (hhead : L head = some (.stored record))
    (hi : i ∈ (chain head).map (·.1)) : i ∉ h.pages := by
  intro hmem
  obtain ⟨page, hpage, -, hplain⟩ := hb.kept.sheet i hmem
  have hover := (hb.stored head record hhead).2.1.isOverflow hi hpage
  rw [hplain] at hover
  cases hover

/-- An errand away from chains and deleted pages leaves the books as they are. -/
theorem of_errand (hb : Books h p u L chain) (herrand : p.Errand touched [] ∅ q)
    (hk : h'.Kept q)
    (hstored : ∀ head record, L head = some (.stored record) → ∀ i ∈ (chain head).map (·.1),
      i ∉ touched)
    (hdeleted : ∀ head, L head = some .deleted → head ∉ touched ∧ head ∉ h'.pages) :
    Books h' q u L chain := by
  have hp := hb.faithful.toSound
  have hsame {i : PageId} (hi : i ∉ touched) (hholds : p.Holds i) :
      q.content i = p.content i :=
    (herrand.spares hp (hb.faithful.at i) hi).content_eq hholds
  have husers (i : PageId) : q.users i = p.users i := herrand.users_eq hp i
  refine ⟨hk, herrand.faithful_over hb.faithful, fun head record hhead ↦ ?_, hb.apart,
    fun head hhead ↦ ?_⟩
  · obtain ⟨hl, hc, hunused⟩ := hb.stored head record hhead
    refine ⟨hl, hc.congr fun x hx ↦ ?_, fun i hi ↦ (husers i).trans (hunused i hi)⟩
    have hi := List.mem_map_of_mem (f := (·.1)) hx
    exact hsame (hstored head record hhead _ hi) (hc.holds hi)
  · obtain ⟨hnot, hpages⟩ := hdeleted head hhead
    obtain ⟨hfresh, hunused, -⟩ := hb.deleted head hhead
    exact ⟨(hsame hnot (holds_of_content hfresh)).trans hfresh, (husers head).trans hunused,
      hpages⟩

theorem of_visit (hb : Books h p u L chain) (herrand : p.Errand ∅ [] ∅ q) :
    Books h q u L chain :=
  hb.of_errand herrand
    (hb.kept.of_errand hb.faithful.toSound herrand fun i _ ↦ Set.notMem_empty i).1
    (fun _ _ _ i _ ↦ Set.notMem_empty i)
    fun head hhead ↦ ⟨Set.notMem_empty head, (hb.deleted head hhead).2.2⟩

theorem insert {res : Except Error RecordId} (hb : Books h p u L chain)
    (hnext : p.file.ids.next.toNat + 1 < UInt32.size)
    (hcall : h.insert p record = (res, h', q)) : Books h' q u L chain := by
  obtain ⟨hk, touched, herrand, hpages⟩ :=
    hb.kept.errand_of_insert hb.faithful.toSound hnext hcall
  refine hb.of_errand herrand hk (fun head r hhead i hi hmem ↦ ?_) fun head hhead ↦ ?_
  · obtain hmem | hnot := hpages i (.inl hmem)
    · exact hb.notMem_pages hhead hi hmem
    · exact hnot ((hb.stored head r hhead).2.1.holds hi)
  · have hneither : head ∉ h.pages ∧ p.Holds head :=
      ⟨(hb.deleted head hhead).2.2, hb.holds (by rw [hhead]; nofun)⟩
    rw [← not_or]
    intro hmem
    obtain hmem | hnot := hpages head hmem
    · exact hneither.1 hmem
    · exact hnot hneither.2

theorem delete {res : Except Error Unit} {rid : RecordId} (hb : Books h p u L chain)
    (hrid : rid.page ∈ h.pages) (hcall : Heap.delete p rid = (res, q)) :
    Books h q u L chain := by
  obtain ⟨hk, herrand⟩ := hb.kept.errand_of_delete hb.faithful.toSound hcall
  refine hb.of_errand herrand hk (fun head r hhead i hi heq ↦ ?_) fun head hhead ↦ ?_
  · exact hb.notMem_pages hhead hi (heq ▸ hrid)
  · have hnot := (hb.deleted head hhead).2.2
    exact ⟨fun heq ↦ hnot (heq ▸ hrid), hnot⟩

/-- Pages that were not there before are apart from all that the books know of. -/
theorem of_new (hb : Books h p u L chain) (herrand : p.Errand touched [] ∅ q)
    (hnew : ∀ i ∈ touched, ¬ p.Holds i) : Books h q u L chain := by
  have hp := hb.faithful.toSound
  have hold {i : PageId} (hholds : p.Holds i) : i ∉ touched := fun hmem ↦ hnew i hmem hholds
  refine hb.of_errand herrand (hb.kept.of_errand hp herrand fun i hi ↦ hold (hb.kept.holds hi)).1
    (fun head r hhead i hi ↦ hold ((hb.stored head r hhead).2.1.holds hi)) fun head hhead ↦
      ⟨hold (hb.holds (by rw [hhead]; nofun)), (hb.deleted head hhead).2.2⟩

omit [Replacer ρ] in
theorem enter (hb : Books h p u L chain) (hc : IsChain p.content ((head, piece) :: l))
    (hrecord : (piece :: l.map (·.2)).flatten = record)
    (hunused : ∀ i ∈ ((head, piece) :: l).map (·.1), p.users i = 0)
    (hapart : ∀ a r, L a = some (.stored r) →
      ((chain a).map (·.1)).Disjoint (((head, piece) :: l).map (·.1))) :
    Books h p u (Function.update L head (some (.stored record)))
      (Function.update chain head ((head, piece) :: l)) := by
  refine ⟨hb.kept, hb.faithful, fun a r ha ↦ ?_, fun a b r s ha hb' hne ↦ ?_, fun a ha ↦ ?_⟩
  · -- Of two recorded chains the new one may be the first, the second or neither.
    by_cases heq : a = head
    · subst heq
      rw [Function.update_self] at ha
      obtain rfl := Fate.stored.inj (Option.some.inj ha)
      rw [Function.update_self]
      exact ⟨⟨piece, l, rfl, hrecord⟩, hc, hunused⟩
    · rw [Function.update_of_ne heq] at ha ⊢
      exact hb.stored a r ha
  · by_cases hah : a = head
    · subst hah
      rw [Function.update_of_ne hne.symm] at hb' ⊢
      rw [Function.update_self]
      exact (hapart b s hb').symm
    · rw [Function.update_of_ne hah] at ha ⊢
      by_cases hbh : b = head
      · subst hbh
        rw [Function.update_self]
        exact hapart a r ha
      · rw [Function.update_of_ne hbh] at hb' ⊢
        exact hb.apart a b r s ha hb' hne
  · by_cases heq : a = head
    · subst heq
      rw [Function.update_self] at ha
      cases ha
    · rw [Function.update_of_ne heq] at ha
      exact hb.deleted a ha

theorem insertOverflow {res : Except Error PageId} (hb : Books h p u L chain)
    (hroom : p.file.ids.next.toNat + (overflowPieces record).length < UInt32.size)
    (hcall : insertOverflow p record = (res, q)) :
    (∀ head, res = .ok head → L head = none) ∧
      ∃ chain', Books h q u (L.store record res) chain' := by
  have hp := hb.faithful.toSound
  obtain ⟨⟨touched, herrand, hnew⟩, hchain⟩ := insertOverflow_cases hp hroom hcall
  have hbq := hb.of_new herrand hnew
  cases res with
  | error e => exact ⟨nofun, chain, hbq⟩
  | ok head =>
    obtain ⟨piece, l, hrecord, hc, hfirst⟩ := hchain head rfl
    have hapart {i : PageId} (hi : i ∈ ((head, piece) :: l).map (·.1)) : ¬ p.Holds i := by
      obtain ⟨x, hx, rfl⟩ := List.mem_map.1 hi
      exact hfirst x hx
    refine ⟨?_, _, hbq.enter hc hrecord (fun i hi ↦ ?_) fun a r ha i hi hi' ↦ ?_⟩
    · rintro _ ⟨⟩
      by_contra hold
      exact hapart List.mem_cons_self (hb.holds hold)
    · rw [herrand.users_eq hp]
      exact users_of_absent (find?_of_not_holds hp.toSteady (hapart hi))
    · exact hapart hi' ((hb.stored a r ha).2.1.holds hi)

omit [Replacer ρ] in
theorem forget (hb : Books h p u L chain) (head : PageId) :
    Books h p u (Function.update L head none) chain := by
  exact ⟨hb.kept, hb.faithful, fun a r ha ↦ hb.stored a r (Ledger.of_erase ha).2,
    fun a b r s ha hb' ↦ hb.apart a b r s (Ledger.of_erase ha).2 (Ledger.of_erase hb').2,
    fun a ha ↦ hb.deleted a (Ledger.of_erase ha).2⟩

omit [Replacer ρ] in
theorem bury (hb : Books h p u (Function.update L head none) chain)
    (hfresh : p.content head = .ok (.fresh head)) (hunused : p.users head = 0)
    (hnot : head ∉ h.pages) : Books h p u (Function.update L head (some .deleted)) chain := by
  have hback {a : PageId} {fate : Fate}
      (ha : Function.update L head (some .deleted) a = some fate) :
      (a = head ∧ fate = .deleted) ∨ Function.update L head none a = some fate := by
    by_cases heq : a = head
    · subst heq
      rw [Function.update_self] at ha
      exact .inl ⟨rfl, (Option.some.inj ha).symm⟩
    · rw [Function.update_of_ne heq] at ha
      exact .inr ((Function.update_of_ne heq _ _).trans ha)
  have hstored {a : PageId} {r : List UInt8}
      (ha : Function.update L head (some .deleted) a = some (.stored r)) :
      Function.update L head none a = some (.stored r) :=
    (hback ha).resolve_left fun h ↦ nomatch h.2
  refine ⟨hb.kept, hb.faithful, fun a r ha ↦ hb.stored a r (hstored ha),
    fun a b r s ha hb' ↦ hb.apart a b r s (hstored ha) (hstored hb'), fun a ha ↦ ?_⟩
  obtain ⟨rfl, -⟩ | ha := hback ha
  · exact ⟨hfresh, hunused, hnot⟩
  · exact hb.deleted a ha

theorem deleteOverflow [LawfulReplacer ρ] {res : Except Error Unit} (hb : Books h p u L chain)
    (hs : p.InStep) (hfile : p.file.Reliable) (hhead : L head ≠ none)
    (hcall : deleteOverflow p head = (res, q)) : Books h q u (L.delete head res) chain := by
  have hp := hb.faithful.toSound
  cases hfate : L head with
  | none => exact absurd hfate hhead
  | some fate =>
    cases fate with
    | deleted =>
      obtain ⟨hfresh, hunused, -⟩ := hb.deleted head hfate
      obtain ⟨⟨e, rfl⟩, herrand⟩ :=
        deleteOverflow_of_fresh hb.faithful hs hfile hfresh hunused hcall
      exact hb.of_visit herrand
    | stored record =>
      obtain ⟨⟨piece, l, heq, -⟩, hc, hunused⟩ := hb.stored head record hfate
      have hnot (i : PageId) (hi : i ∈ (chain head).map (·.1)) := hb.notMem_pages hfate hi
      have hapart (a : PageId) (r : List UInt8) (ha : L a = some (.stored r)) (hne : a ≠ head) :=
        hb.apart a head r record ha hfate hne
      rw [heq] at hc hunused hnot hapart
      obtain ⟨-, ⟨e, rfl⟩, herrand⟩ | ⟨rfl, herrand, -, -, hfresh⟩ :=
        deleteOverflow_of_chain hb.faithful hs hfile hc hunused hcall
      · exact hb.of_visit herrand
      · have hk := (hb.kept.of_errand hp herrand fun i hi hmem ↦ hnot i hmem hi).1
        have hforget : Books h q u (Function.update L head none) chain := by
          refine (hb.forget head).of_errand herrand hk (fun a r ha i hi hmem ↦ ?_) fun a ha ↦ ?_
          · obtain ⟨hne, ha⟩ := Ledger.of_erase ha
            exact hapart a r ha hne hi hmem
          · obtain ⟨hold, -, hpages⟩ := hb.deleted a (Ledger.of_erase ha).2
            exact ⟨fun hmem ↦ (nomatch hc.isOverflow hmem hold), hpages⟩
        refine hforget.bury (hfresh head List.mem_cons_self).1 ?_ (hnot head List.mem_cons_self)
        rw [herrand.users_eq hp]
        exact hunused head List.mem_cons_self

end Books

section Keeping

variable [LawfulReplacer ρ] {start : Pool ρ} {L : Ledger}

theorem ChainRun.books (hstart : start.Faithful u) (hs : start.InStep)
    (hrun : ChainRun start h p L) : p.InStep ∧ ∃ chain, Books h p u L chain := by
  induction hrun with
  | start => exact ⟨hs, _, .start hstart⟩
  | @insert h p L record _ hnext ih =>
    obtain ⟨hs, chain, hb⟩ := ih
    obtain ⟨-, touched, herrand, -⟩ :=
      hb.kept.errand_of_insert hb.faithful.toSound hnext (rfl : h.insert p record = _)
    exact ⟨herrand.inStep hb.faithful.toSound hs, chain, hb.insert hnext rfl⟩
  | @get h p L rid _ ih =>
    obtain ⟨hs, chain, hb⟩ := ih
    obtain ⟨herrand, -⟩ := get_cases hb.faithful.toSound (rfl : Heap.get p rid = _)
    exact ⟨herrand.inStep hb.faithful.toSound hs, chain, hb.of_visit herrand⟩
  | @delete h p L rid _ hrid ih =>
    obtain ⟨hs, chain, hb⟩ := ih
    obtain ⟨-, herrand⟩ :=
      hb.kept.errand_of_delete hb.faithful.toSound (rfl : Heap.delete p rid = _)
    exact ⟨herrand.inStep hb.faithful.toSound hs, chain, hb.delete hrid rfl⟩
  | @scan h p L _ ih =>
    obtain ⟨hs, chain, hb⟩ := ih
    obtain ⟨herrand, -⟩ := scanPages_cases hb.faithful.toSound
      (fun i hi ↦ ⟨hb.kept.faithfulAt i hi, hb.kept.holds hi⟩) (rfl : h.scan p = (_, _))
    exact ⟨herrand.inStep hb.faithful.toSound hs, chain, hb.of_visit herrand⟩
  | @insertOverflow h p L record _ hroom ih =>
    obtain ⟨hs, chain, hb⟩ := ih
    obtain ⟨⟨touched, herrand, -⟩, -⟩ := insertOverflow_cases hb.faithful.toSound hroom rfl
    exact ⟨herrand.inStep hb.faithful.toSound hs, (hb.insertOverflow hroom rfl).2⟩
  | @readOverflow h p L head _ ih =>
    obtain ⟨hs, chain, hb⟩ := ih
    have herrand := errand_of_readOverflow hb.faithful.toSound (rfl : Heap.readOverflow p head = _)
    exact ⟨herrand.inStep hb.faithful.toSound hs, chain, hb.of_visit herrand⟩
  | @deleteOverflow h p L head _ hhead hfile ih =>
    obtain ⟨hs, chain, hb⟩ := ih
    obtain ⟨touched, herrand, -⟩ :=
      errand_of_deleteOverflow hb.faithful.toSound (rfl : Heap.deleteOverflow p head = _)
    exact ⟨herrand.inStep hb.faithful.toSound hs, chain, hb.deleteOverflow hs hfile hhead rfl⟩

/-- What the ledger promises of a pool whose medium does not fail. -/
structure KeepsRecords (p : Pool ρ) (L : Ledger) : Prop where
  read_stored : ∀ head record, L head = some (.stored record) → ¬ p.Crowded →
    (readOverflow p head).1 = .ok record
  read_deleted : ∀ head, L head = some .deleted → ¬ p.Crowded →
    (readOverflow p head).1 = .error (.notOverflowPage head)
  insert_ok : ∀ record head q,
    p.file.ids.next.toNat + (overflowPieces record).length < UInt32.size →
    insertOverflow p record = (.ok head, q) → L head = none
  deletes : ∀ head record, L head = some (.stored record) → ¬ p.Crowded →
    (deleteOverflow p head).1 = .ok ()
  delete_ok : ∀ head record q, L head = some (.stored record) →
    deleteOverflow p head = (.ok (), q) → ∃ ids,
      (walkOverflow p (fun page ↦ .ok page.id) head).1 = .ok ids ∧ head ∈ ids ∧
      (∀ i ∈ ids, q.content i = .ok (.fresh i) ∧ i ∈ q.file.freePageIds) ∧
      (¬ q.Crowded → (readOverflow q head).1 = .error (.notOverflowPage head)) ∧
      ∀ i, i ∉ ids → p.Holds i → q.content i = p.content i

theorem Books.keepsRecords {chain : PageId → List (PageId × List UInt8)}
    (hb : Books h p u L chain) (hs : p.InStep) (hfile : p.file.Reliable) :
    KeepsRecords p L where
  read_stored head record hhead hvacant := by
    obtain ⟨⟨piece, l, heq, hrecord⟩, hc, hunused⟩ := hb.stored head record hhead
    rw [heq] at hc hunused
    rw [readOverflow_of_chain (ready_of_reliable hb.faithful hs hvacant hfile) hc
      fun i hi ↦ not_full_of_unused (hunused i hi), hrecord]
  read_deleted head hhead hvacant := by
    obtain ⟨hfresh, hunused, -⟩ := hb.deleted head hhead
    exact readOverflow_of_fresh (ready_of_reliable hb.faithful hs hvacant hfile) hfresh
      (not_full_of_unused hunused)
  insert_ok record head q hroom hcall := (hb.insertOverflow hroom hcall).1 head rfl
  deletes head record hhead hvacant := by
    obtain ⟨⟨piece, l, heq, -⟩, hc, hunused⟩ := hb.stored head record hhead
    rw [heq] at hc hunused
    obtain ⟨hcrowded, -⟩ | ⟨hok, -⟩ :=
      deleteOverflow_of_chain hb.faithful hs hfile hc hunused (rfl : Heap.deleteOverflow p head = _)
    · exact absurd hcrowded hvacant
    · exact hok
  delete_ok head record q hhead hcall := by
    obtain ⟨⟨piece, l, heq, -⟩, hc, hunused⟩ := hb.stored head record hhead
    rw [heq] at hc hunused
    obtain ⟨-, ⟨e, ⟨⟩⟩, -⟩ | ⟨-, herrand, hwalk, hreliable, hfresh⟩ :=
      deleteOverflow_of_chain hb.faithful hs hfile hc hunused hcall
    have hfaithful := herrand.faithful hb.faithful
    have hq := herrand.inStep hb.faithful.toSound hs
    refine ⟨_, hwalk, List.mem_cons_self, fun i hi ↦ ?_, fun hvacant ↦ ?_, fun i hi hholds ↦ ?_⟩
    · exact ⟨(hfresh i hi).1, PageFile.mem_freePageIds (hfresh i hi).2⟩
    · have husers : q.users head = p.users head := herrand.users_eq hb.faithful.toSound head
      exact readOverflow_of_fresh (ready_of_reliable hfaithful hq hvacant hreliable)
        (hfresh head List.mem_cons_self).1
        (not_full_of_unused (husers.trans (hunused head List.mem_cons_self)))
    · exact (herrand.spares hb.faithful.toSound (hb.faithful.at i) hi).content_eq hholds

end Keeping

/-- Whatever a heap does, a long record can be read as long as it is not deleted, and to delete it
frees its pages and changes no other one. -/
theorem ChainRun.keepsLongRecords {file : PageFile} {kind : ReplacerKind} {n capacity : Nat}
    {start p : Pool Policy} {L : Ledger} (hfile : file.Ahead) (hcapacity : n ≤ capacity)
    (hstart : Usage (Pool.ofFile file (.ofKind capacity kind) n) start u)
    (hrun : ChainRun start h p L) (hreliable : p.file.Reliable) : KeepsRecords p L := by
  have hfaithful := faithful_ofFile (s := Policy.ofKind capacity kind) (n := n) hfile
  obtain ⟨hs, chain, hb⟩ := hrun.books (hstart.faithful hfaithful)
    (hstart.inStep hfaithful (inStep_ofFile hcapacity))
  exact hb.keepsRecords hs hreliable

/-- A record on two pages, deleted again. -/
theorem ChainRun.keepsLongRecords_twoPages :
    let record := List.replicate 8161 7
    let p := (Heap.insertOverflow twoFrames record).2
    (overflowPieces record).length = 2 ∧
      (Heap.insertOverflow twoFrames record).1 = .ok 0 ∧
      (Heap.readOverflow p 0).1 = .ok record ∧
      (Heap.deleteOverflow p 0).1 = .ok () ∧
      (Heap.deleteOverflow p 0).2.content 0 = .ok (.fresh 0) := by
  intro record
  have hlength : record.length = 8161 := List.length_replicate
  have hsize : minRecordSize ≤ record.length := by
    rw [hlength]
    decide
  have hpieces := length_overflowPieces hlength
  have hroom : twoFrames.file.ids.next.toNat + (overflowPieces record).length ≤ 100 := by
    rw [hpieces]
    decide
  have hbound := Nat.lt_of_le_of_lt hroom provided_twoFrames.limit_lt
  have hstart : twoFrames.Faithful ∅ := faithful_ofFile PageFile.ahead_empty
  have hok := insertOverflow_of_provided provided_twoFrames hsize hroom
  have hrun := ChainRun.insertOverflow record (.start : ChainRun twoFrames _ _ _) hbound
  -- The pool behind the call is a variable from here on, since the call takes long to evaluate.
  rcases hinsert : Heap.insertOverflow twoFrames record with ⟨res, p⟩
  rw [hlength, if_neg (by decide)] at hok
  rw [hinsert] at hok hrun
  obtain rfl : res = .ok 0 := hok
  have hnext : p.file.ids.next.toNat = 2 := by
    have hstored := (insertOverflow_eq_ok_iff.1 hinsert).2
    rw [next_of_storePieces hstart.toSound hbound hstored, hpieces]
    rfl
  have hlast : p.file.ids.next.toNat + 1 < UInt32.size := by
    rw [hnext]
    decide
  obtain ⟨⟨touched, herrand, -⟩, -⟩ := insertOverflow_cases hstart.toSound hbound hinsert
  have hmemory : p.file.store.medium = .memory := herrand.medium_eq hstart
  have hreliable : p.file.Reliable :=
    ⟨herrand.willing hstart PageFile.willing_empty, ⟨Store.canHold_of_memory hmemory _, hlast⟩,
      (herrand.sound hstart.toSound).ahead.extensible hlast⟩
  have hvacant : ¬ p.Crowded := by
    have hframes := card_busyFrames_twoFrames
    rw [herrand.crowded_iff hstart.toSound, crowded_iff]
    omega
  have hkeeps :=
    ChainRun.keepsLongRecords PageFile.ahead_empty (Nat.le_refl 2) .start hrun hreliable
  have hstored : Ledger.store (fun _ ↦ none) record (.ok 0) 0 = some (.stored record) := rfl
  have hdeletes := hkeeps.deletes 0 record hstored hvacant
  obtain ⟨ids, -, hmem, hfresh, -⟩ := hkeeps.delete_ok 0 record _ hstored (Prod.ext hdeletes rfl)
  exact ⟨hpieces, rfl, hkeeps.read_stored 0 record hstored hvacant, hdeletes, (hfresh 0 hmem).1⟩

end PagedStorage.Heap
