import PagedStorage.Proofs.PageFile.Serving
import PagedStorage.Proofs.Pool.Calls
import PagedStorage.Replacement.Kind

/-!
# The accounts of a pool

At the end of every call, each frame is accounted for once: it is in the queue of free frames, or
the table has a page for it, which is the page it holds. Nothing is left over from a step on the
way, so no call has to wait for another one. A page in use is the same page in the same frame
after any call as it was before, and only its own calls change how many users it has.

## Nothing is owed to the policy

A policy may offer frames in use, free frames or the same frame twice; what the pool takes is what
it has checked. So all of this holds for any policy, and `Reached.keepsAccounts_scripted` has one
that offers the one frame of the pool over and over although its page is in use.

## What is owed to the ids

That two frames never hold the same page is a matter of the ids. If an id that is in the file was
not given out yet, its page can be brought in twice: once by its id, and once as the new page that
gets the id. A deletion that is cut off can put such a page into the file, and `heldTwice` is a pool
in which this has happened. One frame has page 0 and no user, the other one has it with a user, and
the table knows the second.
-/

namespace PagedStorage

/-- The number of pins of page `id` after a call. To add one more than can be counted is a fault. -/
def PoolCall.pinsAfter (c : PoolCall) (id : PageId) (pins : UInt32) : UInt32 :=
  match c with
  | fetch i => if i = id ∧ pins.toNat + 1 < UInt32.size then pins + 1 else pins
  | unpin i _ => if i = id then pins - 1 else pins
  | _ => pins

namespace Pool

variable {ρ : Type} {p q : Pool ρ} {f : Nat} {id : PageId}

/-- Each frame is accounted for once. -/
structure Accounts (p : Pool ρ) : Prop where
  keyed : p.table.Keyed
  nodup_frames : (p.table.map (·.2)).Nodup
  mem_table_iff : ∀ id f,
    (id, f) ∈ p.table ↔ (p.frame f).isResident ∧ (p.frame f).pageId = some id
  exists_pageId : ∀ f, (p.frame f).isResident → ∃ id, (p.frame f).pageId = some id
  residentPages_perm : p.residentPages.Perm (p.table.map (·.1))
  nodup_free : p.freeFrames.Nodup
  mem_free_iff : ∀ f, f ∈ p.freeFrames ↔ f < p.capacity ∧ (p.frame f).status = .free
  not_loading : ∀ f, (p.frame f).status ≠ .loading
  inFlight_eq : p.inFlight = []
  count_eq : p.freeFrameCount + p.residentPages.length = p.capacity

/-! ## Frames and pages in use -/

theorem Sound.mem_table_iff (hp : p.Sound) :
    (id, f) ∈ p.table ↔ (p.frame f).isResident ∧ (p.frame f).pageId = some id :=
  hp.keyed.mem_iff.trans hp.find?_iff

theorem Sound.nodup_frames (hp : p.Sound) : (p.table.map (·.2)).Nodup := by
  refine List.Nodup.map_on ?_ (List.Nodup.of_map _ hp.keyed)
  rintro ⟨i, f⟩ hi ⟨j, g⟩ hj heq
  obtain rfl : f = g := heq
  have hsame := (hp.mem_table_iff.1 hi).2.symm.trans (hp.mem_table_iff.1 hj).2
  rw [Option.some.inj hsame]

/-- A frame is free or in the table, but not both. -/
theorem Sound.frames_perm (hp : p.Sound) :
    (p.freeFrames ++ p.table.map (·.2)).Perm (List.range p.capacity) := by
  -- Neither side repeats a frame, so it is enough to know which frames they have.
  refine (List.perm_ext_iff_of_nodup ?_ List.nodup_range).2 fun f ↦ ?_
  · refine List.nodup_append.2 ⟨hp.nodup_free, hp.nodup_frames, fun f hfree g htable ↦ ?_⟩
    rintro rfl
    obtain ⟨⟨i, g⟩, hi, rfl⟩ := List.mem_map.1 htable
    have hstatus := ((hp.frameOk g).mem_free_iff.1 hfree).2
    rw [isResident_iff.1 (hp.mem_table_iff.1 hi).1] at hstatus
    cases hstatus
  · rw [List.mem_append, List.mem_range, (hp.frameOk f).mem_free_iff]
    constructor
    · rintro (⟨hlt, -⟩ | htable)
      · exact hlt
      · obtain ⟨⟨i, g⟩, hi, rfl⟩ := List.mem_map.1 htable
        exact lt_capacity_of_isResident (hp.mem_table_iff.1 hi).1
    · intro hlt
      obtain hresident | hfree := (hp.frameOk f).status_cases
      · obtain ⟨i, hi⟩ := (hp.frameOk f).exists_pageId hresident
        exact .inr (List.mem_map.2 ⟨(i, f), hp.mem_table_iff.2 ⟨hresident, hi⟩, rfl⟩)
      · exact .inl ⟨hlt, hfree⟩

/-- The page that is used in a frame. -/
def pageIn? (p : Pool ρ) (f : Nat) : Option PageId :=
  if (p.frame f).isResident then (p.frame f).pageId else none

private theorem pageIn?_eq_some_iff :
    p.pageIn? f = some id ↔ (p.frame f).isResident ∧ (p.frame f).pageId = some id := by
  rw [pageIn?, Option.ite_none_right_eq_some]

private theorem frames_toList : p.frames.toList = (List.range p.capacity).map p.frame := by
  refine List.ext_getElem (by simp [capacity]) fun f hf hf' ↦ ?_
  have hlt : f < p.frames.size := hf
  rw [List.getElem_map, List.getElem_range, frame, Array.getD_eq_getD_getElem?,
    Array.getElem?_eq_getElem hlt]
  rfl

private theorem residentPages_perm_filterMap :
    p.residentPages.Perm ((List.range p.capacity).filterMap p.pageIn?) := by
  refine (List.mergeSort_perm _ _).trans (.of_eq ?_)
  rw [frames_toList, List.filter_map, List.filterMap_map, List.filterMap_filter]
  rfl

theorem Sound.residentPages_perm (hp : p.Sound) :
    p.residentPages.Perm (p.table.map (·.1)) := by
  refine residentPages_perm_filterMap.trans
    ((List.perm_ext_iff_of_nodup (List.nodup_range.filterMap ?_) hp.keyed).2 fun id ↦ ?_)
  · intro f g id hf hg
    have hf := hp.find?_iff.2 (pageIn?_eq_some_iff.1 hf)
    have hg := hp.find?_iff.2 (pageIn?_eq_some_iff.1 hg)
    exact Option.some.inj (hf.symm.trans hg)
  · rw [List.mem_filterMap, List.mem_map]
    constructor
    · rintro ⟨f, -, hf⟩
      exact ⟨(id, f), hp.mem_table_iff.2 (pageIn?_eq_some_iff.1 hf), rfl⟩
    · rintro ⟨⟨i, f⟩, hi, rfl⟩
      have hf := hp.mem_table_iff.1 hi
      exact ⟨f, List.mem_range.2 (lt_capacity_of_isResident hf.1), pageIn?_eq_some_iff.2 hf⟩

theorem Sound.accounts (hp : p.Sound) : p.Accounts where
  keyed := hp.keyed
  nodup_frames := hp.nodup_frames
  mem_table_iff _ _ := hp.mem_table_iff
  exists_pageId f := (hp.frameOk f).exists_pageId
  residentPages_perm := hp.residentPages_perm
  nodup_free := hp.nodup_free
  mem_free_iff f := (hp.frameOk f).mem_free_iff
  not_loading f := (hp.frameOk f).not_loading
  inFlight_eq := hp.inFlight_eq
  count_eq := by
    have hlength := hp.frames_perm.length_eq
    rw [List.length_append, List.length_map, List.length_range] at hlength
    rw [freeFrameCount, hp.residentPages_perm.length_eq, List.length_map, hlength]

/-! ## Pages in use stay -/

theorem Steady.ne_of_find? {i : PageId} (hp : p.Steady) (hid : (p.frame f).pageId = some id)
    {g : Nat} (hi : p.table.find? i = some g) (hne : i ≠ id) : f ≠ g := by
  rintro rfl
  have hheld := ((hp.frameOk f).of_find? i hi).2
  exact hne (Option.some.inj (hheld.symm.trans hid))

variable [Replacer ρ]

theorem frame_of_fetch {i : PageId} {r : Except Error Handle} (hp : p.Steady)
    (hf : p.table.find? id = some f) (hpins : 0 < (p.frame f).pins) (h : p.fetch i = (r, q)) :
    q.frame f = { p.frame f with pins := (PoolCall.fetch i).pinsAfter id (p.frame f).pins } := by
  obtain ⟨hresident, hpage⟩ := (hp.frameOk f).of_find? id hf
  rw [PoolCall.pinsAfter]
  obtain ⟨hfull, -, rfl⟩ | ⟨g, hg, hlt, -, hadjusts, -⟩ | ⟨hnew, hinstalls⟩ := fetch_cases hp h
  · rw [if_neg]
    rintro ⟨rfl, hlt⟩
    rw [full_iff (residentFrame?_eq_some_iff.2 ⟨hf, hresident⟩), isFull_iff] at hfull
    exact Nat.ne_of_lt hlt hfull
  · by_cases hi : i = id
    · subst hi
      obtain rfl := Option.some.inj (hg.symm.trans hf)
      rw [hadjusts.frame_self, if_pos ⟨rfl, hlt⟩]
    · rw [hadjusts.frame_eq f (hp.ne_of_find? hpage hg hi), if_neg fun h ↦ hi h.1]
  · have hi : i ≠ id := by
      rintro rfl
      cases hnew.symm.trans hf
    rw [(hinstalls.steady hp).frame_eq f hresident hpins, if_neg fun h ↦ hi h.1]

theorem frame_of_unpin {i : PageId} {dirty : Bool} {r : Except Error Unit} (hp : p.Steady)
    (hf : p.table.find? id = some f) (hpins : 0 < (p.frame f).pins)
    (h : p.unpin i dirty = (r, q)) : ∃ d, q.frame f =
      { p.frame f with
        pins := (PoolCall.unpin i dirty).pinsAfter id (p.frame f).pins, dirty := d } := by
  obtain ⟨hresident, hpage⟩ := (hp.frameOk f).of_find? id hf
  have hfound := residentFrame?_eq_some_iff.2 ⟨hf, hresident⟩
  rw [PoolCall.pinsAfter]
  by_cases hi : i = id
  · subst hi
    rw [if_pos rfl]
    obtain ⟨hnone, -⟩ | ⟨g, hg, hcase⟩ := unpin_cases h
    · cases hnone.symm.trans hfound
    · obtain rfl := Option.some.inj (hg.symm.trans hfound)
      obtain ⟨hzero, -⟩ | ⟨-, -, hadjusts, -⟩ := hcase
      · exact absurd hzero (UInt32.pos_iff_ne_zero.1 hpins)
      · exact ⟨_, hadjusts.frame_self⟩
  · rw [if_neg hi]
    obtain ⟨-, -, rfl⟩ | ⟨g, hg, ⟨-, -, rfl⟩ | ⟨-, -, hadjusts, -⟩⟩ := unpin_cases h
    · exact ⟨_, rfl⟩
    · exact ⟨_, rfl⟩
    · have hg := (residentFrame?_eq_some_iff.1 hg).1
      exact ⟨_, hadjusts.frame_eq f (hp.ne_of_find? hpage hg hi)⟩

theorem frame_of_flush {i : PageId} {r : Except Error Unit} (h : p.flush i = (r, q)) (f : Nat) :
    ∃ d, q.frame f = { p.frame f with dirty := d } := by
  obtain ⟨-, rfl⟩ | ⟨g, -, -, hadjusts, -⟩ := flush_cases h
  · exact ⟨_, rfl⟩
  · by_cases hf : f = g
    · subst hf
      exact ⟨_, hadjusts.frame_self⟩
    · exact ⟨_, hadjusts.frame_eq f hf⟩

theorem frame_of_flushAll {r : Except Error Unit} (h : p.flushAll = (r, q)) (f : Nat) :
    ∃ d, q.frame f = { p.frame f with dirty := d } := by
  refine flushAll_induction (I := fun q ↦ ∃ d, q.frame f = { p.frame f with dirty := d })
    (fun ⟨d, hd⟩ hflush ↦ ?_) (fun ht _ ↦ ht) ⟨_, rfl⟩ h
  obtain ⟨d', hd'⟩ := frame_of_flush hflush f
  exact ⟨d', by rw [hd', hd]⟩

private theorem delete_of_pinned (hp : p.Steady) (hf : p.table.find? id = some f)
    (hpins : 0 < (p.frame f).pins) : p.delete id = (.error (.pagePinned id), p) := by
  cases h : p.delete id with
  | mk r q =>
    obtain ⟨-, -, -, rfl, rfl⟩ | ⟨t, file, hdrops, -⟩ := delete_cases hp.inFlight_eq
      hp.not_loading h
    · rfl
    · obtain hnone | ⟨hg, hidle⟩ := hdrops
      · cases hnone.symm.trans hf
      · obtain rfl := Option.some.inj (hg.symm.trans hf)
        exact absurd hidle (UInt32.pos_iff_ne_zero.1 hpins)

theorem frame_of_delete {i : PageId} {r : Except Error Unit} (hp : p.Steady)
    (hresident : (p.frame f).isResident) (hpins : 0 < (p.frame f).pins)
    (h : p.delete i = (r, q)) : q.frame f = p.frame f := by
  obtain ⟨-, -, -, -, rfl⟩ | ⟨t, file, hdrops, -, rfl⟩ := delete_cases hp.inFlight_eq
    hp.not_loading h
  · rfl
  · exact (hdrops.leads hp).frame_eq f hresident hpins

/-- A page in use keeps its frame. A call for the page adds a user or takes one away, and what
else can change is the note that the page was changed. -/
theorem frame_of_call (hp : p.Steady) (c : PoolCall) (hf : p.table.find? id = some f)
    (hpins : 0 < (p.frame f).pins) : ∃ d, (p.call c).2.frame f =
      { p.frame f with pins := c.pinsAfter id (p.frame f).pins, dirty := d } := by
  have hresident := ((hp.frameOk f).of_find? id hf).1
  match c with
  | .fetch _ => exact ⟨_, frame_of_fetch hp hf hpins rfl⟩
  | .newPage =>
    obtain ⟨r, -, hinstalls⟩ := newPage_cases hp.inFlight_eq rfl
    exact ⟨_, (hinstalls.steady hp.allocate).frame_eq f hresident hpins⟩
  | .unpin _ _ => exact frame_of_unpin hp hf hpins rfl
  | .flush _ => exact frame_of_flush rfl f
  | .flushAll => exact frame_of_flushAll rfl f
  | .delete _ => exact ⟨_, frame_of_delete hp hresident hpins rfl⟩

/-! ## Every run keeps its accounts -/

/-- Whatever the policy offers and whenever the medium fails, a run of calls keeps its accounts.
No call waits, and a page in use is left in its frame. -/
theorem Reached.keepsAccounts {file : PageFile} {s : ρ} {n : Nat} (hfile : file.Ahead)
    (hp : Reached Permits (ofFile file s n) p) : p.Accounts ∧ p.capacity = n ∧
    (∀ c, (p.call c).1 ≠ .error (.fault .waitsForever)) ∧
    ∀ id f, (id, f) ∈ p.table → 0 < (p.frame f).pins →
      p.delete id = (.error (.pagePinned id), p) ∧
      ∀ c, p.Permits c → (id, f) ∈ (p.call c).2.table ∧ ∃ d, (p.call c).2.frame f =
        { p.frame f with pins := c.pinsAfter id (p.frame f).pins, dirty := d } := by
  have hsound := hp.sound (sound_ofFile hfile)
  refine ⟨hsound.accounts, (hp.steady steady_ofFile).2.trans Array.size_replicate, fun c hc ↦ ?_,
    fun id f hmem hpins ↦ ?_⟩
  · obtain ⟨⟨⟩⟩ | ⟨-, g, ⟨⟩⟩ := call_failsWith hsound.toSteady c _ hc
  · have hf := hsound.keyed.mem_iff.1 hmem
    refine ⟨delete_of_pinned hsound.toSteady hf hpins, fun c hc ↦ ?_⟩
    obtain ⟨d, hframe⟩ := frame_of_call hsound.toSteady c hf hpins
    refine ⟨(sound_of_call hsound hc).mem_table_iff.2 ?_, d, hframe⟩
    obtain ⟨hresident, hpage⟩ := hsound.find?_iff.1 hf
    rw [hframe]
    exact ⟨hresident, hpage⟩

/-- A policy that offers the one frame of a pool, although its page is in use. -/
theorem Reached.keepsAccounts_scripted :
    let p := ((ofFile .empty (ScriptedReplacer.mk [0, 0]) 1).call .newPage).2
    p.Accounts ∧ p.delete 0 = (.error (.pagePinned 0), p) ∧
      (0, 0) ∈ (p.call (.fetch 1)).2.table := by
  have hp : Reached Permits (ofFile .empty (ScriptedReplacer.mk [0, 0]) 1)
      ((ofFile .empty (ScriptedReplacer.mk [0, 0]) 1).call .newPage).2 :=
    .call .newPage .start (show (0 : Nat) + 1 < UInt32.size by decide)
  obtain ⟨haccounts, -, -, hpinned⟩ := keepsAccounts PageFile.ahead_empty hp
  obtain ⟨hdelete, hcalls⟩ := hpinned 0 0 List.mem_cons_self Nat.one_pos
  exact ⟨haccounts, hdelete, (hcalls (.fetch 1) trivial).1⟩

/-! ## A deletion that is cut off -/

private theorem call_delete_ofFile (file : PageFile) (s : ρ) (n : Nat) (id : PageId) :
    (ofFile file s n).call (.delete id) =
      ((file.deletePage id).1, ofFile (file.deletePage id).2 s n) := by
  rcases hdelete : file.deletePage id with ⟨r, g⟩
  simp only [call, delete, drop, lookup, ofFile, PageTable.find?, List.lookup_nil, hdelete, land]
  simp

/-- A pool of two frames over a file whose second page is cut off. -/
def overShortFile : Pool Policy := ofFile PageFile.shortFile (.ofKind 2 .lru) 2

/-- Page 1, which was never given out, is deleted and cut off, so page 0 has come into the file. It
is brought in, and its user leaves it. Then its id is given out. -/
def heldTwice : Pool Policy :=
  overShortFile.after [.delete 1, .fetch 0, .unpin 0 false, .newPage]

/-- A page is brought into a free frame, and its only user leaves it as it was. -/
private theorem visit_of_free {p : Pool ρ} {f : Nat} {rest : List Nat} {id : PageId} {page : Page}
    {file : PageFile} (hmiss : p.lookup id = .miss) (hlt : f < p.capacity)
    (hfree : p.freeFrames = f :: rest) (hread : p.file.readPage id = (.ok page, file)) :
    ∃ t q, p.call (.fetch id) = (.ok (), t) ∧ t.call (.unpin id false) = (.ok (), q) ∧
      q.file = file ∧ q.freeFrames = rest ∧ q.table = p.table.insert id f ∧
      p.Refills f { loadedFrame id page false (p.copies + 1) with pins := 0 } q := by
  have hload : (fun file : PageFile ↦ file.readPage id) p.file = (.ok page, file) := hread
  obtain ⟨t, hinstall, htfile, htfree, httable, ht⟩ :
      ∃ t, p.install id false (·.readPage id) = (.ok ⟨f, p.copies + 1⟩, t) ∧ t.file = file ∧
        t.freeFrames = rest ∧ t.table = p.table.insert id f ∧
        p.Refills f (loadedFrame id page false (p.copies + 1)) t :=
    install_of_free hlt hfree hload
  have hfetch : p.call (.fetch id) = (.ok (), t) := by
    rw [call, fetch, hmiss]
    exact congrArg (fun x ↦ (x.1.map fun _ ↦ (), x.2)) hinstall
  have hfound : t.residentFrame? id = some f := by
    rw [residentFrame?_eq_some_iff, httable, PageTable.find?_insert, if_pos rfl, ht.frame_self]
    exact ⟨rfl, rfl⟩
  rcases hunpin : t.unpin id false with ⟨r, q⟩
  obtain ⟨hnone, -⟩ | ⟨g, hg, ⟨hzero, -⟩ | ⟨-, rfl, hq, -, hqfile⟩⟩ := unpin_cases hunpin
  · cases hnone.symm.trans hfound
  · obtain rfl := Option.some.inj (hg.symm.trans hfound)
    rw [ht.frame_self] at hzero
    cases hzero
  · obtain rfl := Option.some.inj (hg.symm.trans hfound)
    refine ⟨t, q, hfetch, hunpin, hqfile.trans htfile, hq.freeFrames_eq.trans htfree,
      hq.table_eq.trans httable, hq.capacity_eq.trans ht.capacity_eq, ?_,
      fun i hi ↦ (hq.frame_eq i hi).trans (ht.frame_eq i hi), hq.inFlight_eq.trans ht.inFlight_eq⟩
    rw [hq.frame_self, ht.frame_self]
    simp [loadedFrame]

theorem heldTwice_eq :
    (overShortFile.call (.delete 1)).1 ≠ .ok () ∧
      Reached (fun p c ↦ c = .newPage → p.file.ids.next = 0) overShortFile heldTwice ∧
      heldTwice.capacity = 2 ∧ heldTwice.freeFrames = [] ∧ heldTwice.table = [(0, 1)] ∧
      (∃ page copy, heldTwice.frame 0 = { loadedFrame 0 page false copy with pins := 0 }) ∧
      ∃ page copy, heldTwice.frame 1 = loadedFrame 0 page true copy := by
  obtain ⟨e, g, hdelete, -, g', hread, hids⟩ := PageFile.shortFile_deletePage
  have hcut : overShortFile.call (.delete 1) = (.error e, ofFile g (.ofKind 2 .lru) 2) := by
    rw [overShortFile, call_delete_ofFile, hdelete]
  -- Page 0 is brought into the first frame, and its user leaves it.
  have hcapacity : (ofFile g (Policy.ofKind 2 .lru) 2).capacity = 2 := Array.size_replicate
  obtain ⟨t, s, hfetch, hunpin, hsfile, hsfree, hstable, hs⟩ :=
    visit_of_free rfl (show 0 < (ofFile g (Policy.ofKind 2 .lru) 2).capacity by
      rw [hcapacity]; decide) (show _ = 0 :: [1] from rfl) hread
  -- Its id is given out now, and the new page is brought into the second frame.
  have hnext : s.file.ids.next = 0 := by rw [hsfile, hids]
  have hscapacity : s.capacity = 2 := hs.capacity_eq.trans hcapacity
  obtain ⟨q, hinstall, -, hqfree, hqtable, hq⟩ :
      ∃ q, ({ s with file := s.file.allocate.2 } : Pool _).install 0 true
          (fun file ↦ (.ok (.fresh 0), file)) = (.ok ⟨1, s.copies + 1⟩, q) ∧ _ ∧
        q.freeFrames = [] ∧ q.table = s.table.insert 0 1 ∧
        ({ s with file := s.file.allocate.2 } : Pool _).Refills 1
          (loadedFrame 0 (.fresh 0) true (s.copies + 1)) q :=
    install_of_free (show 1 < s.capacity by rw [hscapacity]; decide) hsfree rfl
  have hnew : s.call .newPage = (.ok (), q) := by
    rw [call, newPage_of_install hnext hinstall]
    rfl
  have heq : heldTwice = q := by
    rw [heldTwice, after_cons, hcut, after_cons, hfetch, after_cons, hunpin, after_cons, hnew,
      after_nil]
  refine ⟨by rw [hcut]; exact nofun, ?_, ?_, ?_, ?_, ?_, ?_⟩
  · have hleft : Reached (fun p c ↦ c = .newPage → p.file.ids.next = 0) overShortFile s :=
      ((Reached.start.of_call (c := .delete 1) nofun (congrArg Prod.snd hcut)).of_call
        (c := .fetch 0) nofun (congrArg Prod.snd hfetch)).of_call (c := .unpin 0 false) nofun
          (congrArg Prod.snd hunpin)
    rw [heq]
    exact hleft.of_call (c := .newPage) (fun _ ↦ hnext) (congrArg Prod.snd hnew)
  · rw [heq, hq.capacity_eq]
    exact hscapacity
  · rw [heq, hqfree]
  · rw [heq, hqtable, hstable]
    rfl
  · have hframe : q.frame 0 = s.frame 0 := hq.frame_eq 0 (by decide)
    rw [heq, hframe, hs.frame_self]
    exact ⟨_, _, rfl⟩
  · rw [heq, hq.frame_self]
    exact ⟨_, _, rfl⟩

/-- A deletion that is cut off, of a page that was never given out, and page 0 comes to be in two
frames, since it is in the file before its id is given out. -/
theorem cutOffDelete_twoFrames :
    PageFile.shortFile.Ahead ∧
      Reached (fun p c ↦ c = .newPage → p.file.ids.next.toNat + 1 < UInt32.size) overShortFile
        heldTwice ∧
      (overShortFile.call (.delete 1)).1 ≠ .ok () ∧
      (∀ f < 2, (heldTwice.frame f).isResident ∧ (heldTwice.frame f).pageId = some 0) ∧
      ¬ heldTwice.Accounts := by
  obtain ⟨hcut, hreached, -, -, -, ⟨page, copy, hfirst⟩, page', copy', hsecond⟩ := heldTwice_eq
  have hframes : ∀ f < 2,
      (heldTwice.frame f).isResident ∧ (heldTwice.frame f).pageId = some 0 := by
    intro f hf
    obtain rfl | rfl : f = 0 ∨ f = 1 := by omega
    · rw [hfirst]
      exact ⟨rfl, rfl⟩
    · rw [hsecond]
      exact ⟨rfl, rfl⟩
  refine ⟨⟨.inl (Nat.zero_le _), .inl (Nat.zero_le _)⟩, hreached.mono fun p c hc hnew ↦ ?_, hcut,
    hframes, fun haccounts ↦ ?_⟩
  · rw [hc hnew]
    decide
  · have hfound (f : Nat) (hf : f < 2) := haccounts.keyed.mem_iff.1
      ((haccounts.mem_table_iff 0 f).2 (hframes f hf))
    cases (hfound 0 (by decide)).symm.trans (hfound 1 (by decide))

end Pool

end PagedStorage
