import PagedStorage.Proofs.PageFile.Stored

/-!
# Calls of a file of pages

A file of pages is used by calls, `FileCall`, and at any time its medium may begin or cease to
refuse them. `PageFile.Steps` lists all that one call can do, so that what holds in every run
takes one look at each of these ways and no look at the definitions of the calls.

## Bytes and index

Bytes and index go together: a call that fails changes neither, `PageFile.AllOrNothing`. There is
one way in which a medium can break this, by writing a page in part before it reports a failure,
which happens at the size limit of files alone (`allOrNothing_of_not_cuts`). Under this condition
the index has the header of each page in the store, `PageFile.Indexed`, and a store of whole pages
stays one.

## Runs

`PageFile.Reached` are the files after any calls that a condition allows. The condition is a
parameter, because the theorems differ in what they need: that a failing call changes no byte, that
the last id is spared, that what is written can be read. Between two calls the schedule of failures
may be exchanged, so nothing is assumed about which calls fail. `Reached.induct` reduces a property
of runs to one of steps, for properties that do not depend on the schedule.

## When writes are cut off

Without `AllOrNothing` a call is a step, or it is a write that was cut off, and this concerns the
store alone, which does not shrink (`steps_or_cutOff`). So the index is still a matter of steps,
and `Reached.induct_of_cutOff` is the induction for what does not depend on the bytes.

`shortFile` is the smallest file on which this can be seen. It ends in the middle of the second
page, and a write of this page leaves the first one in the store, which no call has written and the
index does not have.
-/

namespace PagedStorage

/-- The calls that a user of a file makes. -/
inductive FileCall where
  | read (id : PageId)
  | write (page : Page)
  | delete (id : PageId)
  | allocate
  | freeOrAllocate
  | sync

/-- The page that a call writes, if it writes one. To delete a page is to write an empty one. -/
def FileCall.written? : FileCall → Option Page
  | .write page => some page
  | .delete id => some (.fresh id)
  | _ => none

/-! ## What writing changes in a store -/

namespace Store

variable {s t : Store} {offset : Nat} {block : List UInt8} {r : Except IoFault Unit}

private theorem write_of_cutOff {limit : Nat} (hlimit : s.limit? = some limit)
    (hlt : offset < limit) (hover : limit < offset + block.length)
    (hpasses : s.writes.refuses s.writes.calls = false) :
    (s.write offset block).1 = .error .fileTooLarge ∧
      (s.write offset block).2.contents =
        s.contents.write offset (block.take (limit - offset)) := by
  have hlen : (block.take (limit - offset)).length = limit - offset := by
    rw [List.length_take]
    omega
  have hne : block.take (limit - offset) ≠ [] := List.ne_nil_of_length_pos (by omega)
  have hwithin : s.isBeyond offset = false := by
    rw [isBeyond, hlimit, Option.any_some, decide_eq_false_iff_not]
    omega
  have hwritten : s.written offset block =
      (.error .fileTooLarge, s.contents.write offset (block.take (limit - offset))) := by
    rw [written]
    cases hmedium : s.medium with
    | memory =>
      rw [limit?, hmedium] at hlimit
      cases hlimit
    | file bound =>
      rw [limit?, hmedium] at hlimit
      obtain rfl : bound = some limit := hlimit
      have hpart : (block.take (limit - offset)).length ≠ block.length := by omega
      dsimp only
      rw [hwithin, if_neg Bool.false_ne_true, Option.elim_some, if_neg hne, if_neg hpart]
  rw [write, Gate.attempt, hpasses]
  simp only [Bool.not_false, hwritten, and_self]

theorem canHold_of_memory (h : s.medium = .memory) (size : Nat) : s.CanHold size :=
  canHold_of_limit?_eq_none (by rw [limit?, h])

theorem not_cuts_of_memory (h : s.medium = .memory) (offset len : Nat) : ¬ s.Cuts offset len :=
  (canHold_of_memory h _).not_cuts

end Store

namespace PageFile

variable {f g start : PageFile} {id : PageId} {p : Page}

/-! ## The index -/

/-- The index has one header for each whole page in the store. -/
def Indexed (f : PageFile) : Prop := f.pageCount = f.store.contents.size / pageSize

theorem Indexed.has_iff (hf : f.Indexed) : f.Has id ↔ id.toNat < f.pageCount := by
  rw [Has, position_add_pageSize, hf, Nat.lt_iff_add_one_le, Nat.le_div_iff_mul_le (by decide)]

/-! ## What each call leaves alone -/

theorem contents_of_writePage_ok (h : f.writePage p = (.ok (), g)) :
    g.store.contents = f.store.contents.write (position p.id) p.image.toList := by
  rcases (writePage_cases h).1 with ⟨-, -, -, hcontents, -⟩ | ⟨⟨e, herror, -⟩, -⟩
  · exact hcontents
  · cases herror

theorem size_of_writePage_ok (h : f.writePage p = (.ok (), g)) :
    g.store.contents.size = max f.store.contents.size ((p.id.toNat + 1) * pageSize) := by
  rw [contents_of_writePage_ok h, Contents.size_write, Vector.length_toList,
    position_add_pageSize]

/-! ## Calls -/

/-- A call, with the page that it answers if it answers one. -/
def call (f : PageFile) : FileCall → Except Error (Option Page) × PageFile
  | .read id => ((f.readPage id).1.map some, (f.readPage id).2)
  | .write page => ((f.writePage page).1.map fun _ ↦ none, (f.writePage page).2)
  | .delete id => ((f.deletePage id).1.map fun _ ↦ none, (f.deletePage id).2)
  | .allocate => (.ok (some f.allocate.1), f.allocate.2)
  | .freeOrAllocate => (f.freeOrAllocate.1.map some, f.freeOrAllocate.2)
  | .sync => (f.sync.1.map fun _ ↦ none, f.sync.2)

/-- If the call fails, then it changes no byte. -/
def AllOrNothing (f : PageFile) (c : FileCall) : Prop :=
  ∀ e, (f.call c).1 = .error e → (f.call c).2.store.contents = f.store.contents

theorem AllOrNothing.contents_of_writePage (hc : f.AllOrNothing (.write p)) {e : Error}
    (h : f.writePage p = (.error e, g)) : g.store.contents = f.store.contents := by
  have hkept := hc e (by rw [call, h]; rfl)
  rwa [call, h] at hkept

theorem AllOrNothing.contents_of_deletePage (hc : f.AllOrNothing (.delete id)) {e : Error}
    (h : f.deletePage id = (.error e, g)) : g.store.contents = f.store.contents := by
  have hkept := hc e (by rw [call, h]; rfl)
  rwa [call, h] at hkept

/-- All that a call can do, with its answer. -/
inductive Steps (f : PageFile) : FileCall → Except Error (Option Page) → PageFile → Prop where
  /-- A call that fails leaves everything but the counters of the medium as it was. -/
  | fails {c : FileCall} {e : Error} {store : Store}
      (hbytes : f.SameBytes { f with store := store }) :
      Steps f c (.error e) { f with store := store }
  | reads {id : PageId} {page : Page} {store : Store} (hstored : f.stored id = .ok page)
      (hbytes : f.SameBytes { f with store := store }) :
      Steps f (.read id) (.ok (some page)) { f with store := store }
  | syncs {store : Store} (hbytes : f.SameBytes { f with store := store }) :
      Steps f .sync (.ok none) { f with store := store }
  | writes {c : FileCall} {page : Page} {g : PageFile} (hc : c.written? = some page)
      (hwrite : f.writePage page = (.ok (), g)) : Steps f c (.ok none) g
  | allocates {c : FileCall} (hc : c = .allocate ∨ c = .freeOrAllocate ∧ f.freePages = 0) :
      Steps f c (.ok (some f.allocate.1)) f.allocate.2
  | reuses {id : PageId} {page : Page} {store : Store} (hfree : f.freePages ≠ 0)
      (hid : f.firstAvailable? = some id) (hstored : f.stored id = .ok page)
      (hbytes : f.SameBytes { f with store := store }) :
      Steps f .freeOrAllocate (.ok (some page))
        { f with store := store, claimed := id :: f.claimed, freePages := f.freePages - 1 }

theorem steps_of_readPage {r : Except Error Page} (h : f.readPage id = (r, g)) :
    f.Steps (.read id) (r.map some) g := by
  obtain ⟨hbytes, -, hanswer⟩ := readPage_cases h
  rw [eq_of_readPage h] at hbytes ⊢
  rcases r with e | page
  · exact .fails hbytes
  · rcases hanswer with hstored | ⟨cause, herror⟩
    · exact .reads hstored.symm hbytes
    · cases herror

theorem steps_of_sync {r : Except Error Unit} (h : f.sync = (r, g)) :
    f.Steps .sync (r.map fun _ ↦ none) g := by
  obtain ⟨hbytes, -, -⟩ := sync_cases h
  rw [eq_of_sync h] at hbytes ⊢
  rcases r with e | ⟨⟩
  · exact .fails hbytes
  · exact .syncs hbytes

theorem fails_of_writePage {c : FileCall} {e err : Error} (h : f.writePage p = (.error e, g))
    (hkept : g.store.contents = f.store.contents) : f.Steps c (.error err) g := by
  have hbytes : f.SameBytes { f with store := g.store } := by
    refine ⟨?_, hkept⟩
    rw [eq_of_writePage_error h]
  have heq : g = { f with store := g.store } := by rw [eq_of_writePage_error h]
  rw [heq]
  exact .fails hbytes

private theorem steps_of_writePage {r : Except Error Unit} (hc : f.AllOrNothing (.write p))
    (h : f.writePage p = (r, g)) : f.Steps (.write p) (r.map fun _ ↦ none) g := by
  rcases r with e | ⟨⟩
  · exact fails_of_writePage h (hc.contents_of_writePage h)
  · exact .writes rfl h

private theorem steps_of_deletePage {r : Except Error Unit} (hc : f.AllOrNothing (.delete id))
    (h : f.deletePage id = (r, g)) : f.Steps (.delete id) (r.map fun _ ↦ none) g := by
  rcases deletePage_cases h with ⟨hwrite, rfl⟩ | ⟨e, e', hwrite, rfl, -⟩
  · exact .writes rfl hwrite
  · exact fails_of_writePage hwrite (hc.contents_of_deletePage h)

theorem steps_of_freeOrAllocate {r : Except Error Page} (h : f.freeOrAllocate = (r, g)) :
    f.Steps .freeOrAllocate (r.map some) g := by
  rw [freeOrAllocate] at h
  split at h
  next hnone =>
    obtain ⟨rfl, rfl⟩ := Prod.mk.inj h
    exact .allocates (.inr ⟨rfl, hnone⟩)
  next hfree =>
    split at h
    next =>
      obtain ⟨rfl, rfl⟩ := Prod.mk.inj h
      exact .fails ⟨rfl, rfl⟩
    next id hid =>
      rcases hread : f.readPage id with ⟨answer, f'⟩
      obtain ⟨hbytes, -, hanswer⟩ := readPage_cases hread
      have heq := eq_of_readPage hread
      rw [hread] at h
      -- The page is claimed only if it could be read.
      rcases answer with e | page
      · obtain ⟨rfl, rfl⟩ := Prod.mk.inj h
        rw [heq] at hbytes ⊢
        exact .fails hbytes
      · obtain ⟨rfl, rfl⟩ := Prod.mk.inj h
        rw [heq] at hbytes ⊢
        rcases hanswer with hstored | ⟨cause, herror⟩
        · exact .reuses hfree hid hstored.symm hbytes
        · cases herror

theorem steps_of_call {c : FileCall} (hc : f.AllOrNothing c) :
    f.Steps c (f.call c).1 (f.call c).2 := by
  rcases c with id | page | id | _ | _ | _
  · exact steps_of_readPage rfl
  · exact steps_of_writePage hc rfl
  · exact steps_of_deletePage hc rfl
  · exact .allocates (.inl rfl)
  · exact steps_of_freeOrAllocate rfl
  · exact steps_of_sync rfl

/-- A step that is no write changes neither bytes nor index. -/
theorem Steps.writes_or_sameBytes {c : FileCall} {r : Except Error (Option Page)}
    (h : f.Steps c r g) :
    (∃ page, c.written? = some page ∧ r = .ok none ∧ f.writePage page = (.ok (), g)) ∨
      (f.SameBytes g ∧ g.headers = f.headers) := by
  rcases h with hbytes | ⟨-, hbytes⟩ | hbytes | ⟨hc, hwrite⟩ | hc | ⟨-, -, -, hbytes⟩
  case writes page => exact .inl ⟨page, hc, rfl, hwrite⟩
  case allocates => exact .inr ⟨⟨rfl, rfl⟩, rfl⟩
  case reuses => exact .inr ⟨⟨hbytes.medium_eq, hbytes.contents_eq⟩, rfl⟩
  all_goals exact .inr ⟨hbytes, rfl⟩

theorem Steps.contents_eq {c : FileCall} {r : Except Error (Option Page)} (h : f.Steps c r g)
    {e : Error} (he : r = .error e) : g.store.contents = f.store.contents := by
  rcases h.writes_or_sameBytes with ⟨page, -, hok, -⟩ | ⟨hbytes, -⟩
  · rw [hok] at he
    cases he
  · exact hbytes.contents_eq

/-- A medium changes bytes and fails nevertheless at the size limit of a file only. -/
theorem allOrNothing_of_not_cuts {c : FileCall}
    (h : ∀ page, c.written? = some page → ¬ f.store.Cuts (position page.id) pageSize) :
    f.AllOrNothing c := by
  intro e he
  rcases c with id | page | id | _ | _ | _
  case write =>
    rcases hwrite : f.writePage page with ⟨r, g⟩
    rw [call, hwrite] at he ⊢
    rcases (writePage_cases hwrite).1 with ⟨rfl, -⟩ | ⟨-, -, hsame⟩
    · cases he
    · exact (hsame (h page rfl)).contents_eq
  case delete =>
    rcases hdelete : f.deletePage id with ⟨r, g⟩
    rw [call, hdelete] at he ⊢
    refine contents_of_deletePage hdelete (h (.fresh id) rfl) ?_
    rintro rfl
    cases he
  case read => exact (steps_of_readPage rfl).contents_eq he
  case allocate => rfl
  case freeOrAllocate => exact (steps_of_freeOrAllocate rfl).contents_eq he
  case sync => exact (steps_of_sync rfl).contents_eq he

theorem allOrNothing_of_memory {c : FileCall} (h : f.store.medium = .memory) : f.AllOrNothing c :=
  allOrNothing_of_not_cuts fun _ _ ↦ Store.not_cuts_of_memory h _ _

/-! ## What one step keeps -/

theorem Steps.indexed {c : FileCall} {r : Except Error (Option Page)} (h : f.Steps c r g)
    (hf : f.Indexed) : g.Indexed := by
  rcases h.writes_or_sameBytes with ⟨page, -, -, hwrite⟩ | ⟨hbytes, hheaders⟩
  · rw [Indexed, pageCount_of_writePage_ok hwrite, size_of_writePage_ok hwrite, hf]
    unfold pageSize
    omega
  · rw [Indexed, pageCount, hheaders, hbytes.contents_eq]
    exact hf

theorem Steps.dvd_size {c : FileCall} {r : Except Error (Option Page)} (h : f.Steps c r g)
    (hf : pageSize ∣ f.store.contents.size) : pageSize ∣ g.store.contents.size := by
  rcases h.writes_or_sameBytes with ⟨page, -, -, hwrite⟩ | ⟨hbytes, -⟩
  · rw [size_of_writePage_ok hwrite]
    rcases Nat.le_total f.store.contents.size ((page.id.toNat + 1) * pageSize) with hle | hle
    · rw [Nat.max_eq_right hle]
      exact Nat.dvd_mul_left _ _
    · rwa [Nat.max_eq_left hle]
  · rwa [hbytes.contents_eq]

/-! ## Opening -/

private theorem size_of_readHeaders {s t : Store} {headers result : Array Header}
    {first count : Nat} (h : readHeaders s headers first count = (.ok result, t)) :
    result.size = headers.size + count := by
  induction count generalizing s headers first with
  | zero =>
    cases h
    rfl
  | succ count ih =>
    rw [readHeaders] at h
    split at h
    next => cases h
    next bytes u hu =>
      split at h
      next => cases h
      next header hheader =>
        rw [ih h, Array.size_push]
        omega

/-- A file that was just opened: one without pages, or the one that a store holds. -/
inductive Opened : PageFile → Prop where
  | empty : Opened .empty
  | load {s t : Store} {f : PageFile} (h : load s = (.ok f, t)) : Opened f

theorem Opened.indexed (h : f.Opened) : f.Indexed := by
  rcases h with _ | @⟨s, t, _, hload⟩
  · rfl
  · rw [Indexed, contents_of_load hload]
    obtain ⟨u, headers, -, hread, rfl⟩ := load_eq hload
    exact (size_of_readHeaders hread).trans (Nat.zero_add _)

/-- The files that are reached by calls that are allowed. At any time the medium may change its
mind on which calls it refuses. -/
inductive Reached (allows : PageFile → FileCall → Prop) (start : PageFile) : PageFile → Prop where
  | start : Reached allows start start
  | call {f : PageFile} (c : FileCall) : Reached allows start f → allows f c →
      Reached allows start (f.call c).2
  | reschedule {f : PageFile} (which : StoreCall) (gate : Gate) : Reached allows start f →
      Reached allows start { f with store := f.store.setGate which gate }

theorem sameBytes_setGate (f : PageFile) (which : StoreCall) (gate : Gate) :
    f.SameBytes { f with store := f.store.setGate which gate } := by
  rcases which <;> exact ⟨rfl, rfl⟩

theorem Reached.mono {allows allows' : PageFile → FileCall → Prop}
    (hallows : ∀ f c, allows f c → allows' f c) (hf : Reached allows start f) :
    Reached allows' start f := by
  induction hf with
  | start => exact .start
  | call c _ hc ih => exact .call c ih (hallows _ _ hc)
  | reschedule which gate _ ih => exact .reschedule which gate ih

/-- What every step keeps and does not depend on the schedule holds in every run. -/
theorem Reached.induct {allows : PageFile → FileCall → Prop} {P : PageFile → Prop}
    (hatomic : ∀ f c, allows f c → f.AllOrNothing c)
    (hstep : ∀ f c r g, f.Steps c r g → P f → P g)
    (hgate : ∀ f which gate, P f → P { f with store := f.store.setGate which gate })
    (hstart : P start) (hf : Reached allows start f) : P f := by
  induction hf with
  | start => exact hstart
  | call c _ hc ih => exact hstep _ _ _ _ (steps_of_call (hatomic _ _ hc)) ih
  | reschedule which gate _ ih => exact hgate _ _ _ ih

/-- The index has one header for each whole page in the store, as long as calls that fail change no
byte. -/
theorem Reached.indexed (hstart : start.Opened) (hf : Reached AllOrNothing start f) :
    f.Indexed := by
  refine hf.induct (fun _ _ hc ↦ hc) (fun _ _ _ _ hsteps ↦ hsteps.indexed) ?_ hstart.indexed
  intro f which gate hindexed
  rw [Indexed, (f.sameBytes_setGate which gate).contents_eq]
  exact hindexed

/-! ## Calls that are cut off -/

theorem size_le_of_writePage_error {e : Error} (h : f.writePage p = (.error e, g)) :
    g = { f with store := g.store } ∧ f.store.contents.size ≤ g.store.contents.size := by
  constructor
  · rw [eq_of_writePage_error h]
  · obtain ⟨part, -, hcontents | hcontents⟩ := (writePage_cases h).2.contents_eq
    · exact Nat.le_of_eq (congrArg Contents.size hcontents.symm)
    · rw [hcontents, Contents.size_write]
      exact Nat.le_max_left _ _

/-- A page is cut off, and what was written of it makes the file longer all the same. -/
theorem writePage_of_cutOff {limit : Nat} (hlimit : f.store.limit? = some limit)
    (hlt : position p.id < limit) (hover : limit < position p.id + pageSize)
    (hpasses : f.store.writes.refuses f.store.writes.calls = false) :
    (f.writePage p).1 = .error (.writeFailed p.id .fileTooLarge) ∧
      (f.writePage p).2.headers = f.headers ∧
      ∃ part, part.length = limit - position p.id ∧
        (f.writePage p).2.store.contents = f.store.contents.write (position p.id) part := by
  have hlen : p.image.toList.length = pageSize := Vector.length_toList
  obtain ⟨herror, hcontents⟩ := Store.write_of_cutOff hlimit hlt (hlen ▸ hover) hpasses
  rcases hwrite : f.store.write (position p.id) p.image.toList with ⟨r, store⟩
  rw [hwrite] at herror hcontents
  obtain rfl : r = .error .fileTooLarge := herror
  rw [writePage, hwrite]
  refine ⟨rfl, rfl, _, ?_, hcontents⟩
  rw [List.length_take]
  omega

/-- An empty file on a medium that ends in the middle of the second page. It was just opened. -/
def shortFile : PageFile :=
  { empty with store := (Store.onFile (some (pageSize + pageSize / 2)) {}).size.2 }

theorem opened_shortFile : shortFile.Opened :=
  .load (s := .onFile (some (pageSize + pageSize / 2)) {}) rfl

/-- The second page is cut off. The first one is in the file then, and nothing is on it. -/
theorem shortFile_writePage {r : Except Error Unit} (hid : p.id = 1)
    (h : shortFile.writePage p = (r, g)) : r = .error (.writeFailed 1 .fileTooLarge) ∧
      g = { shortFile with store := g.store } ∧
      g.store.contents.size = pageSize + pageSize / 2 ∧
      ∀ i < pageSize, g.store.contents.byte i = 0 := by
  have hlimit : shortFile.store.limit? = some (pageSize + pageSize / 2) := rfl
  have hempty : shortFile.store.contents = {} := rfl
  obtain ⟨herror, -, part, hpart, hcontents⟩ :=
    writePage_of_cutOff (p := p) hlimit (by rw [hid]; decide) (by rw [hid]; decide) rfl
  rw [h] at herror hcontents
  rw [hid] at herror hpart hcontents
  obtain rfl : r = _ := herror
  refine ⟨rfl, (size_le_of_writePage_error h).1, ?_, fun i hi ↦ ?_⟩
  · rw [hcontents, hempty, Contents.size_write, hpart]
    decide
  · have hbefore : ¬ position 1 ≤ i := Nat.not_le.2 (Nat.lt_of_lt_of_le hi (by decide))
    rw [hcontents, hempty, Contents.byte_write, dif_neg fun h ↦ hbefore h.1]
    exact Contents.byte_of_size_le _ (Nat.zero_le i)

/-- A call makes a step, or it is a write that was cut off, which concerns the store alone. -/
theorem steps_or_cutOff (f : PageFile) (c : FileCall) : f.Steps c (f.call c).1 (f.call c).2 ∨
    ∃ store, (∃ e, (f.call c).1 = .error e) ∧ (f.call c).2 = { f with store := store } ∧
      f.store.contents.size ≤ store.contents.size := by
  rcases c with id | page | id | _ | _ | _
  case write =>
    rcases hwrite : f.writePage page with ⟨r, g⟩
    rw [call, hwrite]
    rcases r with e | ⟨⟩
    · obtain ⟨heq, hle⟩ := size_le_of_writePage_error hwrite
      exact .inr ⟨g.store, ⟨e, rfl⟩, heq, hle⟩
    · exact .inl (.writes rfl hwrite)
  case delete =>
    rcases hdelete : f.deletePage id with ⟨r, g⟩
    rw [call, hdelete]
    rcases deletePage_cases hdelete with ⟨hwrite, rfl⟩ | ⟨e, e', hwrite, rfl, -⟩
    · exact .inl (.writes rfl hwrite)
    · obtain ⟨heq, hle⟩ := size_le_of_writePage_error hwrite
      exact .inr ⟨g.store, ⟨_, rfl⟩, heq, hle⟩
  case read => exact .inl (steps_of_readPage rfl)
  case allocate => exact .inl (.allocates (.inl rfl))
  case freeOrAllocate => exact .inl (steps_of_freeOrAllocate rfl)
  case sync => exact .inl (steps_of_sync rfl)

theorem Reached.induct_of_cutOff {allows : PageFile → FileCall → Prop} {P : PageFile → Prop}
    (hstep : ∀ f c, allows f c → f.Steps c (f.call c).1 (f.call c).2 → P f → P (f.call c).2)
    (hstore : ∀ (f : PageFile) (store : Store), f.store.contents.size ≤ store.contents.size →
      P f → P { f with store := store })
    (hstart : P start) (hf : Reached allows start f) : P f := by
  induction hf with
  | start => exact hstart
  | @call f c _ hc ih =>
    rcases f.steps_or_cutOff c with hsteps | ⟨store, -, heq, hle⟩
    · exact hstep f c hc hsteps ih
    · rw [heq]
      exact hstore f store hle ih
  | @reschedule f which gate _ ih =>
    have hbytes := f.sameBytes_setGate which gate
    exact hstore f _ (Nat.le_of_eq (congrArg Contents.size hbytes.contents_eq.symm)) ih

end PageFile

end PagedStorage
