import PagedStorage.PageFile.Basic
import PagedStorage.Proofs.Page.Editing

/-!
# What a file stores

A page that is asked for may be refused by a failing medium. `PageFile.stored` is the answer
without such refusals, so it is a function of the bytes alone, and it is what all that follows says
about a file. Reading gives the stored page or an error and changes no byte (`readPage_cases`).
Writing a page exchanges this page and keeps all others, with or without success
(`writePage_cases`, `exchanges_of_writePage`).

## Writes that are done in part

A store reports a failure after it has written nothing or after it has written a part. The second
happens at the limit of a file alone, `Store.Cuts`: the write starts before the limit and ends
behind it. So a failure does not say that the bytes are as before, and `Writes`, the effect of a
write on the medium, has a case for each outcome. What is true in all cases is that no other page
is reached, since a part of a block lies where the block does, and that a file gets no longer than
to the end of the page that is written.

The gates that decide which calls fail are counters of calls. They are not mentioned by any of
this: `SameBytes` compares the bytes and the kind of medium alone.

## The counter

The other thing to know of a file is that its id counter is ahead of its pages, `PageFile.Ahead`:
no id that is given out next belongs to a page that is there already. `IdCounter.Covers` has a
second way to be true, for a counter that stands at the last id. It cannot be taken past this id,
so it covers all ids by having stopped.

## Images

A page stands in the store as its image, and the image stands for the page only if the page is
`Readable` (`pageOf_image_iff`). This is not automatic: a page whose free entries were spoiled may
have an image that the decoder refuses. No image is ever taken for a page that was not written,
since the free space of a page starts behind its header, so the header is not all zeros
(`isBlank_image`).
-/

namespace PagedStorage

/-! ## Bytes -/

namespace Contents

/-- A write leaves alone what is read before it or behind it. -/
theorem read_write_of_disjoint (c : Contents) {start len at_ : Nat} {block : List UInt8}
    (hsize : start + len ≤ c.size) (h : start + len ≤ at_ ∨ at_ + block.length ≤ start) :
    (c.write at_ block).read start len = c.read start len := by
  apply Array.ext_getElem?
  intro i
  rw [getElem?_read, getElem?_read, size_write, byte_write]
  by_cases hi : i < len
  · rw [if_pos (by omega), if_pos (by omega), dif_neg (by omega)]
  · rw [if_neg (by omega), if_neg (by omega)]

end Contents

namespace Store

/-- The store, refusing no call from now on. -/
def obliging (s : Store) : Store := { medium := s.medium, contents := s.contents }

/-- A write that starts before the limit of a file and ends behind it. -/
def Cuts (s : Store) (offset len : Nat) : Prop :=
  ∃ limit, s.limit? = some limit ∧ offset < limit ∧ limit < offset + len

/-- The medium can hold so many bytes. -/
def CanHold (s : Store) (size : Nat) : Prop := ∀ limit, s.limit? = some limit → size ≤ limit

variable {s t : Store} {offset : Nat} {block : List UInt8}

theorem limit?_congr (h : t.medium = s.medium) : t.limit? = s.limit? := by rw [limit?, limit?, h]

theorem isBeyond_congr (h : t.medium = s.medium) : t.isBeyond offset = s.isBeyond offset := by
  rw [isBeyond, isBeyond, limit?_congr h]

theorem cuts_congr {len : Nat} (h : t.medium = s.medium) :
    t.Cuts offset len ↔ s.Cuts offset len := by rw [Cuts, Cuts, limit?_congr h]

theorem canHold_congr {size : Nat} (h : t.medium = s.medium) : t.CanHold size ↔ s.CanHold size := by
  rw [CanHold, CanHold, limit?_congr h]

theorem CanHold.mono {m n : Nat} (h : s.CanHold n) (hmn : m ≤ n) : s.CanHold m :=
  fun limit hlimit ↦ Nat.le_trans hmn (h limit hlimit)

theorem canHold_of_limit?_eq_none {size : Nat} (h : s.limit? = none) : s.CanHold size := by
  intro limit hlimit
  cases h.symm.trans hlimit

theorem not_isBeyond_iff : s.isBeyond offset = false ↔ s.CanHold offset := by
  rw [isBeyond, CanHold]
  cases s.limit? with
  | none => exact iff_of_true rfl nofun
  | some limit => simp

theorem CanHold.not_cuts {len : Nat} (h : s.CanHold (offset + len)) : ¬ s.Cuts offset len := by
  rintro ⟨limit, hlimit, -, hlt⟩
  exact Nat.not_lt.2 (h limit hlimit) hlt

/-- What a write does. A write that fails may have been done in part, if it crosses the limit. -/
theorem written_cases (s : Store) (offset : Nat) (hblock : block ≠ []) :
    (s.written offset block = (.ok (), s.contents.write offset block) ∧
      s.CanHold (offset + block.length)) ∨
    ¬ s.CanHold (offset + block.length) ∧
      ((∃ cause, s.written offset block = (.error cause, s.contents)) ∨
        ∃ cause part, part.length < block.length ∧ s.Cuts offset block.length ∧
          s.written offset block = (.error cause, s.contents.write offset part)) := by
  rw [written]
  cases hmedium : s.medium with
  | memory => exact .inl ⟨rfl, canHold_of_limit?_eq_none (by rw [limit?, hmedium])⟩
  | file bound =>
    have hbound : s.limit? = bound := by rw [limit?, hmedium]
    cases bound with
    | none =>
      have hall : s.CanHold offset := canHold_of_limit?_eq_none hbound
      dsimp only
      rw [not_isBeyond_iff.2 hall, if_neg Bool.false_ne_true, Option.elim_none, if_neg hblock,
        if_pos rfl]
      exact .inl ⟨rfl, canHold_of_limit?_eq_none hbound⟩
    | some limit =>
      have hiff (size : Nat) : s.CanHold size ↔ size ≤ limit := by
        rw [CanHold, hbound]
        exact ⟨fun h ↦ h limit rfl, fun h bound hb ↦ Option.some.inj hb ▸ h⟩
      have hlen : (block.take (limit - offset)).length = min (limit - offset) block.length :=
        List.length_take
      have hpos := List.length_pos_of_ne_nil hblock
      dsimp only
      rw [hiff, Option.elim_some]
      by_cases hbeyond : offset ≤ limit
      · rw [not_isBeyond_iff.2 ((hiff _).2 hbeyond), if_neg Bool.false_ne_true]
        -- What is written is the part before the limit: all of the block, some of it or nothing.
        by_cases hfits : offset + block.length ≤ limit
        · have hall : block.take (limit - offset) = block := List.take_of_length_le (by omega)
          rw [hall, if_pos rfl, if_neg hblock]
          exact .inl ⟨rfl, hfits⟩
        · rw [if_neg (by omega : (block.take (limit - offset)).length ≠ block.length)]
          refine .inr ⟨hfits, ?_⟩
          by_cases hat : block.take (limit - offset) = []
          · rw [if_pos hat]
            exact .inl ⟨_, rfl⟩
          · have hroom := List.length_pos_of_ne_nil hat
            rw [if_neg hat]
            exact .inr ⟨_, _, by omega, ⟨limit, hbound, by omega, by omega⟩, rfl⟩
      · have hover : s.isBeyond offset = true :=
          Bool.of_not_eq_false (mt not_isBeyond_iff.1 (mt (hiff _).1 hbeyond))
        rw [hover, if_pos rfl]
        exact .inr ⟨by omega, .inl ⟨_, rfl⟩⟩

/-- The effect of a write on the medium. The gates are not mentioned. -/
structure Writes (s : Store) (offset : Nat) (block : List UInt8) (t : Store) : Prop where
  medium_eq : t.medium = s.medium
  contents_eq : ∃ part, part.length ≤ block.length ∧
    (t.contents = s.contents ∨ t.contents = s.contents.write offset part)

private theorem writes_of_write {r : Except IoFault Unit} (hblock : block ≠ [])
    (h : s.write offset block = (r, t)) : s.Writes offset block t ∧
      (r = .ok () → t.contents = s.contents.write offset block ∧
        s.CanHold (offset + block.length)) ∧
      (¬ s.Cuts offset block.length → r ≠ .ok () → t.contents = s.contents) := by
  rw [write] at h
  split at h
  next gate hgate =>
    obtain ⟨hok, hroom⟩ | ⟨-, ⟨cause, herror⟩ | ⟨cause, part, hlen, hcuts, hpart⟩⟩ :=
      s.written_cases offset hblock
    · rw [hok] at h
      cases h
      exact ⟨⟨rfl, block, Nat.le_refl _, .inr rfl⟩, fun _ ↦ ⟨rfl, hroom⟩,
        fun _ hne ↦ absurd rfl hne⟩
    · rw [herror] at h
      cases h
      exact ⟨⟨rfl, block, Nat.le_refl _, .inl rfl⟩, fun hok ↦ (by cases hok), fun _ _ ↦ rfl⟩
    · rw [hpart] at h
      cases h
      exact ⟨⟨rfl, part, Nat.le_of_lt hlen, .inr rfl⟩, fun hok ↦ (by cases hok),
        fun hnot ↦ absurd hcuts hnot⟩
  next gate hgate =>
    cases h
    exact ⟨⟨rfl, block, Nat.le_refl _, .inl rfl⟩, fun hok ↦ (by cases hok), fun _ _ ↦ rfl⟩

theorem eq_of_write {s t : Store} {offset : Nat} {block : List UInt8} {r : Except IoFault Unit}
    (h : s.write offset block = (r, t)) :
    t = { s with contents := t.contents, writes := s.writes.attempt.2 } := by
  rw [write] at h
  split at h
  next gate hgate =>
    obtain ⟨-, rfl⟩ := Prod.mk.inj h
    rw [hgate]
  next gate hgate =>
    obtain ⟨-, rfl⟩ := Prod.mk.inj h
    rw [hgate]

end Store

/-! ## The counter -/

namespace IdCounter

/-- No id below a number is given out by a counter that did not start again. -/
def Covers (c : IdCounter) (n : Nat) : Prop := n ≤ c.next.toNat ∨ c.next.toNat + 1 = UInt32.size

variable {c : IdCounter} {m n : Nat}

theorem Covers.mono (h : c.Covers n) (hmn : m ≤ n) : c.Covers m :=
  h.imp_left (Nat.le_trans hmn)

theorem Covers.max (hm : c.Covers m) (hn : c.Covers n) : c.Covers (max m n) := by
  unfold Covers at *
  omega

theorem next_le_next_advancePast (c : IdCounter) (id : PageId) :
    c.next.toNat ≤ (c.advancePast id).next.toNat := by
  rw [advancePast]
  dsimp only
  split
  · split
    next h => exact Nat.le_of_lt (UInt32.lt_iff_toNat_lt.1 h)
    next => exact Nat.le_refl _
  · split
    next h => exact Nat.le_of_lt (UInt32.lt_iff_toNat_lt.1 h)
    next => exact Nat.le_refl _

theorem Covers.advancePast (h : c.Covers n) (id : PageId) : (c.advancePast id).Covers n := by
  have hle := c.next_le_next_advancePast id
  have hlt := (c.advancePast id).next.toNat_lt
  unfold Covers UInt32.size at *
  omega

theorem covers_advancePast (c : IdCounter) (id : PageId) :
    (c.advancePast id).Covers (id.toNat + 1) := by
  rw [Covers, IdCounter.advancePast]
  dsimp only
  by_cases hlast : id.toNat + 1 < UInt32.size
  · have hsucc : (id + 1).toNat = id.toNat + 1 := by
      rw [UInt32.size] at hlast
      rw [UInt32.toNat_add, UInt32.toNat_one]
      omega
    rw [if_pos hlast]
    split
    next => exact .inl (Nat.le_of_eq hsucc.symm)
    next hnot => exact .inl (by rw [UInt32.lt_iff_toNat_lt] at hnot; omega)
  · -- There is no id after the last one, so the counter stops there.
    have hid := id.toNat_lt
    have hnext := c.next.toNat_lt
    rw [if_neg hlast]
    rw [UInt32.size] at hlast ⊢
    split
    next => exact .inr (by omega)
    next hnot => exact .inr (by rw [UInt32.lt_iff_toNat_lt] at hnot; omega)

theorem toNat_next_allocate (h : c.next.toNat + 1 < UInt32.size) :
    c.allocate.2.next.toNat = c.next.toNat + 1 := by
  rw [UInt32.size] at h
  rw [allocate, UInt32.toNat_add, UInt32.toNat_one]
  omega

theorem Covers.allocate (h : c.Covers n) (hnext : c.next.toNat + 1 < UInt32.size) :
    c.allocate.2.Covers n := by
  have hle : n ≤ c.next.toNat := h.resolve_right (Nat.ne_of_lt hnext)
  exact .inl (by rw [toNat_next_allocate hnext]; omega)

end IdCounter

/-! ## Pages -/

namespace PageFile

/-- The store is long enough to have the page. -/
def Has (f : PageFile) (id : PageId) : Prop := position id + pageSize ≤ f.store.contents.size

/-- What the file answers for a page if its store refuses no call. -/
def stored (f : PageFile) (id : PageId) : Except Error Page :=
  ({ f with store := f.store.obliging }.readPage id).1

/-- The counter is ahead of the pages in the store and of those in the index. -/
structure Ahead (f : PageFile) : Prop where
  stored : f.ids.Covers (f.store.contents.size / pageSize)
  indexed : f.ids.Covers f.pageCount

variable {f g : PageFile} {id : PageId}

theorem position_add_pageSize (id : PageId) :
    position id + pageSize = (id.toNat + 1) * pageSize := by
  rw [position, Nat.succ_mul]

theorem Ahead.covers (h : f.Ahead) (hid : f.Has id) : f.ids.Covers (id.toNat + 1) := by
  refine h.stored.mono ?_
  rw [Has, position_add_pageSize] at hid
  exact (Nat.le_div_iff_mul_le (by decide)).2 hid

/-- What a medium with given contents answers for a page. -/
def answer (medium : Medium) (contents : Contents) (id : PageId) : Except Error Page :=
  if contents.size < position id + pageSize then .error (.pageNotFound id)
  else
    match ({ medium := medium, contents := contents } : Store).stretch (position id) pageSize with
    | .error cause => .error (.io cause)
    | .ok bytes => pageOf id bytes

/-- Reading in terms of the two calls that it makes on the store. -/
theorem readPage_eq (f : PageFile) (id : PageId) : f.readPage id =
    if f.store.sizes.refuses f.store.sizes.calls then
      (.error (.io (.refused .size)), { f with store := f.store.size.2 })
    else if f.store.contents.size < position id + pageSize then
      (.error (.pageNotFound id), { f with store := f.store.size.2 })
    else if f.store.reads.refuses f.store.reads.calls then
      (.error (.io (.refused .read)),
        { f with store := (f.store.size.2.read (position id) pageSize).2 })
    else (answer f.store.medium f.store.contents id,
      { f with store := (f.store.size.2.read (position id) pageSize).2 }) := by
  by_cases hsize : f.store.sizes.refuses f.store.sizes.calls
  · simp [readPage, readBytes, Store.size, Gate.attempt, hsize]
  · by_cases hend : f.store.contents.size < position id + pageSize
    · simp [readPage, readBytes, Store.size, Gate.attempt, hsize, hend]
    · by_cases hread : f.store.reads.refuses f.store.reads.calls
      · simp [readPage, readBytes, Store.size, Store.read, Gate.attempt, hsize, hend, hread]
      · have hstretch (gate : Gate) : ({ f.store with sizes := gate } : Store).stretch (position id)
            pageSize = ({ medium := f.store.medium, contents := f.store.contents } : Store).stretch
              (position id) pageSize := rfl
        simp only [readPage, readBytes, Store.size, Store.read, Gate.attempt, hsize, hend, hread,
          answer, hstretch, Bool.not_false, if_false, Bool.false_eq_true, ne_eq, not_true_eq_false]
        cases ({ medium := f.store.medium, contents := f.store.contents } : Store).stretch
          (position id) pageSize <;> rfl

theorem fst_readPage_of_passes (hsizes : f.store.sizes.refuses f.store.sizes.calls = false)
    (hreads : f.store.reads.refuses f.store.reads.calls = false) :
    (f.readPage id).1 = answer f.store.medium f.store.contents id := by
  rw [readPage_eq, if_neg (by rw [hsizes]; exact Bool.false_ne_true)]
  by_cases hend : f.store.contents.size < position id + pageSize
  · rw [if_pos hend, answer, if_pos hend]
  · rw [if_neg hend, if_neg (by rw [hreads]; exact Bool.false_ne_true)]

theorem stored_eq (f : PageFile) (id : PageId) :
    f.stored id = answer f.store.medium f.store.contents id :=
  fst_readPage_of_passes rfl rfl

/-- Two files with the same bytes on the same medium. -/
structure SameBytes (f g : PageFile) : Prop where
  medium_eq : g.store.medium = f.store.medium
  contents_eq : g.store.contents = f.store.contents

theorem SameBytes.stored_eq (h : f.SameBytes g) (id : PageId) : g.stored id = f.stored id := by
  rw [PageFile.stored_eq, PageFile.stored_eq, h.medium_eq, h.contents_eq]

theorem SameBytes.trans {f' : PageFile} (h : f.SameBytes g) (h' : g.SameBytes f') :
    f.SameBytes f' :=
  ⟨h'.medium_eq.trans h.medium_eq, h'.contents_eq.trans h.contents_eq⟩

theorem SameBytes.ahead (h : f.SameBytes g) (hids : g.ids = f.ids)
    (hcount : g.pageCount = f.pageCount) (hf : f.Ahead) : g.Ahead :=
  ⟨by rw [hids, h.contents_eq]; exact hf.stored, by rw [hids, hcount]; exact hf.indexed⟩

private theorem store_of_size_read (s : Store) (offset len : Nat) :
    (s.size.2.read offset len).2.medium = s.medium ∧
      (s.size.2.read offset len).2.contents = s.contents := by
  rw [Store.read, Store.size]
  split <;> split <;> exact ⟨rfl, rfl⟩

/-- Reading changes no byte, and answers the stored page unless the medium refuses. -/
theorem readPage_cases {r : Except Error Page} (h : f.readPage id = (r, g)) :
    f.SameBytes g ∧ g.ids = f.ids ∧ (r = f.stored id ∨ ∃ cause, r = .error (.io cause)) := by
  have hsize : f.store.size.2.medium = f.store.medium ∧
      f.store.size.2.contents = f.store.contents := by
    rw [Store.size]
    split <;> exact ⟨rfl, rfl⟩
  have hread := store_of_size_read f.store (position id) pageSize
  rw [readPage_eq] at h
  split at h
  next =>
    cases h
    exact ⟨⟨hsize.1, hsize.2⟩, rfl, .inr ⟨_, rfl⟩⟩
  next =>
    split at h
    next hend =>
      cases h
      rw [stored_eq, answer, if_pos hend]
      exact ⟨⟨hsize.1, hsize.2⟩, rfl, .inl rfl⟩
    next =>
      split at h
      next =>
        cases h
        exact ⟨⟨hread.1, hread.2⟩, rfl, .inr ⟨_, rfl⟩⟩
      next =>
        cases h
        rw [stored_eq]
        exact ⟨⟨hread.1, hread.2⟩, rfl, .inl rfl⟩

theorem sync_cases {r : Except Error Unit} (h : f.sync = (r, g)) :
    f.SameBytes g ∧ g.ids = f.ids ∧ (r = .ok () ∨ ∃ cause, r = .error (.io cause)) := by
  rw [sync, Store.sync] at h
  cases hpass : f.store.syncs.attempt with
  | mk passes gate =>
    rw [hpass] at h
    cases passes with
    | false =>
      cases h
      exact ⟨⟨rfl, rfl⟩, rfl, .inr ⟨_, rfl⟩⟩
    | true =>
      cases h
      exact ⟨⟨rfl, rfl⟩, rfl, .inl rfl⟩

theorem eq_of_readPage {r : Except Error Page} (h : f.readPage id = (r, g)) :
    g = { f with store := g.store } := by
  rw [readPage_eq] at h
  split at h
  next =>
    obtain ⟨-, rfl⟩ := Prod.mk.inj h
    rfl
  next =>
    split at h
    next =>
      obtain ⟨-, rfl⟩ := Prod.mk.inj h
      rfl
    next =>
      split at h <;>
      · obtain ⟨-, rfl⟩ := Prod.mk.inj h
        rfl

theorem eq_of_sync {r : Except Error Unit} (h : f.sync = (r, g)) :
    g = { f with store := g.store } := by
  rw [sync] at h
  split at h <;>
  · obtain ⟨-, rfl⟩ := Prod.mk.inj h
    rfl

theorem pageCount_of_readPage {r : Except Error Page} (h : f.readPage id = (r, g)) :
    g.pageCount = f.pageCount := by rw [eq_of_readPage h]; rfl

theorem pageCount_of_sync {r : Except Error Unit} (h : f.sync = (r, g)) :
    g.pageCount = f.pageCount := by rw [eq_of_sync h]; rfl

/-! ## Pages and their images -/

private theorem value_eq_zero {bs : List UInt8} (h : ∀ b ∈ bs, b = 0) : Bytes.value bs = 0 := by
  induction bs with
  | nil => rfl
  | cons b bs ih =>
    rw [List.forall_mem_cons] at h
    rw [Bytes.value, ih h.2, h.1]
    rfl

/-- A page never looks as if it was not written: its free space starts behind the header. -/
theorem isBlank_image {p : Page} (hp : p.Readable) : Header.isBlank p.image.toArray = false := by
  rw [Bool.eq_false_iff]
  intro hblank
  rw [Header.isBlank, Bool.and_eq_true, List.all_eq_true] at hblank
  have hfront := (slice_eq_encodeLayout_iff.1 hp.front).1
  -- The number is in bytes 12 and 13, and all bytes of the header would be zero.
  have hlower : p.header.lower.toNat = 0 := by
    rw [← Header.ofBytes_eq hfront, Header.ofBytes]
    dsimp only
    rw [Bytes.numberAt, ← Nat.zero_add 12, Bytes.slice_add p.image.toArray 0 12
      (by decide : 12 + 2 ≤ headerSize), value_eq_zero]
    · rfl
    · intro b hb
      have hb := List.mem_of_mem_drop (List.mem_of_mem_take hb)
      exact beq_iff_eq.1 (hblank.2 b hb)
  have hstart := hp.describes.front_le_lower
  rw [hlower, slotPosition, headerSize] at hstart
  omega

theorem readable_of_pageOf {bytes : Array UInt8} {p : Page} (h : pageOf id bytes = .ok p) :
    p.Readable ∧ p.id = id := by
  rw [pageOf] at h
  split at h
  next =>
    cases h
    exact ⟨(Page.tidy_fresh id).readable, rfl⟩
  next =>
    obtain ⟨q, hq, hrest⟩ := bind_eq_ok_iff.1 h
    split at hrest
    next hid =>
      cases hrest
      exact ⟨(Page.decode_eq_ok_iff.1 hq).2, hid⟩
    next => cases hrest

/-- The image of a page stands for the page exactly if the page is readable, under its own id. -/
theorem pageOf_image_iff {p : Page} :
    pageOf id p.image.toArray = .ok p ↔ p.Readable ∧ p.id = id := by
  refine ⟨readable_of_pageOf, fun ⟨hp, hid⟩ ↦ ?_⟩
  rw [pageOf, isBlank_image hp, if_neg Bool.false_ne_true, Page.decode_image_iff.2 hp]
  exact if_pos hid

theorem readable_of_stored {p : Page} (h : f.stored id = .ok p) : p.Readable ∧ p.id = id := by
  rw [stored_eq, answer] at h
  split at h
  next => cases h
  next =>
    split at h
    next => cases h
    next => exact readable_of_pageOf h

theorem has_of_stored {p : Page} (h : f.stored id = .ok p) : f.Has id := by
  rw [stored_eq, answer] at h
  split at h
  next => cases h
  next hend => exact Nat.le_of_not_lt hend

theorem stored_of_not_has (h : ¬ f.Has id) : f.stored id = .error (.pageNotFound id) := by
  rw [stored_eq, answer, if_pos (Nat.lt_of_not_le h)]

/-! ## Writing -/

theorem stored_of_has (h : f.Has id) :
    f.stored id = if f.store.isBeyond (position id) then .error (.io .badPosition)
      else pageOf id (f.store.contents.read (position id) pageSize) := by
  have hbeyond : ({ medium := f.store.medium, contents := f.store.contents } : Store).isBeyond
      (position id) = f.store.isBeyond (position id) := rfl
  have hroom : position id + pageSize ≤
    ({ medium := f.store.medium, contents := f.store.contents } : Store).contents.size := h
  rw [stored_eq, answer, if_neg (Nat.not_lt.2 h), Store.stretch, hbeyond]
  cases f.store.isBeyond (position id) with
  | true => rfl
  | false =>
    rw [if_neg Bool.false_ne_true, if_pos hroom]
    rfl

/-- At most the page with one id is changed, and the counter does not go back. -/
structure Exchanges (f : PageFile) (id : PageId) (g : PageFile) : Prop where
  has_of_has : ∀ i, f.Has i → g.Has i
  stored_eq : ∀ i, i ≠ id → f.Has i → g.stored i = f.stored i
  covers : ∀ n, f.ids.Covers n → g.ids.Covers n
  ahead : f.Ahead → g.ids.Covers (id.toNat + 1) → g.Ahead

private theorem exchanges_of_writes {block : List UInt8} (hlen : block.length = pageSize)
    (h : f.store.Writes (position id) block g.store)
    (hids : g.ids = f.ids ∨ g.ids = f.ids.advancePast id)
    (hcount : g.pageCount = f.pageCount ∨ g.pageCount = max f.pageCount (id.toNat + 1)) :
    f.Exchanges id g := by
  obtain ⟨hmedium, part, hpart, hcontents⟩ := h
  have hsize : f.store.contents.size ≤ g.store.contents.size ∧ g.store.contents.size ≤
      max f.store.contents.size ((id.toNat + 1) * pageSize) := by
    rw [← position_add_pageSize]
    obtain heq | heq := hcontents
    · rw [heq]
      omega
    · rw [heq, Contents.size_write]
      omega
  have hcovers : ∀ n, f.ids.Covers n → g.ids.Covers n := by
    intro n hn
    obtain heq | heq := hids
    · rwa [heq]
    · rw [heq]
      exact hn.advancePast id
  refine ⟨fun i hi ↦ Nat.le_trans hi hsize.1, fun i hne hi ↦ ?_, hcovers, fun hahead hnew ↦ ?_⟩
  · have hread : g.store.contents.read (position i) pageSize =
        f.store.contents.read (position i) pageSize := by
      obtain heq | heq := hcontents
      · rw [heq]
      · -- Pages lie at multiples of their size, so two of them share no byte.
        have hpages : i.toNat ≠ id.toNat := fun heq ↦ hne (UInt32.toNat_inj.1 heq)
        rw [heq]
        refine Contents.read_write_of_disjoint _ hi ?_
        rw [hlen] at hpart
        unfold position pageSize at *
        omega
    rw [stored_of_has hi, stored_of_has (Nat.le_trans hi hsize.1), Store.isBeyond_congr hmedium,
      hread]
  · -- If the store or the index grew, the page that was written is the last one.
    have hdiv := Nat.div_le_div_right (c := pageSize) hsize.2
    refine ⟨((hcovers _ hahead.stored).max hnew).mono ?_,
      ((hcovers _ hahead.indexed).max hnew).mono ?_⟩
    · unfold pageSize at *
      omega
    · omega

theorem toList_image_ne_nil (p : Page) : p.image.toList ≠ [] := by
  refine List.ne_nil_of_length_pos ?_
  rw [Vector.length_toList]
  decide

/-- The ids of the pages that a write of page `id` skips over. -/
def skippedIds (f : PageFile) (id : PageId) : List PageId :=
  (List.range' f.pageCount (id.toNat - f.pageCount)).map UInt32.ofNat

/-- The index with the pages that are skipped on the way to a page. -/
def bridge (f : PageFile) (id : PageId) : PageFile := f.addFresh (f.skippedIds id)

/-- The index with a page entered. -/
def entered (f : PageFile) (h : Header) : PageFile :=
  { (f.bridge h.page).updateHeader h with ids := f.ids.advancePast h.page }

theorem pageCount_bridge : (f.bridge id).pageCount = max f.pageCount id.toNat := by
  have happend : (f.bridge id).headers = f.headers ++
      ((f.skippedIds id).map Header.fresh).toArray := rfl
  simp only [pageCount, happend, skippedIds, Array.size_append, List.size_toArray, List.length_map,
    List.length_range']
  omega

theorem pageCount_updateHeader {h : Header} (f : PageFile) : (f.updateHeader h).pageCount =
    if h.page.toNat < f.pageCount then f.pageCount else f.pageCount + 1 := by
  have hupdate : (f.updateHeader h).headers = if h.page.toNat < f.headers.size then
      f.headers.setIfInBounds h.page.toNat h else f.headers.push h := rfl
  rw [pageCount, pageCount, hupdate, apply_ite Array.size, Array.size_setIfInBounds,
    Array.size_push]

private theorem pageCount_entered (f : PageFile) (h : Header) :
    (f.entered h).pageCount = max f.pageCount (h.page.toNat + 1) := by
  have hupdate : (f.entered h).pageCount = ((f.bridge h.page).updateHeader h).pageCount := rfl
  rw [hupdate, pageCount_updateHeader, pageCount_bridge]
  split <;> omega

/-- The pages that are skipped can be indexed as long as there is an id behind the pages of the
file. -/
theorem trackGap_eq (f : PageFile) (id : PageId) : f.trackGap id =
    if f.pageCount < UInt32.size then .ok (f.bridge id) else .error (.fault .counterOverflow) := by
  have hiff : f.headers.size < UInt32.size ↔ f.pageCount < UInt32.size := Iff.rfl
  rw [trackGap, firstUnknown, if_congr hiff rfl rfl]
  split
  next hlt =>
    have hknown : (UInt32.ofNat f.headers.size).toNat = f.pageCount :=
      UInt32.toNat_ofNat_of_lt' hlt
    have hskipped : idsBetween (.ofNat f.headers.size) id = f.skippedIds id := by
      rw [idsBetween, hknown]
      rfl
    exact congrArg (fun ids ↦ Except.ok (f.addFresh ids)) hskipped
  next => rfl

private theorem enter_eq (f : PageFile) (h : Header) : f.enter h =
    if f.pageCount < UInt32.size then .ok (f.entered h) else .error (.fault .counterOverflow) := by
  rw [enter, trackGap_eq]
  split <;> rfl

theorem finishWrite_eq (f : PageFile) (store : Store) (h : Header) : f.finishWrite store h =
    if f.pageCount < UInt32.size then (.ok (), { f with store := store }.entered h)
    else (.error (.fault .counterOverflow),
      { f with store := { store with contents := f.store.contents } }) := by
  have hcount : ({ f with store := store } : PageFile).pageCount = f.pageCount := rfl
  rw [finishWrite, enter_eq, hcount]
  split
  next e h =>
    split at h
    next => cases h
    next hfull =>
      cases h
      rw [if_neg hfull]
  next g h =>
    split at h
    next hlt =>
      cases h
      rw [if_pos hlt]
    next => cases h

theorem eq_of_writePage_error {p : Page} {e : Error} (h : f.writePage p = (.error e, g)) :
    g = { f with store := { f.store with
      contents := g.store.contents, writes := f.store.writes.attempt.2 } } := by
  rw [writePage] at h
  split at h
  next cause t ht =>
    obtain ⟨-, rfl⟩ := Prod.mk.inj h
    rw [← Store.eq_of_write ht]
  next t ht =>
    rw [finishWrite_eq] at h
    split at h
    next => cases h
    next =>
      obtain ⟨-, rfl⟩ := Prod.mk.inj h
      rw [Store.eq_of_write ht]

/-- A write that succeeds enters the header of the page. -/
theorem eq_of_writePage_ok {p : Page} (h : f.writePage p = (.ok (), g)) :
    g = { f with store := g.store }.entered p.header := by
  rw [writePage] at h
  split at h
  next => cases h
  next t ht =>
    rw [finishWrite_eq] at h
    split at h
    next =>
      obtain ⟨-, rfl⟩ := Prod.mk.inj h
      rfl
    next => cases h

theorem pageCount_of_writePage_ok {p : Page} (h : f.writePage p = (.ok (), g)) :
    g.pageCount = max f.pageCount (p.id.toNat + 1) := by
  rw [eq_of_writePage_ok h]
  exact pageCount_entered _ _

theorem pageCount_of_writePage {p : Page} {r : Except Error Unit} (h : f.writePage p = (r, g)) :
    g.pageCount = f.pageCount ∨ g.pageCount = max f.pageCount (p.id.toNat + 1) := by
  rcases r with e | ⟨⟩
  · rw [eq_of_writePage_error h]
    exact .inl rfl
  · exact .inr (pageCount_of_writePage_ok h)

/-- Why a page could not be written: the medium says so, or there is no id behind the pages. -/
def FailsToWrite (id : PageId) (e : Error) : Prop :=
  e = .fault .counterOverflow ∨ ∃ cause, e = .writeFailed id cause

theorem writePage_cases {p : Page} {r : Except Error Unit} (h : f.writePage p = (r, g)) :
    ((r = .ok () ∧ f.pageCount < UInt32.size ∧ g.ids = f.ids.advancePast p.id ∧
        g.store.contents = f.store.contents.write (position p.id) p.image.toList ∧
        f.store.CanHold (position p.id + pageSize)) ∨
      ((∃ e, r = .error e ∧ FailsToWrite p.id e) ∧ g.ids = f.ids ∧
        (¬ f.store.Cuts (position p.id) pageSize → f.SameBytes g))) ∧
      f.store.Writes (position p.id) p.image.toList g.store := by
  have hlen : p.image.toList.length = pageSize := Vector.length_toList
  have hne := toList_image_ne_nil p
  rw [writePage] at h
  split at h
  next cause t ht =>
    obtain ⟨hwrites, -, herror⟩ := Store.writes_of_write hne ht
    cases h
    rw [hlen] at herror
    refine ⟨.inr ⟨⟨_, rfl, .inr ⟨cause, rfl⟩⟩, rfl, fun hcuts ↦ ⟨hwrites.medium_eq, ?_⟩⟩, hwrites⟩
    exact herror hcuts (by rintro ⟨⟩)
  next t ht =>
    obtain ⟨hwrites, hok, -⟩ := Store.writes_of_write hne ht
    rw [finishWrite_eq] at h
    split at h
    next hlt =>
      cases h
      obtain ⟨hcontents, hroom⟩ := hok rfl
      rw [hlen] at hroom
      exact ⟨.inl ⟨rfl, hlt, rfl, hcontents, hroom⟩, hwrites⟩
    next =>
      cases h
      exact ⟨.inr ⟨⟨_, rfl, .inl rfl⟩, rfl, fun _ ↦ ⟨hwrites.medium_eq, rfl⟩⟩,
        ⟨hwrites.medium_eq, _, Nat.le_refl _, .inl rfl⟩⟩

theorem exchanges_of_writePage {p : Page} {r : Except Error Unit} (h : f.writePage p = (r, g)) :
    f.Exchanges p.id g := by
  obtain ⟨hcase, hwrites⟩ := writePage_cases h
  refine exchanges_of_writes (by simp) hwrites ?_ (pageCount_of_writePage h)
  obtain ⟨-, -, hids, -⟩ | ⟨-, hids, -⟩ := hcase
  · exact .inr hids
  · exact .inl hids

/-- A write takes the end of the file no further than behind the page that is written. -/
theorem has_of_writePage {p : Page} {r : Except Error Unit} (h : f.writePage p = (r, g))
    (hid : g.Has id) : f.Has id ∨ id.toNat ≤ p.id.toNat := by
  obtain ⟨part, hpart, hcontents | hcontents⟩ := (writePage_cases h).2.contents_eq
  · exact .inl (by rwa [Has, ← hcontents])
  · rw [Vector.length_toList] at hpart
    rw [Has, hcontents, Contents.size_write] at hid
    rw [Has]
    unfold position pageSize at *
    omega

theorem stored_of_writePage {p : Page} (h : f.writePage p = (.ok (), g)) :
    g.stored p.id = pageOf p.id p.image.toArray := by
  have hlen : p.image.toList.length = pageSize := by simp
  obtain ⟨⟨-, -, -, hcontents, hroom⟩ | ⟨⟨e, herror, -⟩, -⟩, hwrites⟩ := writePage_cases h
  · have hbeyond : g.store.isBeyond (position p.id) = false :=
      Store.not_isBeyond_iff.2 ((Store.canHold_congr hwrites.medium_eq).2
        (hroom.mono (Nat.le_add_right _ _)))
    have hhas : g.Has p.id := by
      rw [Has, hcontents, Contents.size_write, hlen]
      omega
    have hread := f.store.contents.read_write (position p.id) p.image.toList
    rw [hlen] at hread
    rw [stored_of_has hhas, hbeyond, if_neg Bool.false_ne_true, hcontents, hread]
    rfl
  · cases herror

/-- A page can be stored exactly if it is readable. -/
theorem exists_stored_iff {p : Page} :
    (∃ f : PageFile, f.stored id = .ok p) ↔ p.Readable ∧ p.id = id := by
  constructor
  · rintro ⟨f, hf⟩
    exact readable_of_stored hf
  · rintro ⟨hreadable, rfl⟩
    have hwrite : empty.writePage p = (.ok (), (empty.writePage p).2) := rfl
    exact ⟨_, (stored_of_writePage hwrite).trans (pageOf_image_iff.2 ⟨hreadable, rfl⟩)⟩

/-- Why a page could not be deleted. -/
def FailsToDelete (id : PageId) (e : Error) : Prop :=
  e = .fault .counterOverflow ∨ ∃ cause, e = .deleteFailed id cause

/-- Deleting a page is writing an empty one, but for the name of the error. -/
theorem deletePage_cases {r : Except Error Unit} (h : f.deletePage id = (r, g)) :
    f.writePage (.fresh id) = (.ok (), g) ∧ r = .ok () ∨
      ∃ e e', f.writePage (.fresh id) = (.error e, g) ∧ r = .error e' ∧ FailsToDelete id e' := by
  rw [deletePage] at h
  split at h
  next cause t ht =>
    cases h
    have hwrite : f.store.write (position (Page.fresh id).id) (Page.fresh id).image.toList =
        (.error cause, t) := ht
    refine .inr ⟨.writeFailed id cause, _, ?_, rfl, .inr ⟨cause, rfl⟩⟩
    rw [writePage, hwrite]
    rfl
  next t ht =>
    have hwrite : f.store.write (position (Page.fresh id).id) (Page.fresh id).image.toList =
        (.ok (), t) := ht
    have heq : f.writePage (.fresh id) = (r, g) := by
      rw [writePage, hwrite]
      exact h
    rw [finishWrite_eq] at h
    split at h
    next =>
      cases h
      exact .inl ⟨heq, rfl⟩
    next =>
      cases h
      exact .inr ⟨_, _, heq, rfl, .inl rfl⟩

theorem writePage_of_deletePage {r : Except Error Unit} (h : f.deletePage id = (r, g)) :
    ∃ r', f.writePage (.fresh id) = (r', g) := by
  obtain ⟨hwrite, -⟩ | ⟨e, e', hwrite, -⟩ := deletePage_cases h
  · exact ⟨_, hwrite⟩
  · exact ⟨_, hwrite⟩

theorem exchanges_of_deletePage {r : Except Error Unit} (h : f.deletePage id = (r, g)) :
    f.Exchanges id g := by
  obtain ⟨r', hwrite⟩ := writePage_of_deletePage h
  exact exchanges_of_writePage hwrite

/-! ## Errors of a file -/

theorem stored_failsWith (f : PageFile) (id : PageId) : FailsWith Error.OfFile (f.stored id) := by
  rw [stored_eq, answer]
  split
  next => exact failsWith_error trivial
  next =>
    split
    next => exact failsWith_error trivial
    next bytes hbytes =>
      exact .ite (failsWith_ok _) ((Page.decode_failsWith bytes).bind fun page ↦
        .ite (failsWith_ok _) (failsWith_error trivial))

theorem readPage_failsWith {r : Except Error Page} (h : f.readPage id = (r, g)) :
    FailsWith Error.OfFile r := by
  obtain ⟨-, -, rfl | ⟨cause, rfl⟩⟩ := readPage_cases h
  · exact f.stored_failsWith id
  · exact failsWith_error trivial

theorem writePage_failsWith {p : Page} {r : Except Error Unit} (h : f.writePage p = (r, g)) :
    FailsWith Error.OfWrite r := by
  obtain ⟨⟨rfl, -⟩ | ⟨⟨e, rfl, rfl | ⟨cause, rfl⟩⟩, -⟩, -⟩ := writePage_cases h
  · exact failsWith_ok _
  · exact failsWith_error trivial
  · exact failsWith_error trivial

theorem deletePage_failsWith {r : Except Error Unit} (h : f.deletePage id = (r, g)) :
    FailsWith Error.OfWrite r := by
  obtain ⟨-, rfl⟩ | ⟨e, e', -, rfl, rfl | ⟨cause, rfl⟩⟩ := deletePage_cases h
  · exact failsWith_ok _
  · exact failsWith_error trivial
  · exact failsWith_error trivial

theorem sync_failsWith {r : Except Error Unit} (h : f.sync = (r, g)) :
    FailsWith Error.OfFile r := by
  obtain ⟨-, -, rfl | ⟨cause, rfl⟩⟩ := sync_cases h
  · exact failsWith_ok _
  · exact failsWith_error trivial

/-! ## The counter of a file -/

theorem Exchanges.ahead_of_covers (h : f.Exchanges id g) (hf : f.Ahead)
    (hid : f.ids.Covers (id.toNat + 1)) : g.Ahead := h.ahead hf (h.covers _ hid)

theorem ahead_of_writePage {p : Page} (h : f.writePage p = (.ok (), g)) (hf : f.Ahead) :
    g.Ahead := by
  obtain ⟨⟨-, -, hids, -⟩ | ⟨⟨e, ⟨⟩, -⟩, -⟩, -⟩ := writePage_cases h
  refine (exchanges_of_writePage h).ahead hf ?_
  rw [hids]
  exact f.ids.covers_advancePast p.id

theorem ahead_of_deletePage {r : Except Error Unit} (h : f.deletePage id = (r, g))
    (hkept : r ≠ .ok () → g.store.contents = f.store.contents) (hf : f.Ahead) :
    f.Exchanges id g ∧ g.Ahead := by
  obtain ⟨hwrite, -⟩ | ⟨e, e', hwrite, herror, -⟩ := deletePage_cases h
  · exact ⟨exchanges_of_writePage hwrite, ahead_of_writePage hwrite hf⟩
  · have hex : f.Exchanges id g := exchanges_of_writePage hwrite
    obtain ⟨⟨⟨⟩, -⟩ | ⟨-, hids, -⟩, hwrites⟩ := writePage_cases hwrite
    have hsame : f.SameBytes g := ⟨hwrites.medium_eq, hkept (by rw [herror]; rintro ⟨⟩)⟩
    have hcount : g.pageCount = f.pageCount := by rw [eq_of_writePage_error hwrite]; rfl
    exact ⟨hex, hsame.ahead hids hcount hf⟩

/-- A deletion that fails changes no byte, unless it was cut off by the limit of a file. -/
theorem contents_of_deletePage {r : Except Error Unit} (h : f.deletePage id = (r, g))
    (hcuts : ¬ f.store.Cuts (position id) pageSize) (herror : r ≠ .ok ()) :
    g.store.contents = f.store.contents := by
  obtain ⟨-, hok⟩ | ⟨e, e', hwrite, -⟩ := deletePage_cases h
  · exact absurd hok herror
  · obtain ⟨⟨⟨⟩, -⟩ | ⟨-, -, hsame⟩, -⟩ := writePage_cases hwrite
    exact (hsame hcuts).contents_eq

theorem ahead_empty : empty.Ahead := ⟨.inl (Nat.zero_le _), .inl (Nat.zero_le _)⟩

private theorem contents_of_size {s t : Store} {r : Except IoFault Nat} (h : s.size = (r, t)) :
    t.contents = s.contents ∧ ∀ n, r = .ok n → n = s.contents.size := by
  rw [Store.size] at h
  split at h
  · cases h
    exact ⟨rfl, fun n hn ↦ (Except.ok.inj hn).symm⟩
  · cases h
    exact ⟨rfl, fun n ↦ by rintro ⟨⟩⟩

theorem contents_of_read {s t : Store} {offset len : Nat} {r : Except IoFault (Array UInt8)}
    (h : s.read offset len = (r, t)) : t.contents = s.contents := by
  rw [Store.read] at h
  split at h <;> cases h <;> rfl

private theorem contents_of_readHeaders {s t : Store} {headers : Array Header} {first count : Nat}
    {r : Except Error (Array Header)} (h : readHeaders s headers first count = (r, t)) :
    t.contents = s.contents := by
  induction count generalizing s headers first with
  | zero =>
    cases h
    rfl
  | succ count ih =>
    rw [readHeaders] at h
    split at h
    next cause u hu =>
      cases h
      exact contents_of_read hu
    next bytes u hu =>
      split at h
      next =>
        cases h
        exact contents_of_read hu
      next => exact (ih h).trans (contents_of_read hu)

/-- What a store opens as. -/
theorem load_eq {s t : Store} (h : load s = (.ok f, t)) : ∃ (u : Store) (headers : Array Header),
    u.contents = s.contents ∧
    readHeaders u #[] 0 (s.contents.size / pageSize) = (.ok headers, t) ∧
    f = { store := t, headers := headers, freePages := headers.countP (·.isFree)
          ids := ⟨.ofNat (s.contents.size / pageSize)⟩ } := by
  rw [load] at h
  split at h
  next => cases h
  next size u hu =>
    obtain ⟨hcontents, hsize⟩ := contents_of_size hu
    obtain rfl := hsize size rfl
    simp only at h
    split at h
    next => cases h
    next headers v hv =>
      cases h
      exact ⟨u, headers, hcontents, hv, rfl⟩

theorem contents_of_load {s t : Store} (h : load s = (.ok f, t)) :
    f.store.contents = s.contents := by
  obtain ⟨u, headers, hcontents, hread, rfl⟩ := load_eq h
  exact (contents_of_readHeaders hread).trans hcontents

end PageFile

end PagedStorage
