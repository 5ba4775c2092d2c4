import PagedStorage.Proofs.Page.RecordMap

/-!
# Runs of edits

What is true of every page that a run of edits leads to, whatever the edits are and whether they
succeed. Two statements: the page has the layout that the format asks for, free entries and the
order of the directory included (`Page.LaidOut`), and it is read back from the block that it is
written to.

## One step

Tidiness is one part of the layout, and one step of it is `Edit.tidy_apply`. The other part is the
order. The directory is sorted by keys that are read off the image before the front is written, so
it could be an order of keys that are no longer there. On a tidy page it is not: every entry, the
free ones included, points behind the front, and writing the front moves no key.

## Any run

`Page.after` performs a list of edits one after the other, and an edit that fails leaves the page as
it was. So what an edit that succeeds keeps, a run keeps (`after_induct`), and this is the one
induction on runs for everything that is said of pages. The pages that runs lead to are those that
are built by edits with writing and reading back in between (`built_iff_exists_after`), since a tidy
page is read back as it was.
-/

namespace PagedStorage.Page

/-! ## The order of the directory -/

/-- The entries stand in the order of the keys that the image holds. -/
def Ordered (p : Page) : Prop :=
  p.directory.Pairwise fun a b ↦ sortKey p.image a ≤ sortKey p.image b

theorem inOrder_trans {image : Image} (a b c : Slot) (hab : inOrder image a b)
    (hbc : inOrder image b c) : inOrder image a c :=
  decide_eq_true (List.le_trans (of_decide_eq_true hab) (of_decide_eq_true hbc))

theorem inOrder_total {image : Image} (a b : Slot) : inOrder image a b || inOrder image b a := by
  simpa [inOrder] using List.le_total (sortKey image a) (sortKey image b)

private theorem pairwise_sortDirectory (image : Image) (directory : List Slot) :
    (sortDirectory image directory).Pairwise fun a b ↦ sortKey image a ≤ sortKey image b := by
  rw [sortDirectory_eq_mergeSort]
  exact (List.pairwise_mergeSort inOrder_trans inOrder_total directory).imp of_decide_eq_true

/-- Keys that lie where two images agree are the same on both. -/
theorem Ordered.congr {p q : Page} (hp : p.Ordered) (hdir : q.directory = p.directory)
    (hkeys : ∀ s ∈ p.directory, sortKey q.image s = sortKey p.image s) : q.Ordered := by
  rw [Ordered, hdir]
  refine List.Pairwise.imp_of_mem (fun {a b} ha hb hab ↦ ?_) hp
  rwa [hkeys a ha, hkeys b hb]

theorem ordered_of_settle {h : Header} {d : List Slot} {image : Image} {p : Page}
    (hsettle : settle h d image = .ok p) (hp : p.Tidy) : p.Ordered := by
  have hdir : p.directory = sortDirectory image d := by rw [(settle_eq_ok_iff.1 hsettle).2]
  have hkeys : ∀ s ∈ p.directory, sortKey p.image s = sortKey image s := by
    intro s hs
    have hfront := hp.front_le_start hs
    rw [(directory_of_settle hsettle).length_eq] at hfront
    exact slice_of_settle hsettle hfront
  refine List.Pairwise.imp_of_mem (fun {a b} ha hb hab ↦ ?_)
    (hdir ▸ pairwise_sortDirectory image d)
  rwa [hkeys a ha, hkeys b hb]

theorem ordered_withHeader {p : Page} (hp : p.Tidy) (ho : p.Ordered) (h : Header) :
    (p.withHeader h).Ordered := by
  refine ho.congr rfl fun s hs ↦ slice_withHeader p h ?_
  have hfront := hp.front_le_start hs
  rw [slotPosition] at hfront
  omega

theorem ordered_fresh (id : PageId) : (fresh id).Ordered := List.Pairwise.nil

theorem Edit.ordered_apply {e : Edit} {p q : Page} (hp : p.Tidy) (ho : p.Ordered)
    (h : e.apply p = .ok q) : q.Ordered := by
  have hq := Edit.tidy_apply hp h
  cases becomes_of_apply hp.packs.encloses h with
  | stores hs => exact ordered_of_settle hs.settled hq
  | frees hf => exact ordered_of_settle hf.settled hq
  | same => exact ho
  | relinks => exact ordered_withHeader hp ho _
  | reset => exact ordered_fresh p.id

theorem Built.ordered {id : PageId} {p : Page} (h : Built id p) : p.Ordered := by
  induction h with
  | fresh => exact ordered_fresh id
  | edit hp hq ih => exact Edit.ordered_apply hp.tidy ih hq
  | reload hp hencode hdecode ih => rwa [eq_of_reload hp.tidy.readable hencode hdecode]

/-! ## Runs -/

/-- The page after an edit. An edit that fails leaves the page as it was. -/
def Edit.perform (e : Edit) (p : Page) : Page :=
  match e.apply p with
  | .ok q => q
  | .error _ => p

/-- The page after a run of edits. -/
def after (p : Page) (edits : List Edit) : Page := edits.foldl (fun p e ↦ e.perform p) p

/-- What an edit that succeeds keeps, runs of edits keep. -/
theorem after_induct {P : Page → Prop} (hstep : ∀ (e : Edit) p q, P p → e.apply p = .ok q → P q)
    {p : Page} (hp : P p) (edits : List Edit) : P (p.after edits) := by
  induction edits generalizing p with
  | nil => exact hp
  | cons e edits ih =>
    have hperform : P (e.perform p) := by
      rw [Edit.perform]
      split
      next q hq => exact hstep e p q hp hq
      next => exact hp
    exact ih hperform

theorem Built.after {id : PageId} {p : Page} (hp : Built id p) (edits : List Edit) :
    Built id (p.after edits) :=
  after_induct (fun _ _ _ ↦ .edit) hp edits

/-- Runs of edits lead to the built pages. To read a page back in between leads nowhere else. -/
theorem built_iff_exists_after {id : PageId} {p : Page} :
    Built id p ↔ ∃ edits, (fresh id).after edits = p := by
  constructor
  · intro h
    induction h with
    | fresh => exact ⟨[], rfl⟩
    | @edit p q e _ hq ih =>
      obtain ⟨edits, rfl⟩ := ih
      refine ⟨edits ++ [e], ?_⟩
      rw [Page.after, List.foldl_append, List.foldl_cons, List.foldl_nil, ← Page.after,
        Edit.perform, hq]
    | reload hp hencode hdecode ih =>
      rwa [eq_of_reload hp.tidy.readable hencode hdecode]
  · rintro ⟨edits, rfl⟩
    exact Built.after .fresh edits

theorem Enclosed.after {p : Page} (hp : p.Enclosed) (edits : List Edit) :
    (p.after edits).Enclosed :=
  after_induct (fun _ _ _ ↦ Edit.enclosed_apply) hp edits

/-! ## The layout -/

/-- The layout of a page. Besides what makes the page tidy, the directory lists each slot once, a
slot is looked up as the entry that carries its id, and the entries are in order. -/
structure LaidOut (p : Page) : Prop extends p.Tidy where
  ids_perm : (p.directory.map fun s ↦ s.id.toNat).Perm (List.range p.header.slotCount.toNat)
  slot?_of_lt : ∀ slot < p.header.slotCount,
    ∃ s ∈ p.directory, p.slot? slot = some s ∧ s.id = slot
  slot?_of_le : ∀ slot, p.header.slotCount ≤ slot → p.slot? slot = none
  ordered : p.Ordered

private theorem laidOut_of_ordered {p : Page} (hp : p.Tidy) (ho : p.Ordered) : p.LaidOut where
  toTidy := hp
  ids_perm := hp.packs.encloses.ids_perm
  slot?_of_lt slot hlt := by
    obtain ⟨s, hs⟩ := exists_slot_of_lt hp.packs.encloses (UInt16.lt_iff_toNat_lt.1 hlt)
    obtain ⟨hmem, hid⟩ := (slot?_eq_some_iff hp.packs.ids_nodup).1 hs
    exact ⟨s, hmem, hs, hid⟩
  slot?_of_le _ hle := slot?_eq_none_of_le hp.packs.encloses (UInt16.le_iff_toNat_le.1 hle)
  ordered := ho

/-- Every run of edits on a new page, failing ones included, leads to a page with the layout of
the format. -/
theorem laidOut_after (id : PageId) (edits : List Edit) : ((fresh id).after edits).LaidOut := by
  have hbuilt : Built id ((fresh id).after edits) := built_iff_exists_after.2 ⟨edits, rfl⟩
  exact laidOut_of_ordered hbuilt.tidy hbuilt.ordered

/-! ## Written and read back -/

/-- Every run of edits on a new page leads to a page that can be written to a block of the size of
a page, and that this block is read as. -/
theorem decode_encode_after (id : PageId) (edits : List Edit) : ∃ bytes,
    ((fresh id).after edits).encode pageSize = .ok bytes ∧ bytes.size = pageSize ∧
      decode bytes = .ok ((fresh id).after edits) := by
  have hbuilt : Built id ((fresh id).after edits) := built_iff_exists_after.2 ⟨edits, rfl⟩
  refine ⟨((fresh id).after edits).image.toArray, ?_, Vector.size_toArray _, ?_⟩
  · rw [encode, if_pos rfl]
  · exact decode_image_iff.2 hbuilt.tidy.readable

end PagedStorage.Page
