import Mathlib.Data.List.Perm.Subperm
import PagedStorage.Proofs.Page.Entries

/-!
# Sound layouts

Three conditions on a header and a directory, none of which looks at the order of the entries.

`Header.Encloses` is the least that all work on a page relies on: the free space lies between the
directory and the end of the page, the ids are the numbers below the slot count, the free entries
are counted right, and every entry has room for a key and ends inside the page. Entries may lie over
each other, over the front and over the free space.

`Header.Describes` is what has to hold for a page to be read back: besides, the *used* entries lie
behind the free space and share no byte. Nothing is asked of where a free entry lies.

`Header.Packs` is what the operations on pages keep up: the same of *all* entries, and a free
space that starts where the directory ends. The difference matters because a free entry may be
taken over in place, and is a used entry from then on.

## Exchanging and adding

An edit exchanges an entry for one with the same id, or adds one with the next id. For each of the
three conditions there is one lemma for the exchange and one for the addition, with what the
new entry has to satisfy as a hypothesis. They speak of an entry in front of the others, which is
enough since all conditions are invariant under permutations.

## Pages

A page adds an image. It is `Readable` if header and directory describe a page and stand encoded at
its front, and `Enclosed` or `Tidy` if they enclose or pack. What the rest of the image holds is no
part of any of these.
-/

namespace PagedStorage

namespace Header

/-- A header and a directory whose entries lie inside the page. -/
structure Encloses (h : Header) (directory : List Slot) : Prop where
  length_eq : directory.length = h.slotCount.toNat
  ids_nodup : (directory.map (·.id)).Nodup
  id_lt : ∀ s ∈ directory, s.id.toNat < h.slotCount.toNat
  front_le_lower : slotPosition h.slotCount.toNat ≤ h.lower.toNat
  lower_le_upper : h.lower.toNat ≤ h.upper.toNat
  upper_le : h.upper.toNat ≤ pageSize
  keySize_le : ∀ s ∈ directory, keySize ≤ s.length.toNat
  stop_le : ∀ s ∈ directory, s.stop ≤ pageSize
  countFree : directory.countP (·.isFree) = h.freeSlotCount.toNat

/-- A header and a directory that can be read back as a page. -/
structure Describes (h : Header) (directory : List Slot) : Prop where
  length_eq : directory.length = h.slotCount.toNat
  ids_nodup : (directory.map (·.id)).Nodup
  id_lt : ∀ s ∈ directory, s.id.toNat < h.slotCount.toNat
  front_le_lower : slotPosition h.slotCount.toNat ≤ h.lower.toNat
  lower_le_upper : h.lower.toNat ≤ h.upper.toNat
  upper_le : h.upper.toNat ≤ pageSize
  keySize_le : ∀ s ∈ directory, keySize ≤ s.length.toNat
  stop_le : ∀ s ∈ directory, s.stop ≤ pageSize
  upper_le_start : ∀ s ∈ directory, s.isUsed → h.upper.toNat ≤ s.start
  apart : directory.Pairwise fun a b ↦ a.isUsed → b.isUsed → a.Apart b
  countFree : directory.countP (·.isFree) = h.freeSlotCount.toNat

/-- A header and a directory in which the free entries, too, keep clear of everything else. -/
structure Packs (h : Header) (directory : List Slot) : Prop extends h.Describes directory where
  lower_eq : h.lower.toNat = slotPosition h.slotCount.toNat
  upper_le_start_all : ∀ s ∈ directory, h.upper.toNat ≤ s.start
  apart_all : directory.Pairwise Slot.Apart

theorem Describes.encloses {h : Header} {d : List Slot} (hd : h.Describes d) : h.Encloses d :=
  ⟨hd.length_eq, hd.ids_nodup, hd.id_lt, hd.front_le_lower, hd.lower_le_upper, hd.upper_le,
    hd.keySize_le, hd.stop_le, hd.countFree⟩

theorem Encloses.describes {h : Header} {d : List Slot} (hd : h.Encloses d)
    (hstart : ∀ s ∈ d, s.isUsed → h.upper.toNat ≤ s.start)
    (hapart : d.Pairwise fun a b ↦ a.isUsed → b.isUsed → a.Apart b) : h.Describes d :=
  ⟨hd.length_eq, hd.ids_nodup, hd.id_lt, hd.front_le_lower, hd.lower_le_upper, hd.upper_le,
    hd.keySize_le, hd.stop_le, hstart, hapart, hd.countFree⟩

private theorem describes_fresh (id : PageId) : (fresh id).Describes [] where
  length_eq := rfl
  ids_nodup := List.nodup_nil
  id_lt _ hs := absurd hs List.not_mem_nil
  front_le_lower := (by decide : slotPosition 0 ≤ (UInt16.ofNat headerSize).toNat)
  lower_le_upper := (by decide : (UInt16.ofNat headerSize).toNat ≤ (UInt16.ofNat pageSize).toNat)
  upper_le := (by decide : (UInt16.ofNat pageSize).toNat ≤ pageSize)
  keySize_le _ hs := absurd hs List.not_mem_nil
  stop_le _ hs := absurd hs List.not_mem_nil
  upper_le_start _ hs := absurd hs List.not_mem_nil
  apart := List.Pairwise.nil
  countFree := rfl

theorem packs_fresh (id : PageId) : (fresh id).Packs [] where
  toDescribes := describes_fresh id
  lower_eq := (by decide : (UInt16.ofNat headerSize).toNat = slotPosition 0)
  upper_le_start_all _ hs := absurd hs List.not_mem_nil
  apart_all := List.Pairwise.nil

/-! ## The order of the entries does not matter -/

private theorem usedApart_symm {a b : Slot} (h : a.isUsed → b.isUsed → a.Apart b) :
    b.isUsed → a.isUsed → b.Apart a := fun hb ha ↦ (h ha hb).symm

theorem Encloses.perm {h : Header} {d e : List Slot} (hd : h.Encloses d) (hperm : d.Perm e) :
    h.Encloses e where
  length_eq := hperm.length_eq ▸ hd.length_eq
  ids_nodup := (hperm.map _).nodup_iff.1 hd.ids_nodup
  id_lt s hs := hd.id_lt s (hperm.mem_iff.2 hs)
  front_le_lower := hd.front_le_lower
  lower_le_upper := hd.lower_le_upper
  upper_le := hd.upper_le
  keySize_le s hs := hd.keySize_le s (hperm.mem_iff.2 hs)
  stop_le s hs := hd.stop_le s (hperm.mem_iff.2 hs)
  countFree := hperm.countP_eq _ ▸ hd.countFree

theorem Describes.perm {h : Header} {d e : List Slot} (hd : h.Describes d) (hperm : d.Perm e) :
    h.Describes e :=
  (hd.encloses.perm hperm).describes (fun s hs ↦ hd.upper_le_start s (hperm.mem_iff.2 hs))
    ((hperm.pairwise_iff usedApart_symm).1 hd.apart)

theorem Packs.perm {h : Header} {d e : List Slot} (hd : h.Packs d) (hperm : d.Perm e) :
    h.Packs e where
  toDescribes := hd.toDescribes.perm hperm
  lower_eq := hd.lower_eq
  upper_le_start_all s hs := hd.upper_le_start_all s (hperm.mem_iff.2 hs)
  apart_all := (hperm.pairwise_iff Slot.Apart.symm).1 hd.apart_all

/-! ## What the ids and the front are -/

/-- The ids are the numbers below the slot count. There are as many of them, so none is left
out. -/
theorem Encloses.ids_perm {h : Header} {d : List Slot} (hd : h.Encloses d) :
    (d.map fun s ↦ s.id.toNat).Perm (List.range h.slotCount.toNat) := by
  have hnodup : (d.map fun s ↦ s.id.toNat).Nodup := by
    have hids := hd.ids_nodup.map (f := UInt16.toNat) fun _ _ ↦ UInt16.toNat_inj.1
    rwa [List.map_map] at hids
  have hsub : d.map (fun s ↦ s.id.toNat) ⊆ List.range h.slotCount.toNat := by
    intro n hn
    obtain ⟨s, hs, rfl⟩ := List.mem_map.1 hn
    exact List.mem_range.2 (hd.id_lt s hs)
  have hlen : (List.range h.slotCount.toNat).length ≤ (d.map fun s ↦ s.id.toNat).length :=
    Nat.le_of_eq (by rw [List.length_range, List.length_map, hd.length_eq])
  exact (List.subperm_of_subset hnodup hsub).perm_of_length_le hlen

theorem Encloses.front_le_upper {h : Header} {d : List Slot} (hd : h.Encloses d) :
    slotPosition d.length ≤ h.upper.toNat := by
  rw [hd.length_eq]
  exact Nat.le_trans hd.front_le_lower hd.lower_le_upper

/-! ## Changing the other header fields -/

theorem Encloses.congr {h k : Header} {d : List Slot} (hd : h.Encloses d)
    (hlower : k.lower = h.lower) (hupper : k.upper = h.upper)
    (hcount : k.slotCount = h.slotCount) (hfree : k.freeSlotCount = h.freeSlotCount) :
    k.Encloses d := by
  constructor
  · rw [hcount]; exact hd.length_eq
  · exact hd.ids_nodup
  · rw [hcount]; exact hd.id_lt
  · rw [hcount, hlower]; exact hd.front_le_lower
  · rw [hlower, hupper]; exact hd.lower_le_upper
  · rw [hupper]; exact hd.upper_le
  · exact hd.keySize_le
  · exact hd.stop_le
  · rw [hfree]; exact hd.countFree

theorem Describes.congr {h k : Header} {d : List Slot} (hd : h.Describes d)
    (hlower : k.lower = h.lower) (hupper : k.upper = h.upper)
    (hcount : k.slotCount = h.slotCount) (hfree : k.freeSlotCount = h.freeSlotCount) :
    k.Describes d :=
  (hd.encloses.congr hlower hupper hcount hfree).describes
    (by rw [hupper]; exact hd.upper_le_start) hd.apart

theorem Packs.congr {h k : Header} {d : List Slot} (hd : h.Packs d)
    (hlower : k.lower = h.lower) (hupper : k.upper = h.upper)
    (hcount : k.slotCount = h.slotCount) (hfree : k.freeSlotCount = h.freeSlotCount) :
    k.Packs d := by
  constructor
  · exact hd.toDescribes.congr hlower hupper hcount hfree
  · rw [hcount, hlower]; exact hd.lower_eq
  · rw [hupper]; exact hd.upper_le_start_all
  · exact hd.apart_all

/-! ## Exchanging or adding an entry

In both cases the new directory is the new entry in front of entries that were there before. The
conditions on the new entry are the ones on any entry. -/

/-- An entry takes the place of another one with its id. The free space may end earlier. -/
theorem Encloses.exchange {h k : Header} {others : List Slot} {old new : Slot}
    (hd : h.Encloses (old :: others)) (hid : new.id = old.id) (hlower : k.lower = h.lower)
    (hcount : k.slotCount = h.slotCount) (hlow : h.lower.toNat ≤ k.upper.toNat)
    (hupper : k.upper.toNat ≤ h.upper.toNat) (hkey : keySize ≤ new.length.toNat)
    (hstop : new.stop ≤ pageSize)
    (hfree : (new :: others).countP (·.isFree) = k.freeSlotCount.toNat) :
    k.Encloses (new :: others) := by
  have hlt := hd.id_lt
  have hsize := hd.keySize_le
  have hend := hd.stop_le
  have hids := hd.ids_nodup
  rw [List.forall_mem_cons] at hlt hsize hend
  constructor
  · rw [hcount]; exact hd.length_eq
  · rw [List.map_cons, hid]; exact hids
  · rw [hcount, List.forall_mem_cons, hid]; exact hlt
  · rw [hcount, hlower]; exact hd.front_le_lower
  · rw [hlower]; exact hlow
  · exact Nat.le_trans hupper hd.upper_le
  · rw [List.forall_mem_cons]; exact ⟨hkey, hsize.2⟩
  · rw [List.forall_mem_cons]; exact ⟨hstop, hend.2⟩
  · exact hfree

/-- The entries stay clear of each other if the new one keeps clear of the others. -/
theorem Describes.exchange {h k : Header} {others : List Slot} {old new : Slot}
    (hd : h.Describes (old :: others)) (hk : k.Encloses (new :: others))
    (hupper : k.upper.toNat ≤ h.upper.toNat)
    (hused : new.isUsed → k.upper.toNat ≤ new.start ∧ ∀ t ∈ others, t.isUsed → new.Apart t) :
    k.Describes (new :: others) := by
  have hstart := hd.upper_le_start
  have hapart := hd.apart
  rw [List.forall_mem_cons] at hstart
  rw [List.pairwise_cons] at hapart
  refine hk.describes ?_ ?_
  · rw [List.forall_mem_cons]
    exact ⟨fun hu ↦ (hused hu).1, fun t ht hu ↦ Nat.le_trans hupper (hstart.2 t ht hu)⟩
  · rw [List.pairwise_cons]
    exact ⟨fun t ht hu hut ↦ (hused hu).2 t ht hut, hapart.2⟩

/-- An entry with the next id is added. Its space is taken off both ends of the free space. -/
theorem Encloses.append {h k : Header} {d : List Slot} {new : Slot} (hd : h.Encloses d)
    (hid : new.id.toNat = h.slotCount.toNat)
    (hcount : k.slotCount.toNat = h.slotCount.toNat + 1)
    (hlower : k.lower.toNat = h.lower.toNat + slotSize)
    (hlow : k.lower.toNat ≤ k.upper.toNat) (hupper : k.upper.toNat ≤ h.upper.toNat)
    (hstop : new.stop ≤ h.upper.toNat) (hkey : keySize ≤ new.length.toNat) (hused : new.isUsed)
    (hfree : k.freeSlotCount = h.freeSlotCount) : k.Encloses (new :: d) := by
  have hfront := hd.front_le_lower
  have hnotFree : new.isFree = false := by simpa using hused
  constructor
  · rw [List.length_cons, hd.length_eq, hcount]
  · rw [List.map_cons, List.nodup_cons]
    refine ⟨?_, hd.ids_nodup⟩
    rintro hmem
    obtain ⟨s, hs, heq⟩ := List.mem_map.1 hmem
    have hlt := hd.id_lt s hs
    rw [heq] at hlt
    omega
  · rw [List.forall_mem_cons]
    exact ⟨by omega, fun s hs ↦ by have := hd.id_lt s hs; omega⟩
  · unfold slotPosition at hfront ⊢
    rw [hcount, hlower, Nat.add_mul]
    omega
  · exact hlow
  · exact Nat.le_trans hupper hd.upper_le
  · rw [List.forall_mem_cons]; exact ⟨hkey, hd.keySize_le⟩
  · rw [List.forall_mem_cons]; exact ⟨Nat.le_trans hstop hd.upper_le, hd.stop_le⟩
  · rw [List.countP_cons_of_neg (by simp [hnotFree]), hd.countFree, hfree]

theorem Describes.append {h k : Header} {d : List Slot} {new : Slot} (hd : h.Describes d)
    (hk : k.Encloses (new :: d)) (hupper : k.upper.toNat ≤ h.upper.toNat)
    (hstart : k.upper.toNat ≤ new.start) (hstop : new.stop ≤ h.upper.toNat) :
    k.Describes (new :: d) := by
  refine hk.describes ?_ ?_
  · rw [List.forall_mem_cons]
    exact ⟨fun _ ↦ hstart, fun s hs hu ↦ Nat.le_trans hupper (hd.upper_le_start s hs hu)⟩
  · rw [List.pairwise_cons]
    exact ⟨fun s hs _ hu ↦ .inl (Nat.le_trans hstop (hd.upper_le_start s hs hu)), hd.apart⟩

theorem Packs.exchange {h k : Header} {others : List Slot} {old new : Slot}
    (hd : h.Packs (old :: others)) (hk : k.Describes (new :: others))
    (hlower : k.lower = h.lower) (hcount : k.slotCount = h.slotCount)
    (hupper : k.upper.toNat ≤ h.upper.toNat) (hstart : k.upper.toNat ≤ new.start)
    (hapart : ∀ t ∈ others, new.Apart t) : k.Packs (new :: others) := by
  have hall := hd.upper_le_start_all
  have hpairs := hd.apart_all
  rw [List.forall_mem_cons] at hall
  rw [List.pairwise_cons] at hpairs
  constructor
  · exact hk
  · rw [hlower, hcount]; exact hd.lower_eq
  · rw [List.forall_mem_cons]
    exact ⟨hstart, fun t ht ↦ Nat.le_trans hupper (hall.2 t ht)⟩
  · rw [List.pairwise_cons]; exact ⟨hapart, hpairs.2⟩

theorem Packs.append {h k : Header} {d : List Slot} {new : Slot} (hd : h.Packs d)
    (hk : k.Describes (new :: d)) (hcount : k.slotCount.toNat = h.slotCount.toNat + 1)
    (hlower : k.lower.toNat = h.lower.toNat + slotSize)
    (hupper : k.upper.toNat ≤ h.upper.toNat) (hstart : k.upper.toNat ≤ new.start)
    (hstop : new.stop ≤ h.upper.toNat) : k.Packs (new :: d) := by
  have hfront := hd.lower_eq
  constructor
  · exact hk
  · unfold slotPosition at hfront ⊢
    rw [hcount, hlower, Nat.add_mul]
    omega
  · rw [List.forall_mem_cons]
    exact ⟨hstart, fun s hs ↦ Nat.le_trans hupper (hd.upper_le_start_all s hs)⟩
  · rw [List.pairwise_cons]
    exact ⟨fun s hs ↦ .inl (Nat.le_trans hstop (hd.upper_le_start_all s hs)), hd.apart_all⟩

end Header

/-! ## Pages -/

namespace Page

/-- The image starts with the encoding of the header and of the directory. -/
def HasFront (p : Page) : Prop :=
  p.image.slice 0 (slotPosition p.directory.length) = encodeLayout p.header p.directory

/-- A page whose entries lie inside it, and whose header and directory stand in its image. -/
structure Enclosed (p : Page) : Prop where
  encloses : p.header.Encloses p.directory
  front : p.HasFront

/-- A page that is read back from its image. -/
structure Readable (p : Page) : Prop where
  describes : p.header.Describes p.directory
  front : p.HasFront

/-- A page whose entries, free ones included, keep clear of each other and of the free space. -/
structure Tidy (p : Page) : Prop where
  packs : p.header.Packs p.directory
  front : p.HasFront

theorem Readable.enclosed {p : Page} (h : p.Readable) : p.Enclosed :=
  ⟨h.describes.encloses, h.front⟩

theorem Tidy.readable {p : Page} (h : p.Tidy) : p.Readable := ⟨h.packs.toDescribes, h.front⟩

theorem hasFront_overwrite {h : Header} {d : List Slot} (image : Image)
    (hroom : slotPosition d.length ≤ pageSize) :
    HasFront ⟨h, d, image.overwrite 0 (encodeLayout h d)⟩ := by
  have hlen := length_encodeLayout h d
  have hfits : 0 + (encodeLayout h d).length ≤ pageSize := by rwa [hlen, Nat.zero_add]
  have hread := Image.slice_overwrite image hfits
  rwa [hlen] at hread

theorem readable_overwrite {h : Header} {d : List Slot} (image : Image) (hd : h.Describes d) :
    Readable ⟨h, d, image.overwrite 0 (encodeLayout h d)⟩ :=
  ⟨hd, hasFront_overwrite image (Nat.le_trans hd.encloses.front_le_upper hd.upper_le)⟩

/-- The records of a readable page lie behind its front. -/
theorem Readable.front_le_start {p : Page} (hp : p.Readable) {s : Slot} (hs : s ∈ p.directory)
    (hused : s.isUsed) : slotPosition p.directory.length ≤ s.start :=
  Nat.le_trans hp.describes.encloses.front_le_upper (hp.describes.upper_le_start s hs hused)

theorem Tidy.front_le_start {p : Page} (hp : p.Tidy) {s : Slot} (hs : s ∈ p.directory) :
    slotPosition p.directory.length ≤ s.start :=
  Nat.le_trans hp.packs.encloses.front_le_upper (hp.packs.upper_le_start_all s hs)

end Page

end PagedStorage
