import PagedStorage.Proofs.Except
import PagedStorage.Proofs.Page.Layout

/-!
# Where a record goes

A record is stored in one of two ways, and this file says once what each of them does to header
and directory. `Placement.Reuses`: the first free entry becomes used, in place if its stretch is
long enough and otherwise on a stretch cut off the free space. `Placement.Appends`: there is no
free entry, and a new one is added at the end of the directory.

## What follows and what does not

What the new header and directory satisfy follows from these two descriptions alone. All entries
stay inside the page (`Placement.encloses`). The one thing that does not follow is that an entry
taken over *in place* keeps clear of the rest of the page, since nothing is asked of a free entry.
That is the condition `Page.ReuseClear`.

A stretch that is cut off the free space is another matter. The header says where the free space is,
and the used entries of a readable page lie behind it, so a new stretch at its end meets none of
them, wherever the free entries lie.

## Numbers of sixteen bits

The descriptions are equations between natural numbers and not between the fields that hold them.
That none of the sums and differences wraps is proved where a placement is shown to be one of the
two (`place_cases`), and is not seen again.
-/

namespace PagedStorage.Page

variable {p : Page} {pl : Placement} {size : UInt16} {old : Slot} {others : List Slot}

/-! ## The two ways -/

namespace Placement

/-- The entry `old` is taken over for a record of `n` bytes. -/
structure Reuses (pl : Placement) (p : Page) (n : Nat) (old : Slot) (others : List Slot) :
    Prop where
  found : p.directory.find? (·.isFree) = some old
  before : p.directory.Perm (old :: others)
  after : pl.directory.Perm (pl.slot :: others)
  id_eq : pl.slot.id = old.id
  used : pl.slot.isUsed
  length_eq : pl.slot.length.toNat = n
  header_eq : pl.header =
    { p.header with upper := pl.header.upper, freeSlotCount := pl.header.freeSlotCount }
  free_eq : pl.header.freeSlotCount.toNat + 1 = p.header.freeSlotCount.toNat
  space : (n ≤ old.length.toNat ∧ pl.header.upper = p.header.upper ∧
      pl.slot.start = old.start) ∨
    (old.length.toNat < n ∧ pl.header.upper.toNat + n = p.header.upper.toNat ∧
      pl.slot.start = pl.header.upper.toNat)

/-- A new entry is added for a record of `n` bytes. -/
structure Appends (pl : Placement) (p : Page) (n : Nat) : Prop where
  noneFree : p.directory.find? (·.isFree) = none
  room : n + slotSize ≤ p.freeSpace
  after : pl.directory.Perm (pl.slot :: p.directory)
  id_eq : pl.slot.id = p.header.slotCount
  used : pl.slot.isUsed
  length_eq : pl.slot.length.toNat = n
  header_eq : pl.header = { p.header with
    lower := pl.header.lower, upper := pl.header.upper, slotCount := pl.header.slotCount }
  count_eq : pl.header.slotCount.toNat = p.header.slotCount.toNat + 1
  lower_eq : pl.header.lower.toNat = p.header.lower.toNat + slotSize
  upper_eq : pl.header.upper.toNat + n = p.header.upper.toNat
  start_eq : pl.slot.start = pl.header.upper.toNat

end Placement

open Placement

/-! ## Every placement is one of them -/

theorem find?_isFree_eq_none_iff (hd : p.header.Encloses p.directory) :
    p.directory.find? (·.isFree) = none ↔ p.header.freeSlotCount.toNat = 0 := by
  rw [← hd.countFree, List.countP_eq_zero, List.find?_eq_none]

private theorem reuses_of_reuseSlot (hd : p.header.Encloses p.directory)
    (hroom : size.toNat < p.freeSpace) (h : p.reuseSlot size = .ok pl) :
    ∃ old others, pl.Reuses p size.toNat old others := by
  rw [reuseSlot] at h
  split at h
  next => cases h
  next old hfound =>
    cases h
    have hold : old ∈ p.directory := List.mem_of_find?_eq_some hfound
    have hfree : old.isFree := isFree_of_find? hfound
    obtain ⟨others, hperm⟩ := exists_perm_cons hold
    have hpos : 0 < p.header.freeSlotCount.toNat := by
      rw [← hd.countFree]
      exact List.countP_pos_iff.2 ⟨old, hold, hfree⟩
    have hupper : size.toNat ≤ p.header.upper.toNat := by
      rw [freeSpace, Header.freeSpace] at hroom
      omega
    refine ⟨old, others, hfound, hperm, ?_, rfl, rfl, rfl, rfl, ?_, ?_⟩
    · exact replaceSlot_perm hd.ids_nodup hperm rfl
    · have hone : (1 : UInt16) ≤ p.header.freeSlotCount := UInt16.le_iff_toNat_le.2 hpos
      simp only [UInt16.toNat_sub_of_le _ _ hone]
      exact Nat.sub_add_cancel hpos
    · by_cases hlen : old.length < size
      · refine .inr ⟨UInt16.lt_iff_toNat_lt.1 hlen, ?_, ?_⟩
        · simp only [if_pos hlen, UInt16.toNat_sub_of_le _ _ (UInt16.le_iff_toNat_le.2 hupper)]
          exact Nat.sub_add_cancel hupper
        · simp only [Slot.start, if_pos hlen]
      · refine .inl ⟨Nat.le_of_not_lt fun hlt ↦ hlen (UInt16.lt_iff_toNat_lt.2 hlt), ?_, ?_⟩
        · simp only [if_neg hlen]
        · simp only [Slot.start, if_neg hlen]

private theorem appends_of_appendSlot (hd : p.header.Encloses p.directory)
    (hnone : p.header.freeSlotCount.toNat = 0) (h : p.appendSlot size = .ok pl) :
    pl.Appends p size.toNat := by
  rw [appendSlot] at h
  simp only at h
  split at h
  next => cases h
  next hroom =>
    split at h
    next => cases h
    next hcount =>
      cases h
      have hfree : size.toNat + slotSize ≤ p.freeSpace := Nat.le_of_not_lt hroom
      have hspace := hfree
      rw [freeSpace, Header.freeSpace, slotSize] at hspace
      have htop := hd.upper_le
      have hlow := hd.lower_le_upper
      have hupper : size.toNat ≤ p.header.upper.toNat := by omega
      -- The new bounds are sums and differences in sixteen bits; none of them wraps.
      have hslots := p.header.slotCount.toNat_lt
      unfold pageSize at htop
      simp only [UInt16.size] at hcount
      refine ⟨(find?_isFree_eq_none_iff hd).2 hnone, hfree, List.perm_append_singleton _ _, rfl,
        rfl, rfl, rfl, ?_, ?_, ?_, rfl⟩
      · simp only [UInt16.toNat_add, UInt16.toNat_one]
        omega
      · simp only [UInt16.toNat_add, slotSize, UInt16.toNat_ofNat']
        omega
      · simp only [UInt16.toNat_sub_of_le _ _ (UInt16.le_iff_toNat_le.2 hupper)]
        exact Nat.sub_add_cancel hupper

theorem page_of_place (h : p.place size = .ok pl) : pl.header.page = p.header.page := by
  rw [place] at h
  split at h
  next =>
    rw [reuseSlot] at h
    split at h
    next => cases h
    next => cases h; rfl
  next =>
    rw [appendSlot] at h
    simp only at h
    split at h
    next => cases h
    next =>
      split at h
      next => cases h
      next => cases h; rfl

theorem filter_directory_of_place (h : p.place size = .ok pl) :
    pl.directory.filter (·.id != pl.slot.id) = p.directory.filter (·.id != pl.slot.id) := by
  rw [place] at h
  split at h
  next =>
    rw [reuseSlot] at h
    split at h
    next => cases h
    next old _ =>
      cases h
      exact filter_replaceSlot p.directory _
  next =>
    rw [appendSlot] at h
    simp only at h
    split at h
    next => cases h
    next =>
      split at h
      next => cases h
      next =>
        cases h
        rw [List.filter_append, List.filter_singleton, bne_self_eq_false, cond_false,
          List.append_nil]

/-- A placement takes over the first free entry or adds one. -/
theorem place_cases (hd : p.header.Encloses p.directory) (hroom : size.toNat < p.freeSpace)
    (h : p.place size = .ok pl) :
    (∃ old others, pl.Reuses p size.toNat old others) ∨ pl.Appends p size.toNat := by
  rw [place] at h
  split at h
  next hpos => exact .inl (reuses_of_reuseSlot hd hroom h)
  next hzero =>
    rw [UInt16.lt_iff_toNat_lt] at hzero
    exact .inr (appends_of_appendSlot hd (Nat.eq_zero_of_not_pos hzero) h)

/-! ## Header and directory after it -/

theorem Placement.Reuses.encloses {n : Nat} (hr : pl.Reuses p n old others)
    (hd : p.header.Encloses p.directory) (hkey : keySize ≤ n) (hroom : n < p.freeSpace) :
    pl.header.Encloses (pl.slot :: others) := by
  have hbefore := hd.perm hr.before
  have holdFree : old.isFree := isFree_of_find? hr.found
  have hstop : pl.slot.stop = pl.slot.start + n := Slot.stop_eq hr.length_eq
  have holdStop := hbefore.stop_le old List.mem_cons_self
  have hlow := hd.lower_le_upper
  have htop := hd.upper_le
  rw [freeSpace, Header.freeSpace] at hroom
  have hfit : pl.header.upper.toNat ≤ p.header.upper.toNat ∧
      p.header.lower.toNat ≤ pl.header.upper.toNat ∧ pl.slot.stop ≤ pageSize := by
    rcases hr.space with ⟨hle, hupper, heq⟩ | ⟨-, hupper, heq⟩
    · have := old.start_add_length
      rw [hupper]
      exact ⟨Nat.le_refl _, hlow, by omega⟩
    · exact ⟨by omega, by omega, by omega⟩
  obtain ⟨hupper, hlowUp, hend⟩ := hfit
  refine hbefore.exchange hr.id_eq (by rw [hr.header_eq]) (by rw [hr.header_eq]) hlowUp hupper
    (by rw [hr.length_eq]; exact hkey) hend ?_
  have hused : pl.slot.isFree = false := by simpa using hr.used
  have hfree : others.countP (·.isFree) + 1 = p.header.freeSlotCount.toNat := by
    rw [← hbefore.countFree, List.countP_cons_of_pos holdFree]
  rw [List.countP_cons_of_neg (by simp [hused])]
  have := hr.free_eq
  omega

theorem Placement.Appends.encloses {n : Nat} (ha : pl.Appends p n)
    (hd : p.header.Encloses p.directory) (hkey : keySize ≤ n) :
    pl.header.Encloses (pl.slot :: p.directory) := by
  have hroom := ha.room
  have hupper := ha.upper_eq
  have hlower := ha.lower_eq
  have hstart := ha.start_eq
  have hlow := hd.lower_le_upper
  have hstop : pl.slot.stop = pl.slot.start + n := Slot.stop_eq ha.length_eq
  rw [freeSpace, Header.freeSpace] at hroom
  refine hd.append (by rw [ha.id_eq]) ha.count_eq hlower (by omega) (by omega) (by omega)
    (by rw [ha.length_eq]; exact hkey) ha.used ?_
  rw [ha.header_eq]

/-- Wherever a record goes, all entries lie inside the page, its own among them. -/
theorem Placement.encloses {n : Nat} (hd : p.header.Encloses p.directory) (hkey : keySize ≤ n)
    (hroom : n < p.freeSpace)
    (hway : (∃ old others, pl.Reuses p n old others) ∨ pl.Appends p n) :
    pl.header.Encloses pl.directory ∧ pl.slot ∈ pl.directory := by
  obtain ⟨old, others, hr⟩ | ha := hway
  · exact ⟨(hr.encloses hd hkey hroom).perm hr.after.symm,
      hr.after.mem_iff.2 List.mem_cons_self⟩
  · exact ⟨(ha.encloses hd hkey).perm ha.after.symm, ha.after.mem_iff.2 List.mem_cons_self⟩

/-- The free entry that a record of `n` bytes would be stored in as it stands keeps clear of the
free space and of all other records. -/
def ReuseClear (p : Page) (n : Nat) : Prop :=
  ∀ old, p.directory.find? (·.isFree) = some old → n ≤ old.length.toNat →
    p.header.upper.toNat ≤ old.start ∧
      ∀ t ∈ p.directory, t.isUsed → old.start + n ≤ t.start ∨ t.stop ≤ old.start

/-- An entry that is taken over keeps clear of the rest exactly if its stretch did. -/
theorem Placement.Reuses.describes_iff {n : Nat} (hr : pl.Reuses p n old others)
    (hd : p.header.Describes p.directory) (hkey : keySize ≤ n) (hroom : n < p.freeSpace) :
    pl.header.Describes (pl.slot :: others) ↔ p.ReuseClear n := by
  have hbefore := hd.perm hr.before
  have holdFree : old.isFree := isFree_of_find? hr.found
  have hstop : pl.slot.stop = pl.slot.start + n := Slot.stop_eq hr.length_eq
  have hstart := hbefore.upper_le_start
  rw [List.forall_mem_cons] at hstart
  constructor
  · intro hpl old' hold' hle
    obtain rfl : old = old' := Option.some.inj (hr.found.symm.trans hold')
    have hplStart := hpl.upper_le_start pl.slot List.mem_cons_self hr.used
    have hplApart := (List.pairwise_cons.1 hpl.apart).1
    rcases hr.space with ⟨-, hupper, heq⟩ | ⟨hlt, -⟩
    · rw [hupper, heq] at hplStart
      refine ⟨hplStart, fun t ht hu ↦ ?_⟩
      rcases List.mem_cons.1 (hr.before.mem_iff.1 ht) with rfl | ht
      · simp [holdFree] at hu
      · have hapart := hplApart t ht hr.used hu
        rwa [Slot.Apart, hstop, heq] at hapart
    · omega
  · intro hclear
    -- On a stretch cut off the free space the new entry is clear in any case.
    have hfit : pl.header.upper.toNat ≤ p.header.upper.toNat ∧
        pl.header.upper.toNat ≤ pl.slot.start ∧ ∀ t ∈ others, t.isUsed → pl.slot.Apart t := by
      rcases hr.space with ⟨hle, hupper, heq⟩ | ⟨-, hupper, heq⟩
      · obtain ⟨hfirst, hrest⟩ := hclear old hr.found hle
        refine ⟨Nat.le_of_eq (by rw [hupper]), by rw [hupper, heq]; exact hfirst,
          fun t ht hu ↦ ?_⟩
        have hapart := hrest t (hr.before.mem_iff.2 (List.mem_cons_of_mem _ ht)) hu
        rwa [Slot.Apart, hstop, heq]
      · refine ⟨by omega, by omega, fun t ht hu ↦ .inl ?_⟩
        have := hstart.2 t ht hu
        omega
    obtain ⟨hupper, hbegin, hapart⟩ := hfit
    exact hbefore.exchange (hr.encloses hd.encloses hkey hroom) hupper fun _ ↦ ⟨hbegin, hapart⟩

theorem Placement.Appends.describes {n : Nat} (ha : pl.Appends p n)
    (hd : p.header.Describes p.directory) (hkey : keySize ≤ n) :
    pl.header.Describes (pl.slot :: p.directory) := by
  have hupper := ha.upper_eq
  have hstart := ha.start_eq
  have hstop : pl.slot.stop = pl.slot.start + n := Slot.stop_eq ha.length_eq
  exact hd.append (ha.encloses hd.encloses hkey) (by omega) (by omega) (by omega)

/-- On a tidy page every free entry may be taken over. -/
theorem reuseClear_of_packs (hd : p.header.Packs p.directory) (n : Nat) : p.ReuseClear n := by
  intro old hfound hle
  have hold : old ∈ p.directory := List.mem_of_find?_eq_some hfound
  have hfree : old.isFree := isFree_of_find? hfound
  obtain ⟨others, hperm⟩ := exists_perm_cons hold
  have hapart := (hd.perm hperm).apart_all
  rw [List.pairwise_cons] at hapart
  refine ⟨hd.upper_le_start_all old hold, fun t ht hu ↦ ?_⟩
  rcases List.mem_cons.1 (hperm.mem_iff.1 ht) with rfl | ht
  · simp [hfree] at hu
  · have hclear := hapart.1 t ht
    have := old.start_add_length
    unfold Slot.Apart at hclear
    omega

theorem Placement.Reuses.packs {n : Nat} (hr : pl.Reuses p n old others)
    (hd : p.header.Packs p.directory) (hkey : keySize ≤ n) (hroom : n < p.freeSpace) :
    pl.header.Packs (pl.slot :: others) := by
  have hbefore := hd.perm hr.before
  have hafter := (hr.describes_iff hd.toDescribes hkey hroom).2 (reuseClear_of_packs hd n)
  have hstop : pl.slot.stop = pl.slot.start + n := Slot.stop_eq hr.length_eq
  have hstart := hbefore.upper_le_start_all
  have hapart := hbefore.apart_all
  rw [List.forall_mem_cons] at hstart
  rw [List.pairwise_cons] at hapart
  refine hbefore.exchange hafter (by rw [hr.header_eq]) (by rw [hr.header_eq]) ?_ ?_ ?_
  · rcases hr.space with ⟨-, hupper, -⟩ | ⟨-, hupper, -⟩
    · exact Nat.le_of_eq (congrArg UInt16.toNat hupper)
    · omega
  · exact hafter.upper_le_start pl.slot List.mem_cons_self hr.used
  · intro t ht
    rcases hr.space with ⟨hle, -, heq⟩ | ⟨-, hupper, heq⟩
    · have hclear := hapart.1 t ht
      have := old.start_add_length
      unfold Slot.Apart at hclear ⊢
      omega
    · have := hstart.2 t ht
      exact .inl (by omega)

theorem Placement.Appends.packs {n : Nat} (ha : pl.Appends p n) (hd : p.header.Packs p.directory)
    (hkey : keySize ≤ n) : pl.header.Packs (pl.slot :: p.directory) := by
  have hupper := ha.upper_eq
  have hstart := ha.start_eq
  have hstop : pl.slot.stop = pl.slot.start + n := Slot.stop_eq ha.length_eq
  exact hd.append (ha.describes hd.toDescribes hkey) ha.count_eq ha.lower_eq (by omega) (by omega)
    (by omega)

end PagedStorage.Page
