import PagedStorage.Proofs.Page.Admission
import PagedStorage.Proofs.Page.Runs

/-!
# The account of space

Storing a record is the one edit that takes space, and it takes no more and no less than the header
says afterwards: `Page.AdmitsExactly`. A record is stored if and only if the page admits it.

## Two ways of paying

A record goes into the first free entry, for which the free space shrinks only if the record is
longer than the entry, or into a new entry, for which it shrinks at both ends: by the record at the
end and by the entry at the start. A record that is shorter than the entry makes the entry shorter,
and the bytes behind it belong to nobody from then on.

Deleting frees an entry and leaves its stretch to it. So the free space that the header tells of
never grows, and a page can refuse a record although enough of its bytes are zero.

## Numbers of sixteen bits

The numbers in a header have sixteen bits, and the equations here are between the numbers that they
stand for, so none of the sums and differences wraps. All of this holds as soon as the entries lie
inside the page. Pages that were read from a block and not made by this library are such pages, too.
-/

namespace PagedStorage.Page

variable {p q : Page} {record : List UInt8} {id : RecordId} {old : Slot}

/-! ## What the header says -/

/-- A record of `n` bytes went into the free entry `old`. The free space ends earlier by the length
of the record, unless the record fits into the entry. -/
structure TakesOver (p : Page) (old : Slot) (n : Nat) (id : RecordId) (q : Page) : Prop where
  id_eq : id = ⟨p.id, old.id⟩
  header_eq : q.header =
    { p.header with upper := q.header.upper, freeSlotCount := q.header.freeSlotCount }
  free_eq : q.header.freeSlotCount.toNat + 1 = p.header.freeSlotCount.toNat
  upper_eq_of_le : n ≤ old.length.toNat → q.header.upper = p.header.upper
  upper_eq_of_lt : old.length.toNat < n → q.header.upper.toNat + n = p.header.upper.toNat

/-- A record of `n` bytes went into a new entry. -/
structure AddsEntry (p : Page) (n : Nat) (id : RecordId) (q : Page) : Prop where
  id_eq : id = ⟨p.id, p.header.slotCount⟩
  header_eq : q.header = { p.header with
    lower := q.header.lower, upper := q.header.upper, slotCount := q.header.slotCount }
  count_eq : q.header.slotCount.toNat = p.header.slotCount.toNat + 1
  lower_eq : q.header.lower.toNat = p.header.lower.toNat + slotSize
  upper_eq : q.header.upper.toNat + n = p.header.upper.toNat

private theorem takesOver_of_add (hd : p.header.Encloses p.directory)
    (hadd : p.add record = .ok (id, q)) (hfound : p.directory.find? (·.isFree) = some old) :
    p.TakesOver old record.length id q := by
  obtain ⟨pl, hs⟩ := exists_stores_of_add hd hadd
  have hheader := header_of_settle hs.settled
  obtain ⟨old', others, hr⟩ | ha := hs.way
  · obtain rfl : old = old' := Option.some.inj (hfound.symm.trans hr.found)
    constructor
    · rw [hs.id_eq, hr.id_eq]
    · rw [hheader]
      exact hr.header_eq
    · rw [hheader]
      exact hr.free_eq
    · intro hle
      obtain ⟨-, hupper, -⟩ | ⟨hlt, -⟩ := hr.space
      · rw [hheader, hupper]
      · exact absurd hle (Nat.not_le.2 hlt)
    · intro hlt
      obtain ⟨hle, -⟩ | ⟨-, hupper, -⟩ := hr.space
      · exact absurd hle (Nat.not_le.2 hlt)
      · rw [hheader, hupper]
  · cases hfound.symm.trans ha.noneFree

private theorem addsEntry_of_add (hd : p.header.Encloses p.directory)
    (hadd : p.add record = .ok (id, q)) (hnone : p.directory.find? (·.isFree) = none) :
    p.AddsEntry record.length id q := by
  obtain ⟨pl, hs⟩ := exists_stores_of_add hd hadd
  have hheader := header_of_settle hs.settled
  obtain ⟨old, others, hr⟩ | ha := hs.way
  · cases hnone.symm.trans hr.found
  · constructor
    · rw [hs.id_eq, ha.id_eq]
    · rw [hheader]
      exact ha.header_eq
    · rw [hheader]
      exact ha.count_eq
    · rw [hheader]
      exact ha.lower_eq
    · rw [hheader]
      exact ha.upper_eq

/-! ## Exact admission -/

/-- Which records a page stores, and what its header says after that. -/
structure AdmitsExactly (p : Page) : Prop where
  /-- A record is stored if and only if the page admits it. -/
  ok_iff : ∀ record, (∃ id q, p.add record = .ok (id, q)) ↔ p.Admits record.length
  /-- The first free entry is taken over. -/
  takesOver : ∀ record id q old, p.add record = .ok (id, q) →
    p.directory.find? (·.isFree) = some old → p.TakesOver old record.length id q
  /-- If no entry is free, one with the next id is added. -/
  addsEntry : ∀ record id q, p.add record = .ok (id, q) →
    p.directory.find? (·.isFree) = none → p.AddsEntry record.length id q
  /-- Once a place was found for a record of a proper size, it is stored. So a page whose counters
  move when a place is found is never left with moved counters alone. -/
  ok_of_place : ∀ record pl, p.checkRecord record.length = .ok () →
    p.place (.ofNat record.length) = .ok pl → ∃ id q, p.add record = .ok (id, q)
  /-- A record that is not admitted is refused for its size or for want of room, and the page
  stays as it is. -/
  refused : ∀ record e, p.add record = .error e →
    e = p.refusal record.length ∧ (Edit.add record).perform p = p

theorem admitsExactly_of_encloses (hd : p.header.Encloses p.directory) : p.AdmitsExactly where
  ok_iff _ := exists_add_iff hd
  takesOver _ _ _ _ := takesOver_of_add hd
  addsEntry _ _ _ := addsEntry_of_add hd
  ok_of_place _ _ := exists_add_of_place hd
  refused record e h := by
    refine ⟨(add_eq_error hd h).2, ?_⟩
    rw [Edit.perform, Edit.apply, h]
    rfl

/-- Every run of edits on a new page, failing ones included, leads to a page that stores exactly the
records that it admits and accounts for their space. -/
theorem admitsExactly_after (id : PageId) (edits : List Edit) :
    ((fresh id).after edits).AdmitsExactly := by
  have hbuilt : Built id ((fresh id).after edits) := built_iff_exists_after.2 ⟨edits, rfl⟩
  exact admitsExactly_of_encloses hbuilt.tidy.packs.encloses

end PagedStorage.Page
