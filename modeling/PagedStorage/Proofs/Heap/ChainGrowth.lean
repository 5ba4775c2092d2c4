import PagedStorage.Proofs.Heap.ChainReaders

/-!
# Records that come to a chain

Nothing in a page says whether it belongs to a heap or carries a piece of a long record. A record
that is stored on a page of a chain is one of the records of this page, so whoever reads the long
record reads it as well. It does not change where the page leads, `Page.links_of_add`.

## One page exchanged

So the walk along the chain goes the same way and sees the new bytes once for each time that it
comes to the page, `Heap.allSeen_exchange`. On a sound chain this is once, but nothing is asked of
the chain here. Chains that do not come to the page are read as before.
-/

namespace PagedStorage

namespace Heap

open Pool PageFile

variable {c d : PageId → Except Error Page} {head : PageId} {page page' : Page} {rid : RecordId}
  {record added : List UInt8} {pages : List Page} {parts : List (List UInt8)}

/-! ## What is read of a chain -/

theorem recordAt_eq_ok_iff : recordAt c head = .ok record ↔
    ∃ pages parts, chainAt c head = .ok pages ∧ AllSeen recordBytes pages parts ∧
      parts.flatten = record := by
  rw [recordAt_eq_ok_iff_follow]
  constructor
  · rintro ⟨parts, hparts, rfl⟩
    obtain ⟨pages, hread, hseen⟩ := follow_head_eq_ok_iff.1 hparts
    exact ⟨pages, parts, hread, hseen, rfl⟩
  · rintro ⟨pages, parts, hread, hseen, rfl⟩
    exact ⟨parts, follow_head_eq_ok_iff.2 ⟨pages, hread, hseen⟩, rfl⟩

private theorem recordBytes_of_add (hp : page.Tidy) (hadd : page.add added = .ok (rid, page')) :
    ∃ bytes bytes', recordBytes page = .ok bytes ∧ recordBytes page' = .ok bytes' ∧
      bytes'.length = bytes.length + added.length := by
  obtain ⟨l, m, hl, hm, hperm⟩ := Page.records_of_add hp hadd
  refine ⟨l.flatMap (·.2), m.flatMap (·.2), by rw [recordBytes, hl]; rfl,
    by rw [recordBytes, hm]; rfl, ?_⟩
  rw [(hperm.flatMap_right _).length_eq, List.flatMap_cons, List.length_append, Nat.add_comm]

/-! ## Exchanging a page -/

/-- One page in place of another. -/
def exchange (page page' : Page) : Page → Page := Function.update (fun old ↦ old) page page'

@[simp] theorem exchange_self (page page' : Page) : exchange page page' page = page' :=
  Function.update_self ..

@[simp] theorem exchange_of_ne {old : Page} (h : old ≠ page) : exchange page page' old = old :=
  Function.update_of_ne h ..

private theorem map_exchange_of_notMem (h : page ∉ pages) :
    pages.map (exchange page page') = pages := by
  refine (List.map_congr_left fun old hold ↦ ?_).trans (List.map_id' pages)
  exact exchange_of_ne fun heq ↦ h (heq ▸ hold)

private theorem allSeen_exchange (hp : page.Tidy) (hadd : page.add added = .ok (rid, page'))
    (h : AllSeen recordBytes pages parts) :
    ∃ parts', AllSeen recordBytes (pages.map (exchange page page')) parts' ∧
      parts'.flatten.length = parts.flatten.length + pages.count page * added.length := by
  obtain ⟨bytes, bytes', hbytes, hbytes', hlength⟩ := recordBytes_of_add hp hadd
  have hover := (Page.links_of_add hp.readable.describes hadd).2
  induction h with
  | nil => exact ⟨[], .nil, by rw [List.count_nil, Nat.zero_mul, Nat.add_zero]⟩
  | @cons old part pages parts hold _ ih =>
    obtain ⟨parts', hseen, hsum⟩ := ih
    rw [List.flatten_cons, List.length_append]
    by_cases heq : old = page
    · subst heq
      obtain rfl := Except.ok.inj (hbytes.symm.trans hold.2)
      refine ⟨bytes' :: parts', .cons ?_ hseen, ?_⟩
      · rw [exchange_self]
        exact ⟨hover.trans hold.1, hbytes'⟩
      · rw [List.flatten_cons, List.length_append, hsum, hlength, List.count_cons_self,
          Nat.add_mul, Nat.one_mul]
        omega
    · refine ⟨part :: parts', .cons ?_ hseen, ?_⟩
      · rw [exchange_of_ne heq]
        exact hold
      · rw [List.flatten_cons, List.length_append, hsum, List.count_cons_of_ne heq, Nat.add_assoc]

theorem recordAt_of_add (hp : page.Tidy) (hadd : page.add added = .ok (rid, page'))
    (hpages : ∀ i old, c i = .ok old → d i = .ok (exchange page page' old))
    (hread : chainAt c head = .ok pages) (hrecord : recordAt c head = .ok record) :
    (page ∉ pages → recordAt d head = .ok record) ∧
      (page ∈ pages → ∃ longer, recordAt d head = .ok longer ∧ record.length < longer.length) := by
  have hd := hp.readable.describes
  obtain ⟨hnext, hover⟩ := Page.links_of_add hd hadd
  obtain ⟨pages', parts, hread', hseen, rfl⟩ := recordAt_eq_ok_iff.1 hrecord
  obtain rfl := Except.ok.inj (hread.symm.trans hread')
  have hmap : chainAt d head = .ok (pages.map (exchange page page')) := by
    refine chainAt_map (fun old ↦ ?_) (fun old ↦ ?_) hpages hread
    · by_cases heq : old = page
      · rw [heq, exchange_self, hnext]
      · rw [exchange_of_ne heq]
    · by_cases heq : old = page
      · rw [heq, exchange_self, hover]
      · rw [exchange_of_ne heq]
  constructor
  · intro hnot
    rw [map_exchange_of_notMem hnot] at hmap
    exact recordAt_eq_ok_iff.2 ⟨pages, parts, hmap, hseen, rfl⟩
  · intro hmem
    obtain ⟨parts', hseen', hsum⟩ := allSeen_exchange hp hadd hseen
    refine ⟨parts'.flatten, recordAt_eq_ok_iff.2 ⟨_, parts', hmap, hseen', rfl⟩, ?_⟩
    obtain ⟨pl, hstores⟩ := Page.exists_stores_of_add hd.encloses hadd
    have hpos : 0 < added.length := Nat.lt_of_lt_of_le (by decide) hstores.keySize_le
    rw [hsum]
    exact Nat.lt_add_of_pos_right (Nat.mul_pos (List.count_pos_iff.2 hmem) hpos)

end Heap

end PagedStorage
