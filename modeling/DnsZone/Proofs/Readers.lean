import DnsZone.Proofs.OrderedMap.Spelling
import DnsZone.Readers

/-!
# Counting readers

The registry of open readers is read through `Readers.count`. Opening a reader counts one more of
its version, and ending it counts one less.
-/

namespace DnsZone

theorem VersionId.compare_eq_iff {a b : VersionId} : compare a b = .eq ↔ a = b := by
  rw [compare, Order.onKey, Order.byNat_eq_eq]
  cases a
  cases b
  simp

theorem VersionId.compare_eq_lt_iff {a b : VersionId} : compare a b = .lt ↔ a.val < b.val :=
  Order.byNat_eq_lt

instance : Std.LawfulEqCmp VersionId.compare where
  compare_self {_} := VersionId.compare_eq_iff.mpr rfl
  eq_of_compare := VersionId.compare_eq_iff.mp

namespace Readers

theorem count_register (r : Readers) (id id' : VersionId) :
    (r.register id).count id' = r.count id' + if id' = id then 1 else 0 := by
  rw [count, register, OrderedMap.find?_insert]
  simp only [VersionId.compare_eq_iff]
  by_cases h : id' = id
  · rw [if_pos h, if_pos h, h]
    rfl
  · rw [if_neg h, if_neg h]
    rfl

theorem count_unregister (r : Readers) (id id' : VersionId) :
    (r.unregister id).count id' = r.count id' - if id' = id then 1 else 0 := by
  rw [unregister]
  cases hfind : r.find? id with
  | none =>
      by_cases h : id' = id
      · have hzero : r.count id' = 0 := by
          rw [count, h, hfind]
          rfl
        rw [hzero, Nat.zero_sub]
      · rw [if_neg h, Nat.sub_zero]
  | some n =>
      have hcount : r.count id = n := by
        rw [count, hfind]
        rfl
      simp only
      split
      · rename_i hn
        rw [count, OrderedMap.find?_erase]
        simp only [VersionId.compare_eq_iff]
        by_cases h : id' = id
        · rw [if_pos h, if_pos h, h, hcount]
          exact (Nat.sub_eq_zero_of_le hn).symm
        · rw [if_neg h, if_neg h]
          rfl
      · rw [count, OrderedMap.find?_insert]
        simp only [VersionId.compare_eq_iff]
        by_cases h : id' = id
        · rw [if_pos h, if_pos h, h, hcount]
          rfl
        · rw [if_neg h, if_neg h]
          rfl

/-- Every version with an entry has a reader. -/
def Positive (r : Readers) : Prop := ∀ e ∈ r.toList, 0 < e.2

theorem positive_empty : Positive .empty := by
  intro e he
  cases he

theorem positive_register {r : Readers} (h : r.Positive) (id : VersionId) :
    (r.register id).Positive := by
  intro e he
  rcases OrderedMap.value_of_mem_insert he with he | he
  · rw [he]
    exact Nat.succ_pos _
  · exact h e he

theorem positive_unregister {r : Readers} (h : r.Positive) (id : VersionId) :
    (r.unregister id).Positive := by
  intro e he
  rw [unregister] at he
  split at he
  · exact h e he
  · split at he
    · exact h e (OrderedMap.mem_of_mem_erase he)
    · rename_i n _ hn
      rcases OrderedMap.value_of_mem_insert he with he | he
      · rw [he]
        omega
      · exact h e he

/-- A registry in which every entry has a reader is known from its counts. -/
theorem eq_of_count_eq {r r' : Readers} (h : r.Positive) (h' : r'.Positive)
    (hcount : ∀ id, r.count id = r'.count id) : r = r' := by
  have hfind {r : Readers} (h : r.Positive) (id : VersionId) :
      r.find? id = if r.count id = 0 then none else some (r.count id) := by
    rw [count]
    cases hid : r.find? id with
    | none => rfl
    | some n =>
        obtain ⟨e, he, -, rfl⟩ := OrderedMap.mem_of_find?_eq_some hid
        rw [Option.getD_some, if_neg (Nat.ne_of_gt (h e he))]
  refine OrderedMap.ext_of_find? fun id => ?_
  rw [hfind h, hfind h', hcount]

/-- Two readers may end in either order. -/
theorem unregister_comm {r : Readers} (h : r.Positive) (id id' : VersionId) :
    (r.unregister id).unregister id' = (r.unregister id').unregister id := by
  refine eq_of_count_eq (positive_unregister (positive_unregister h id) id')
    (positive_unregister (positive_unregister h id') id) fun j => ?_
  rw [count_unregister, count_unregister, count_unregister, count_unregister, Nat.sub_right_comm]

/-- No version that is read is below the lowest one. -/
theorem lowest?_le {r : Readers} {id : VersionId} (h : 0 < r.count id) :
    ∃ low, r.lowest? = some low ∧ low.val ≤ id.val := by
  obtain ⟨n, hn⟩ : ∃ n, r.find? id = some n := by
    rw [count] at h
    cases hfind : r.find? id with
    | none =>
        rw [hfind] at h
        cases h
    | some n => exact ⟨n, rfl⟩
  obtain ⟨e, he, heq, _⟩ := OrderedMap.mem_of_find?_eq_some hn
  rw [VersionId.compare_eq_iff.mp heq, lowest?]
  have hsorted := r.sorted
  cases hlist : r.toList with
  | nil =>
      rw [hlist] at he
      cases he
  | cons d rest =>
      rw [hlist] at he hsorted
      refine ⟨d.1, rfl, ?_⟩
      rcases List.mem_cons.mp he with rfl | he
      · exact Nat.le_refl _
      · have hlt := (List.pairwise_cons.mp hsorted).1 e he
        exact Nat.le_of_lt (VersionId.compare_eq_lt_iff.mp hlt)

/-- The lowest version that is read has a reader. -/
theorem count_pos_of_lowest? {r : Readers} (h : r.Positive) {low : VersionId}
    (hlow : r.lowest? = some low) : 0 < r.count low := by
  obtain ⟨⟨id, n⟩, he, rfl⟩ := Option.map_eq_some_iff.mp hlow
  have hmem : (id, n) ∈ r.toList := List.mem_of_head? he
  rw [count, OrderedMap.find?_self_of_mem hmem]
  exact h (id, n) hmem

/-- The first reader is the only one. -/
theorem toList_register {r : Readers} (h : r.toList = []) (id : VersionId) :
    (r.register id).toList = [(id, 1)] := by
  have hcount : r.count id = 0 := by
    rw [count, OrderedMap.find?, h]
    rfl
  rw [register, hcount, OrderedMap.toList_insert, h]
  rfl

/-- Once the only reader has ended, there is none. -/
theorem toList_unregister {r : Readers} {id : VersionId} (h : r.toList = [(id, 1)]) :
    (r.unregister id).toList = [] := by
  have hfind : r.find? id = some 1 := by
    have hmem : (id, 1) ∈ r.toList := by
      rw [h]
      exact List.mem_singleton_self _
    exact OrderedMap.find?_self_of_mem hmem
  have hself : VersionId.compare id id = .eq := Std.ReflCmp.compare_self
  rw [unregister, hfind]
  change (r.erase id).toList = []
  rw [OrderedMap.toList_erase, h]
  simp [hself]

end Readers

end DnsZone
