import DnsZone.Node
import Mathlib.Data.List.Perm.Basic

/-!
# What nodes hold

A node is read through `Node.find?`. Storing and deleting a record set change what is found under
one key. A node is `Keyed` if its record sets have different keys; what is found in such a node
determines its record sets up to their order.
-/

namespace DnsZone

namespace SetKey

theorem compare_eq_iff {a b : SetKey} : compare a b = .eq ↔ a = b := by
  have htype (s t : RecordType) : RecordType.compare s t = .eq ↔ s = t := by
    rw [RecordType.compare, Order.onKey, Order.byNat_eq_eq, UInt16.toNat_inj]
    cases s
    cases t
    simp
  rw [compare, compareLex_eq_eq, Order.onKey, Order.onKey, htype, htype]
  cases a
  cases b
  simp

instance : Std.LawfulEqCmp compare where
  compare_self {_} := compare_eq_iff.mpr rfl
  eq_of_compare := compare_eq_iff.mp

/-- No key is below the least one. -/
theorem compare_least_ne_lt (key : SetKey) : compare key least ≠ .lt := by
  have htype (t : RecordType) : RecordType.compare t .reserved ≠ .lt := by
    rw [RecordType.compare, Order.onKey, Ne, Order.byNat_eq_lt]
    exact Nat.not_lt_zero _
  intro h
  rw [compare, compareLex, Ordering.then_eq_lt] at h
  rcases h with h | ⟨_, h⟩
  · exact htype _ h
  · exact htype _ h

end SetKey

namespace RecordSet

@[simp] theorem hasKey_iff {s : RecordSet} {key : SetKey} : s.hasKey key = true ↔ s.key = key := by
  simp [hasKey]

end RecordSet

namespace Node

/-- The record sets of the node have different keys. -/
def Keyed (n : Node) : Prop := n.sets.Pairwise fun a b => a.value.key ≠ b.value.key

theorem shared?_cons (tag : VersionId) (s : Shared RecordSet) (l : List (Shared RecordSet))
    (key : SetKey) :
    shared? ⟨tag, s :: l⟩ key = if s.value.key = key then some s else shared? ⟨tag, l⟩ key := by
  by_cases h : s.value.key = key
  · simp [shared?, RecordSet.hasKey, h]
  · simp [shared?, RecordSet.hasKey, h]

theorem find?_cons (tag : VersionId) (s : Shared RecordSet) (l : List (Shared RecordSet))
    (key : SetKey) :
    find? ⟨tag, s :: l⟩ key = if s.value.key = key then some s.value else find? ⟨tag, l⟩ key := by
  rw [find?, shared?_cons]
  split <;> rfl

@[simp] theorem find?_empty (tag : VersionId) (key : SetKey) : (empty tag).find? key = none := rfl

theorem keyed_empty (tag : VersionId) : (empty tag).Keyed := List.Pairwise.nil

@[simp] theorem isEmpty_replace (n : Node) (s : Shared RecordSet) :
    (n.replace s).isEmpty = false := by
  cases n with
  | mk tag sets =>
      cases sets with
      | nil => rfl
      | cons t l =>
          by_cases h : t.value.key = s.value.key
          · simp [replace, isEmpty, replaceIn, h]
          · simp [replace, isEmpty, replaceIn, h]

theorem find?_eq_some_of_mem {n : Node} (h : n.Keyed) {s : Shared RecordSet} (hs : s ∈ n.sets) :
    n.find? s.value.key = some s.value := by
  obtain ⟨tag, sets⟩ := n
  simp only [Keyed] at h hs
  induction sets with
  | nil => simp at hs
  | cons t l ih =>
      obtain ⟨ht, hl⟩ := List.pairwise_cons.mp h
      rw [find?_cons]
      rcases List.mem_cons.mp hs with rfl | hs
      · rw [if_pos rfl]
      · rw [if_neg (ht s hs), ih hl hs]

theorem mem_of_find?_eq_some {n : Node} {key : SetKey} {s : RecordSet}
    (h : n.find? key = some s) : s ∈ n.recordSets ∧ s.key = key := by
  obtain ⟨t, ht, rfl⟩ := Option.map_eq_some_iff.mp h
  exact ⟨List.mem_map_of_mem (List.mem_of_find?_eq_some ht), by simpa using List.find?_some ht⟩

/-- The record sets of a node with different keys are those that are found under their keys. -/
theorem mem_recordSets_iff {n : Node} (h : n.Keyed) {s : RecordSet} :
    s ∈ n.recordSets ↔ n.find? s.key = some s := by
  constructor
  · intro hs
    obtain ⟨t, ht, rfl⟩ := List.mem_map.mp hs
    exact find?_eq_some_of_mem h ht
  · intro hs
    exact (mem_of_find?_eq_some hs).1

theorem isEmpty_iff_find?_eq_none {n : Node} :
    n.isEmpty = true ↔ ∀ key, n.find? key = none := by
  rw [isEmpty, List.isEmpty_iff]
  constructor
  · intro h key
    simp [find?, shared?, h]
  · intro h
    rw [List.eq_nil_iff_forall_not_mem]
    intro s hs
    have hnone := h s.value.key
    rw [find?, Option.map_eq_none_iff, shared?, List.find?_eq_none] at hnone
    exact hnone s hs (by simp)

theorem nodup_recordSets {n : Node} (h : n.Keyed) : n.recordSets.Nodup := by
  refine List.Pairwise.map _ ?_ h
  intro s t hst heq
  exact hst (congrArg RecordSet.key heq)

/-- What is found in a node with different keys determines its record sets up to their order. -/
theorem recordSets_perm {a b : Node} (ha : a.Keyed) (hb : b.Keyed)
    (h : ∀ key, a.find? key = b.find? key) : a.recordSets.Perm b.recordSets := by
  rw [List.perm_ext_iff_of_nodup (nodup_recordSets ha) (nodup_recordSets hb)]
  intro s
  rw [mem_recordSets_iff ha, mem_recordSets_iff hb, h]

theorem shared?_replace (n : Node) (s : Shared RecordSet) (key : SetKey) :
    (n.replace s).shared? key = if s.value.key = key then some s else n.shared? key := by
  obtain ⟨tag, sets⟩ := n
  simp only [replace]
  induction sets with
  | nil => rw [replaceIn, shared?_cons]
  | cons t l ih =>
      unfold replaceIn
      by_cases ht : t.value.key = s.value.key
      · rw [if_pos (by simpa using ht), shared?_cons, shared?_cons, ht]
        split <;> rfl
      · rw [if_neg (by simpa using ht), shared?_cons, shared?_cons, ih]
        by_cases h : s.value.key = key
        · rw [if_neg (h ▸ ht), if_pos h, if_pos h]
        · simp only [h, ↓reduceIte]

theorem find?_replace (n : Node) (s : Shared RecordSet) (key : SetKey) :
    (n.replace s).find? key = if s.value.key = key then some s.value else n.find? key := by
  rw [find?, shared?_replace]
  split <;> rfl

theorem mem_replaceIn {s t : Shared RecordSet} {l : List (Shared RecordSet)}
    (h : t ∈ replaceIn s l) : t = s ∨ t ∈ l := by
  induction l with
  | nil => simpa [replaceIn] using h
  | cons u l ih =>
      unfold replaceIn at h
      split at h
      · rcases List.mem_cons.mp h with h | h
        · exact .inl h
        · exact .inr (List.mem_cons_of_mem _ h)
      · rcases List.mem_cons.mp h with rfl | h
        · exact .inr List.mem_cons_self
        · exact (ih h).imp_right (List.mem_cons_of_mem _)

theorem keyed_replace {n : Node} (h : n.Keyed) (s : Shared RecordSet) : (n.replace s).Keyed := by
  obtain ⟨tag, sets⟩ := n
  simp only [Keyed, replace] at h ⊢
  induction sets with
  | nil => simp [replaceIn]
  | cons t l ih =>
      obtain ⟨ht, hl⟩ := List.pairwise_cons.mp h
      unfold replaceIn
      split
      · rename_i hkey
        have hkey : t.value.key = s.value.key := by simpa using hkey
        exact List.pairwise_cons.mpr ⟨fun u hu => hkey ▸ ht u hu, hl⟩
      · rename_i hkey
        refine List.pairwise_cons.mpr ⟨fun u hu => ?_, ih hl⟩
        rcases mem_replaceIn hu with rfl | hu
        · simpa using hkey
        · exact ht u hu

theorem shared?_erase (n : Node) (key key' : SetKey) :
    (n.erase key).shared? key' = if key = key' then none else n.shared? key' := by
  obtain ⟨tag, sets⟩ := n
  simp only [erase]
  induction sets with
  | nil => simp [shared?]
  | cons t l ih =>
      rw [List.filter_cons, shared?_cons]
      by_cases ht : t.value.key = key
      · rw [if_neg (by simpa using ht), ih, ht]
        split <;> rfl
      · rw [if_pos (by simpa [RecordSet.hasKey] using ht), shared?_cons, ih]
        by_cases h : key = key'
        · rw [if_neg (h ▸ ht), if_pos h, if_pos h]
        · simp only [h, ↓reduceIte]

theorem find?_erase (n : Node) (key key' : SetKey) :
    (n.erase key).find? key' = if key = key' then none else n.find? key' := by
  rw [find?, shared?_erase]
  split <;> rfl

theorem keyed_erase {n : Node} (h : n.Keyed) (key : SetKey) : (n.erase key).Keyed := h.filter _

end Node

end DnsZone
