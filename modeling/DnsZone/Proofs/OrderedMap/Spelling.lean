import Mathlib.Data.List.Sort
import DnsZone.Proofs.OrderedMap

/-!
# How the keys of a map are spelled

A map tells keys apart by its comparison function only, but each key has the spelling under which it
was first stored. `spelling` finds it. Lists in key order are equal if they hold the same under the
same keys and spell these alike, so a map is known from what it finds and from its spellings.
-/

namespace DnsZone.OrderedMap

universe u v

variable {κ : Type u} {cmp : κ → κ → Ordering} {α : Type v}

/-- The first of some keys that compares equal to `k`. -/
def spelling (cmp : κ → κ → Ordering) (k : κ) (ks : List κ) : Option κ :=
  ks.find? fun j => cmp k j == .eq

@[simp] theorem spelling_nil (k : κ) : spelling cmp k [] = none := rfl

theorem spelling_cons (k j : κ) (ks : List κ) :
    spelling cmp k (j :: ks) = if cmp k j = .eq then some j else spelling cmp k ks := by
  by_cases h : cmp k j = .eq
  · simp [spelling, h]
  · simp [spelling, h]

theorem spelling_append (k : κ) (ks js : List κ) :
    spelling cmp k (ks ++ js) = (spelling cmp k ks).or (spelling cmp k js) := by
  simp [spelling]

theorem spelling_congr [Std.TransCmp cmp] {j k : κ} (h : cmp j k = .eq) (ks : List κ) :
    spelling cmp j ks = spelling cmp k ks := by
  simp only [spelling, Std.TransCmp.congr_left h]

theorem spelling_eq_none_iff {k : κ} {ks : List κ} :
    spelling cmp k ks = none ↔ ∀ j ∈ ks, cmp k j ≠ .eq := by
  simp [spelling]

/-- Among keys in order, each is spelled as it stands there. -/
theorem spelling_eq_of_mem [Std.TransCmp cmp] {j k : κ} {ks : List κ}
    (h : ks.Pairwise fun a b => cmp a b = .lt) (hj : j ∈ ks) (hk : cmp k j = .eq) :
    spelling cmp k ks = some j := by
  induction ks with
  | nil => simp at hj
  | cons i ks ih =>
      obtain ⟨hi, hks⟩ := List.pairwise_cons.mp h
      rw [spelling_cons]
      rcases List.mem_cons.mp hj with rfl | hj
      · rw [if_pos hk]
      · rw [if_neg (cmp_ne_eq_of_lt (hi j hj) hk), ih hks hj]

/-- Leaving out some keys, of those that compare equal all or none. -/
theorem spelling_filter [Std.TransCmp cmp] {p : κ → Bool}
    (hp : ∀ j k, cmp j k = .eq → p j = p k) (k : κ) (ks : List κ) :
    spelling cmp k (ks.filter p) = if p k then spelling cmp k ks else none := by
  induction ks with
  | nil => simp
  | cons j ks ih =>
      rw [List.filter_cons, spelling_cons]
      by_cases hk : cmp k j = .eq
      · have hpj := hp k j hk
        by_cases hpk : p k = true
        · simp [← hpj, hpk, spelling_cons, hk]
        · simp [← hpj, hpk, ih]
      · split
        · rw [spelling_cons, ih]
          simp [hk]
        · simpa [hk] using ih

theorem isSome_spelling_keys [Std.TransCmp cmp] (m : OrderedMap κ cmp α) (k : κ) :
    (spelling cmp k m.keys).isSome = (m.find? k).isSome := by
  rw [Bool.eq_iff_iff, isSome_find?_iff, spelling, List.find?_isSome]
  simp

/-- Lists in key order with the same under the same keys, spelled alike, are the same list. -/
theorem toList_ext [Std.TransCmp cmp] {l l' : List (κ × α)}
    (h : l.Pairwise fun a b => cmp a.1 b.1 = .lt) (h' : l'.Pairwise fun a b => cmp a.1 b.1 = .lt)
    (hlookup : ∀ k, lookup cmp k l = lookup cmp k l')
    (hspelling : ∀ k, spelling cmp k (l.map (·.1)) = spelling cmp k (l'.map (·.1))) : l = l' := by
  have hsub {l l' : List (κ × α)} (h : l.Pairwise fun a b => cmp a.1 b.1 = .lt)
      (h' : l'.Pairwise fun a b => cmp a.1 b.1 = .lt)
      (hlookup : ∀ k, lookup cmp k l = lookup cmp k l')
      (hspelling : ∀ k, spelling cmp k (l.map (·.1)) = spelling cmp k (l'.map (·.1))) :
      l ⊆ l' := by
    intro e he
    have hself : cmp e.1 e.1 = .eq := Std.ReflCmp.compare_self
    have hvalue := (hlookup e.1).symm.trans (lookup_eq_some_of_mem h he hself)
    have hkey := (hspelling e.1).symm.trans
      (spelling_eq_of_mem (List.pairwise_map.mpr h) (List.mem_map_of_mem he) hself)
    obtain ⟨d, hd, hde⟩ := List.mem_map.mp (List.mem_of_find?_eq_some hkey)
    have hdvalue : lookup cmp e.1 l' = some d.2 := lookup_eq_some_of_mem h' hd (hde ▸ hself)
    rw [hvalue] at hdvalue
    have heq : e = d := Prod.ext hde.symm (Option.some.inj hdvalue)
    exact heq ▸ hd
  have hirrefl : Std.Irrefl fun a b : κ × α => cmp a.1 b.1 = .lt :=
    ⟨fun a ha => by cases (Std.ReflCmp.compare_self (a := a.1)).symm.trans ha⟩
  have hantisymm : Std.Antisymm fun a b : κ × α => cmp a.1 b.1 = .lt :=
    ⟨fun a b hab hba => by rw [Std.OrientedCmp.gt_of_lt hab] at hba; cases hba⟩
  exact List.Subset.antisymm_of_pairwise h h' (hsub h h' hlookup hspelling)
    (hsub h' h (fun k => (hlookup k).symm) fun k => (hspelling k).symm)

/-- Where only equal keys compare equal, a map is known from what it finds. -/
theorem ext_of_find? [Std.TransCmp cmp] [Std.LawfulEqCmp cmp] {m m' : OrderedMap κ cmp α}
    (h : ∀ k, m.find? k = m'.find? k) : m = m' := by
  have hspelled (m : OrderedMap κ cmp α) (k : κ) :
      spelling cmp k m.keys = (m.find? k).map fun _ => k := by
    have hsome := isSome_spelling_keys m k
    cases hk : spelling cmp k m.keys with
    | none =>
        rw [hk, Option.isSome_none, eq_comm, Option.isSome_eq_false_iff, Option.isNone_iff_eq_none]
          at hsome
        rw [hsome]
        rfl
    | some j =>
        have hkj : cmp k j = .eq := by simpa using List.find?_some hk
        rw [hk] at hsome
        obtain ⟨v, hv⟩ := Option.isSome_iff_exists.mp hsome.symm
        rw [hv, Std.LawfulEqCmp.eq_of_compare hkj]
        rfl
  obtain ⟨l, hl⟩ := m
  obtain ⟨l', hl'⟩ := m'
  have hkeys (k : κ) : spelling cmp k (l.map (·.1)) = spelling cmp k (l'.map (·.1)) := by
    have hm := hspelled ⟨l, hl⟩ k
    rw [h k] at hm
    exact hm.trans (hspelled ⟨l', hl'⟩ k).symm
  cases toList_ext hl hl' h hkeys
  rfl

/-! ### What becomes of spellings -/

theorem spelling_insertEntry [Std.TransCmp cmp] (j k : κ) (v : α) {l : List (κ × α)}
    (h : l.Pairwise fun a b => cmp a.1 b.1 = .lt) :
    spelling cmp j ((insertEntry cmp k v l).map (·.1)) =
      if cmp j k = .eq then some ((spelling cmp k (l.map (·.1))).getD k)
      else spelling cmp j (l.map (·.1)) := by
  induction l with
  | nil => simp [insertEntry, spelling_cons]
  | cons e l ih =>
      obtain ⟨he, hl⟩ := List.pairwise_cons.mp h
      unfold insertEntry
      split
      · rename_i hlt
        have hnone : spelling cmp k ((e :: l).map (·.1)) = none := by
          rw [spelling_eq_none_iff]
          intro i hi
          obtain ⟨d, hd, rfl⟩ := List.mem_map.mp hi
          rcases List.mem_cons.mp hd with rfl | hd
          · simp [hlt]
          · simp [Std.TransCmp.lt_trans hlt (he d hd)]
        rw [List.map_cons, spelling_cons, hnone]
        rfl
      · rename_i heq
        have hj : cmp j k = cmp j e.1 := Std.TransCmp.congr_right heq
        by_cases hje : cmp j e.1 = .eq
        · simp [spelling_cons, heq, hj, hje]
        · simp [spelling_cons, hj, hje]
      · rename_i hgt
        rw [List.map_cons, spelling_cons, ih hl, List.map_cons, spelling_cons, spelling_cons]
        by_cases hj : cmp j k = .eq
        · have hje : cmp j e.1 = .gt := by rw [Std.TransCmp.congr_left hj, hgt]
          simp [hj, hje, hgt]
        · simp [hj]

theorem spelling_insert [Std.TransCmp cmp] (m : OrderedMap κ cmp α) (j k : κ) (v : α) :
    spelling cmp j (m.insert k v).keys =
      if cmp j k = .eq then some ((spelling cmp k m.keys).getD k) else spelling cmp j m.keys :=
  spelling_insertEntry j k v m.sorted

theorem spelling_erase [Std.TransCmp cmp] (m : OrderedMap κ cmp α) (j k : κ) :
    spelling cmp j (m.erase k).keys = if cmp j k = .eq then none else spelling cmp j m.keys := by
  have hkeys : (m.erase k).keys = m.keys.filter fun i => cmp k i != .eq := by
    simp only [keys, toList_erase, List.filter_map]
    rfl
  rw [hkeys, spelling_filter]
  · have hcomm : cmp j k = .eq ↔ cmp k j = .eq :=
      ⟨Std.OrientedCmp.eq_symm, Std.OrientedCmp.eq_symm⟩
    by_cases hk : cmp k j = .eq
    · simp [hcomm, hk]
    · simp [hcomm, hk]
  · intro i i' hi
    rw [Std.TransCmp.congr_right hi]

/-- A key keeps its spelling until it is erased. -/
theorem spelling_foldl_erase [Std.TransCmp cmp] (ks : List κ) (m : OrderedMap κ cmp α) (j : κ) :
    spelling cmp j (ks.foldl erase m).keys =
      if ∃ k ∈ ks, cmp j k = .eq then none else spelling cmp j m.keys := by
  classical
  induction ks generalizing m with
  | nil => simp
  | cons k ks ih =>
      rw [List.foldl_cons, ih, spelling_erase]
      by_cases hk : cmp j k = .eq
      · simp [hk]
      · simp [hk]

/-- A key is spelled as it was, or else as it is first inserted. -/
theorem spelling_foldl_insert [Std.TransCmp cmp] (ks : List κ) (v : α) (m : OrderedMap κ cmp α)
    (j : κ) :
    spelling cmp j (ks.foldl (fun m k => m.insert k v) m).keys =
      (spelling cmp j m.keys).or (spelling cmp j ks) := by
  induction ks generalizing m with
  | nil => simp
  | cons k ks ih =>
      rw [List.foldl_cons, ih, spelling_insert, spelling_cons]
      by_cases hk : cmp j k = .eq
      · rw [if_pos hk, if_pos hk, spelling_congr hk m.keys]
        cases spelling cmp k m.keys <;> rfl
      · rw [if_neg hk, if_neg hk]

end DnsZone.OrderedMap
