import Mathlib.Data.List.Forall2
import DnsZone.OrderedMap

/-!
# What maps in key order hold

The view of an `OrderedMap` is `find?`. Each operation is described by one equation through this
view, in which keys are told apart by the comparison function only. Two maps that hold something
under the same keys list these keys in the same order, each in its own spelling.
-/

namespace DnsZone.OrderedMap

universe u v w

variable {κ : Type u} {cmp : κ → κ → Ordering} {α : Type v} {β : Type w}

@[simp] theorem lookup_nil (k : κ) : lookup cmp k ([] : List (κ × α)) = none := rfl

theorem lookup_cons (k : κ) (e : κ × α) (l : List (κ × α)) :
    lookup cmp k (e :: l) = if cmp k e.1 = .eq then some e.2 else lookup cmp k l := by
  by_cases h : cmp k e.1 = .eq
  · simp [lookup, h]
  · simp [lookup, h]

theorem lookup_map (f : α → β) (k : κ) (l : List (κ × α)) :
    lookup cmp k (l.map fun e => (e.1, f e.2)) = (lookup cmp k l).map f := by
  simp only [lookup, List.find?_map, Option.map_map]
  rfl

/-- Keys that compare equal find the same. -/
theorem lookup_congr [Std.TransCmp cmp] {j k : κ} (h : cmp j k = .eq) (l : List (κ × α)) :
    lookup cmp j l = lookup cmp k l := by
  induction l with
  | nil => rfl
  | cons e l ih => rw [lookup_cons, lookup_cons, Std.TransCmp.congr_left h, ih]

theorem lookup_eq_none_iff {k : κ} {l : List (κ × α)} :
    lookup cmp k l = none ↔ ∀ e ∈ l, cmp k e.1 ≠ .eq := by
  simp [lookup]

/-- Nothing is found under a key that is equal to one below all entries. -/
theorem lookup_eq_none_of_lt [Std.TransCmp cmp] {j k : κ} {l : List (κ × α)} (hk : cmp k j = .eq)
    (h : ∀ e ∈ l, cmp j e.1 = .lt) : lookup cmp k l = none := by
  rw [lookup_eq_none_iff]
  intro e he
  rw [Std.TransCmp.congr_left hk, h e he]
  simp

/-- In a list in key order, every entry is found under its key. -/
theorem lookup_eq_some_of_mem [Std.TransCmp cmp] {k : κ} {l : List (κ × α)} {e : κ × α}
    (h : l.Pairwise fun a b => cmp a.1 b.1 = .lt) (he : e ∈ l) (hk : cmp k e.1 = .eq) :
    lookup cmp k l = some e.2 := by
  induction l with
  | nil => simp at he
  | cons d l ih =>
      obtain ⟨hd, hl⟩ := List.pairwise_cons.mp h
      rw [lookup_cons]
      rcases List.mem_cons.mp he with rfl | he
      · rw [if_pos hk]
      · have hlt : cmp d.1 k = .lt :=
          Std.TransCmp.lt_of_lt_of_eq (hd e he) (Std.OrientedCmp.eq_symm hk)
        have hne : cmp k d.1 ≠ .eq := by
          rw [Std.OrientedCmp.gt_of_lt hlt]
          simp
        rw [if_neg hne, ih hl he]

theorem lookup_insertEntry [Std.TransCmp cmp] (j k : κ) (v : α) (l : List (κ × α)) :
    lookup cmp j (insertEntry cmp k v l) =
      if cmp j k = .eq then some v else lookup cmp j l := by
  induction l with
  | nil => rw [insertEntry, lookup_cons]
  | cons e l ih =>
      unfold insertEntry
      split
      · rw [lookup_cons]
      · rename_i heq
        have hj : cmp j k = cmp j e.1 := Std.TransCmp.congr_right heq
        rw [lookup_cons, lookup_cons, hj]
        split <;> rfl
      · rename_i hgt
        rw [lookup_cons, lookup_cons, ih]
        by_cases hj : cmp j k = .eq
        · have hje : cmp j e.1 ≠ .eq := by
            rw [Std.TransCmp.congr_left hj, hgt]
            simp
          rw [if_neg hje, if_pos hj, if_pos hj]
        · simp only [hj, ↓reduceIte]

theorem lookup_filter_ne [Std.TransCmp cmp] (j k : κ) (l : List (κ × α)) :
    lookup cmp j (l.filter fun e => cmp k e.1 != .eq) =
      if cmp j k = .eq then none else lookup cmp j l := by
  induction l with
  | nil => simp
  | cons e l ih =>
      rw [List.filter_cons, lookup_cons]
      by_cases hk : cmp k e.1 = .eq
      · have hj : cmp j k = cmp j e.1 := Std.TransCmp.congr_right hk
        simp only [hk, bne_self_eq_false, Bool.false_eq_true, ↓reduceIte, ih, hj]
        split <;> rfl
      · have hne : (cmp k e.1 != .eq) = true := by simpa using hk
        rw [if_pos hne, lookup_cons, ih]
        by_cases hj : cmp j k = .eq
        · rw [Std.TransCmp.congr_left hj, if_neg hk]
          simp only [hj, ↓reduceIte]
        · simp only [hj, ↓reduceIte]

theorem lookup_append (k : κ) (l l' : List (κ × α)) :
    lookup cmp k (l ++ l') = (lookup cmp k l).or (lookup cmp k l') := by
  rw [lookup, lookup, lookup, List.find?_append]
  cases l.find? fun e => cmp k e.1 == .eq <;> rfl

/-- Keeping some keys, of those that compare equal all or none, leaves what is under these. -/
theorem lookup_filter_key [Std.TransCmp cmp] {p : κ → Bool}
    (hp : ∀ j k, cmp j k = .eq → p j = p k) (k : κ) (l : List (κ × α)) :
    lookup cmp k (l.filter fun e => p e.1) = if p k then lookup cmp k l else none := by
  induction l with
  | nil => simp
  | cons e l ih =>
      rw [List.filter_cons, lookup_cons]
      by_cases hk : cmp k e.1 = .eq
      · have hpe := hp k e.1 hk
        by_cases hpk : p k = true
        · simp [← hpe, hpk, lookup_cons, hk]
        · simp [← hpe, hpk, ih]
      · split
        · rw [lookup_cons, ih]
          simp [hk]
        · simpa [hk] using ih

@[simp] theorem find?_empty (k : κ) : (empty : OrderedMap κ cmp α).find? k = none := rfl

theorem find?_congr [Std.TransCmp cmp] (m : OrderedMap κ cmp α) {j k : κ} (h : cmp j k = .eq) :
    m.find? j = m.find? k := lookup_congr h m.toList

theorem find?_insert [Std.TransCmp cmp] (m : OrderedMap κ cmp α) (j k : κ) (v : α) :
    (m.insert k v).find? j = if cmp j k = .eq then some v else m.find? j :=
  lookup_insertEntry j k v m.toList

theorem find?_erase [Std.TransCmp cmp] (m : OrderedMap κ cmp α) (j k : κ) :
    (m.erase k).find? j = if cmp j k = .eq then none else m.find? j :=
  lookup_filter_ne j k m.toList

theorem find?_filter_key [Std.TransCmp cmp] {p : κ → Bool}
    (hp : ∀ j k, cmp j k = .eq → p j = p k) (m : OrderedMap κ cmp α) (k : κ) :
    (m.filter fun j _ => p j).find? k = if p k then m.find? k else none :=
  lookup_filter_key hp k m.toList

@[simp] theorem find?_mapValues (f : α → β) (m : OrderedMap κ cmp α) (k : κ) :
    (m.mapValues f).find? k = (m.find? k).map f := lookup_map f k m.toList

theorem find?_eq_some_of_mem [Std.TransCmp cmp] {m : OrderedMap κ cmp α} {k : κ} {e : κ × α}
    (he : e ∈ m.toList) (hk : cmp k e.1 = .eq) : m.find? k = some e.2 :=
  lookup_eq_some_of_mem m.sorted he hk

theorem find?_self_of_mem [Std.TransCmp cmp] {m : OrderedMap κ cmp α} {e : κ × α}
    (he : e ∈ m.toList) : m.find? e.1 = some e.2 :=
  find?_eq_some_of_mem he Std.ReflCmp.compare_self

/-- A map has no entries exactly if nothing is found in it. -/
theorem isEmpty_iff_find?_eq_none [Std.TransCmp cmp] {m : OrderedMap κ cmp α} :
    m.isEmpty = true ↔ ∀ k, m.find? k = none := by
  rw [isEmpty, List.isEmpty_iff]
  constructor
  · intro h k
    rw [find?, h, lookup_nil]
  · intro h
    rw [List.eq_nil_iff_forall_not_mem]
    intro e he
    have hfound := find?_self_of_mem he
    rw [h e.1] at hfound
    cases hfound

theorem isEmpty_insert [Std.TransCmp cmp] (m : OrderedMap κ cmp α) (k : κ) (v : α) :
    (m.insert k v).isEmpty = false := by
  rw [← Bool.not_eq_true, isEmpty_iff_find?_eq_none]
  intro h
  have hk := h k
  rw [find?_insert, if_pos Std.ReflCmp.compare_self] at hk
  cases hk

theorem find?_foldl_erase [Std.TransCmp cmp] (ks : List κ) (m : OrderedMap κ cmp α) (j : κ) :
    (ks.foldl erase m).find? j =
      if ∃ k ∈ ks, cmp j k = .eq then none else m.find? j := by
  classical
  induction ks generalizing m with
  | nil => simp
  | cons k ks ih =>
      rw [List.foldl_cons, ih, find?_erase]
      by_cases hk : cmp j k = .eq
      · simp [hk]
      · simp [hk]

theorem isSome_find?_foldl_insert [Std.TransCmp cmp] (ks : List κ) (v : α)
    (m : OrderedMap κ cmp α) (j : κ) :
    ((ks.foldl (fun m k => m.insert k v) m).find? j).isSome = true ↔
      (∃ k ∈ ks, cmp j k = .eq) ∨ (m.find? j).isSome = true := by
  induction ks generalizing m with
  | nil => simp
  | cons k ks ih =>
      rw [List.foldl_cons, ih, find?_insert]
      by_cases hk : cmp j k = .eq
      · simp [hk]
      · simp [hk]

/-- Something is found in a map exactly if one of its keys compares equal. -/
theorem isSome_find?_iff [Std.TransCmp cmp] {m : OrderedMap κ cmp α} {j : κ} :
    (m.find? j).isSome = true ↔ ∃ k ∈ m.keys, cmp j k = .eq := by
  rw [← Option.ne_none_iff_isSome, Ne, find?, lookup_eq_none_iff, keys]
  simp

theorem contains_of_mem_keys [Std.TransCmp cmp] {m : OrderedMap κ cmp α} {k : κ}
    (h : k ∈ m.keys) : m.contains k = true :=
  isSome_find?_iff.mpr ⟨k, h, Std.ReflCmp.compare_self⟩

/-- What is equal to an element above `a` is not equal to `a`. -/
theorem cmp_ne_eq_of_lt [Std.TransCmp cmp] {a j k : κ} (h : cmp a j = .lt) (hk : cmp k j = .eq) :
    cmp k a ≠ .eq := by
  intro hka
  have heq : cmp k j = cmp a j := Std.TransCmp.congr_left hka
  rw [hk, h] at heq
  cases heq

/-- Two lists in strictly increasing order that have the same elements up to `cmp` agree position by
position. -/
theorem forall₂_of_sorted [Std.TransCmp cmp] {l l' : List κ}
    (h : l.Pairwise fun a b => cmp a b = .lt) (h' : l'.Pairwise fun a b => cmp a b = .lt)
    (hmem : ∀ k, (∃ j ∈ l, cmp k j = .eq) ↔ ∃ j ∈ l', cmp k j = .eq) :
    List.Forall₂ (fun a b => cmp a b = .eq) l l' := by
  induction l generalizing l' with
  | nil =>
      cases l' with
      | nil => exact .nil
      | cons b l' =>
          obtain ⟨j, hj, _⟩ := (hmem b).mpr ⟨b, List.mem_cons_self, Std.ReflCmp.compare_self⟩
          simp at hj
  | cons a l ih =>
      cases l' with
      | nil =>
          obtain ⟨j, hj, _⟩ := (hmem a).mp ⟨a, List.mem_cons_self, Std.ReflCmp.compare_self⟩
          simp at hj
      | cons b l' =>
          obtain ⟨ha, hl⟩ := List.pairwise_cons.mp h
          obtain ⟨hb, hl'⟩ := List.pairwise_cons.mp h'
          have hab : cmp a b = .eq := by
            obtain ⟨j, hj, haj⟩ := (hmem a).mp ⟨a, List.mem_cons_self, Std.ReflCmp.compare_self⟩
            obtain ⟨i, hi, hbi⟩ := (hmem b).mpr ⟨b, List.mem_cons_self, Std.ReflCmp.compare_self⟩
            rcases List.mem_cons.mp hj with rfl | hj
            · exact haj
            · rcases List.mem_cons.mp hi with rfl | hi
              · exact Std.OrientedCmp.eq_symm hbi
              · -- `b` would be below `a` and `a` below `b`
                have hba : cmp b a = .lt :=
                  Std.TransCmp.lt_of_lt_of_eq (hb j hj) (Std.OrientedCmp.eq_symm haj)
                have hai := Std.TransCmp.lt_trans hba (ha i hi)
                rw [hbi] at hai
                cases hai
          have hkab (k : κ) : cmp k a = cmp k b := Std.TransCmp.congr_right hab
          refine .cons hab (ih hl hl' fun k => ?_)
          have hk := hmem k
          simp only [List.mem_cons, exists_eq_or_imp] at hk
          constructor
          · rintro ⟨j, hj, hkj⟩
            have hka := cmp_ne_eq_of_lt (ha j hj) hkj
            exact (hk.mp (.inr ⟨j, hj, hkj⟩)).resolve_left (hkab k ▸ hka)
          · rintro ⟨j, hj, hkj⟩
            have hkb := cmp_ne_eq_of_lt (hb j hj) hkj
            exact (hk.mpr (.inr ⟨j, hj, hkj⟩)).resolve_left (hkab k ▸ hkb)

/-- In a list in order, the elements at `k` stand together, after those below `k`. -/
theorem takeWhile_dropWhile_of_sorted [Std.TransCmp cmp] (f : α → κ) (k : κ) {l : List α}
    (h : l.Pairwise fun a b => cmp (f a) (f b) ≠ .gt) :
    ((l.dropWhile fun a => cmp (f a) k == .lt).takeWhile fun a => cmp (f a) k == .eq) =
      l.filter fun a => cmp (f a) k == .eq := by
  -- once an element is not below `k`, those at `k` are a first part of what is left
  have hfront {l : List α} (h : l.Pairwise fun a b => cmp (f a) (f b) ≠ .gt)
      (hge : ∀ a ∈ l, cmp (f a) k ≠ .lt) :
      (l.takeWhile fun a => cmp (f a) k == .eq) = l.filter fun a => cmp (f a) k == .eq := by
    induction l with
    | nil => rfl
    | cons a l ih =>
        obtain ⟨ha, hl⟩ := List.pairwise_cons.mp h
        obtain ⟨hgea, hgel⟩ := List.forall_mem_cons.mp hge
        rw [List.takeWhile_cons, List.filter_cons, ih hl hgel]
        by_cases heq : cmp (f a) k = .eq
        · rw [if_pos (by simpa using heq), if_pos (by simpa using heq)]
        · rw [if_neg (by simpa using heq), if_neg (by simpa using heq), eq_comm,
            List.filter_eq_nil_iff]
          intro b hb hbk
          have hka : cmp k (f a) = .lt :=
            Std.OrientedCmp.lt_of_gt (by cases hc : cmp (f a) k <;> simp_all)
          have hba : cmp (f b) (f a) = .lt :=
            Std.TransCmp.lt_of_eq_of_lt (by simpa using hbk) hka
          exact ha b hb (Std.OrientedCmp.gt_of_lt hba)
  induction l with
  | nil => rfl
  | cons a l ih =>
      obtain ⟨ha, hl⟩ := List.pairwise_cons.mp h
      by_cases hlt : cmp (f a) k = .lt
      · rw [List.dropWhile_cons_of_pos (by simpa using hlt), ih hl,
          List.filter_cons_of_neg (by simp [hlt])]
      · rw [List.dropWhile_cons_of_neg (by simpa using hlt)]
        refine hfront h ?_
        intro b hb hbk
        rcases List.mem_cons.mp hb with rfl | hb
        · exact hlt hbk
        · have hak : cmp (f a) k = .lt := by
            refine Std.TransCmp.lt_of_isLE_of_lt ?_ hbk
            exact Ordering.ne_gt_iff_isLE.mp (ha b hb)
          exact hlt hak

theorem sorted_keys (m : OrderedMap κ cmp α) : m.keys.Pairwise fun a b => cmp a b = .lt :=
  List.pairwise_map.mpr m.sorted

end DnsZone.OrderedMap
