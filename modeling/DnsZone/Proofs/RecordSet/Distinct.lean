import Mathlib.Data.List.Forall2
import Mathlib.Data.Multiset.ZeroCons
import DnsZone.Proofs.RecordData
import DnsZone.Proofs.RecordSet

/-!
# Record sets without equal records

A record set is `Distinct` if no two of its records are equal. Adding records to such a set and
taking some away leaves it so, whatever is added, since a record that is present is not added again.
Two distinct sets with the same records hold them in some order each, which `Matches` leaves open.
-/

namespace DnsZone

/-! ### Lists without equal elements -/

section Lists

variable {α β : Type}

theorem eraseDups_sublist [BEq α] : ∀ l : List α, l.eraseDups.Sublist l
  | [] => .slnil
  | a :: l => by
      rw [List.eraseDups_cons]
      exact .cons_cons a ((eraseDups_sublist _).trans List.filter_sublist)
termination_by l => l.length
decreasing_by exact Nat.lt_succ_of_le (List.length_filter_le _ l)

theorem pairwise_eraseDups [BEq α] :
    ∀ l : List α, l.eraseDups.Pairwise fun a b => (b == a) = false
  | [] => .nil
  | a :: l => by
      rw [List.eraseDups_cons]
      refine .cons (fun b hb => ?_) (pairwise_eraseDups _)
      simpa using (List.mem_filter.mp ((eraseDups_sublist _).subset hb)).2
termination_by l => l.length
decreasing_by exact Nat.lt_succ_of_le (List.length_filter_le _ l)

/-- Of equal elements one is left. -/
theorem contains_eraseDups [BEq α] [EquivBEq α] :
    ∀ (l : List α) (a : α), l.eraseDups.contains a = l.contains a
  | [], _ => rfl
  | b :: l, a => by
      rw [List.eraseDups_cons, List.contains_cons, List.contains_cons, contains_eraseDups]
      cases hab : a == b with
      | true => rfl
      | false =>
          -- what equals `a` does not equal `b`, so none of it is taken away
          have hkeep (c : α) : (a == c && !c == b) = (a == c) := by
            cases hac : a == c with
            | false => rfl
            | true => simp [← BEq.congr_left hac, hab]
          rw [List.contains_filter, List.contains_eq_any_beq]
          simp only [hkeep]
termination_by l => l.length
decreasing_by exact Nat.lt_succ_of_le (List.length_filter_le _ l)

theorem forall₂_beq_iff [BEq α] {l l' : List α} :
    List.Forall₂ (fun a b => (a == b) = true) l l' ↔ (l == l') = true := by
  induction l generalizing l' with
  | nil => cases l' <;> simp
  | cons a l ih =>
      cases l' with
      | nil => simp
      | cons b l' => rw [List.forall₂_cons, ih, List.cons_beq_cons, Bool.and_eq_true]

/-- Elements that are related to some of the other list, and no two to the same, can be matched. -/
theorem rel_of_pairwise {R : α → β → Prop} {l : List α} {l' : List β}
    (hleft : ∀ a ∈ l, ∃ b ∈ l', R a b) (hright : ∀ b ∈ l', ∃ a ∈ l, R a b)
    (hl : l.Pairwise fun a a' => ∀ b, R a b → ¬ R a' b)
    (hl' : l'.Pairwise fun b b' => ∀ a, R a b → ¬ R a b') :
    Multiset.Rel R (l : Multiset α) (l' : Multiset β) := by
  induction l generalizing l' with
  | nil =>
      cases l' with
      | nil => exact .zero
      | cons b l' =>
          obtain ⟨a, ha, -⟩ := hright b List.mem_cons_self
          cases ha
  | cons a l ih =>
      obtain ⟨ha, hl⟩ := List.pairwise_cons.mp hl
      obtain ⟨b, hb, hab⟩ := hleft a List.mem_cons_self
      obtain ⟨front, rest, rfl⟩ := List.append_of_mem hb
      obtain ⟨-, hcons, hfront⟩ := List.pairwise_append.mp hl'
      have hrest := (List.pairwise_cons.mp hcons).1
      have hmiddle : ((front ++ b :: rest : List β) : Multiset β) =
          b ::ₘ ((front ++ rest : List β) : Multiset β) :=
        Multiset.coe_eq_coe.mpr List.perm_middle
      have hother {a' : α} (ha' : a' ∈ l) (b' : β) (hb' : b' ∈ front ++ b :: rest)
          (hrel : R a' b') : b' ∈ front ++ rest := by
        rcases List.mem_cons.mp (List.perm_middle.mem_iff.mp hb') with rfl | hb'
        · exact absurd hrel (ha a' ha' b' hab)
        · exact hb'
      rw [hmiddle, ← Multiset.cons_coe]
      refine .cons hab (ih (fun a' ha' => ?_) (fun b' hb' => ?_) hl ?_)
      · obtain ⟨b', hb', hrel⟩ := hleft a' (List.mem_cons_of_mem a ha')
        exact ⟨b', hother ha' b' hb' hrel, hrel⟩
      · obtain ⟨a', ha', hrel⟩ :=
          hright b' (List.perm_middle.mem_iff.mpr (List.mem_cons_of_mem b hb'))
        rcases List.mem_cons.mp ha' with rfl | ha'
        · rcases List.mem_append.mp hb' with hb' | hb'
          · exact absurd hab (hfront b' hb' b List.mem_cons_self a' hrel)
          · exact absurd hrel (hrest b' hb' a' hab)
        · exact ⟨a', ha', hrel⟩
      · exact hl'.sublist ((List.sublist_cons_self b rest).append_left front)

end Lists

namespace RecordSet

/-- Equal sets have equal records, one by one. -/
theorem beq_iff {s s' : RecordSet} : (s == s') = true ↔
    s.key = s'.key ∧ s.ttl = s'.ttl ∧
      List.Forall₂ (fun d d' => (d == d') = true) s.data s'.data := by
  have hparts : (s == s') = (s.key == s'.key && (s.ttl == s'.ttl && s.data == s'.data)) := rfl
  rw [hparts, Bool.and_eq_true, Bool.and_eq_true, beq_iff_eq, beq_iff_eq, forall₂_beq_iff]

theorem beq_self (s : RecordSet) : (s == s) = true :=
  beq_iff.mpr ⟨rfl, rfl, List.forall₂_same.mpr fun _ _ => BEq.rfl⟩

/-- No two records of the set are equal. -/
def Distinct (s : RecordSet) : Prop := s.data.Pairwise fun d d' => (d == d') = false

instance (s : RecordSet) : Decidable s.Distinct := inferInstanceAs (Decidable (List.Pairwise _ _))

theorem distinct_single (ttl : Ttl) (d : RecordData) : (single ttl d).Distinct :=
  List.pairwise_singleton _ d

/-- The records of a set stay in front, and those that are new follow, each once. -/
theorem data_union (s other : RecordSet) : (s.union other).data =
    s.data ++ (other.data.filter fun d => !s.data.contains d).eraseDups := by
  rw [union, foldl_push]
  split <;> rfl

/-- A set holds what it held before and what was added. -/
theorem contains_merge (s other : RecordSet) (d : RecordData) :
    (s.merge other).data.contains d = (s.data.contains d || other.data.contains d) := by
  rw [merge, List.contains_append, contains_eraseDups, List.contains_filter]
  cases hold : s.data.contains d with
  | true => rfl
  | false =>
      -- what equals `d` is not in the set in any spelling
      have hnew (d' : RecordData) : (d == d' && !s.data.contains d') = (d == d') := by
        cases hbeq : d == d' with
        | false => rfl
        | true => simp [← List.contains_congr hbeq, hold]
      simp only [hnew]
      rw [List.contains_eq_any_beq, Bool.false_or]

theorem Distinct.union {s : RecordSet} (h : s.Distinct) (other : RecordSet) :
    (s.union other).Distinct := by
  rw [Distinct, data_union]
  refine List.pairwise_append.mpr ⟨h, ?_, fun d hd d' hd' => ?_⟩
  · exact (pairwise_eraseDups _).imp fun hd => BEq.symm_false hd
  · have hnew := (List.mem_filter.mp ((eraseDups_sublist _).subset hd')).2
    rw [← Bool.not_eq_true]
    intro hbeq
    have hpresent : s.data.contains d' = true :=
      List.contains_iff_exists_mem_beq.mpr ⟨d, hd, BEq.symm hbeq⟩
    rw [hpresent] at hnew
    cases hnew

theorem Distinct.difference {s : RecordSet} (h : s.Distinct) (other : RecordSet) :
    (s.difference other).Distinct := h.filter _

/-- The sets have the same records and the same time to live. In which order and spelling the
records are held makes no difference. -/
structure Matches (s s' : RecordSet) : Prop where
  key_eq : s.key = s'.key
  ttl_eq : s.ttl = s'.ttl
  records : Multiset.Rel (fun d d' => (d == d') = true) (s.data : Multiset RecordData)
    (s'.data : Multiset RecordData)

/-- Distinct sets match if a record is in one of them whenever it is in the other. -/
theorem matches_of_contains_eq {s s' : RecordSet} (hkey : s.key = s'.key) (httl : s.ttl = s'.ttl)
    (h : s.Distinct) (h' : s'.Distinct)
    (hcontains : ∀ d, s.data.contains d = s'.data.contains d) : s.Matches s' := by
  have hmem {s s' : RecordSet} (hcontains : ∀ d, s.data.contains d = s'.data.contains d) :
      ∀ d ∈ s.data, ∃ d' ∈ s'.data, (d == d') = true := by
    intro d hd
    rw [← List.contains_iff_exists_mem_beq, ← hcontains, List.contains_iff_exists_mem_beq]
    exact ⟨d, hd, BEq.rfl⟩
  refine ⟨hkey, httl, rel_of_pairwise (hmem hcontains) (fun d hd => ?_) ?_ ?_⟩
  · obtain ⟨d', hd', hbeq⟩ := hmem (fun d => (hcontains d).symm) d hd
    exact ⟨d', hd', BEq.symm hbeq⟩
  · refine h.imp fun {a a'} hne b hab ha'b => ?_
    rw [BEq.trans hab (BEq.symm ha'b)] at hne
    cases hne
  · refine h'.imp fun {b b'} hne a hab hab' => ?_
    rw [BEq.trans (BEq.symm hab) hab'] at hne
    cases hne

end RecordSet

end DnsZone
