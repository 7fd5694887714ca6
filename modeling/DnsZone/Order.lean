/-!
# Comparison functions

Every map of a zone is ordered by an explicit comparison function, since names are ordered by a key
that forgets the case of letters and so have no order that decides equality of the values
themselves. `Order.byNat` compares numbers and `Order.onKey` compares by a key; both are transitive
and oriented whenever what they are built from is.
-/

namespace DnsZone

universe u v

namespace Order

def byNat (a b : Nat) : Ordering :=
  if a < b then .lt else if b < a then .gt else .eq

/-- Values in the order of their keys. -/
def onKey {α : Type u} {κ : Type v} (key : α → κ) (cmp : κ → κ → Ordering) (a b : α) : Ordering :=
  cmp (key a) (key b)

theorem byNat_eq_lt {a b : Nat} : byNat a b = .lt ↔ a < b := by
  unfold byNat
  split
  · simp [*]
  · split <;> simp [*]

theorem byNat_eq_gt {a b : Nat} : byNat a b = .gt ↔ b < a := by
  unfold byNat
  split
  · simp only [reduceCtorEq, false_iff]
    omega
  · split <;> simp [*]

theorem byNat_eq_eq {a b : Nat} : byNat a b = .eq ↔ a = b := by
  unfold byNat
  split
  · simp only [reduceCtorEq, false_iff]
    omega
  · split
    · simp only [reduceCtorEq, false_iff]
      omega
    · simp only [true_iff]
      omega

theorem byNat_isLE {a b : Nat} : (byNat a b).isLE = true ↔ a ≤ b := by
  rw [← Ordering.ne_gt_iff_isLE]
  exact (not_congr byNat_eq_gt).trans Nat.not_lt

instance : Std.TransCmp byNat where
  eq_swap {a b} := by
    rcases Nat.lt_trichotomy a b with h | h | h
    · rw [byNat_eq_lt.mpr h, byNat_eq_gt.mpr h]
      rfl
    · rw [byNat_eq_eq.mpr h, byNat_eq_eq.mpr h.symm]
      rfl
    · rw [byNat_eq_gt.mpr h, byNat_eq_lt.mpr h]
      rfl
  isLE_trans {a b c} := by
    simp only [byNat_isLE]
    exact Nat.le_trans

instance : Std.LawfulEqCmp byNat where
  compare_self {_} := byNat_eq_eq.mpr rfl
  eq_of_compare := byNat_eq_eq.mp

instance {α : Type u} {κ : Type v} (key : α → κ) (cmp : κ → κ → Ordering) [Std.TransCmp cmp] :
    Std.TransCmp (onKey key cmp) where
  eq_swap {a b} := @Std.OrientedCmp.eq_swap κ cmp _ (key a) (key b)
  isLE_trans {a b c} := @Std.TransCmp.isLE_trans κ cmp _ (key a) (key b) (key c)

end Order

end DnsZone
