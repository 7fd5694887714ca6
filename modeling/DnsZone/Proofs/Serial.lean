import Mathlib.Algebra.Group.Nat.Defs
import DnsZone.Serial

/-!
# The circle of serial numbers

How two serial numbers compare depends on nothing but the way up from one to the other. One is above
another exactly if that way is an increment that may be added, and only of numbers that lie opposite
neither is above the other. Steps that both take together do not matter.
-/

namespace DnsZone.Serial

/-- The comparison told by the way up from `b` to `a` alone. -/
theorem compare?_eq (a b : Serial) :
    a.compare? b =
      if a.val - b.val = 0 then some .eq
      else if a.val - b.val = half then none
      else if a.val - b.val ≤ maxIncrement then some .gt
      else some .lt := by
  have ha := a.val.toNat_lt
  have hb := b.val.toNat_lt
  have hsame : a.val - b.val = 0 ↔ a.val = b.val := by
    rw [← UInt32.toNat_inj, ← UInt32.toNat_inj, UInt32.toNat_sub, UInt32.toNat_zero]
    omega
  simp only [compare?, hsame]
  split
  · rfl
  · simp only [half, maxIncrement, ← UInt32.toNat_inj, UInt32.lt_iff_toNat_lt,
      UInt32.le_iff_toNat_le, UInt32.toNat_sub, UInt32.reduceToNat] at *
    -- on either side of the end of the circle the ways up and down add up to a full round
    repeat' split
    all_goals first | rfl | omega

variable {a b : Serial}

theorem compare?_eq_gt_iff :
    a.compare? b = some .gt ↔ 1 ≤ a.val - b.val ∧ a.val - b.val ≤ maxIncrement := by
  have hpos : 1 ≤ a.val - b.val ↔ a.val - b.val ≠ 0 := by
    rw [UInt32.le_iff_toNat_le, Ne, ← UInt32.toNat_inj, UInt32.toNat_one, UInt32.toNat_zero]
    omega
  have hhalf : a.val - b.val = half → ¬ a.val - b.val ≤ maxIncrement := by
    intro h
    rw [h]
    decide
  rw [compare?_eq, hpos]
  repeat' split
  all_goals simp_all

/-- Only numbers that lie exactly opposite are not comparable. -/
theorem compare?_eq_none_iff : a.compare? b = none ↔ a.val - b.val = half := by
  rw [compare?_eq]
  split
  · rename_i hsame
    rw [hsame]
    decide
  · split
    · simp_all
    · split <;> simp_all

theorem compare?_eq_eq_iff : a.compare? b = some .eq ↔ a = b := by
  have hway : a.val - b.val = 0 ↔ a = b := by
    rw [UInt32.sub_eq_iff_eq_add, UInt32.zero_add, Serial.mk.injEq]
  rw [← hway, compare?_eq]
  repeat' split
  all_goals simp_all

/-- The way up and the way down between two numbers make a full round, so that both comparisons
tell the same. -/
theorem compare?_swap (a b : Serial) : b.compare? a = (a.compare? b).map Ordering.swap := by
  have ha := a.val.toNat_lt
  have hb := b.val.toNat_lt
  simp only [compare?_eq, half, maxIncrement, ← UInt32.toNat_inj, UInt32.le_iff_toNat_le,
    UInt32.toNat_sub, UInt32.reduceToNat]
  repeat' split
  all_goals first | rfl | omega

/-- The comparison of two numbers from the other side. -/
theorem compare?_eq_lt_iff : a.compare? b = some .lt ↔ b.compare? a = some .gt := by
  rw [compare?_swap a b]
  cases a.compare? b with
  | none => simp
  | some o => cases o <;> simp

/-! ### Increments -/

theorem add?_of_le {n : UInt32} (h : n ≤ maxIncrement) : a.add? n = some ⟨a.val + n⟩ :=
  if_neg (UInt32.not_lt.mpr h)

/-- An increment leads up to a number exactly if it is the way there. -/
theorem add?_eq_some_iff {n : UInt32} :
    a.add? n = some b ↔ n ≤ maxIncrement ∧ b.val - a.val = n := by
  by_cases h : n ≤ maxIncrement
  · rw [add?_of_le h, Option.some.injEq, Serial.mk.injEq, UInt32.sub_eq_iff_eq_add, UInt32.add_comm,
      eq_comm, and_iff_right h]
  · rw [add?, if_pos (UInt32.not_le.mp h)]
    exact iff_of_false (fun hadd => by cases hadd) fun hadd => h hadd.1

/-- A number is below those that an increment leads up to. -/
theorem compare?_eq_lt_iff_exists_add? :
    a.compare? b = some .lt ↔ ∃ n, 1 ≤ n ∧ n ≤ maxIncrement ∧ a.add? n = some b := by
  simp only [compare?_eq_lt_iff, compare?_eq_gt_iff, add?_eq_some_iff]
  constructor
  · rintro ⟨hone, hmax⟩
    exact ⟨b.val - a.val, hone, hmax, hmax, rfl⟩
  · rintro ⟨n, hone, hmax, -, rfl⟩
    exact ⟨hone, hmax⟩

/-- The same step up on both sides keeps the way between two numbers. -/
theorem compare?_add (a b : Serial) (k : UInt32) :
    compare? ⟨a.val + k⟩ ⟨b.val + k⟩ = a.compare? b := by
  have hway : a.val + k - (b.val + k) = a.val - b.val := by
    rw [UInt32.sub_eq_iff_eq_add, ← UInt32.add_assoc, UInt32.sub_add_cancel]
  rw [compare?_eq, compare?_eq, hway]

/-- Opposite numbers are half a round apart whichever way it is taken. -/
theorem sub_eq_half_iff :
    a.val - b.val = half ↔
      a.val.toNat = b.val.toNat + 2 ^ 31 ∨ b.val.toNat = a.val.toNat + 2 ^ 31 := by
  have ha := a.val.toNat_lt
  have hb := b.val.toNat_lt
  have hhalf : half.toNat = 2 ^ 31 := rfl
  rw [← UInt32.toNat_inj, UInt32.toNat_sub, hhalf]
  omega

/-- A serial number is below those that are reached from it by adding what may be added. Of any two
numbers either both are one, or just one is below the other, or they are not comparable, which is so
just of numbers half a round apart. Adding the same to both changes nothing of this. -/
theorem comparison_by_increments (a b : Serial) :
    (a.compare? b = some .lt ↔
        ∃ n : UInt32, 1 ≤ n.toNat ∧ n.toNat ≤ 2 ^ 31 - 1 ∧ a.add? n = some b) ∧
      [decide (a = b), decide (a.compare? b = some .lt), decide (b.compare? a = some .lt),
        decide (a.compare? b = none)].count true = 1 ∧
      (a.compare? b = some .lt ↔ b.compare? a = some .gt) ∧
      (a.compare? b = none ↔
        a.val.toNat = b.val.toNat + 2 ^ 31 ∨ b.val.toNat = a.val.toNat + 2 ^ 31) ∧
      ∀ k : UInt32, k.toNat ≤ 2 ^ 31 - 1 →
        ∃ a' b', a.add? k = some a' ∧ b.add? k = some b' ∧ a'.compare? b' = a.compare? b := by
  refine ⟨compare?_eq_lt_iff_exists_add?, ?_, compare?_eq_lt_iff, ?_, fun k hk => ?_⟩
  · simp only [← compare?_eq_eq_iff, compare?_swap a b]
    cases a.compare? b with
    | none => decide
    | some o => cases o <;> decide
  · rw [compare?_eq_none_iff, sub_eq_half_iff]
  · exact ⟨_, _, add?_of_le hk, add?_of_le hk, compare?_add a b k⟩

/-- The greatest increment takes the last number on the circle past its end, and it stays below the
number two steps on. -/
theorem comparison_by_increments_past_end :
    (0x7FFFFFFF : UInt32).toNat ≤ 2 ^ 31 - 1 ∧ compare? ⟨0xFFFFFFFF⟩ ⟨0x00000001⟩ = some .lt ∧
      ∃ a' b', add? ⟨0xFFFFFFFF⟩ 0x7FFFFFFF = some a' ∧ add? ⟨0x00000001⟩ 0x7FFFFFFF = some b' ∧
        a'.compare? b' = some .lt := by
  have hmax : (0x7FFFFFFF : UInt32).toNat ≤ 2 ^ 31 - 1 := by decide
  have hlt : compare? ⟨0xFFFFFFFF⟩ ⟨0x00000001⟩ = some .lt := by decide
  obtain ⟨-, -, -, -, hshift⟩ := comparison_by_increments ⟨0xFFFFFFFF⟩ ⟨0x00000001⟩
  rw [hlt] at hshift
  exact ⟨hmax, hlt, hshift _ hmax⟩

end DnsZone.Serial
