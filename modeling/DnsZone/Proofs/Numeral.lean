import Mathlib.Data.Nat.Digits.Defs
import DnsZone.Numeral
import DnsZone.Proofs.Octet

/-!
# What numerals stand for

A decimal numeral consists of one or more digits, perhaps with a plus sign in front, and stands for
the number that the digits have as their value. Reading accepts the numerals of numbers within the
limit and nothing else: the limit is checked at every digit, but more digits never make the number
smaller. Written numerals stand for the number that they were written of.
-/

namespace DnsZone.Numeral

variable {limit n m : Nat} {octets digits : List Octet}

/-! ### The value of digits -/

/-- The number that decimal digits have as their value, the most significant one in front. -/
def value (digits : List Octet) : Nat := Nat.ofDigits 10 (digits.map Octet.digitValue).reverse

@[simp] theorem value_nil : value [] = 0 := rfl

theorem value_cons (b : Octet) (rest : List Octet) :
    value (b :: rest) = 10 ^ rest.length * b.digitValue + value rest := by
  rw [value, List.map_cons, List.reverse_cons, Nat.ofDigits_append, List.length_reverse,
    List.length_map, Nat.ofDigits_singleton, Nat.add_comm]
  rfl

theorem value_append_singleton (digits : List Octet) (b : Octet) :
    value (digits ++ [b]) = 10 * value digits + b.digitValue := by
  rw [value, List.map_append, List.reverse_append, List.map_singleton, List.reverse_singleton,
    List.singleton_append, Nat.ofDigits_cons, Nat.add_comm]
  rfl

/-- The octets are a numeral of the number: digits of that value, with or without a plus sign. -/
def Denotes (octets : List Octet) (n : Nat) : Prop :=
  ∃ digits, digits ≠ [] ∧ (∀ b ∈ digits, b.isDigit = true) ∧
    (octets = digits ∨ octets = Octet.plus :: digits) ∧ value digits = n

/-! ### Reading -/

/-- Digits are read behind a number of which they continue the numeral. -/
theorem readDigits_eq_ok_iff (hn : n ≤ limit) :
    readDigits limit n digits = .ok m ↔
      (∀ b ∈ digits, b.isDigit = true) ∧ 10 ^ digits.length * n + value digits = m ∧ m ≤ limit := by
  induction digits generalizing n with
  | nil =>
      rw [readDigits, Except.ok.injEq, value_nil, List.length_nil, Nat.pow_zero, Nat.one_mul,
        Nat.add_zero]
      constructor
      · rintro rfl
        exact ⟨List.forall_mem_nil _, rfl, hn⟩
      · exact fun h => h.2.1
  | cons b rest ih =>
      have hvalue : 10 ^ (b :: rest).length * n + value (b :: rest) =
          10 ^ rest.length * (10 * n + b.digitValue) + value rest := by
        rw [value_cons, List.length_cons, Nat.pow_succ]
        ring
      rw [readDigits, List.forall_mem_cons, hvalue]
      by_cases hdigit : b.isDigit = true
      · rw [if_neg (by simp [hdigit])]
        by_cases hlarge : 10 * n + b.digitValue > limit
        · rw [if_pos hlarge]
          refine iff_of_false (fun h => by cases h) fun h => ?_
          have hgrows : 10 * n + b.digitValue ≤ 10 ^ rest.length * (10 * n + b.digitValue) :=
            Nat.le_mul_of_pos_left _ (Nat.pow_pos (by decide))
          omega
        · rw [if_neg hlarge, ih (Nat.not_lt.mp hlarge), and_iff_right hdigit]
      · rw [if_pos (by simpa using hdigit)]
        exact iff_of_false (fun h => by cases h) fun h => hdigit h.1.1

/-- Digits alone are read as their value. -/
theorem readDigits_zero_eq_ok_iff :
    readDigits limit 0 digits = .ok n ↔
      (∀ b ∈ digits, b.isDigit = true) ∧ value digits = n ∧ n ≤ limit := by
  rw [readDigits_eq_ok_iff (Nat.zero_le limit), Nat.mul_zero, Nat.zero_add]

/-- What is read are the numerals of the numbers up to the limit. -/
theorem parse_eq_ok_iff : parse limit octets = .ok n ↔ Denotes octets n ∧ n ≤ limit := by
  have hplus : Octet.plus.isDigit = false := by decide
  cases octets with
  | nil =>
      refine iff_of_false (fun h => by cases h) ?_
      rintro ⟨⟨digits, hne, -, hoctets | hoctets, -⟩, -⟩
      · exact hne hoctets.symm
      · cases hoctets
  | cons b rest =>
      rw [parse]
      split
      next hsign =>
        simp only [Bool.and_eq_true, decide_eq_true_eq, Bool.not_eq_true',
          List.isEmpty_eq_false_iff] at hsign
        rw [readDigits_zero_eq_ok_iff]
        constructor
        · rintro ⟨hdigits, hvalue, hle⟩
          exact ⟨⟨rest, hsign.2, hdigits, .inr (by rw [hsign.1]), hvalue⟩, hle⟩
        · rintro ⟨⟨digits, -, hdigits, rfl | hoctets, hvalue⟩, hle⟩
          · have hfirst := hdigits b List.mem_cons_self
            rw [hsign.1, hplus] at hfirst
            cases hfirst
          · cases hoctets
            exact ⟨hdigits, hvalue, hle⟩
      next hsign =>
        simp only [Bool.and_eq_true, decide_eq_true_eq, Bool.not_eq_true',
          List.isEmpty_eq_false_iff, not_and, Decidable.not_not] at hsign
        rw [readDigits_zero_eq_ok_iff]
        constructor
        · rintro ⟨hdigits, hvalue, hle⟩
          exact ⟨⟨b :: rest, List.cons_ne_nil b rest, hdigits, .inl rfl, hvalue⟩, hle⟩
        · rintro ⟨⟨digits, hne, hdigits, rfl | hoctets, hvalue⟩, hle⟩
          · exact ⟨hdigits, hvalue, hle⟩
          · cases hoctets
            exact absurd (hsign rfl) hne

/-! ### Writing -/

theorem isDigit_of_mem_render {b : Octet} (h : b ∈ render n) : b.isDigit = true := by
  induction n using render.induct with
  | case1 n hn =>
      rw [render, if_pos hn, List.mem_singleton] at h
      rw [h]
      exact Octet.isDigit_ofDigit hn
  | case2 n hn ih =>
      rw [render, if_neg hn, List.mem_append, List.mem_singleton] at h
      rcases h with h | rfl
      · exact ih h
      · exact Octet.isDigit_ofDigit (Nat.mod_lt n (by decide))

theorem render_ne_nil (n : Nat) : render n ≠ [] := by
  rw [render]
  split
  · exact List.cons_ne_nil _ _
  · exact List.append_ne_nil_of_right_ne_nil _ (List.cons_ne_nil _ _)

theorem value_render (n : Nat) : value (render n) = n := by
  induction n using render.induct with
  | case1 n hn =>
      rw [render, if_pos hn, value_cons, value_nil, Octet.digitValue_ofDigit hn]
      exact Nat.one_mul n
  | case2 n hn ih =>
      rw [render, if_neg hn, value_append_singleton, ih,
        Octet.digitValue_ofDigit (Nat.mod_lt n (by decide)), Nat.div_add_mod]

/-- A written numeral stands for its number. -/
theorem denotes_render (n : Nat) : Denotes (render n) n :=
  ⟨render n, render_ne_nil n, fun _ => isDigit_of_mem_render, .inl rfl, value_render n⟩

theorem ofString_text (n : Nat) : Octets.ofString (text n) = render n :=
  Octets.ofString_toText fun _ h => Octet.isGraphic_of_isDigit (isDigit_of_mem_render h)

end DnsZone.Numeral
