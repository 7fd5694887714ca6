import Mathlib.Data.List.Forall2
import DnsZone.Proofs.Name

/-!
# The canonical order of names

Names are equal, have the same hash and compare as equal for one and the same reason: both are
absolute or both relative, and their labels agree one by one up to the case of letters. The order is
total. It puts relative names before absolute ones, and names of one kind in the lexicographic order
of their labels, the most significant one first. The names at or below a name have its labels in
front in this order, so they follow it without a gap.
-/

namespace DnsZone

/-! ### Lists in lexicographic order -/

section Lists

variable {α : Type} {cmp : α → α → Ordering} [Std.LawfulEqCmp cmp]

theorem compareLex_eq_lt_iff {l l' : List α} :
    List.compareLex cmp l l' = .lt ↔ List.Lex (fun a b => cmp a b = .lt) l l' := by
  induction l generalizing l' with
  | nil =>
      cases l' with
      | nil => exact iff_of_false (fun h => by cases h) (fun h => by cases h)
      | cons b l' => exact iff_of_true rfl .nil
  | cons a l ih =>
      cases l' with
      | nil => exact iff_of_false (fun h => by cases h) (fun h => by cases h)
      | cons b l' =>
          rw [List.compareLex_cons_cons, Ordering.then_eq_lt, ih]
          constructor
          · rintro (h | ⟨h, hlex⟩)
            · exact .rel h
            · cases Std.LawfulEqCmp.eq_of_compare h
              exact .cons hlex
          · rintro (_ | h | hlex)
            · exact .inl h
            · exact .inr ⟨Std.ReflCmp.compare_self, hlex⟩

/-- What lies between a list and one that begins with it begins with it as well. -/
theorem prefix_of_between [Std.OrientedCmp cmp] {l m r : List α}
    (hlm : (List.compareLex cmp l m).isLE = true) (hmr : (List.compareLex cmp m r).isLE = true)
    (h : l <+: r) : l <+: m := by
  induction l generalizing m r with
  | nil => exact List.nil_prefix
  | cons a l ih =>
      obtain ⟨rest, rfl⟩ := h
      cases m with
      | nil => cases hlm
      | cons b m =>
          rw [List.compareLex_cons_cons] at hlm
          rw [List.cons_append, List.compareLex_cons_cons] at hmr
          have heq : cmp a b = .eq := Std.OrientedCmp.isLE_antisymm
            (Ordering.isLE_then_iff_and.mp hlm).1 (Ordering.isLE_then_iff_and.mp hmr).1
          cases Std.LawfulEqCmp.eq_of_compare heq
          rw [heq] at hlm hmr
          exact List.cons_prefix_cons.mpr ⟨rfl, ih hlm hmr (List.prefix_append l rest)⟩

end Lists

namespace Name

variable {a b c o : Name}

/-! ### Equality -/

/-- Labels agree in lower case if they do so one by one. -/
theorem foldedLabels_eq_iff : a.foldedLabels = b.foldedLabels ↔
    List.Forall₂ (fun l l' => Octets.sameIgnoringCase l l' = true) a.labels b.labels := by
  simp only [Octets.sameIgnoringCase, beq_iff_eq]
  rw [foldedLabels, foldedLabels, ← List.forall₂_eq_eq_eq, List.forall₂_map_left_iff,
    List.forall₂_map_right_iff]

theorem hashInput_eq_iff : a.hashInput = b.hashInput ↔ (a == b) = true := by
  have hkind : a.absolute.toNat.toUInt8 = b.absolute.toNat.toUInt8 ↔ a.absolute = b.absolute := by
    cases a.absolute <;> cases b.absolute <;> decide
  change _ ↔ (a.absolute == b.absolute && Octets.sameIgnoringCase a.wire b.wire) = true
  rw [hashInput, hashInput, List.cons.injEq, hkind, Octets.sameIgnoringCase, Bool.and_eq_true,
    beq_iff_eq, beq_iff_eq]

/-! ### Order -/

theorem compare_of_relative (ha : a.absolute = false) (hb : b.absolute = true) :
    compare a b = .lt := by
  rw [compare, compareLex, compareKind, Order.onKey, ha, hb]
  rfl

theorem compare_of_absolute_eq (h : a.absolute = b.absolute) :
    compare a b = compareLabels a b := by
  have hkind : compareKind a b = .eq := by
    rw [compareKind, Order.onKey, Order.byNat_eq_eq, h]
  rw [compare, compareLex, hkind]
  rfl

/-- Labels are compared octet by octet, from the most significant label on. -/
theorem compareLabels_eq_lt_iff : compareLabels a b = .lt ↔ a.canonical < b.canonical := by
  have hoctets : (fun x y => compareOctets x y = .lt) = (· < ·) := by
    funext x y
    rw [compareOctets, Order.onKey, Order.byNat_eq_lt, UInt8.lt_iff_toNat_lt]
  have hlabels : (fun l l' : Label => List.compareLex compareOctets l l' = .lt) = (· < ·) := by
    funext l l'
    rw [compareLex_eq_lt_iff, hoctets, List.lex_lt]
  rw [compareLabels, Order.onKey, compareLex_eq_lt_iff, hlabels, List.lex_lt]

/-- No absolute name comes before a relative one. -/
theorem absolute_of_isLE (h : (compare a b).isLE = true) (ha : a.absolute = true) :
    b.absolute = true := by
  cases hb : b.absolute with
  | true => rfl
  | false =>
      have hswap : compare a b = (compare b a).swap := Std.OrientedCmp.eq_swap
      rw [hswap, compare_of_relative hb ha] at h
      cases h

theorem beq_of_isLE (h : (compare a b).isLE = true) (h' : (compare b a).isLE = true) :
    (a == b) = true :=
  compare_eq_iff.mp (Std.OrientedCmp.isLE_antisymm h h')

/-! ### Names at or below another -/

theorem isSubdomain_iff :
    a.isSubdomain o = true ↔ a.absolute = o.absolute ∧ o.canonical <+: a.canonical := by
  rw [isSubdomain, Bool.and_eq_true, beq_iff_eq, List.isPrefixOf_iff_prefix]

theorem isSubdomain_trans (h : a.isSubdomain b = true) (h' : b.isSubdomain c = true) :
    a.isSubdomain c = true := by
  rw [isSubdomain_iff] at h h' ⊢
  exact ⟨h.1.trans h'.1, h'.2.trans h.2⟩

theorem beq_of_isSubdomain (h : a.isSubdomain b = true) (h' : b.isSubdomain a = true) :
    (a == b) = true := by
  rw [isSubdomain_iff] at h h'
  have hcanonical : a.canonical = b.canonical := h'.2.eq_of_length_le h.2.length_le
  exact beq_iff.mpr ⟨h.1, List.reverse_inj.mp hcanonical⟩

/-- What comes between a name and one below it is below it as well. -/
theorem isSubdomain_of_between (hob : (compare o b).isLE = true)
    (hbc : (compare b c).isLE = true) (h : c.isSubdomain o = true) : b.isSubdomain o = true := by
  rw [isSubdomain_iff] at h ⊢
  have hkind : b.absolute = o.absolute := by
    cases ho : o.absolute with
    | true => exact absolute_of_isLE hob ho
    | false =>
        cases hb : b.absolute with
        | false => rfl
        | true => exact (absolute_of_isLE hbc hb).symm.trans (h.1.trans ho)
  rw [compare_of_absolute_eq hkind.symm] at hob
  rw [compare_of_absolute_eq (hkind.trans h.1.symm)] at hbc
  exact ⟨hkind, prefix_of_between hob hbc h.2⟩

/-- Equality, hash and canonical order of names agree: names are equal if they are of one kind and
their labels agree one by one up to the case of letters, and it is these that compare as equal and
have the same input to a hash. The order is total, puts relative names before absolute ones and
compares the labels of names of one kind from the most significant one on. To be at or below a name
is an order as well, and the names at or below one follow it without a gap. -/
theorem comparison_coherent (a b c : Name) :
    (((a == b) = true ↔ compare a b = .eq) ∧
      ((a == b) = true ↔ a.absolute = b.absolute ∧
        List.Forall₂ (fun l l' => Octets.sameIgnoringCase l l' = true) a.labels b.labels) ∧
      ((a == b) = true ↔ a.hashInput = b.hashInput)) ∧
    (compare b a = (compare a b).swap ∧
      ((compare a b).isLE = true → (compare b a).isLE = true → (a == b) = true) ∧
      ((compare a b).isLE = true → (compare b c).isLE = true → (compare a c).isLE = true) ∧
      (a.absolute = false → b.absolute = true → compare a b = .lt) ∧
      (a.absolute = b.absolute → (compare a b = .lt ↔ a.canonical < b.canonical))) ∧
    (a.isSubdomain a = true ∧
      (a.isSubdomain b = true → b.isSubdomain c = true → a.isSubdomain c = true) ∧
      (a.isSubdomain b = true → b.isSubdomain a = true → (a == b) = true) ∧
      ((compare a b).isLE = true → (compare b c).isLE = true → c.isSubdomain a = true →
        b.isSubdomain a = true)) := by
  refine ⟨⟨compare_eq_iff.symm, ?_, hashInput_eq_iff.symm⟩, ⟨?_, beq_of_isLE, ?_, ?_, ?_⟩,
    isSubdomain_self a, isSubdomain_trans, beq_of_isSubdomain, isSubdomain_of_between⟩
  · rw [beq_iff, foldedLabels_eq_iff]
  · exact Std.OrientedCmp.eq_swap
  · exact Std.TransCmp.isLE_trans
  · exact compare_of_relative
  · intro h
    rw [compare_of_absolute_eq h, compareLabels_eq_lt_iff]

namespace Between

/-- The name `a.e.` -/
def zone : Name := .ofOctets [0x61, 0x65] true (by decide)

/-- The name `Y.a.e.` -/
def first : Name := .ofOctets [0x59, 0x61, 0x65] true (by decide)

/-- The name `z.A.E.` -/
def last : Name := .ofOctets [0x7A, 0x41, 0x45] true (by decide)

/-- The relative name `x` -/
def host : Name := .ofOctets [0x78] false (by decide)

theorem comparison_coherent_of_between :
    (compare zone first).isLE = true ∧ (compare first last).isLE = true ∧
      last.isSubdomain zone = true ∧ first.isSubdomain zone = true ∧
      (compare zone last).isLE = true ∧
      (first.absolute = last.absolute ∧ compare first last = .lt ∧
        first.canonical < last.canonical) ∧
      host.absolute = false ∧ zone.absolute = true ∧ compare host zone = .lt := by
  have hlow : (compare zone first).isLE = true := by decide
  have hhigh : (compare first last).isLE = true := by decide
  have hbelow : last.isSubdomain zone = true := by decide
  have hlt : compare first last = .lt := by decide
  obtain ⟨-, ⟨-, -, htrans, -, -⟩, -, -, -, hbetween⟩ := comparison_coherent zone first last
  obtain ⟨-, ⟨-, -, -, -, hlex⟩, -⟩ := comparison_coherent first last zone
  obtain ⟨-, ⟨-, -, -, hkinds, -⟩, -⟩ := comparison_coherent host zone zone
  exact ⟨hlow, hhigh, hbelow, hbetween hlow hhigh hbelow, htrans hlow hhigh,
    ⟨rfl, hlt, (hlex rfl).mp hlt⟩, rfl, rfl, hkinds rfl rfl⟩

end Between

end Name

end DnsZone
