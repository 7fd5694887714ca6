import DnsZone.Name.Relative

/-!
# Equality of names

Names are equal if their wire forms agree in lower case. The length octets tell the labels apart and
are no letters, so this is equality of the labels in lower case, and so is comparing equal in the
canonical order. Maps with names as keys therefore tell names apart exactly as equality does.
-/

namespace DnsZone

namespace Octet

theorem isUpper_ofNat_eq_false {n : Nat} (h : n ≤ Label.maxLength) :
    isUpper (UInt8.ofNat n) = false := by
  have hn : n ≤ 63 := h
  have hmod : n % 256 = n := Nat.mod_eq_of_lt (by omega)
  simp only [isUpper, Bool.and_eq_false_iff, decide_eq_false_iff_not, UInt8.le_iff_toNat_le]
  left
  simp [hmod]
  omega

end Octet

namespace Label

theorem length_lower (l : Label) : (Octets.lower l).length = l.length := by
  simp [Octets.lower]

/-- In lower case, a label in wire form is the wire form of the label in lower case. -/
theorem lower_wire {l : Label} (h : l.IsLegal) : Octets.lower (wire l) = wire (Octets.lower l) := by
  have hlen := Octet.isUpper_ofNat_eq_false h.2
  rw [wire, wire, length_lower]
  simp [Octets.lower, Octet.lower, hlen]

theorem lower_isLegal {l : Label} (h : l.IsLegal) : IsLegal (Octets.lower l) := by
  refine ⟨?_, ?_⟩
  · simpa [Octets.lower] using h.1
  · rw [length_lower]
    exact h.2

/-- Labels that are not too long can be told from what follows them in wire form. -/
theorem wire_append_inj {a b : Label} {s t : List Octet} (ha : a.length ≤ maxLength)
    (hb : b.length ≤ maxLength) (h : wire a ++ s = wire b ++ t) : a = b ∧ s = t := by
  have ha' : a.length ≤ 63 := ha
  have hb' : b.length ≤ 63 := hb
  simp only [wire, List.cons_append, List.cons.injEq] at h
  have hlen : a.length = b.length := by
    have := congrArg UInt8.toNat h.1
    simp only [UInt8.toNat_ofNat'] at this
    omega
  exact List.append_inj h.2 hlen

theorem length_flatMap_wire (labels : List Label) :
    (labels.flatMap wire).length = wireLength labels := by
  induction labels with
  | nil => rfl
  | cons l ls ih =>
      rw [List.flatMap_cons, List.length_append, ih, wireLength_cons]
      rfl

/-- The wire form of a list of legal labels determines the labels. -/
theorem flatMap_wire_inj {as bs : List Label} (ha : ∀ l ∈ as, l.IsLegal) (hb : ∀ l ∈ bs, l.IsLegal)
    (h : as.flatMap wire = bs.flatMap wire) : as = bs := by
  induction as generalizing bs with
  | nil =>
      cases bs with
      | nil => rfl
      | cons b bs => simp [wire] at h
  | cons a as ih =>
      cases bs with
      | nil => simp [wire] at h
      | cons b bs =>
          rw [List.forall_mem_cons] at ha hb
          rw [List.flatMap_cons, List.flatMap_cons] at h
          obtain ⟨hab, htail⟩ := wire_append_inj ha.1.2 hb.1.2 h
          rw [hab, ih ha.2 hb.2 htail]

end Label

namespace Name

/-- The labels in lower case. -/
def foldedLabels (n : Name) : List Label := n.labels.map Octets.lower

theorem foldedLabels_legal (n : Name) : ∀ l ∈ n.foldedLabels, l.IsLegal := by
  intro l hl
  obtain ⟨k, hk, rfl⟩ := List.mem_map.mp hl
  exact Label.lower_isLegal (n.labels_legal k hk)

theorem lower_wire (n : Name) : Octets.lower n.wire = n.foldedLabels.flatMap Label.wire := by
  rw [wire, foldedLabels, Octets.lower, List.map_flatMap, List.flatMap_map, List.flatMap_def,
    List.flatMap_def]
  congr 1
  exact List.map_congr_left fun l hl => Label.lower_wire (n.labels_legal l hl)

/-- Names are equal exactly if both are absolute or both relative and their labels agree in lower
case. -/
theorem beq_iff {a b : Name} :
    (a == b) = true ↔ a.absolute = b.absolute ∧ a.foldedLabels = b.foldedLabels := by
  have hwire : Octets.sameIgnoringCase a.wire b.wire = true ↔ a.foldedLabels = b.foldedLabels := by
    rw [Octets.sameIgnoringCase, beq_iff_eq, lower_wire, lower_wire]
    constructor
    · exact Label.flatMap_wire_inj a.foldedLabels_legal b.foldedLabels_legal
    · intro h
      rw [h]
  change (a.absolute == b.absolute && Octets.sameIgnoringCase a.wire b.wire) = true ↔ _
  rw [Bool.and_eq_true, beq_iff_eq, hwire]

instance : Std.LawfulEqCmp compareOctets where
  compare_self {_} := Order.byNat_eq_eq.mpr rfl
  eq_of_compare h := UInt8.toNat_inj.mp (Order.byNat_eq_eq.mp h)

/-- Names compare equal exactly if they are equal. -/
theorem compare_eq_iff {a b : Name} : compare a b = .eq ↔ (a == b) = true := by
  have hkind : compareKind a b = .eq ↔ a.absolute = b.absolute := by
    rw [compareKind, Order.onKey, Order.byNat_eq_eq]
    cases a.absolute <;> cases b.absolute <;> simp
  have hlabels : compareLabels a b = .eq ↔ a.foldedLabels = b.foldedLabels := by
    rw [compareLabels, Order.onKey, Std.LawfulEqCmp.compare_eq_iff_eq]
    exact List.reverse_inj
  rw [compare, compareLex_eq_eq, hkind, hlabels, beq_iff]

instance : Std.LawfulBEqCmp compare where
  compare_eq_iff_beq := compare_eq_iff

instance : EquivBEq Name where
  rfl := compare_eq_iff.mp Std.ReflCmp.compare_self
  symm h := compare_eq_iff.mp (Std.OrientedCmp.eq_symm (compare_eq_iff.mpr h))
  trans h h' :=
    compare_eq_iff.mp (Std.TransCmp.eq_trans (compare_eq_iff.mpr h) (compare_eq_iff.mpr h'))

/-! ### Names made of labels -/

theorem ofLabels?_of_fault {labels : List Label} {e : NameError}
    (h : labels.findSome? Label.fault? = some e) (absolute : Bool) :
    ofLabels? labels absolute = .error e := by
  rw [ofLabels?]
  split
  next e' he =>
    cases h.symm.trans he
    rfl
  next hnone => cases h.symm.trans hnone

/-- Legal labels make a name if there is room for them. -/
theorem ofLabels?_of_legal {labels : List Label} (h : ∀ l ∈ labels, l.IsLegal) (absolute : Bool) :
    ofLabels? labels absolute = build labels h absolute := by
  rw [ofLabels?]
  split
  next e he =>
    have hnone : labels.findSome? Label.fault? = none :=
      List.findSome?_eq_none_iff.mpr fun l hl => Label.fault?_eq_none_iff.mpr (h l hl)
    cases hnone.symm.trans he
  next => rfl

/-- Every name is made of its own labels. -/
theorem ofLabels?_labels (n : Name) : ofLabels? n.labels n.absolute = .ok n := by
  rw [ofLabels?_of_legal n.labels_legal, build, dif_pos n.fits]

/-! ### Names at or below another -/

theorem canonical_congr {a b : Name} (h : (a == b) = true) : a.canonical = b.canonical :=
  congrArg List.reverse (beq_iff.mp h).2

theorem isSubdomain_congr {a b a' b' : Name} (h : (a == b) = true) (h' : (a' == b') = true) :
    a.isSubdomain a' = b.isSubdomain b' := by
  rw [isSubdomain, isSubdomain, (beq_iff.mp h).1, (beq_iff.mp h').1, canonical_congr h,
    canonical_congr h']

/-- What is taken off a name depends on the letter case of neither the name nor the origin. -/
theorem relativize_congr (n : Name) {a b : Name} (h : (a == b) = true) :
    n.relativize a = n.relativize b := by
  have hcount : a.labelCount = b.labelCount := by
    rw [← length_canonical, ← length_canonical, canonical_congr h]
  simp only [relativize, isSubdomain_congr BEq.rfl h, hcount]

theorem absolute_of_isSubdomain {n origin : Name} (h : n.isSubdomain origin = true) :
    n.absolute = origin.absolute := by
  simp only [isSubdomain, Bool.and_eq_true, beq_iff_eq] at h
  exact h.1

@[simp] theorem isSubdomain_self (n : Name) : n.isSubdomain n = true := by
  simp [isSubdomain]

theorem absolute_relativize {n origin : Name} (h : n.isSubdomain origin = true) :
    (n.relativize origin).absolute = false := by
  rw [relativize, if_pos h]

/-- A relative name with an origin appended is at or below the origin. -/
theorem isSubdomain_of_derelativize {n m origin : Name} (hn : n.absolute = false)
    (h : n.derelativize origin = .ok m) : m.isSubdomain origin = true := by
  rw [derelativize, hn, if_neg Bool.false_ne_true, build] at h
  split at h
  · cases h
    simp [isSubdomain, canonical]
  · cases h

/-- The name whose labels are single octets, the most significant one last. -/
def ofOctets (octets : List Octet) (absolute : Bool) (h : octets.length ≤ 127) : Name where
  labels := octets.map fun o => [o]
  absolute := absolute
  labels_legal l hl := by
    obtain ⟨o, -, rfl⟩ := List.mem_map.mp hl
    exact ⟨List.cons_ne_nil o [], Nat.le_add_left 1 62⟩
  fits := by
    have hlength : wireLength (octets.map fun o => [o]) = 2 * octets.length := by
      clear h
      induction octets with
      | nil => rfl
      | cons o rest ih =>
          simp only [List.map_cons, wireLength_cons, ih, List.length_cons, List.length_nil]
          omega
    have hbound : 2 * octets.length + 1 ≤ 255 := by omega
    rwa [hlength]

end Name

end DnsZone
