import DnsZone.Name.Basic

/-!
# Canonical order of names

Names are compared from the most significant label on, ignoring the case of letters; a name that
runs out of labels first comes first, and every relative name comes before every absolute one. In
this order the names at or below a given name follow it without a gap.
-/

namespace DnsZone.Name

/-- The labels in lower case, the most significant one first. -/
def canonical (n : Name) : List Label := (n.labels.map Octets.lower).reverse

def compareOctets : Octet → Octet → Ordering := Order.onKey UInt8.toNat Order.byNat

/-- Relative names before absolute ones. -/
def compareKind : Name → Name → Ordering := Order.onKey (fun n => n.absolute.toNat) Order.byNat

/-- The canonical order of names of one kind. -/
def compareLabels : Name → Name → Ordering :=
  Order.onKey canonical (List.compareLex (List.compareLex compareOctets))

def compare : Name → Name → Ordering := compareLex compareKind compareLabels

instance : Std.TransCmp compareOctets :=
  inferInstanceAs (Std.TransCmp (Order.onKey UInt8.toNat Order.byNat))

instance : Std.TransCmp compareKind :=
  inferInstanceAs (Std.TransCmp (Order.onKey (fun n : Name => n.absolute.toNat) Order.byNat))

instance : Std.TransCmp compareLabels :=
  inferInstanceAs
    (Std.TransCmp (Order.onKey canonical (List.compareLex (List.compareLex compareOctets))))

instance : Std.TransCmp compare :=
  inferInstanceAs (Std.TransCmp (compareLex compareKind compareLabels))

/-- Whether `n` is at or below `origin`: both are absolute or both relative, and the labels of `n`
end in those of `origin`, ignoring the case of letters. -/
def isSubdomain (n origin : Name) : Bool :=
  n.absolute == origin.absolute && origin.canonical.isPrefixOf n.canonical

@[simp] theorem length_canonical (n : Name) : n.canonical.length = n.labelCount := by
  simp [canonical, labelCount]

/-- A name at or below another has at least as many labels. -/
theorem labelCount_le_of_isSubdomain {n origin : Name} (h : n.isSubdomain origin = true) :
    origin.labelCount ≤ n.labelCount := by
  simp only [isSubdomain, Bool.and_eq_true] at h
  have := (List.isPrefixOf_iff_prefix.mp h.2).length_le
  simpa using this

end DnsZone.Name
