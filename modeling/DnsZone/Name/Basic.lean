import DnsZone.Octet
import DnsZone.Order

/-!
# Domain names

A domain name is a sequence of labels, the most significant one last, and is either absolute, that
is, ends in the root label, or relative to some origin. The root label itself is not among the
labels. Every label has 1 to 63 octets, and the wire form of the labels, each preceded by its
length, has at most 254 octets, which leaves room for the root label in the 255 octets of a name.
Both bounds are part of the type, so every name that exists is legal.

Names are equal if they agree up to the case of ASCII letters in their wire form. Length octets are
below 64 and never letters, so this compares label by label.
-/

namespace DnsZone

/-- Why a sequence of labels or a text is no name. -/
inductive NameError where
  | emptyLabel
  | longLabel
  /-- The wire form has more than 255 octets. -/
  | longName
  | badEscape
  deriving DecidableEq, Repr

def NameError.message : NameError → String
  | .emptyLabel => "empty label"
  | .longLabel => "label exceeds 63 octets"
  | .longName => "name exceeds 255 octets"
  | .badEscape => "illegal escape sequence"

/-- A label: the octets between two dots. -/
abbrev Label := List Octet

namespace Label

/-- The greatest number of octets in a label. -/
def maxLength : Nat := 63

/-- A label has at least one octet and at most 63. -/
def IsLegal (l : Label) : Prop := l ≠ [] ∧ l.length ≤ maxLength

def fault? (l : Label) : Option NameError :=
  if l.isEmpty then some .emptyLabel
  else if l.length > maxLength then some .longLabel
  else none

theorem fault?_eq_none_iff {l : Label} : fault? l = none ↔ IsLegal l := by
  unfold fault? IsLegal
  split
  · simp_all
  · split
    · simp_all
    · rename_i h h'
      simp only [true_iff]
      exact ⟨by simpa using h, Nat.not_lt.mp h'⟩

def wire (l : Label) : List Octet := UInt8.ofNat l.length :: l

end Label

/-- The number of octets of labels in wire form. -/
def wireLength : List Label → Nat
  | [] => 0
  | l :: ls => l.length + 1 + wireLength ls

@[simp] theorem wireLength_nil : wireLength [] = 0 := rfl

@[simp] theorem wireLength_cons (l : Label) (ls : List Label) :
    wireLength (l :: ls) = l.length + 1 + wireLength ls := rfl

@[simp] theorem wireLength_append (a b : List Label) :
    wireLength (a ++ b) = wireLength a + wireLength b := by
  induction a with
  | nil => simp
  | cons l ls ih =>
      rw [List.cons_append, wireLength_cons, wireLength_cons, ih]
      omega

theorem wireLength_take_le (n : Nat) (labels : List Label) :
    wireLength (labels.take n) ≤ wireLength labels := by
  conv => rhs; rw [← List.take_append_drop n labels, wireLength_append]
  exact Nat.le_add_right _ _

/-- The greatest length of an absolute name in wire form, the root label included. -/
def maxNameLength : Nat := 255

structure Name where
  /-- The labels without the root label, the most significant one last. -/
  labels : List Label
  /-- Whether the name ends in the root label. -/
  absolute : Bool
  labels_legal : ∀ l ∈ labels, l.IsLegal
  /-- The wire form fits together with the root label. -/
  fits : wireLength labels + 1 ≤ maxNameLength

namespace Name

/-- The root: the absolute name without labels. -/
def root : Name := ⟨[], true, by simp, by decide⟩

/-- The empty relative name, which stands for the origin itself. -/
def empty : Name := ⟨[], false, by simp, by decide⟩

instance : Inhabited Name := ⟨empty⟩

def isRoot (n : Name) : Bool := n.absolute && n.labels.isEmpty

def isEmpty (n : Name) : Bool := !n.absolute && n.labels.isEmpty

def labelCount (n : Name) : Nat := n.labels.length

def wire (n : Name) : List Octet := n.labels.flatMap Label.wire

/-- Makes a name of legal labels, refusing those whose wire form is too long. -/
def build (labels : List Label) (legal : ∀ l ∈ labels, l.IsLegal) (absolute : Bool) :
    Except NameError Name :=
  if h : wireLength labels + 1 ≤ maxNameLength then .ok ⟨labels, absolute, legal, h⟩
  else .error .longName

/-- Makes a name of any labels. The first illegal label is reported before the total length. -/
def ofLabels? (labels : List Label) (absolute : Bool) : Except NameError Name :=
  match h : labels.findSome? Label.fault? with
  | some e => .error e
  | none =>
      build labels (fun l hl => Label.fault?_eq_none_iff.mp (List.findSome?_eq_none_iff.mp h l hl))
        absolute

instance : BEq Name where
  beq a b := a.absolute == b.absolute && Octets.sameIgnoringCase a.wire b.wire

/-- What a hash of the name is computed from: whether it is absolute, then the wire form in lower
case. -/
def hashInput (n : Name) : List Octet := n.absolute.toNat.toUInt8 :: Octets.lower n.wire

instance : Hashable Name := ⟨fun n => hash n.hashInput⟩

end Name

end DnsZone
