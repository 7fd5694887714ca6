import DnsZone.Origin
import DnsZone.Proofs.Name

/-!
# Relative names and what they stand for

A relative name stands for the absolute name that it gives with the origin appended, if there is
room for both. Taking the origin off a name at or below it and appending it again gives the name
itself, up to the case of letters, so a name in stored form stands for the name that it was made of.
The other way round every octet comes back, and both ways keep the order of names. Only a relative
name that is stored as it is need not stand for any: it is kept although it may have no room below
the origin. A zone that stores absolute names refuses such a name.
-/

namespace DnsZone

theorem wireLength_lower (labels : List Label) :
    wireLength (labels.map Octets.lower) = wireLength labels := by
  induction labels with
  | nil => rfl
  | cons l ls ih => rw [List.map_cons, wireLength_cons, wireLength_cons, ih, Label.length_lower]

namespace Name

variable {n m origin : Name}

/-- There is room for the labels of the name in front of those of `origin`. -/
def FitsBelow (n origin : Name) : Prop :=
  wireLength n.labels + wireLength origin.labels + 1 ≤ maxNameLength

theorem derelativize_of_absolute (hn : n.absolute = true) (origin : Name) :
    n.derelativize origin = .ok n := if_pos hn

/-- What a relative name stands for has its labels in front of those of the origin. -/
theorem labels_of_derelativize (hn : n.absolute = false) (h : n.derelativize origin = .ok m) :
    m.absolute = origin.absolute ∧ m.labels = n.labels ++ origin.labels := by
  rw [derelativize, hn, if_neg Bool.false_ne_true, build] at h
  split at h
  · cases h
    exact ⟨rfl, rfl⟩
  · cases h

/-- A relative name stands for a name if there is room for it. -/
theorem exists_derelativize_iff (hn : n.absolute = false) :
    (∃ a, n.derelativize origin = .ok a) ↔ n.FitsBelow origin := by
  rw [FitsBelow, ← wireLength_append, derelativize, hn, if_neg Bool.false_ne_true, build]
  split
  · rename_i hfits
    exact iff_of_true ⟨_, rfl⟩ hfits
  · rename_i hfits
    refine iff_of_false (fun h => ?_) hfits
    obtain ⟨a, ha⟩ := h
    cases ha

theorem derelativize_of_not_fits (hn : n.absolute = false) (h : ¬ n.FitsBelow origin) :
    n.derelativize origin = .error .longName := by
  rw [FitsBelow, ← wireLength_append] at h
  rw [derelativize, hn, if_neg Bool.false_ne_true, build, dif_neg h]

/-- Appending the origin appends its labels also in lower case. -/
theorem foldedLabels_of_derelativize (hn : n.absolute = false) (h : n.derelativize origin = .ok m) :
    m.foldedLabels = n.foldedLabels ++ origin.foldedLabels := by
  rw [foldedLabels, (labels_of_derelativize hn h).2, List.map_append]
  rfl

theorem labels_relativize (h : n.isSubdomain origin = true) :
    (n.relativize origin).labels = n.labels.take (n.labelCount - origin.labelCount) := by
  rw [relativize, if_pos h]

/-- The labels of a name at or below an origin are those in front and then those of the origin. -/
theorem foldedLabels_relativize (h : n.isSubdomain origin = true) :
    (n.relativize origin).foldedLabels ++ origin.foldedLabels = n.foldedLabels := by
  have hsuffix : origin.foldedLabels <:+ n.foldedLabels := by
    simp only [isSubdomain, Bool.and_eq_true] at h
    exact List.reverse_prefix.mp (List.isPrefixOf_iff_prefix.mp h.2)
  obtain ⟨front, hfront⟩ := hsuffix
  have hlength : front.length = n.labelCount - origin.labelCount := by
    have hcount := congrArg List.length hfront
    simp only [List.length_append, foldedLabels, List.length_map] at hcount
    rw [labelCount, labelCount]
    omega
  have htake : (n.relativize origin).foldedLabels = front := by
    rw [foldedLabels, labels_relativize h, List.map_take, ← foldedLabels, ← hfront, ← hlength,
      List.take_left]
  rw [htake, hfront]

/-- What is left of a name has room below the origin that was taken off. -/
theorem fitsBelow_relativize (h : n.isSubdomain origin = true) :
    (n.relativize origin).FitsBelow origin := by
  have hlength := congrArg wireLength (foldedLabels_relativize h)
  rw [wireLength_append, foldedLabels, foldedLabels, foldedLabels, wireLength_lower,
    wireLength_lower, wireLength_lower] at hlength
  rw [FitsBelow, hlength]
  exact n.fits

/-- A name with the origin taken off stands for the name itself. -/
theorem derelativize_relativize (h : n.isSubdomain origin = true) :
    ∃ a, (n.relativize origin).derelativize origin = .ok a ∧ (a == n) = true := by
  have hrelative := absolute_relativize h
  obtain ⟨a, ha⟩ := (exists_derelativize_iff hrelative).mpr (fitsBelow_relativize h)
  refine ⟨a, ha, beq_iff.mpr ⟨?_, ?_⟩⟩
  · rw [(labels_of_derelativize hrelative ha).1, absolute_of_isSubdomain h]
  · rw [foldedLabels_of_derelativize hrelative ha, foldedLabels_relativize h]

/-! ### Order -/

theorem compareLex_append_left {α : Type} {cmp : α → α → Ordering} [Std.ReflCmp cmp]
    (front l l' : List α) :
    List.compareLex cmp (front ++ l) (front ++ l') = List.compareLex cmp l l' := by
  induction front with
  | nil => rfl
  | cons a front ih =>
      have hself : cmp a a = .eq := Std.ReflCmp.compare_self
      rw [List.cons_append, List.cons_append, List.compareLex_cons_cons, hself]
      exact ih

theorem canonical_of_derelativize (hn : n.absolute = false) (h : n.derelativize origin = .ok m) :
    m.canonical = origin.canonical ++ n.canonical := by
  rw [canonical, (labels_of_derelativize hn h).2, List.map_append, List.reverse_append]
  rfl

/-- Relative names are ordered as the names that they stand for: the labels of the origin come
first in all of these. -/
theorem compare_of_derelativize {n' m' : Name} (hn : n.absolute = false) (hn' : n'.absolute = false)
    (h : n.derelativize origin = .ok m) (h' : n'.derelativize origin = .ok m') :
    compare n n' = compare m m' := by
  have hkind : compareKind n n' = compareKind m m' := by
    rw [compareKind, Order.onKey, Order.onKey, hn, hn', (labels_of_derelativize hn h).1,
      (labels_of_derelativize hn' h').1, Order.byNat_eq_eq.mpr rfl, Order.byNat_eq_eq.mpr rfl]
  have hlabels : compareLabels n n' = compareLabels m m' := by
    rw [compareLabels, Order.onKey, Order.onKey, canonical_of_derelativize hn h,
      canonical_of_derelativize hn' h', compareLex_append_left]
  rw [compare, compareLex, compareLex, hkind, hlabels]

/-! ### There and back -/

theorem length_wire (n : Name) : n.wire.length = wireLength n.labels :=
  Label.length_flatMap_wire n.labels

/-- A relative name stands for none just if it is too long together with the origin. -/
theorem derelativize_eq_error_iff (hn : n.absolute = false) {e : NameError} :
    n.derelativize origin = .error e ↔
      e = .longName ∧ maxNameLength < (n.wire ++ origin.wire).length + 1 := by
  have hfits : n.FitsBelow origin ↔ ¬ maxNameLength < (n.wire ++ origin.wire).length + 1 := by
    rw [FitsBelow, List.length_append, length_wire, length_wire, Nat.not_lt]
  by_cases h : n.FitsBelow origin
  · obtain ⟨a, ha⟩ := (exists_derelativize_iff hn).mpr h
    rw [ha]
    exact iff_of_false (fun he => by cases he) fun he => hfits.mp h he.2
  · rw [derelativize_of_not_fits hn h]
    constructor
    · rintro ⟨⟩
      exact ⟨rfl, Decidable.not_not.mp (mt hfits.mpr h)⟩
    · rintro ⟨rfl, -⟩
      rfl

/-- Taking the origin off again gives back the labels of the relative name, octet for octet. -/
theorem relativize_of_derelativize (hn : n.absolute = false) (h : n.derelativize origin = .ok m) :
    (m.relativize origin).labels = n.labels := by
  have hlabels := (labels_of_derelativize hn h).2
  have hlength : m.labelCount - origin.labelCount = n.labels.length := by
    rw [labelCount, labelCount, hlabels, List.length_append, Nat.add_sub_cancel]
  rw [labels_relativize (isSubdomain_of_derelativize hn h), hlength, hlabels, List.take_left]

end Name

namespace Origin

/-! ### Names in stored form -/

section

variable {n s origin : Name}

/-- An absolute name is stored if it is at or below the origin. -/
theorem stored_absolute (hn : n.absolute = true) (origin : Name) (relativize : Bool) :
    stored ⟨some origin, relativize⟩ n =
      if n.isSubdomain origin then .ok (if relativize then n.relativize origin else n)
      else .error (.outOfZone n) := by
  rw [stored, if_pos hn]
  by_cases hsub : n.isSubdomain origin = true
  · cases relativize <;> simp [hsub]
  · simp [hsub]

theorem stored_relative (hn : n.absolute = false) (origin : Name) (relativize : Bool) :
    stored ⟨some origin, relativize⟩ n =
      if relativize then .ok n else (n.derelativize origin).mapError .name := by
  rw [stored, if_neg (by simp [hn])]

/-- What is stored for an absolute name stands for it. -/
theorem exists_derelativize_of_absolute {relativize : Bool} (hn : n.absolute = true)
    (h : stored ⟨some origin, relativize⟩ n = .ok s) : ∃ a, s.derelativize origin = .ok a := by
  rw [stored_absolute hn] at h
  split at h
  · rename_i hsub
    cases h
    cases relativize with
    | true =>
        obtain ⟨a, ha, _⟩ := Name.derelativize_relativize hsub
        exact ⟨a, ha⟩
    | false => exact ⟨n, Name.derelativize_of_absolute hn origin⟩
  · cases h

/-- Where absolute names are stored, a relative name is stored as what it stands for. -/
theorem stored_absolute_form_iff (hn : n.absolute = false) :
    stored ⟨some origin, false⟩ n = .ok s ↔ n.derelativize origin = .ok s := by
  rw [stored_relative hn, if_neg Bool.false_ne_true]
  cases n.derelativize origin with
  | error e => exact iff_of_false (fun h => by cases h) (fun h => by cases h)
  | ok s' => exact ⟨fun h => congrArg _ (Except.ok.inj h), fun h => congrArg _ (Except.ok.inj h)⟩

end

/-- The stored form of an accepted name stands for an absolute name, except for a relative name that
is stored as it is and has no room below the origin. Where absolute names are stored, that is the
one kind of name that is refused and would be accepted otherwise. -/
theorem stored_stands_for_name (origin : Name) (horigin : origin.absolute = true) (n : Name) :
    (∀ relativize s, stored ⟨some origin, relativize⟩ n = .ok s →
        ((∃ a, s.derelativize origin = .ok a) ↔
          n.absolute = true ∨ relativize = false ∨ n.FitsBelow origin)) ∧
      ((∃ s, stored ⟨some origin, false⟩ n = .ok s) ↔
        (∃ s, stored ⟨some origin, true⟩ n = .ok s) ∧
          (n.absolute = true ∨ n.FitsBelow origin)) ∧
      (n.absolute = false → ¬ n.FitsBelow origin →
        stored ⟨some origin, true⟩ n = .ok n ∧
          stored ⟨some origin, false⟩ n = .error (.name .longName)) := by
  cases hn : n.absolute with
  | true =>
      refine ⟨fun relativize s h => ?_, ?_, fun h => by cases h⟩
      · exact iff_of_true (exists_derelativize_of_absolute hn h) (.inl rfl)
      · rw [stored_absolute hn, stored_absolute hn]
        cases n.isSubdomain origin <;> simp
  | false =>
      have hkept : stored ⟨some origin, true⟩ n = .ok n := stored_relative hn origin true
      refine ⟨fun relativize s h => ?_, ?_, fun _ hfits => ⟨hkept, ?_⟩⟩
      · cases relativize with
        | true =>
            cases hkept.symm.trans h
            rw [Name.exists_derelativize_iff hn]
            simp
        | false =>
            have hs := (stored_absolute_form_iff hn).mp h
            have habsolute : s.absolute = true :=
              (Name.labels_of_derelativize hn hs).1.trans horigin
            exact iff_of_true ⟨s, Name.derelativize_of_absolute habsolute origin⟩ (.inr (.inl rfl))
      · simp only [stored_absolute_form_iff hn, Name.exists_derelativize_iff hn, hkept]
        simp
      · rw [stored_relative hn, if_neg Bool.false_ne_true, Name.derelativize_of_not_fits hn hfits]
        rfl

namespace LongOrigin

/-- A label of the greatest length, 63 times the same octet. -/
def label (octet : Octet) : Label := .replicate Label.maxLength octet

/-- An absolute name of three labels of the greatest length. -/
def origin : Name where
  labels := [label 0x61, label 0x62, label 0x63]
  absolute := true
  labels_legal := by simp [label, Label.IsLegal, Label.maxLength]
  fits := by decide

/-- A relative name of one label of the greatest length. -/
def host : Name where
  labels := [label 0x64]
  absolute := false
  labels_legal := by simp [label, Label.IsLegal, Label.maxLength]
  fits := by decide

theorem stored_stands_for_name_at_limit :
    origin.absolute = true ∧ host.absolute = false ∧ ¬ host.FitsBelow origin ∧
      stored ⟨some origin, true⟩ origin = .ok (origin.relativize origin) ∧
      (∃ a, (origin.relativize origin).derelativize origin = .ok a) ∧
      stored ⟨some origin, true⟩ host = .ok host ∧
      stored ⟨some origin, false⟩ host = .error (.name .longName) := by
  have habsolute : origin.absolute = true := rfl
  have hrelative : host.absolute = false := rfl
  have hlong : ¬ host.FitsBelow origin := by unfold Name.FitsBelow; decide
  have hstored : stored ⟨some origin, true⟩ origin = .ok (origin.relativize origin) := by
    rw [stored_absolute rfl, Name.isSubdomain_self]
    rfl
  obtain ⟨hstands, _, _⟩ := stored_stands_for_name origin habsolute origin
  obtain ⟨_, _, hdiffers⟩ := stored_stands_for_name origin habsolute host
  exact ⟨habsolute, hrelative, hlong, hstored, (hstands true _ hstored).mpr (.inl rfl),
    hdiffers hrelative hlong⟩

/-- A zone that stores relative names keeps a name that stands for none. -/
theorem long_name_kept :
    origin.absolute = true ∧ stored ⟨some origin, true⟩ host = .ok host ∧
      host.derelativize origin = .error .longName ∧
      stored ⟨some origin, false⟩ host = .error (.name .longName) :=
  ⟨rfl, rfl, rfl, rfl⟩

end LongOrigin

end Origin

namespace Name

/-! ### There and back -/

/-- Taking an absolute origin off and appending it are inverse to each other, the one up to the case
of letters and the other octet for octet. Appending fails only for lack of room, and keeps the
order. -/
theorem relativize_inverse_derelativize (origin : Name) (horigin : origin.absolute = true) :
    (∀ n : Name, n.absolute = true → n.isSubdomain origin = true →
        (n.relativize origin).absolute = false ∧
          ∃ a, (n.relativize origin).derelativize origin = .ok a ∧ (a == n) = true) ∧
      (∀ r a : Name, r.absolute = false → r.derelativize origin = .ok a →
        a.absolute = true ∧ a.isSubdomain origin = true ∧
          (a.relativize origin).absolute = false ∧ (a.relativize origin).labels = r.labels) ∧
      (∀ (r : Name) (e : NameError), r.absolute = false → (r.derelativize origin = .error e ↔
        e = .longName ∧ maxNameLength < (r.wire ++ origin.wire).length + 1)) ∧
      ∀ r r' a a' : Name, r.absolute = false → r'.absolute = false →
        r.derelativize origin = .ok a → r'.derelativize origin = .ok a' →
          compare r r' = compare a a' := by
  refine ⟨fun n _ hbelow => ⟨absolute_relativize hbelow, derelativize_relativize hbelow⟩,
    fun r a hr ha => ?_, fun r e hr => derelativize_eq_error_iff hr,
    fun r r' a a' hr hr' ha ha' => compare_of_derelativize hr hr' ha ha'⟩
  have hbelow := isSubdomain_of_derelativize hr ha
  exact ⟨(labels_of_derelativize hr ha).1.trans horigin, hbelow, absolute_relativize hbelow,
    relativize_of_derelativize hr ha⟩

namespace LongOrigin

open Origin.LongOrigin (origin host label)

/-- A name of one octet below the origin, which is written in capitals. -/
def below : Name where
  labels := [[0x79], label 0x41, label 0x42, label 0x43]
  absolute := true
  labels_legal := by simp [label, Label.IsLegal, Label.maxLength]
  fits := by decide

/-- The relative name of that octet. -/
def short : Name := .ofOctets [0x79] false (by decide)

theorem relativize_inverse_derelativize_at_limit :
    origin.absolute = true ∧ below.absolute = true ∧ below.isSubdomain origin = true ∧
      (∃ a, (below.relativize origin).derelativize origin = .ok a ∧ (a == below) = true) ∧
      (∃ a, short.derelativize origin = .ok a ∧ a.isSubdomain origin = true ∧
        (a.relativize origin).labels = short.labels) ∧
      host.derelativize origin = .error .longName := by
  have habsolute : origin.absolute = true := rfl
  obtain ⟨htaken, hput, hlong, -⟩ := relativize_inverse_derelativize origin habsolute
  have hbelow : below.isSubdomain origin = true := by decide
  obtain ⟨a, ha⟩ : ∃ a, short.derelativize origin = .ok a := ⟨_, rfl⟩
  obtain ⟨-, hsub, -, hlabels⟩ := hput short a rfl ha
  have hlength : maxNameLength < (host.wire ++ origin.wire).length + 1 := by
    rw [List.length_append, length_wire, length_wire]
    decide
  exact ⟨habsolute, rfl, hbelow, (htaken below rfl hbelow).2, ⟨a, ha, hsub, hlabels⟩,
    (hlong host .longName rfl).mpr ⟨rfl, hlength⟩⟩

end LongOrigin

end Name

end DnsZone
