import Mathlib.Algebra.Ring.Nat
import DnsZone.Proofs.Name.Fault

/-!
# Which texts are names

A text is the presentation format of a name if it is one of the special spellings or is made of
labels that are legal and not too many. The labels that are read are those that it is made of, and
the name is absolute if the text ends in a dot that no backslash escapes. Of every other text the
leftmost fault is reported, or that the name is too long if there is none.
-/

namespace DnsZone.Name

variable {text front part rest : List Octet} {b : Octet} {l : Label} {labels : List Label}
  {absolute : Bool} {e : NameError} {n : Name} {s : String}

/-! ### The dot at the end -/

def trailingBackslashes (text : List Octet) : Nat :=
  (text.reverse.takeWhile (· == Octet.backslash)).length

/-- The text ends in a dot that is not escaped: the backslashes in front of it, if there are any,
escape each other. -/
def EndsInDot (text : List Octet) : Prop :=
  ∃ front, text = front ++ [Octet.dot] ∧ trailingBackslashes front % 2 = 0

theorem trailingBackslashes_append_singleton (text : List Octet) (b : Octet) :
    trailingBackslashes (text ++ [b]) =
      if b = Octet.backslash then trailingBackslashes text + 1 else 0 := by
  rw [trailingBackslashes, List.reverse_append, List.reverse_singleton, List.singleton_append,
    List.takeWhile_cons]
  by_cases h : b = Octet.backslash
  · simp [h, trailingBackslashes]
  · simp [h]

theorem trailingBackslashes_append_even (hpart : trailingBackslashes part % 2 = 0)
    (hrest : trailingBackslashes rest % 2 = 0) : trailingBackslashes (part ++ rest) % 2 = 0 := by
  rw [trailingBackslashes, List.reverse_append, List.takeWhile_append]
  split
  next hall =>
    rw [trailingBackslashes, hall] at hrest
    rw [trailingBackslashes] at hpart
    rw [List.length_append]
    omega
  next => exact hrest

theorem SpellsOctet.trailingBackslashes_even (h : SpellsOctet part b) :
    trailingBackslashes part % 2 = 0 := by
  cases h with
  | plain _ hbackslash =>
      rw [← List.nil_append [b], trailingBackslashes_append_singleton, if_neg hbackslash]
  | escaped =>
      rw [← List.singleton_append, trailingBackslashes_append_singleton]
      split <;> rfl
  | @decimal c d e _ _ he =>
      have hdigit : e ≠ Octet.backslash := by
        rintro rfl
        cases he
      have hend := trailingBackslashes_append_singleton [Octet.backslash, c, d] e
      rw [if_neg hdigit] at hend
      exact congrArg (· % 2) hend

theorem SpellsLabel.trailingBackslashes_even (h : SpellsLabel part l) :
    trailingBackslashes part % 2 = 0 := by
  induction h with
  | nil => rfl
  | cons hpart _ ih => exact trailingBackslashes_append_even hpart.trailingBackslashes_even ih

/-- Backslashes at the end of what spells labels come in pairs. -/
theorem Spells.trailingBackslashes_even (h : Spells text labels absolute) :
    trailingBackslashes text % 2 = 0 := by
  have hdot : trailingBackslashes [Octet.dot] % 2 = 0 := by decide
  induction h with
  | last hpart => exact hpart.trailingBackslashes_even
  | lastDot hpart => exact trailingBackslashes_append_even hpart.trailingBackslashes_even hdot
  | cons hpart _ ih =>
      exact trailingBackslashes_append_even hpart.trailingBackslashes_even
        (trailingBackslashes_append_even hdot ih)

theorem Spells.exists_of_absolute (h : Spells text labels true) :
    ∃ front, text = front ++ [Octet.dot] ∧ Spells front labels false := by
  generalize htrue : true = absolute at h
  induction h with
  | last => cases htrue
  | lastDot hpart => exact ⟨_, rfl, .last hpart⟩
  | cons hpart _ ih =>
      obtain ⟨front, rfl, hfront⟩ := ih htrue
      exact ⟨_, by rw [← List.cons_append, ← List.append_assoc], .cons hpart hfront⟩

theorem SpellsLabel.exists_last_octet (h : SpellsLabel text l) (hne : l ≠ []) :
    ∃ front part b, text = front ++ part ∧ trailingBackslashes front % 2 = 0 ∧
      SpellsOctet part b := by
  induction h with
  | nil => exact absurd rfl hne
  | @cons part rest b l hpart hrest ih =>
      by_cases hl : l = []
      · subst hl
        cases hrest
        exact ⟨[], part, b, List.append_nil part, rfl, hpart⟩
      · obtain ⟨front, last, c, rfl, heven, hlast⟩ := ih hl
        exact ⟨part ++ front, last, c, (List.append_assoc _ _ _).symm,
          trailingBackslashes_append_even hpart.trailingBackslashes_even heven, hlast⟩

/-- What stands in front of the last octet of a relative name. -/
theorem Spells.exists_last_octet (h : Spells text labels false) (hne : ∀ l ∈ labels, l ≠ []) :
    ∃ front part b, text = front ++ part ∧ trailingBackslashes front % 2 = 0 ∧
      SpellsOctet part b := by
  have hdot : trailingBackslashes [Octet.dot] % 2 = 0 := by decide
  generalize hfalse : false = absolute at h
  induction h with
  | last hpart => exact hpart.exists_last_octet (hne _ (List.mem_singleton_self _))
  | lastDot => cases hfalse
  | @cons part rest l labels absolute hpart _ ih =>
      obtain ⟨front, last, b, rfl, heven, hlast⟩ :=
        ih (fun l hl => hne l (List.mem_cons_of_mem _ hl)) hfalse
      exact ⟨part ++ Octet.dot :: front, last, b, by simp,
        trailingBackslashes_append_even hpart.trailingBackslashes_even
          (trailingBackslashes_append_even hdot heven), hlast⟩

theorem Spells.endsInDot (h : Spells text labels true) : EndsInDot text := by
  obtain ⟨front, rfl, hfront⟩ := h.exists_of_absolute
  exact ⟨front, rfl, hfront.trailingBackslashes_even⟩

/-- A dot at the end of the last label is an escaped one. -/
theorem Spells.not_endsInDot (h : Spells text labels false) (hne : ∀ l ∈ labels, l ≠ []) :
    ¬ EndsInDot text := by
  rintro ⟨front', htext, heven'⟩
  obtain ⟨front, part, b, rfl, heven, hpart⟩ := h.exists_last_octet hne
  cases hpart with
  | plain hdot _ => exact hdot (List.singleton_inj.mp (List.append_inj' htext rfl).2)
  | escaped _ =>
      rw [← List.singleton_append, ← List.append_assoc] at htext
      obtain ⟨hfront, -⟩ := List.append_inj' htext rfl
      rw [← hfront, trailingBackslashes_append_singleton, if_pos rfl] at heven'
      omega
  | @decimal c d e _ _ he =>
      change front ++ ([Octet.backslash, c, d] ++ [e]) = _ at htext
      rw [← List.append_assoc] at htext
      cases List.singleton_inj.mp (List.append_inj' htext rfl).2
      cases he

/-! ### Names that are read -/

theorem wireLength_eq_sum (labels : List Label) :
    wireLength labels = (labels.map fun l => l.length + 1).sum := by
  induction labels with
  | nil => rfl
  | cons l labels ih => rw [wireLength_cons, ih, List.map_cons, List.sum_cons]

theorem isLegal_iff : l.IsLegal ↔ 1 ≤ l.length ∧ l.length ≤ 63 := by
  rw [Label.IsLegal, Label.maxLength, ← List.length_pos_iff, Nat.succ_le_iff]

/-- A name is known by its labels and by whether it is absolute. -/
theorem eq_iff {n m : Name} : n = m ↔ n.labels = m.labels ∧ n.absolute = m.absolute := by
  cases n
  cases m
  rw [mk.injEq]

/-- Labels make a name only with just these labels. -/
theorem ofLabels?_eq_ok_iff :
    ofLabels? labels absolute = .ok n ↔ n.labels = labels ∧ n.absolute = absolute := by
  constructor
  · intro h
    rw [ofLabels?] at h
    split at h
    · cases h
    · rw [build] at h
      split at h
      · cases h
        exact ⟨rfl, rfl⟩
      · cases h
  · rintro ⟨rfl, rfl⟩
    exact ofLabels?_labels n

/-- Legal labels make no name only if they are too long together. -/
theorem ofLabels?_eq_error_iff (hlegal : ∀ l ∈ labels, l.IsLegal) :
    ofLabels? labels absolute = .error e ↔ e = .longName ∧ 254 < wireLength labels := by
  rw [ofLabels?_of_legal hlegal, build]
  split
  next hfits =>
    refine iff_of_false (fun h => by cases h) fun h => ?_
    exact absurd h.2 (Nat.not_lt.mpr (Nat.le_of_succ_le_succ hfits))
  next hfits =>
    have hlong : 254 < wireLength labels := Nat.lt_of_not_le fun h => hfits (Nat.succ_le_succ h)
    rw [Except.error.injEq, and_iff_left hlong, eq_comm]

/-! ### The special spellings -/

/-- The texts that are not taken apart into labels. -/
def IsSpecial (s : String) : Prop := s = "" ∨ s = "@" ∨ s = "."

theorem ofString?_of_not_special (h : ¬ IsSpecial s) :
    ofString? s = (labelsOfItems [] (items (Octets.ofString s))).bind fun r =>
      ofLabels? r.1 r.2 := by
  have hne : ∀ t, t = "" ∨ t = "@" ∨ t = "." → Octets.ofString s ≠ Octets.ofString t := by
    rintro t ht heq
    exact h (Octets.ofString_inj.mp heq ▸ ht)
  have hempty : Octets.ofString s ≠ [] := hne "" (.inl rfl)
  have hat : Octets.ofString s ≠ [0x40] := hne "@" (.inr (.inl rfl))
  have hdot : Octets.ofString s ≠ [Octet.dot] := hne "." (.inr (.inr rfl))
  rw [ofString?, parse, if_neg (not_or.mpr ⟨hempty, hat⟩), if_neg hdot]
  cases labelsOfItems [] (items (Octets.ofString s)) with
  | error e => rfl
  | ok r => rfl

/-- The names of the special spellings. -/
theorem ofString?_special (h : IsSpecial s) :
    ∃ n, ofString? s = .ok n ∧ n.labels = [] ∧ (n.absolute = true ↔ s = ".") := by
  rcases h with rfl | rfl | rfl
  · exact ⟨empty, rfl, rfl, by decide⟩
  · exact ⟨empty, rfl, rfl, by decide⟩
  · exact ⟨root, rfl, rfl, by decide⟩

theorem endsInDot_special (h : IsSpecial s) : EndsInDot (Octets.ofString s) ↔ s = "." := by
  have hlast : ∀ front, [] ++ [(0x40 : Octet)] ≠ front ++ [Octet.dot] := fun front h =>
    absurd (List.append_inj' h rfl).2 (by decide)
  rcases h with rfl | rfl | rfl
  · exact iff_of_false (fun ⟨front, h, _⟩ => List.append_ne_nil_of_right_ne_nil front
      (List.cons_ne_nil _ _) h.symm) (by decide)
  · exact iff_of_false (fun ⟨front, h, _⟩ => hlast front h) (by decide)
  · exact iff_of_true ⟨[], rfl, rfl⟩ rfl

/-! ### All texts -/

/-- A text that is not special is read as a name of the labels that it is made of. -/
theorem ofString?_eq_ok_iff_spells (h : ¬ IsSpecial s) :
    ofString? s = .ok n ↔ Spells (Octets.ofString s) n.labels n.absolute := by
  have hread : labelsOfItems [] (items (Octets.ofString s)) = .ok (n.labels, n.absolute) ↔
      Spells (Octets.ofString s) n.labels n.absolute := by
    rw [labelsOfItems_eq_ok_iff, and_iff_left n.labels_legal]
  rw [ofString?_of_not_special h, ← hread]
  cases labelsOfItems [] (items (Octets.ofString s)) with
  | error e => exact iff_of_false (fun h => by cases h) fun h => by cases h
  | ok r =>
      rw [Except.bind, ofLabels?_eq_ok_iff, Except.ok.injEq]
      exact ⟨fun h => Prod.ext h.1.symm h.2.symm, fun h => h ▸ ⟨rfl, rfl⟩⟩

theorem ofString?_eq_ok_iff :
    ofString? s = .ok n ↔
      IsSpecial s ∧ n.labels = [] ∧ (n.absolute = true ↔ s = ".") ∨
        ¬ IsSpecial s ∧ Spells (Octets.ofString s) n.labels n.absolute := by
  by_cases h : IsSpecial s
  · obtain ⟨special, hspecial, hlabels, habsolute⟩ := ofString?_special h
    rw [hspecial, Except.ok.injEq, or_iff_left fun hn => hn.1 h, and_iff_right h, ← hlabels,
      ← habsolute, ← Bool.eq_iff_iff, eq_comm]
    exact eq_iff
  · rw [ofString?_eq_ok_iff_spells h, or_iff_right fun hs => h hs.1, and_iff_right h]

/-- What keeps a text that is not special from being a name. -/
theorem ofString?_eq_error_iff :
    ofString? s = .error e ↔
      ¬ IsSpecial s ∧ (HasLeftmostFault (Octets.ofString s) e ∨
        e = .longName ∧ ∃ labels absolute, Spells (Octets.ofString s) labels absolute ∧
          (∀ l ∈ labels, l.IsLegal) ∧ 254 < wireLength labels) := by
  by_cases h : IsSpecial s
  · obtain ⟨n, hn, -⟩ := ofString?_special h
    rw [hn]
    exact iff_of_false (fun he => by cases he) fun he => he.1 h
  · have hne : Octets.ofString s ≠ [] := fun hnil => h (.inl (Octets.ofString_inj.mp hnil))
    rw [ofString?_of_not_special h, and_iff_right h, ← labelsOfItems_eq_error_iff hne]
    constructor
    · intro he
      cases hread : labelsOfItems [] (items (Octets.ofString s)) with
      | error e' =>
          rw [hread] at he
          cases he
          exact .inl rfl
      | ok r =>
          obtain ⟨hspells, hlegal⟩ := labelsOfItems_eq_ok_iff.mp hread
          rw [hread] at he
          obtain ⟨rfl, hlong⟩ := (ofLabels?_eq_error_iff hlegal).mp he
          exact .inr ⟨rfl, r.1, r.2, hspells, hlegal, hlong⟩
    · rintro (he | ⟨rfl, labels, absolute, hspells, hlegal, hlong⟩)
      · rw [he]
        rfl
      · rw [labelsOfItems_of_spells hspells hlegal]
        exact (ofLabels?_eq_error_iff hlegal).mpr ⟨rfl, hlong⟩

/-- The names that are read are those of special spellings and those of legal labels that are not
too many. -/
theorem exists_ofString?_iff :
    (∃ n, ofString? s = .ok n) ↔
      IsSpecial s ∨ ∃ labels absolute, Spells (Octets.ofString s) labels absolute ∧
        (∀ l ∈ labels, l.IsLegal) ∧ wireLength labels ≤ 254 := by
  by_cases h : IsSpecial s
  · obtain ⟨n, hn, -⟩ := ofString?_special h
    exact iff_of_true ⟨n, hn⟩ (.inl h)
  · simp only [ofString?_eq_ok_iff_spells h, or_iff_right h]
    constructor
    · rintro ⟨n, hspells⟩
      exact ⟨n.labels, n.absolute, hspells, n.labels_legal, Nat.le_of_succ_le_succ n.fits⟩
    · rintro ⟨labels, absolute, hspells, hlegal, hfits⟩
      exact ⟨⟨labels, absolute, hlegal, Nat.succ_le_succ hfits⟩, hspells⟩

theorem absolute_iff_endsInDot (h : ofString? s = .ok n) :
    n.absolute = true ↔ EndsInDot (Octets.ofString s) := by
  rcases ofString?_eq_ok_iff.mp h with ⟨hspecial, -, habsolute⟩ | ⟨-, hspells⟩
  · rw [habsolute, endsInDot_special hspecial]
  · cases habsolute : n.absolute with
    | true => exact iff_of_true rfl (habsolute ▸ hspells).endsInDot
    | false =>
        rw [habsolute] at hspells
        exact iff_of_false Bool.false_ne_true
          (hspells.not_endsInDot fun l hl => (n.labels_legal l hl).1)

/-- What is read as a name is exactly the presentation format of names. A text is a name if it is
special or is made of labels of 1 to 63 octets that have room in a name; the name has these labels,
and is absolute if the text ends in a dot that is not escaped. Of any other text the leftmost fault
is reported, and that it is too long only if that is all that is wrong. -/
theorem reads_presentation_format (s : String) :
    (∀ n, ofString? s = .ok n ↔
        IsSpecial s ∧ n.labels = [] ∧ (n.absolute = true ↔ s = ".") ∨
          ¬ IsSpecial s ∧ Spells (Octets.ofString s) n.labels n.absolute) ∧
      ((∃ n, ofString? s = .ok n) ↔
        IsSpecial s ∨ ∃ labels absolute, Spells (Octets.ofString s) labels absolute ∧
          (∀ l ∈ labels, 1 ≤ l.length ∧ l.length ≤ 63) ∧
          (labels.map fun l => l.length + 1).sum ≤ 254) ∧
      (∀ n, ofString? s = .ok n → (n.absolute = true ↔ EndsInDot (Octets.ofString s))) ∧
      ∀ e, ofString? s = .error e ↔
        ¬ IsSpecial s ∧ (HasLeftmostFault (Octets.ofString s) e ∨
          e = .longName ∧ ∃ labels absolute, Spells (Octets.ofString s) labels absolute ∧
            (∀ l ∈ labels, 1 ≤ l.length ∧ l.length ≤ 63) ∧
            254 < (labels.map fun l => l.length + 1).sum) := by
  simp only [← isLegal_iff, ← wireLength_eq_sum]
  exact ⟨fun n => ofString?_eq_ok_iff, exists_ofString?_iff, fun n => absolute_iff_endsInDot,
    fun e => ofString?_eq_error_iff⟩

/-- A dot at the end that stands behind an escaped dot and an escaped backslash: the text
`a\.b\\.`, which has one label. -/
theorem reads_presentation_format_of_escapes :
    ∃ n, ofString? "a\\.b\\\\." = .ok n ∧ n.labels = [[0x61, 0x2E, 0x62, 0x5C]] ∧
      n.absolute = true ∧ EndsInDot (Octets.ofString "a\\.b\\\\.") := by
  have hread : (ofString? "a\\.b\\\\.").map (fun n => (n.labels, n.absolute)) =
      .ok ([[0x61, 0x2E, 0x62, 0x5C]], true) := by decide +kernel
  obtain ⟨n, hn, hpair⟩ := map_eq_ok_iff.mp hread
  obtain ⟨hlabels, habsolute⟩ := Prod.mk.inj hpair
  obtain ⟨-, -, hdot, -⟩ := reads_presentation_format "a\\.b\\\\."
  exact ⟨n, hn, hlabels, habsolute, (hdot n hn).mp habsolute⟩

end DnsZone.Name
