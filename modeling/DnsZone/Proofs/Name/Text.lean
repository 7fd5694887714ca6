import DnsZone.Interchange.Record
import DnsZone.Proofs.Name
import DnsZone.Proofs.Name.Presentation
import DnsZone.Proofs.Octet

/-!
# Reading back the text of a name

What is written of a name consists of visible ASCII characters, and reading takes it apart into
exactly the labels that were written: every octet of a label is written so that it is read as that
octet and nothing else, whatever follows it. The name itself is read back unless its text is one of
the special spellings, which are tried before anything is taken apart. The root and the empty name
are meant by theirs. The relative name with `@` as its only label is not: `@` is written as itself
there, so its text is the spelling of the empty name, and that is the name it reads as. It is the
only name that is not read back.
-/

namespace DnsZone

namespace Name

/-! ### What is written -/

/-- The three digits of an octet have its value. -/
theorem escapeValue_digits (b : Octet) :
    escapeValue (Octet.ofDigit (b.toNat / 100)) (Octet.ofDigit (b.toNat / 10 % 10))
      (Octet.ofDigit (b.toNat % 10)) = b.toNat := by
  have hb : b.toNat < 256 := b.toNat_lt
  rw [escapeValue, Octet.digitValue_ofDigit (by omega), Octet.digitValue_ofDigit (by omega),
    Octet.digitValue_ofDigit (by omega)]
  omega

theorem isGraphic_of_mem_renderOctet {b c : Octet} (h : c ∈ renderOctet b) :
    c.isGraphic = true := by
  have hdigit : ∀ {d}, d < 10 → (Octet.ofDigit d).isGraphic = true := fun hd =>
    Octet.isGraphic_of_isDigit (Octet.isDigit_ofDigit hd)
  have hb : b.toNat < 256 := b.toNat_lt
  rw [renderOctet] at h
  split at h
  next hspecial =>
    simp only [Bool.or_eq_true, decide_eq_true_eq] at hspecial
    simp only [List.mem_cons, List.not_mem_nil, or_false] at h
    rcases h with rfl | rfl
    · decide
    · rcases hspecial with rfl | rfl <;> decide
  next =>
    split at h
    next hgraphic =>
      rw [List.mem_singleton.mp h]
      exact hgraphic
    next =>
      simp only [List.mem_cons, List.not_mem_nil, or_false] at h
      rcases h with rfl | rfl | rfl | rfl
      · decide
      · exact hdigit (by omega)
      · exact hdigit (by omega)
      · exact hdigit (by omega)

theorem isGraphic_of_mem_intercalate {labels : List Label} {c : Octet}
    (h : c ∈ [Octet.dot].intercalate (labels.map renderLabel)) : c.isGraphic = true := by
  have hlabel : ∀ {l : Label}, c ∈ renderLabel l → c.isGraphic = true := fun hc => by
    obtain ⟨b, -, hc⟩ := List.mem_flatMap.mp hc
    exact isGraphic_of_mem_renderOctet hc
  induction labels with
  | nil => cases h
  | cons l labels ih =>
      cases labels with
      | nil =>
          rw [List.map_singleton, List.intercalate_singleton] at h
          exact hlabel h
      | cons l' labels =>
          rw [List.map_cons, List.map_cons, List.intercalate_cons_cons, List.mem_append,
            List.mem_append, List.mem_singleton] at h
          rcases h with (h | rfl) | h
          · exact hlabel h
          · decide
          · exact ih h

/-- The text of a name consists of visible ASCII characters. -/
theorem isGraphic_of_mem_render {n : Name} {c : Octet} (h : c ∈ n.render) : c.isGraphic = true := by
  rw [render] at h
  split at h
  · split at h <;> (rw [List.mem_singleton.mp h]; decide)
  · rcases List.mem_append.mp h with h | h
    · exact isGraphic_of_mem_intercalate h
    · split at h
      · rw [List.mem_singleton.mp h]
        decide
      · cases h

/-! ### What is read -/

/-- An octet is written in one of the ways to write it. -/
theorem spellsOctet_renderOctet (b : Octet) : SpellsOctet (renderOctet b) b := by
  have hb : b.toNat < 256 := b.toNat_lt
  rw [renderOctet]
  split
  next hspecial =>
    -- an escaped dot or backslash is no digit, so the escape stands for itself
    refine .escaped ?_
    simp only [Bool.or_eq_true, decide_eq_true_eq] at hspecial
    rcases hspecial with rfl | rfl <;> decide
  next hplain =>
    simp only [Bool.or_eq_true, decide_eq_true_eq, not_or] at hplain
    split
    · exact .plain hplain.1 hplain.2
    · have hdecimal := SpellsOctet.decimal
        (Octet.isDigit_ofDigit (show b.toNat / 100 < 10 by omega))
        (Octet.isDigit_ofDigit (show b.toNat / 10 % 10 < 10 by omega))
        (Octet.isDigit_ofDigit (show b.toNat % 10 < 10 by omega))
        (by rw [escapeValue_digits]; exact Nat.le_of_lt_succ hb)
      rw [escapeValue_digits, UInt8.ofNat_toNat] at hdecimal
      exact hdecimal

theorem spellsLabel_renderLabel (l : Label) : SpellsLabel (renderLabel l) l := by
  induction l with
  | nil => exact .nil
  | cons b l ih => exact .cons (spellsOctet_renderOctet b) ih

theorem spells_intercalate {labels : List Label} (hne : labels ≠ []) (absolute : Bool) :
    Spells ([Octet.dot].intercalate (labels.map renderLabel) ++
      if absolute then [Octet.dot] else []) labels absolute := by
  induction labels with
  | nil => exact absurd rfl hne
  | cons l labels ih =>
      cases labels with
      | nil =>
          rw [List.map_singleton, List.intercalate_singleton]
          cases absolute with
          | false =>
              rw [if_neg Bool.false_ne_true, List.append_nil]
              exact .last (spellsLabel_renderLabel l)
          | true => exact .lastDot (spellsLabel_renderLabel l)
      | cons l' labels =>
          rw [List.map_cons, List.map_cons, List.intercalate_cons_cons, List.append_assoc,
            List.append_assoc, List.singleton_append]
          exact .cons (spellsLabel_renderLabel l) (ih (List.cons_ne_nil l' labels))

/-- The text of a name with labels is one of the ways to write them. -/
theorem spells_render {n : Name} (h : n.labels ≠ []) : Spells n.render n.labels n.absolute := by
  rw [render, if_neg (by simpa using h)]
  exact spells_intercalate h n.absolute

theorem labelsOfItems_items_render {n : Name} (h : n.labels ≠ []) :
    labelsOfItems [] (items n.render) = .ok (n.labels, n.absolute) :=
  labelsOfItems_of_spells (spells_render h) n.labels_legal

/-! ### The special spellings -/

/-- The relative name whose only label is `@`. -/
def IsLoneAt (n : Name) : Prop := n.labels = [[0x40]] ∧ n.absolute = false

instance (n : Name) : Decidable n.IsLoneAt :=
  inferInstanceAs (Decidable (n.labels = [[0x40]] ∧ n.absolute = false))

/-- The name that the text of a name is read as: the empty one where `@` is the only label. -/
def reread (n : Name) : Name := if n.IsLoneAt then empty else n

theorem parse_render_of_labels {n : Name} (h : n.labels ≠ []) (hat : ¬ n.IsLoneAt) :
    parse n.render = .ok n := by
  have hread := labelsOfItems_items_render h
  have hempty : n.render ≠ [] := fun hr => by
    rw [hr] at hread
    cases hread
  have hdot : n.render ≠ [Octet.dot] := fun hr => by
    rw [hr] at hread
    cases hread
  have hspelled : n.render ≠ [0x40] := fun hr => by
    have hat' : labelsOfItems [] (items [0x40]) = .ok ([[0x40]], false) := rfl
    rw [hr, hat', Except.ok.injEq, Prod.mk.injEq] at hread
    exact hat ⟨hread.1.symm, hread.2.symm⟩
  rw [parse, if_neg (not_or.mpr ⟨hempty, hspelled⟩), if_neg hdot, hread]
  exact ofLabels?_labels n

theorem parse_render_of_no_labels {n : Name} (h : n.labels = []) : parse n.render = .ok n := by
  obtain ⟨labels, absolute, hlegal, hfits⟩ := n
  cases h
  cases absolute <;> rfl

theorem parse_render (n : Name) : parse n.render = .ok n.reread := by
  by_cases hat : n.IsLoneAt
  · rw [reread, if_pos hat, render, hat.1, hat.2]
    rfl
  · rw [reread, if_neg hat]
    by_cases h : n.labels = []
    · exact parse_render_of_no_labels h
    · exact parse_render_of_labels h hat

theorem reread_eq_iff (n : Name) : n.reread = n ↔ ¬ n.IsLoneAt := by
  constructor
  · intro h hat
    rw [reread, if_pos hat] at h
    have hlabels := congrArg labels h
    rw [hat.1] at hlabels
    cases hlabels
  · intro hat
    rw [reread, if_neg hat]

theorem ofString?_text (n : Name) : ofString? n.text = .ok n.reread := by
  rw [ofString?, text, Octets.ofString_toText fun _ h => isGraphic_of_mem_render h, parse_render]

theorem ofDatum_toDatum (n : Name) : ofDatum n.toDatum = .ok n.reread :=
  congrArg (Except.mapError some) (ofString?_text n)

/-- The text of a name and its structured form can always be read. They read as the name itself,
with the same labels octet for octet, unless it is the relative name with `@` as its only label. -/
theorem text_reads_back (n : Name) :
    ofString? n.text = .ok n.reread ∧ ofDatum n.toDatum = .ok n.reread ∧
      (n.reread = n ↔ ¬ n.IsLoneAt) :=
  ⟨ofString?_text n, ofDatum_toDatum n, reread_eq_iff n⟩

/-- Labels as well as an escape make the name with `@` as its only label, and its text reads as
another name. -/
theorem lone_at_reads_as_empty :
    ∃ n : Name, ofLabels? [[0x40]] false = .ok n ∧ ofString? "\\@" = .ok n ∧ n.text = "@" ∧
      ofString? n.text = .ok empty ∧ n ≠ empty := by
  have hlegal : ∀ l ∈ [[(0x40 : Octet)]], Label.IsLegal l := by
    simp [Label.IsLegal, Label.maxLength]
  refine ⟨⟨[[0x40]], false, hlegal, by decide⟩, ?_, ?_, ?_, ?_, ?_⟩
  · rfl
  · rfl
  · rfl
  · exact (ofString?_text _).trans (congrArg Except.ok (if_pos ⟨rfl, rfl⟩))
  · exact fun h => nomatch congrArg labels h

end Name

end DnsZone
