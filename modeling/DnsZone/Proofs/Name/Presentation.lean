import DnsZone.Name.Text
import DnsZone.Proofs.Outcome

/-!
# The presentation format of names

An octet of a label is written as itself, behind a backslash, or as three decimal digits behind a
backslash; a label is written octet by octet, and a name label by label with dots between them and
perhaps one at the end. Texts are scanned from the front: what a text begins with is either a dot,
or one written octet, or a backslash that begins no escape. Reading follows the same cases, so the
labels that are read of a text are just those that it is made of, if all of them are legal.
-/

namespace DnsZone.Name

variable {text part rest : List Octet} {b : Octet} {label l : Label} {labels : List Label}
  {absolute : Bool}

/-! ### The grammar -/

/-- The ways to write an octet of a label. -/
inductive SpellsOctet : List Octet → Octet → Prop
  | plain {b : Octet} (hdot : b ≠ Octet.dot) (hbackslash : b ≠ Octet.backslash) : SpellsOctet [b] b
  | escaped {b : Octet} (hdigit : b.isDigit = false) : SpellsOctet [Octet.backslash, b] b
  | decimal {c d e : Octet} (hc : c.isDigit = true) (hd : d.isDigit = true) (he : e.isDigit = true)
      (hvalue : escapeValue c d e ≤ 255) :
      SpellsOctet [Octet.backslash, c, d, e] (UInt8.ofNat (escapeValue c d e))

inductive SpellsLabel : List Octet → Label → Prop
  | nil : SpellsLabel [] []
  | cons {part rest : List Octet} {b : Octet} {l : Label} (hpart : SpellsOctet part b)
      (hrest : SpellsLabel rest l) : SpellsLabel (part ++ rest) (b :: l)

/-- Labels with a dot between any two of them, and a dot behind them if the name is absolute. -/
inductive Spells : List Octet → List Label → Bool → Prop
  | last {part : List Octet} {l : Label} (hpart : SpellsLabel part l) : Spells part [l] false
  | lastDot {part : List Octet} {l : Label} (hpart : SpellsLabel part l) :
      Spells (part ++ [Octet.dot]) [l] true
  | cons {part rest : List Octet} {l : Label} {labels : List Label} {absolute : Bool}
      (hpart : SpellsLabel part l) (hrest : Spells rest labels absolute) :
      Spells (part ++ Octet.dot :: rest) (l :: labels) absolute

/-- No escape begins with a backslash in front of the text. -/
def IsMalformed (rest : List Octet) : Prop :=
  ∀ part b rest', SpellsOctet part b → Octet.backslash :: rest ≠ part ++ rest'

theorem SpellsOctet.ne_nil (h : SpellsOctet part b) : part ≠ [] := by
  cases h <;> exact List.cons_ne_nil _ _

theorem Spells.ne_nil (h : Spells text labels absolute) : labels ≠ [] := by
  cases h <;> exact List.cons_ne_nil _ _

/-- Nothing spells no more than a label without octets. -/
theorem Spells.eq_of_nil (h : Spells [] labels absolute) : labels = [[]] := by
  generalize htext : [] = text at h
  cases h with
  | last hpart =>
      cases hpart with
      | nil => rfl
      | cons hpart _ => exact absurd (List.append_eq_nil_iff.mp htext.symm).1 hpart.ne_nil
  | lastDot => exact absurd (List.append_eq_nil_iff.mp htext.symm).2 (List.cons_ne_nil _ _)
  | cons => exact absurd (List.append_eq_nil_iff.mp htext.symm).2 (List.cons_ne_nil _ _)

/-- One more octet in front of the first label. -/
theorem Spells.cons_octet (hpart : SpellsOctet part b) (h : Spells rest (l :: labels) absolute) :
    Spells (part ++ rest) ((b :: l) :: labels) absolute := by
  cases h with
  | last hlabel => exact .last (.cons hpart hlabel)
  | lastDot hlabel =>
      rw [← List.append_assoc]
      exact .lastDot (.cons hpart hlabel)
  | cons hlabel hrest =>
      rw [← List.append_assoc]
      exact .cons (.cons hpart hlabel) hrest

/-! ### Scanning -/

/-- What a text begins with. -/
theorem scan_cases (text : List Octet) :
    text = [] ∨ (∃ rest, text = Octet.dot :: rest) ∨
      (∃ part b rest, SpellsOctet part b ∧ text = part ++ rest) ∨
      ∃ rest, text = Octet.backslash :: rest ∧ IsMalformed rest := by
  cases text with
  | nil => exact .inl rfl
  | cons b rest =>
      by_cases hdot : b = Octet.dot
      · exact .inr (.inl ⟨rest, by rw [hdot]⟩)
      · by_cases hbackslash : b = Octet.backslash
        · by_cases hescape : ∃ part c rest', SpellsOctet part c ∧ b :: rest = part ++ rest'
          · exact .inr (.inr (.inl hescape))
          · refine .inr (.inr (.inr ⟨rest, by rw [hbackslash], fun part c rest' hpart heq => ?_⟩))
            exact hescape ⟨part, c, rest', hpart, by rw [hbackslash, heq]⟩
        · exact .inr (.inr (.inl ⟨[b], b, rest, .plain hdot hbackslash, rfl⟩))

/-- A text is scanned to its end or to the first malformed escape. -/
@[elab_as_elim]
theorem scan_induction {motive : List Octet → Prop} (nil : motive [])
    (dot : ∀ rest, motive rest → motive (Octet.dot :: rest))
    (octet : ∀ part b rest, SpellsOctet part b → motive rest → motive (part ++ rest))
    (malformed : ∀ rest, IsMalformed rest → motive (Octet.backslash :: rest))
    (text : List Octet) : motive text := by
  induction hlength : text.length using Nat.strongRecOn generalizing text with
  | ind n ih =>
      subst hlength
      rcases scan_cases text with rfl | ⟨rest, rfl⟩ | ⟨part, b, rest, hpart, rfl⟩ | ⟨rest, rfl, hrest⟩
      · exact nil
      · exact dot rest (ih _ (Nat.lt_succ_self _) rest rfl)
      · refine octet part b rest hpart (ih _ ?_ rest rfl)
        have hpos : 0 < part.length := List.length_pos_iff.mpr hpart.ne_nil
        rw [List.length_append]
        omega
      · exact malformed rest hrest

/-! ### Items -/

theorem items_dot_cons (rest : List Octet) :
    items (Octet.dot :: rest) = .separator :: items rest := by
  rw [items.eq_def]
  simp

/-- A written octet is one item, whatever follows. -/
theorem items_append_of_spellsOctet (h : SpellsOctet part b) (rest : List Octet) :
    items (part ++ rest) = .octet b :: items rest := by
  cases h with
  | plain hdot hbackslash =>
      rw [items.eq_def]
      simp [hdot, hbackslash]
  | escaped hdigit =>
      rw [items.eq_def]
      simp [hdigit, Octet.dot, Octet.backslash]
  | decimal hc hd he hvalue =>
      rw [items.eq_def]
      simp [hc, hd, he, hvalue, Octet.dot, Octet.backslash]

theorem items_append_of_spellsLabel (h : SpellsLabel part l) (rest : List Octet) :
    items (part ++ rest) = l.map .octet ++ items rest := by
  induction h with
  | nil => rfl
  | cons hpart _ ih => rw [List.append_assoc, items_append_of_spellsOctet hpart, ih]; rfl

theorem items_of_isMalformed (h : IsMalformed rest) :
    items (Octet.backslash :: rest) = [.malformed] := by
  rw [items.eq_def]
  simp only [show Octet.backslash ≠ Octet.dot by decide, if_false, if_true]
  split
  · rfl
  · next c rest' =>
      split
      · next hc => exact absurd rfl (h _ _ rest' (.escaped (by simpa using hc)))
      · next hc =>
          split
          · next d e rest'' =>
              split
              · next hdecimal =>
                  simp only [Bool.and_eq_true, decide_eq_true_eq] at hdecimal
                  exact absurd rfl (h _ _ rest'' (.decimal (by simpa using hc) hdecimal.1.1
                    hdecimal.1.2 hdecimal.2))
              · rfl
          · rfl

theorem items_eq_nil_iff : items text = [] ↔ text = [] := by
  constructor
  · intro h
    rcases scan_cases text with rfl | ⟨rest, rfl⟩ | ⟨part, b, rest, hpart, rfl⟩ | ⟨rest, rfl, hrest⟩
    · rfl
    · rw [items_dot_cons] at h
      cases h
    · rw [items_append_of_spellsOctet hpart] at h
      cases h
    · rw [items_of_isMalformed hrest] at h
      cases h
  · rintro rfl
    rfl

/-! ### Reading -/

theorem labelsOfItems_octets_append (label l : Label) (rest : List Item) :
    labelsOfItems label (l.map .octet ++ rest) = labelsOfItems (label ++ l) rest := by
  induction l generalizing label with
  | nil => rw [List.append_nil]; rfl
  | cons b l ih =>
      rw [List.map_cons, List.cons_append, labelsOfItems, ih, List.append_assoc]
      rfl

/-- The octets of a written label are added to the present one. -/
theorem labelsOfItems_append (h : SpellsLabel part l) (label : Label) (rest : List Octet) :
    labelsOfItems label (items (part ++ rest)) = labelsOfItems (label ++ l) (items rest) := by
  rw [items_append_of_spellsLabel h, labelsOfItems_octets_append]

/-- A dot ends a legal label, and what follows is read as further labels if there is anything. -/
theorem labelsOfItems_dot_cons (hlabel : label.IsLegal) (hrest : rest ≠ []) :
    labelsOfItems label (items (Octet.dot :: rest)) =
      (labelsOfItems [] (items rest)).map fun r => (label :: r.1, r.2) := by
  have hmore : (items rest).isEmpty = false := by
    rw [List.isEmpty_eq_false_iff]
    exact mt items_eq_nil_iff.mp hrest
  rw [items_dot_cons, labelsOfItems, Label.fault?_eq_none_iff.mpr hlabel]
  simp only [hmore, Bool.false_eq_true, if_false]

theorem labelsOfItems_dot (hlabel : label.IsLegal) :
    labelsOfItems label (items [Octet.dot]) = .ok ([label], true) := by
  rw [items_dot_cons, labelsOfItems, Label.fault?_eq_none_iff.mpr hlabel]
  rfl

theorem labelsOfItems_nil (hlabel : label.IsLegal) :
    labelsOfItems label (items []) = .ok ([label], false) := by
  rw [items, labelsOfItems, Label.fault?_eq_none_iff.mpr hlabel]

/-- Legal labels are read from every way to write them. -/
theorem labelsOfItems_of_spells (h : Spells text labels absolute)
    (hlegal : ∀ l ∈ labels, l.IsLegal) : labelsOfItems [] (items text) = .ok (labels, absolute) := by
  induction h with
  | @last part l hpart =>
      rw [List.forall_mem_singleton] at hlegal
      rw [← List.append_nil part, labelsOfItems_append hpart]
      exact labelsOfItems_nil hlegal
  | lastDot hpart =>
      rw [List.forall_mem_singleton] at hlegal
      rw [labelsOfItems_append hpart]
      exact labelsOfItems_dot hlegal
  | @cons part rest l labels absolute hpart hrest ih =>
      rw [List.forall_mem_cons] at hlegal
      have hread := ih hlegal.2
      have hne : rest ≠ [] := fun hnil => by
        rw [hnil] at hread
        cases hread
      rw [labelsOfItems_append hpart, List.nil_append, labelsOfItems_dot_cons hlegal.1 hne, hread]
      rfl

/-- Labels that are read are legal and written in the text, the first of them behind what was read
before. -/
theorem spells_of_labelsOfItems (h : labelsOfItems label (items text) = .ok (labels, absolute)) :
    (∃ l ls, labels = (label ++ l) :: ls ∧ Spells text (l :: ls) absolute) ∧
      ∀ l ∈ labels, l.IsLegal := by
  induction text using scan_induction generalizing label labels with
  | nil =>
      rw [items, labelsOfItems] at h
      cases hfault : label.fault? with
      | some e => rw [hfault] at h; cases h
      | none =>
          rw [hfault] at h
          cases h
          rw [List.forall_mem_singleton]
          exact ⟨⟨[], [], by rw [List.append_nil], .last .nil⟩, Label.fault?_eq_none_iff.mp hfault⟩
  | dot rest ih =>
      cases hfault : label.fault? with
      | some e => rw [items_dot_cons, labelsOfItems, hfault] at h; cases h
      | none =>
          have hlabel : label.IsLegal := Label.fault?_eq_none_iff.mp hfault
          by_cases hrest : rest = []
          · rw [hrest, labelsOfItems_dot hlabel] at h
            cases h
            rw [List.forall_mem_singleton, hrest]
            exact ⟨⟨[], [], by rw [List.append_nil], .lastDot .nil⟩, hlabel⟩
          · rw [labelsOfItems_dot_cons hlabel hrest] at h
            obtain ⟨r, hread, hr⟩ := map_eq_ok_iff.mp h
            cases hr
            obtain ⟨⟨l, ls, hlabels, hspells⟩, hlegal⟩ := ih hread
            rw [List.forall_mem_cons]
            refine ⟨⟨[], r.1, by rw [List.append_nil], ?_⟩, hlabel, hlegal⟩
            rw [hlabels]
            exact .cons .nil hspells
  | octet part b rest hpart ih =>
      rw [items_append_of_spellsOctet hpart, labelsOfItems] at h
      obtain ⟨⟨l, ls, hlabels, hspells⟩, hlegal⟩ := ih h
      exact ⟨⟨b :: l, ls, by rw [hlabels, List.append_assoc]; rfl, hspells.cons_octet hpart⟩, hlegal⟩
  | malformed rest hrest =>
      rw [items_of_isMalformed hrest] at h
      cases h

/-- What is read of a text are the legal labels that it is made of. -/
theorem labelsOfItems_eq_ok_iff :
    labelsOfItems [] (items text) = .ok (labels, absolute) ↔
      Spells text labels absolute ∧ ∀ l ∈ labels, l.IsLegal := by
  constructor
  · intro h
    obtain ⟨⟨l, ls, hlabels, hspells⟩, hlegal⟩ := spells_of_labelsOfItems h
    exact ⟨by rw [hlabels]; exact hspells, hlegal⟩
  · exact fun h => labelsOfItems_of_spells h.1 h.2

end DnsZone.Name
