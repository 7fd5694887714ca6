import Mathlib.Data.Nat.Find
import DnsZone.Proofs.Name.Text

/-!
# Faults of texts that are no names

What can be wrong with a text is wrong at a position: a dot ends a label without octets, a label with
too many octets ends, or a backslash begins no escape. In front of the position the text is made of
labels as that of a name is. Reading reports the leftmost of these faults. A text without any is made
of legal labels, so that only their number can be too large, which is what is reported then.
-/

namespace DnsZone.Name

variable {text front part rest : List Octet} {b : Octet} {label l : Label}
  {labels ended more : List Label} {absolute : Bool} {e : NameError} {s : String}

/-! ### The last label -/

theorem spells_singleton_iff : Spells text [l] false ↔ SpellsLabel text l := by
  constructor
  · intro h
    cases h with
    | last hpart => exact hpart
    | cons _ hrest => exact absurd rfl hrest.ne_nil
  · exact .last

/-- A label is told from those that follow it by the first dot between labels. -/
theorem spells_cons_iff (hne : labels ≠ []) :
    Spells text (l :: labels) absolute ↔
      ∃ part rest, SpellsLabel part l ∧ Spells rest labels absolute ∧
        text = part ++ Octet.dot :: rest := by
  constructor
  · intro h
    cases h with
    | last => exact absurd rfl hne
    | lastDot => exact absurd rfl hne
    | cons hpart hrest => exact ⟨_, _, hpart, hrest, rfl⟩
  · rintro ⟨part, rest, hpart, hrest, rfl⟩
    exact .cons hpart hrest

theorem SpellsLabel.snoc (h : SpellsLabel text l) (hpart : SpellsOctet part b) :
    SpellsLabel (text ++ part) (l ++ [b]) := by
  induction h with
  | nil =>
      rw [List.nil_append, ← List.append_nil part]
      exact .cons hpart .nil
  | cons hfirst _ ih =>
      rw [List.append_assoc]
      exact .cons hfirst ih

/-- One more octet in the present label. -/
theorem Spells.snoc_octet (h : Spells front (ended ++ [label]) false)
    (hpart : SpellsOctet part b) : Spells (front ++ part) (ended ++ [label ++ [b]]) false := by
  induction ended generalizing front with
  | nil => exact .last ((spells_singleton_iff.mp h).snoc hpart)
  | cons l ended ih =>
      obtain ⟨first, rest, hfirst, hrest, rfl⟩ := (spells_cons_iff (by simp)).mp h
      rw [List.append_assoc, List.cons_append]
      exact .cons hfirst (ih hrest)

/-- One more dot ends the present label. -/
theorem Spells.snoc_dot (h : Spells front labels false) :
    Spells (front ++ [Octet.dot]) (labels ++ [[]]) false := by
  generalize hfalse : false = absolute at h
  induction h with
  | last hpart => exact .cons hpart (.last .nil)
  | lastDot => cases hfalse
  | cons hpart _ ih =>
      rw [List.append_assoc, List.cons_append]
      exact .cons hpart (ih hfalse)

/-- The text up to the dot that ends a label. -/
theorem Spells.exists_front (h : Spells text (ended ++ l :: more) false) (hmore : more ≠ []) :
    ∃ front rest, text = front ++ Octet.dot :: rest ∧ Spells front (ended ++ [l]) false := by
  induction ended generalizing text with
  | nil =>
      obtain ⟨part, rest, hpart, -, rfl⟩ := (spells_cons_iff hmore).mp h
      exact ⟨part, rest, rfl, .last hpart⟩
  | cons first ended ih =>
      obtain ⟨part, rest, hpart, hrest, rfl⟩ := (spells_cons_iff (by simp)).mp h
      obtain ⟨front, rest', rfl, hfront⟩ := ih hrest
      exact ⟨part ++ Octet.dot :: front, rest', by simp, .cons hpart hfront⟩

/-! ### Faults -/

/-- What is wrong where `label` is the present label and `rest` is still to be read. -/
inductive Fault : Label → List Octet → NameError → Prop
  | emptyLabel {rest : List Octet} : Fault [] (Octet.dot :: rest) .emptyLabel
  | longLabel {label : Label} {rest : List Octet}
      (hend : rest = [] ∨ ∃ rest', rest = Octet.dot :: rest') (hlong : 63 < label.length) :
      Fault label rest .longLabel
  | badEscape {label : Label} {rest : List Octet} (hrest : IsMalformed rest) :
      Fault label (Octet.backslash :: rest) .badEscape

/-- The text has the fault behind its first `position` octets, which are read as labels. -/
def HasFault (text : List Octet) (position : Nat) (e : NameError) : Prop :=
  ∃ front rest ended label, text = front ++ rest ∧ front.length = position ∧
    Spells front (ended ++ [label]) false ∧ Fault label rest e

/-- The text has the fault and has none to the left of it. -/
def HasLeftmostFault (text : List Octet) (e : NameError) : Prop :=
  ∃ position, HasFault text position e ∧
    ∀ position' e', HasFault text position' e' → position ≤ position'

theorem labelsOfItems_of_fault (h : Fault label rest e) :
    labelsOfItems label (items rest) = .error e := by
  cases h with
  | emptyLabel => rw [items_dot_cons]; rfl
  | longLabel hend hlong =>
      have hfault : label.fault? = some .longLabel := by
        have hne : label.isEmpty = false := by
          rw [List.isEmpty_eq_false_iff]
          rintro rfl
          exact absurd hlong (by decide)
        rw [Label.fault?, hne, if_neg Bool.false_ne_true]
        exact if_pos hlong
      rcases hend with rfl | ⟨rest, rfl⟩
      · rw [items, labelsOfItems, hfault]
      · rw [items_dot_cons, labelsOfItems, hfault]
  | badEscape hrest => rw [items_of_isMalformed hrest, labelsOfItems]

/-- A label that is not legal is a fault where it ends, behind anything at all. -/
theorem fault_of_fault? (h : label.fault? = some e)
    (hend : rest = [] ∨ ∃ rest', rest = Octet.dot :: rest') (hmore : label ≠ [] ∨ rest ≠ []) :
    Fault label rest e := by
  rw [Label.fault?] at h
  split at h
  next hempty =>
    cases h
    cases List.isEmpty_iff.mp hempty
    obtain ⟨rest', rfl⟩ := hend.resolve_left (hmore.resolve_left fun hne => hne rfl)
    exact .emptyLabel
  next =>
    split at h
    next hlong =>
      cases h
      exact .longLabel hend hlong
    next => cases h

theorem Fault.ne_nil (h : Fault label rest e) : label ≠ [] ∨ rest ≠ [] := by
  cases h with
  | emptyLabel => exact .inr (List.cons_ne_nil _ _)
  | longLabel _ hlong =>
      left
      rintro rfl
      exact absurd hlong (by decide)
  | badEscape => exact .inr (List.cons_ne_nil _ _)

/-- Behind legal labels, what goes wrong is what goes wrong with the text. -/
theorem labelsOfItems_append_eq_error (hfront : Spells front (ended ++ [label]) false)
    (hended : ∀ l ∈ ended, l.IsLegal) (hmore : label ≠ [] ∨ rest ≠ [])
    (h : labelsOfItems label (items rest) = .error e) :
    labelsOfItems [] (items (front ++ rest)) = .error e := by
  induction ended generalizing front with
  | nil => rw [labelsOfItems_append (spells_singleton_iff.mp hfront), List.nil_append, h]
  | cons l ended ih =>
      rw [List.forall_mem_cons] at hended
      obtain ⟨part, front, hpart, hrest, rfl⟩ := (spells_cons_iff (by simp)).mp hfront
      have hne : front ++ rest ≠ [] := by
        intro hnil
        obtain ⟨hfrontnil, hrestnil⟩ := List.append_eq_nil_iff.mp hnil
        subst hfrontnil
        have hlabels : ended ++ [label] = [[]] := hrest.eq_of_nil
        have hlabel : label ∈ [([] : Label)] :=
          hlabels ▸ List.mem_append_right ended (List.mem_singleton_self label)
        exact hmore.elim (fun hl => hl (List.mem_singleton.mp hlabel)) fun hr => hr hrestnil
      rw [List.append_assoc, List.cons_append, labelsOfItems_append hpart, List.nil_append,
        labelsOfItems_dot_cons hended.1 hne, ih hrest hended.2]
      rfl

/-- In front of the leftmost fault all labels are legal. -/
theorem legal_of_leftmost (hfront : Spells front (ended ++ [label]) false)
    (hleftmost : ∀ position e, HasFault (front ++ rest) position e → front.length ≤ position) :
    ∀ l ∈ ended, l.IsLegal := by
  intro l hl
  rw [← Label.fault?_eq_none_iff, Option.eq_none_iff_forall_ne_some]
  intro e he
  obtain ⟨before, after, rfl⟩ := List.append_of_mem hl
  rw [List.append_assoc, List.cons_append] at hfront
  obtain ⟨front', rest', rfl, hfront'⟩ := hfront.exists_front (by simp)
  have hearlier : HasFault (front' ++ Octet.dot :: rest' ++ rest) front'.length e :=
    ⟨front', Octet.dot :: rest' ++ rest, before, l, List.append_assoc _ _ _, rfl, hfront',
      fault_of_fault? he (.inr ⟨rest' ++ rest, rfl⟩) (.inr (List.cons_ne_nil _ _))⟩
  have hle := hleftmost _ _ hearlier
  rw [List.length_append, List.length_cons] at hle
  omega

theorem labelsOfItems_of_leftmost (h : HasLeftmostFault text e) :
    labelsOfItems [] (items text) = .error e := by
  obtain ⟨_, ⟨front, rest, ended, label, rfl, rfl, hfront, hfault⟩, hleftmost⟩ := h
  exact labelsOfItems_append_eq_error hfront (legal_of_leftmost hfront hleftmost) hfault.ne_nil
    (labelsOfItems_of_fault hfault)

/-- Where reading stops early there is a fault. -/
theorem exists_hasFault (hfront : Spells front (ended ++ [label]) false)
    (hmore : label ≠ [] ∨ rest ≠ []) (h : labelsOfItems label (items rest) = .error e) :
    ∃ position e', HasFault (front ++ rest) position e' := by
  induction rest using scan_induction generalizing front ended label e with
  | nil =>
      cases hlabel : label.fault? with
      | some e' =>
          exact ⟨_, e', front, [], ended, label, rfl, rfl, hfront,
            fault_of_fault? hlabel (.inl rfl) hmore⟩
      | none =>
          rw [labelsOfItems_nil (Label.fault?_eq_none_iff.mp hlabel)] at h
          cases h
  | dot rest ih =>
      cases hlabel : label.fault? with
      | some e' =>
          exact ⟨_, e', front, Octet.dot :: rest, ended, label, rfl, rfl, hfront,
            fault_of_fault? hlabel (.inr ⟨rest, rfl⟩) (.inr (List.cons_ne_nil _ _))⟩
      | none =>
          have hlegal : label.IsLegal := Label.fault?_eq_none_iff.mp hlabel
          by_cases hrest : rest = []
          · rw [hrest, labelsOfItems_dot hlegal] at h
            cases h
          · rw [labelsOfItems_dot_cons hlegal hrest, map_eq_error_iff] at h
            obtain ⟨position, e', hfault⟩ := ih hfront.snoc_dot (.inr hrest) h
            exact ⟨position, e', by simpa using hfault⟩
  | octet part b rest hpart ih =>
      rw [items_append_of_spellsOctet hpart, labelsOfItems] at h
      obtain ⟨position, e', hfault⟩ := ih (hfront.snoc_octet hpart) (.inl (by simp)) h
      exact ⟨position, e', by rwa [← List.append_assoc]⟩
  | malformed rest hrest =>
      exact ⟨_, .badEscape, front, Octet.backslash :: rest, ended, label, rfl, rfl, hfront,
        .badEscape hrest⟩

theorem exists_hasLeftmostFault (h : ∃ position e, HasFault text position e) :
    ∃ e, HasLeftmostFault text e := by
  classical
  obtain ⟨e, hfault⟩ := Nat.find_spec h
  exact ⟨e, Nat.find h, hfault, fun position' e' h' => Nat.find_min' h ⟨e', h'⟩⟩

/-- What is reported of a text is its leftmost fault. -/
theorem labelsOfItems_eq_error_iff (htext : text ≠ []) :
    labelsOfItems [] (items text) = .error e ↔ HasLeftmostFault text e := by
  refine ⟨fun h => ?_, labelsOfItems_of_leftmost⟩
  have hstart : Spells [] ([] ++ [[]]) false := .last .nil
  obtain ⟨e', hleftmost⟩ := exists_hasLeftmostFault (exists_hasFault hstart (.inr htext) h)
  cases h.symm.trans (labelsOfItems_of_leftmost hleftmost)
  exact hleftmost

end DnsZone.Name
