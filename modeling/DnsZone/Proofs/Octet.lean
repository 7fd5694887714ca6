import DnsZone.Octet

/-!
# Octets of texts

The octets of a text are those of its characters one after the other, and no two texts have the same
octets. An octet below 128 is always a whole character, so octets of ASCII in front of a text are a
text themselves, and a text can be cut behind them.
-/

namespace DnsZone

namespace Octet

theorem toNat_ofDigit {d : Nat} (h : d < 10) : (ofDigit d).toNat = 0x30 + d := by
  rw [ofDigit, UInt8.toNat_ofNat']
  exact Nat.mod_eq_of_lt (by omega)

theorem digitValue_ofDigit {d : Nat} (h : d < 10) : (ofDigit d).digitValue = d := by
  rw [digitValue, toNat_ofDigit h]
  omega

theorem isDigit_ofDigit {d : Nat} (h : d < 10) : (ofDigit d).isDigit = true := by
  simp only [isDigit, Bool.and_eq_true, decide_eq_true_eq, UInt8.le_iff_toNat_le, toNat_ofDigit h]
  exact ⟨Nat.le_add_right _ _, show 0x30 + d ≤ 0x39 by omega⟩

theorem isGraphic_of_isDigit {b : Octet} (h : b.isDigit = true) : b.isGraphic = true := by
  simp only [isDigit, isGraphic, Bool.and_eq_true, decide_eq_true_eq, UInt8.le_iff_toNat_le] at h ⊢
  exact ⟨Nat.le_trans (by decide) h.1, Nat.le_trans h.2 (by decide)⟩

theorem toNat_le_of_isGraphic {b : Octet} (h : b.isGraphic = true) : b.toNat ≤ 127 := by
  simp only [isGraphic, Bool.and_eq_true, decide_eq_true_eq, UInt8.le_iff_toNat_le] at h
  exact Nat.le_trans h.2 (by decide)

/-- An octet is an ASCII character exactly if it is one in lower case. -/
theorem toNat_lower_le_iff {b : Octet} : b.lower.toNat ≤ 127 ↔ b.toNat ≤ 127 := by
  rw [lower]
  split
  next hupper =>
    simp only [isUpper, Bool.and_eq_true, decide_eq_true_eq, UInt8.le_iff_toNat_le] at hupper
    have hb : b.toNat ≤ 90 := hupper.2
    have hadd : (b + 0x20).toNat = b.toNat + 32 := by
      rw [UInt8.toNat_add]
      exact Nat.mod_eq_of_lt (by change b.toNat + 32 < 256; omega)
    omega
  next => exact Iff.rfl

end Octet

namespace Octets

/-! ### Octets up to the case of letters -/

theorem sameIgnoringCase_iff {a b : List Octet} :
    sameIgnoringCase a b = true ↔ lower a = lower b := beq_iff_eq

theorem length_eq_of_sameIgnoringCase {a b : List Octet} (h : sameIgnoringCase a b = true) :
    a.length = b.length := by
  simpa [lower] using congrArg List.length (sameIgnoringCase_iff.mp h)

theorem ascii_of_sameIgnoringCase {a b : List Octet} (h : sameIgnoringCase a b = true)
    (hb : ∀ x ∈ b, x.toNat ≤ 127) : ∀ x ∈ a, x.toNat ≤ 127 := by
  intro x hx
  have hlower : x.lower ∈ lower b := by
    rw [← sameIgnoringCase_iff.mp h]
    exact List.mem_map_of_mem hx
  obtain ⟨y, hy, hxy⟩ := List.mem_map.mp hlower
  rw [← Octet.toNat_lower_le_iff, ← hxy, Octet.toNat_lower_le_iff]
  exact hb y hy

theorem ascii_of_all {bs : List Octet} (h : bs.all (fun b => b.toNat ≤ 127) = true) :
    ∀ b ∈ bs, b.toNat ≤ 127 :=
  fun b hb => of_decide_eq_true (List.all_eq_true.mp h b hb)

/-! ### Texts and their octets -/

/-- Octets that are all visible ASCII characters survive being made a text. -/
theorem ofString_toText {bs : List Octet} (h : ∀ b ∈ bs, b.isGraphic = true) :
    ofString (toText bs) = bs := by
  rw [ofString, toText, String.toList_ofList, List.flatMap_map]
  induction bs with
  | nil => rfl
  | cons b bs ih =>
      rw [List.forall_mem_cons] at h
      have hle : b.toNat ≤ 127 := Octet.toNat_le_of_isGraphic h.1
      have hvalid : b.toNat.isValidChar := .inl (by omega)
      have hval : (Char.ofNat b.toNat).val.toNat = b.toNat := by
        rw [Char.ofNat, dif_pos hvalid]
        rfl
      have hb : String.utf8EncodeChar (Char.ofNat b.toNat) = [b] := by
        simp [String.utf8EncodeChar, hval, hle]
      rw [List.flatMap_cons, ih h.2, hb, List.singleton_append]

theorem ofString_append (s t : String) : ofString (s ++ t) = ofString s ++ ofString t := by
  rw [ofString, String.toList_append, List.flatMap_append]
  rfl

theorem toByteArray_ofString (s : String) : (ofString s).toByteArray = s.toByteArray := by
  rw [← String.ofList_toList (s := s), String.toByteArray_ofList, List.utf8Encode, ofString,
    String.toList_ofList]

/-- Texts with the same octets are the same. -/
theorem ofString_inj {s t : String} : ofString s = ofString t ↔ s = t := by
  rw [← String.toByteArray_inj, ← toByteArray_ofString, ← toByteArray_ofString,
    List.toByteArray_inj]

/-- The number of octets of a text is its size in memory. -/
theorem length_ofString (s : String) : (ofString s).length = s.utf8ByteSize := by
  rw [← String.size_toByteArray, ← toByteArray_ofString, List.size_toByteArray]

/-! ### Cutting texts -/

/-- A character whose first octet is an ASCII character has no other octet. -/
theorem utf8EncodeChar_eq_singleton_of_ascii {c : Char} {b : Octet} {bs : List Octet}
    (h : String.utf8EncodeChar c = b :: bs) (hb : b.toNat ≤ 127) : bs = [] := by
  simp only [String.utf8EncodeChar] at h
  split at h
  · exact (List.cons.inj h).2.symm
  · -- the first of several octets has its two highest bits set
    exfalso
    repeat' split at h
    all_goals
      have hfirst := congrArg UInt8.toNat (List.cons.inj h).1
      rw [UInt8.toNat_ofNat'] at hfirst
      omega

theorem exists_flatMap_of_ascii {cs : List Char} {front back : List Octet}
    (h : cs.flatMap String.utf8EncodeChar = front ++ back) (hfront : ∀ b ∈ front, b.toNat ≤ 127) :
    ∃ ps ts, cs = ps ++ ts ∧ ps.flatMap String.utf8EncodeChar = front ∧
      ts.flatMap String.utf8EncodeChar = back := by
  induction front generalizing cs with
  | nil => exact ⟨[], cs, rfl, rfl, h⟩
  | cons b front ih =>
      rw [List.forall_mem_cons] at hfront
      cases cs with
      | nil => cases h
      | cons c cs =>
          cases hc : String.utf8EncodeChar c with
          | nil => exact absurd hc String.utf8EncodeChar_ne_nil
          | cons b' bs =>
              rw [List.flatMap_cons, hc, List.cons_append, List.cons_append, List.cons.injEq] at h
              cases utf8EncodeChar_eq_singleton_of_ascii hc (h.1 ▸ hfront.1)
              obtain ⟨ps, ts, rfl, hps, hts⟩ := ih h.2 hfront.2
              exact ⟨c :: ps, ts, rfl, by rw [List.flatMap_cons, hc, h.1, hps]; rfl, hts⟩

/-- Octets of ASCII in front of a text are a text of their own, and so is what follows them. -/
theorem exists_append_of_ascii {s : String} {front back : List Octet}
    (h : ofString s = front ++ back) (hfront : ∀ b ∈ front, b.toNat ≤ 127) :
    ∃ p t, s = p ++ t ∧ ofString p = front ∧ ofString t = back := by
  obtain ⟨ps, ts, hs, hps, hts⟩ := exists_flatMap_of_ascii h hfront
  refine ⟨String.ofList ps, String.ofList ts, ?_, ?_, ?_⟩
  · rw [← String.ofList_append, ← hs, String.ofList_toList]
  · rw [ofString, String.toList_ofList, hps]
  · rw [ofString, String.toList_ofList, hts]

end Octets

end DnsZone
