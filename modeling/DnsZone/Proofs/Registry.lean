import DnsZone.Proofs.Numeral
import DnsZone.RecordClass
import DnsZone.RecordType

/-!
# The names of codes

A text names a code by its mnemonic, or by the stem of the registry and a numeral of the code, both
in any case of letters. These are the texts that are read, and each is read as the one code that it
names: no two mnemonics agree up to the case of letters, and none begins with the stem. Where a text
begins with the stem, the stem ends between two characters of it, whatever follows.
-/

namespace DnsZone.Registry

variable {r : Registry} {code : UInt16} {octets : List Octet} {s m : String}

/-- The text names the code, by a mnemonic or by the stem and a numeral. -/
def Names (r : Registry) (s : String) (code : UInt16) : Prop :=
  (∃ m, (code, m) ∈ r.mnemonics ∧
      Octets.sameIgnoringCase (Octets.ofString s) (Octets.ofString m) = true) ∨
    ∃ stem numeral, s = stem ++ numeral ∧
      Octets.sameIgnoringCase (Octets.ofString stem) (Octets.ofString r.stem) = true ∧
      Numeral.Denotes (Octets.ofString numeral) code.toNat

/-- The names in a registry are not ambiguous. -/
structure Coherent (r : Registry) : Prop where
  /-- Mnemonics that agree up to the case of letters belong to one entry. -/
  mnemonics_inj : ∀ e ∈ r.mnemonics, ∀ e' ∈ r.mnemonics,
    Octets.sameIgnoringCase (Octets.ofString e.2) (Octets.ofString e'.2) = true → e = e'
  /-- No mnemonic begins with the stem. -/
  stem_reserved : ∀ e ∈ r.mnemonics,
    Octets.sameIgnoringCase ((Octets.ofString e.2).take (Octets.ofString r.stem).length)
      (Octets.ofString r.stem) = false
  stem_ascii : ∀ b ∈ Octets.ofString r.stem, b.toNat ≤ 127

/-! ### Mnemonics -/

theorem ofMnemonic?_eq_some_iff (hr : r.Coherent) :
    r.ofMnemonic? octets = some code ↔
      ∃ m, (code, m) ∈ r.mnemonics ∧ Octets.sameIgnoringCase octets (Octets.ofString m) = true := by
  rw [ofMnemonic?, Option.map_eq_some_iff]
  constructor
  · rintro ⟨e, hfind, rfl⟩
    have hfound := List.find?_some
      (p := fun e : UInt16 × String => Octets.sameIgnoringCase octets (Octets.ofString e.2)) hfind
    exact ⟨e.2, List.mem_of_find?_eq_some hfind, hfound⟩
  · rintro ⟨m, hm, hsame⟩
    cases hfind : r.mnemonics.find? fun e =>
        Octets.sameIgnoringCase octets (Octets.ofString e.2) with
    | none => exact absurd hsame (List.find?_eq_none.mp hfind (code, m) hm)
    | some e =>
        have hfound := List.find?_some
          (p := fun e : UInt16 × String => Octets.sameIgnoringCase octets (Octets.ofString e.2))
          hfind
        rw [Octets.sameIgnoringCase_iff] at hsame hfound
        have he : e = (code, m) := hr.mnemonics_inj e (List.mem_of_find?_eq_some hfind) (code, m) hm
          (Octets.sameIgnoringCase_iff.mpr (hfound.symm.trans hsame))
        exact ⟨e, rfl, by rw [he]⟩

theorem mem_of_mnemonic? (h : r.mnemonic? code = some m) : (code, m) ∈ r.mnemonics := by
  obtain ⟨e, hfind, rfl⟩ := Option.map_eq_some_iff.mp h
  have hcode : e.1 = code := by
    simpa using List.find?_some (p := fun e : UInt16 × String => e.1 == code) hfind
  rw [← hcode]
  exact List.mem_of_find?_eq_some hfind

/-- A text that begins with the stem is no mnemonic. -/
theorem ofMnemonic?_eq_none_of_stem (hr : r.Coherent)
    (h : Octets.sameIgnoringCase (octets.take (Octets.ofString r.stem).length)
      (Octets.ofString r.stem) = true) : r.ofMnemonic? octets = none := by
  rw [Option.eq_none_iff_forall_ne_some]
  intro code hcode
  obtain ⟨m, hm, hsame⟩ := (ofMnemonic?_eq_some_iff hr).mp hcode
  have hstem : Octets.sameIgnoringCase
      ((Octets.ofString m).take (Octets.ofString r.stem).length) (Octets.ofString r.stem) = true := by
    rw [Octets.sameIgnoringCase_iff] at h hsame ⊢
    rw [← h, Octets.lower, Octets.lower, List.map_take, List.map_take, ← Octets.lower,
      ← Octets.lower, hsame]
  exact absurd hstem (by simp [hr.stem_reserved _ hm])

/-! ### The generic form -/

theorem ofGeneric?_eq_some_iff :
    r.ofGeneric? octets = some code ↔
      Octets.sameIgnoringCase (octets.take (Octets.ofString r.stem).length)
          (Octets.ofString r.stem) = true ∧
        Numeral.Denotes (octets.drop (Octets.ofString r.stem).length) code.toNat := by
  have hcode : code.toNat ≤ UInt16.size - 1 := Nat.le_sub_one_of_lt code.toNat_lt
  rw [ofGeneric?]
  split
  next hstem =>
    rw [and_iff_right hstem, ← and_iff_left (a := Numeral.Denotes _ _) hcode,
      ← Numeral.parse_eq_ok_iff]
    cases hparse : Numeral.parse (UInt16.size - 1)
        (octets.drop (Octets.ofString r.stem).length) with
    | error e => exact iff_of_false (fun h => by cases h) fun h => by cases h
    | ok n =>
        have hn : n ≤ UInt16.size - 1 := (Numeral.parse_eq_ok_iff.mp hparse).2
        have hsize : n < UInt16.size := Nat.lt_of_le_pred (by decide) hn
        rw [Except.ok.injEq, Option.some.injEq, ← UInt16.toNat_inj,
          UInt16.toNat_ofNat_of_lt' hsize]
  next hstem => exact iff_of_false (fun h => by cases h) fun h => hstem h.1

/-- The stem in front of a text is a text of its own, in whatever case it is written. -/
theorem exists_append_of_stem (hr : r.Coherent)
    (h : Octets.sameIgnoringCase ((Octets.ofString s).take (Octets.ofString r.stem).length)
      (Octets.ofString r.stem) = true) :
    ∃ stem rest, s = stem ++ rest ∧
      Octets.ofString stem = (Octets.ofString s).take (Octets.ofString r.stem).length ∧
      Octets.ofString rest = (Octets.ofString s).drop (Octets.ofString r.stem).length :=
  Octets.exists_append_of_ascii (List.take_append_drop _ _).symm
    (Octets.ascii_of_sameIgnoringCase h hr.stem_ascii)

/-- Where a text begins with the stem, it is cut between two characters. -/
theorem isValid_of_stem (hr : r.Coherent)
    (h : Octets.sameIgnoringCase ((Octets.ofString s).take (Octets.ofString r.stem).length)
      (Octets.ofString r.stem) = true) : r.stem.rawEndPos.IsValid s := by
  obtain ⟨stem, rest, hs, hstem, -⟩ := exists_append_of_stem hr h
  have hlength := Octets.length_eq_of_sameIgnoringCase h
  rw [← hstem, Octets.length_ofString, Octets.length_ofString] at hlength
  refine String.Pos.Raw.isValid_iff_exists_append.mpr ⟨stem, rest, hs, ?_⟩
  exact String.Pos.Raw.ext hlength.symm

/-! ### Reading and writing -/

/-- What is read are the names of codes. -/
theorem parse?_eq_some_iff (hr : r.Coherent) :
    r.parse? (Octets.ofString s) = some code ↔ r.Names s code := by
  rw [parse?, Option.or_eq_some_iff]
  constructor
  · rintro (hmnemonic | ⟨-, hgeneric⟩)
    · exact .inl ((ofMnemonic?_eq_some_iff hr).mp hmnemonic)
    · obtain ⟨hsame, hdenotes⟩ := ofGeneric?_eq_some_iff.mp hgeneric
      obtain ⟨stem, rest, hs, hstem, hrest⟩ := exists_append_of_stem hr hsame
      exact .inr ⟨stem, rest, hs, by rw [hstem, hsame], by rw [hrest]; exact hdenotes⟩
  · rintro (hmnemonic | ⟨stem, rest, rfl, hsame, hdenotes⟩)
    · exact .inl ((ofMnemonic?_eq_some_iff hr).mpr hmnemonic)
    · have hlength := Octets.length_eq_of_sameIgnoringCase hsame
      have htake : (Octets.ofString (stem ++ rest)).take (Octets.ofString r.stem).length =
          Octets.ofString stem := by rw [Octets.ofString_append, ← hlength, List.take_left]
      have hdrop : (Octets.ofString (stem ++ rest)).drop (Octets.ofString r.stem).length =
          Octets.ofString rest := by rw [Octets.ofString_append, ← hlength, List.drop_left]
      have hstem : Octets.sameIgnoringCase
          ((Octets.ofString (stem ++ rest)).take (Octets.ofString r.stem).length)
          (Octets.ofString r.stem) = true := by rw [htake, hsame]
      exact .inr ⟨ofMnemonic?_eq_none_of_stem hr hstem,
        ofGeneric?_eq_some_iff.mpr ⟨hstem, by rw [hdrop]; exact hdenotes⟩⟩

/-- A code is written as one of its names. -/
theorem names_text (r : Registry) (code : UInt16) : r.Names (r.text code) code := by
  rw [text]
  cases hmnemonic : r.mnemonic? code with
  | some m => exact .inl ⟨m, mem_of_mnemonic? hmnemonic, Octets.sameIgnoringCase_iff.mpr rfl⟩
  | none =>
      refine .inr ⟨r.stem, Numeral.text code.toNat, rfl, Octets.sameIgnoringCase_iff.mpr rfl, ?_⟩
      rw [Numeral.ofString_text]
      exact Numeral.denotes_render code.toNat

/-- The same for values that are told apart by their codes. -/
theorem map_parse?_eq_some_iff {α : Type} {ofCode : UInt16 → α} {toCode : α → UInt16} {a : α}
    (hr : r.Coherent) (hcode : ∀ c a, ofCode c = a ↔ c = toCode a) :
    (r.parse? (Octets.ofString s)).map ofCode = some a ↔ r.Names s (toCode a) := by
  rw [← parse?_eq_some_iff hr, Option.map_eq_some_iff]
  constructor
  · rintro ⟨c, hc, ha⟩
    rw [hc, (hcode c a).mp ha]
  · exact fun h => ⟨toCode a, h, (hcode _ a).mpr rfl⟩

end DnsZone.Registry

namespace DnsZone

theorem RecordType.registry_coherent : RecordType.registry.Coherent where
  mnemonics_inj := by decide
  stem_reserved := by decide
  stem_ascii := Octets.ascii_of_all (by decide)

theorem RecordClass.registry_coherent : RecordClass.registry.Coherent where
  mnemonics_inj := by decide
  stem_reserved := by decide
  stem_ascii := Octets.ascii_of_all (by decide)

theorem RecordType.ofString?_eq_some_iff {s : String} {t : RecordType} :
    RecordType.ofString? s = some t ↔ RecordType.registry.Names s t.code :=
  Registry.map_parse?_eq_some_iff RecordType.registry_coherent
    fun c t => Iff.of_eq (RecordType.mk.injEq c t.code)

theorem RecordClass.ofString?_eq_some_iff {s : String} {c : RecordClass} :
    RecordClass.ofString? s = some c ↔ RecordClass.registry.Names s c.code :=
  Registry.map_parse?_eq_some_iff RecordClass.registry_coherent
    fun c c' => Iff.of_eq (RecordClass.mk.injEq c c'.code)

namespace Registry

/-- Types and classes are read from the texts that name them and from no others, and a name is read
as what it names; what is written of one is read as itself. A text is only ever cut behind the stem
of the registry, and only where a character ends. -/
theorem codes_read_by_name :
    (∀ (s : String) (t : RecordType),
        RecordType.ofString? s = some t ↔ RecordType.registry.Names s t.code) ∧
      (∀ t : RecordType, RecordType.ofString? t.text = some t) ∧
      (∀ (s : String) (c : RecordClass),
        RecordClass.ofString? s = some c ↔ RecordClass.registry.Names s c.code) ∧
      (∀ c : RecordClass, RecordClass.ofString? c.text = some c) ∧
      ∀ r ∈ [RecordType.registry, RecordClass.registry], ∀ s : String,
        Octets.sameIgnoringCase ((Octets.ofString s).take (Octets.ofString r.stem).length)
          (Octets.ofString r.stem) = true → r.stem.rawEndPos.IsValid s := by
  refine ⟨fun s t => RecordType.ofString?_eq_some_iff, fun t => ?_,
    fun s c => RecordClass.ofString?_eq_some_iff, fun c => ?_, fun r hr s h => ?_⟩
  · exact RecordType.ofString?_eq_some_iff.mpr (names_text _ t.code)
  · exact RecordClass.ofString?_eq_some_iff.mpr (names_text _ c.code)
  · have hcoherent : r.Coherent := by
      simp only [List.mem_cons, List.not_mem_nil, or_false] at hr
      rcases hr with rfl | rfl
      · exact RecordType.registry_coherent
      · exact RecordClass.registry_coherent
    exact isValid_of_stem hcoherent h

/-- A sign and zeros before the number of a type that has a mnemonic, and a text that goes on behind
the stem with a letter of two octets. -/
theorem codes_read_by_name_of_odd_texts :
    RecordType.ofString? "tYpE+0255" = some ⟨255⟩ ∧ RecordType.registry.Names "tYpE+0255" 255 ∧
      RecordType.registry ∈ [RecordType.registry, RecordClass.registry] ∧
      Octets.sameIgnoringCase ((Octets.ofString "typeé").take (Octets.ofString "TYPE").length)
        (Octets.ofString "TYPE") = true ∧ "TYPE".rawEndPos.IsValid "typeé" := by
  have hread : RecordType.ofString? "tYpE+0255" = some ⟨255⟩ := by decide
  have hmem : RecordType.registry ∈ [RecordType.registry, RecordClass.registry] :=
    List.mem_cons_self
  have hstem : Octets.sameIgnoringCase
      ((Octets.ofString "typeé").take (Octets.ofString "TYPE").length)
      (Octets.ofString "TYPE") = true := by decide
  obtain ⟨hnames, -, -, -, hcut⟩ := codes_read_by_name
  exact ⟨hread, (hnames _ _).mp hread, hmem, hstem, hcut _ hmem _ hstem⟩

end Registry

end DnsZone
