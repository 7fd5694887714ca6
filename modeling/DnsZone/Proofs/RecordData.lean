import DnsZone.Proofs.Name
import DnsZone.RecordData.Basic

/-!
# Equality of record data

Record data is equal if it has the same form and agrees in every part, where names agree up to the
case of letters. This is an equivalence, and equal data belongs to record sets of the same key.
-/

namespace DnsZone

theorem Soa.beq_iff {a b : Soa} : (a == b) = true ↔
    (a.mname == b.mname) = true ∧ (a.rname == b.rname) = true ∧ a.serial = b.serial ∧
      a.refresh = b.refresh ∧ a.retry = b.retry ∧ a.expire = b.expire ∧ a.minimum = b.minimum := by
  have hparts : (a == b) = (a.mname == b.mname && (a.rname == b.rname && (a.serial == b.serial &&
      (a.refresh == b.refresh && (a.retry == b.retry && (a.expire == b.expire &&
        a.minimum == b.minimum)))))) := rfl
  rw [hparts]
  simp only [Bool.and_eq_true, beq_iff_eq]

instance : EquivBEq Soa where
  rfl := Soa.beq_iff.mpr ⟨BEq.rfl, BEq.rfl, rfl, rfl, rfl, rfl, rfl⟩
  symm h := by
    obtain ⟨hmname, hrname, hrest⟩ := Soa.beq_iff.mp h
    refine Soa.beq_iff.mpr ⟨BEq.symm hmname, BEq.symm hrname, ?_⟩
    simp [hrest]
  trans h h' := by
    obtain ⟨hmname, hrname, hrest⟩ := Soa.beq_iff.mp h
    obtain ⟨hmname', hrname', hrest'⟩ := Soa.beq_iff.mp h'
    refine Soa.beq_iff.mpr ⟨BEq.trans hmname hmname', BEq.trans hrname hrname', ?_⟩
    simp [hrest, hrest']

namespace RecordData

/-- Data of the same form with equal parts. -/
inductive Same : RecordData → RecordData → Prop where
  | a (addr : Address.V4) : Same (.a addr) (.a addr)
  | aaaa (addr : Address.V6) : Same (.aaaa addr) (.aaaa addr)
  | ns {n n' : Name} (h : (n == n') = true) : Same (.ns n) (.ns n')
  | cname {n n' : Name} (h : (n == n') = true) : Same (.cname n) (.cname n')
  | mx (preference : UInt16) {n n' : Name} (h : (n == n') = true) :
      Same (.mx preference n) (.mx preference n')
  | txt (strings : List (List Octet)) : Same (.txt strings) (.txt strings)
  | soa {s s' : Soa} (h : (s == s') = true) : Same (.soa s) (.soa s')
  | rrsig (covered : RecordType) (data : List Octet) :
      Same (.rrsig covered data) (.rrsig covered data)
  | opaqueData (rtype : RecordType) (data : List Octet) :
      Same (.opaqueData rtype data) (.opaqueData rtype data)

theorem same_of_beq {d d' : RecordData} (h : (d == d') = true) : Same d d' := by
  cases d <;> cases d' <;> first | cases h | skip
  case a.a x y =>
    have hxy : (x == y) = true := h
    cases eq_of_beq hxy
    exact .a x
  case aaaa.aaaa x y =>
    have hxy : (x == y) = true := h
    cases eq_of_beq hxy
    exact .aaaa x
  case ns.ns n n' => exact .ns h
  case cname.cname n n' => exact .cname h
  case mx.mx p n p' n' =>
    have hparts : (p == p' && n == n') = true := h
    rw [Bool.and_eq_true] at hparts
    cases eq_of_beq hparts.1
    exact .mx p hparts.2
  case txt.txt l l' =>
    have hl : (l == l') = true := h
    cases eq_of_beq hl
    exact .txt l
  case soa.soa s s' => exact .soa h
  case rrsig.rrsig t l t' l' =>
    have hparts : (t == t' && l == l') = true := h
    rw [Bool.and_eq_true] at hparts
    cases eq_of_beq hparts.1
    cases eq_of_beq hparts.2
    exact .rrsig t l
  case opaqueData.opaqueData t l t' l' =>
    have hparts : (t == t' && l == l') = true := h
    rw [Bool.and_eq_true] at hparts
    cases eq_of_beq hparts.1
    cases eq_of_beq hparts.2
    exact .opaqueData t l

theorem Same.beq {d d' : RecordData} (h : Same d d') : (d == d') = true := by
  cases h with
  | a x => exact (beq_self_eq_true x : (x == x) = true)
  | aaaa x => exact (beq_self_eq_true x : (x == x) = true)
  | ns h => exact h
  | cname h => exact h
  | mx p h =>
      rename_i n n'
      have hparts : (p == p && n == n') = true := by
        rw [h, beq_self_eq_true]
        rfl
      exact hparts
  | txt l => exact (beq_self_eq_true l : (l == l) = true)
  | soa h => exact h
  | rrsig t l =>
      have hparts : (t == t && l == l) = true := by
        rw [beq_self_eq_true, beq_self_eq_true]
        rfl
      exact hparts
  | opaqueData t l =>
      have hparts : (t == t && l == l) = true := by
        rw [beq_self_eq_true, beq_self_eq_true]
        rfl
      exact hparts

theorem Same.refl (d : RecordData) : Same d d := by
  cases d with
  | a addr => exact .a addr
  | aaaa addr => exact .aaaa addr
  | ns n => exact .ns BEq.rfl
  | cname n => exact .cname BEq.rfl
  | mx preference n => exact .mx preference BEq.rfl
  | txt strings => exact .txt strings
  | soa s => exact .soa BEq.rfl
  | rrsig covered data => exact .rrsig covered data
  | opaqueData rtype data => exact .opaqueData rtype data

theorem Same.symm {d d' : RecordData} (h : Same d d') : Same d' d := by
  cases h with
  | a addr => exact .a addr
  | aaaa addr => exact .aaaa addr
  | ns h => exact .ns (BEq.symm h)
  | cname h => exact .cname (BEq.symm h)
  | mx preference h => exact .mx preference (BEq.symm h)
  | txt strings => exact .txt strings
  | soa h => exact .soa (BEq.symm h)
  | rrsig covered data => exact .rrsig covered data
  | opaqueData rtype data => exact .opaqueData rtype data

theorem Same.trans {d d' d'' : RecordData} (h : Same d d') (h' : Same d' d'') : Same d d'' := by
  cases h with
  | a addr => exact h'
  | aaaa addr => exact h'
  | ns h =>
      cases h' with
      | ns h' => exact .ns (BEq.trans h h')
  | cname h =>
      cases h' with
      | cname h' => exact .cname (BEq.trans h h')
  | mx preference h =>
      cases h' with
      | mx _ h' => exact .mx preference (BEq.trans h h')
  | txt strings => exact h'
  | soa h =>
      cases h' with
      | soa h' => exact .soa (BEq.trans h h')
  | rrsig covered data => exact h'
  | opaqueData rtype data => exact h'

instance : EquivBEq RecordData where
  rfl {d} := (Same.refl d).beq
  symm h := (same_of_beq h).symm.beq
  trans h h' := ((same_of_beq h).trans (same_of_beq h')).beq

/-- Equal data belongs to sets of the same key. -/
theorem key_congr {d d' : RecordData} (h : (d == d') = true) : d.key = d'.key := by
  cases same_of_beq h <;> rfl

end RecordData

end DnsZone
