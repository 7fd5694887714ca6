import DnsZone.Proofs.OpenWriter
import DnsZone.Proofs.Sample
import DnsZone.Proofs.Serial
import DnsZone.Proofs.Traffic.SoleWriter

/-!
# Serial numbers that are raised

A relative update of a serial number gives a number above the old one, and never zero, which is
skipped. The skip is one step more than was asked for: after the greatest increment the new number
then lies exactly opposite to the old one, and neither is above the other. The update changes
nothing but the one record set.
-/

namespace DnsZone

theorem RecordSet.head?_of_soa? {s : RecordSet} {soa : Soa}
    (h : s.first?.bind RecordData.soa? = some soa) : s.data.head? = some (.soa soa) := by
  obtain ⟨d, hd, hsoa⟩ := Option.bind_eq_some_iff.mp h
  cases d with
  | soa soa' =>
      cases hsoa
      exact hd
  | _ => cases hsoa

namespace Transaction

theorem updatedSerial_eq_ok {serial next : Serial} {value : UInt32}
    (h : updatedSerial serial value true = .ok next) :
    value ≤ Serial.maxIncrement ∧
      next = ⟨if serial.val + value = 0 then 1 else serial.val + value⟩ := by
  simp only [updatedSerial, Serial.add?, ↓reduceIte] at h
  by_cases hvalue : value > Serial.maxIncrement
  · simp only [hvalue, ↓reduceIte] at h
    cases h
  · simp only [hvalue, ↓reduceIte] at h
    cases h
    exact ⟨UInt32.not_lt.mp hvalue, by split <;> rfl⟩

/-- A serial number that is raised moves forward, unless zero is skipped after the greatest
increment. -/
theorem compare?_updatedSerial {serial next : Serial} {value : UInt32} (hvalue : 1 ≤ value)
    (h : updatedSerial serial value true = .ok next) :
    next.val ≠ 0 ∧ next.compare? serial =
      if value = Serial.maxIncrement ∧ serial.val + value = 0 then none else some .gt := by
  obtain ⟨hmax, rfl⟩ := updatedSerial_eq_ok h
  by_cases hzero : serial.val + value = 0
  · -- the way up from the old number is one step longer than the increment
    have hway : 1 - serial.val = value + 1 := by grind
    simp only [hzero, ↓reduceIte, and_true]
    refine ⟨by decide, ?_⟩
    split
    · rename_i hgreatest
      rw [Serial.compare?_eq_none_iff, hway, hgreatest]
      rfl
    · rename_i hgreatest
      rw [Serial.compare?_eq_gt_iff, hway]
      simp only [Serial.maxIncrement, ← UInt32.toNat_inj, UInt32.le_iff_toNat_le, UInt32.toNat_add,
        UInt32.toNat_one, UInt32.reduceToNat] at *
      omega
  · have hway : serial.val + value - serial.val = value := by grind
    simp only [hzero, ↓reduceIte, and_false]
    exact ⟨hzero, Serial.compare?_eq_gt_iff.mpr (by simpa [hway] using ⟨hvalue, hmax⟩)⟩

variable {ζ τ : Type} [Access τ] [Backend ζ τ] {z : ζ} {t t' : Transaction τ}

/-- The start of authority `soa` of the set `s` at the name `m` is given the serial number `next`,
which is `value` or one more above its own. -/
structure RaisesSerial (z : ζ) (t t' : Transaction τ) (value : UInt32) (m : Name) (s : RecordSet)
    (soa : Soa) (next : Serial) : Prop where
  found : Backend.find? z t.access m .soa = some s
  first : s.data.head? = some (.soa soa)
  nonzero : next.val ≠ 0
  /-- The skip of zero can lead to the number that lies exactly opposite. -/
  compare? : next.compare? soa.serial =
    if value = Serial.maxIncrement ∧ soa.serial.val + value = 0 then none else some .gt
  /-- The set keeps its time to live, and of its records the first one, with all else that it
  says. -/
  replaced : ∀ n, (n == m) = true →
    Backend.find? z t'.access n .soa = some ⟨.soa, s.ttl, [.soa { soa with serial := next }]⟩
  others : ∀ n key, ¬ ((n == m) = true ∧ key = .soa) →
    Backend.find? z t'.access n key = Backend.find? z t.access n key

theorem ActsOnSets.raisesSerial (h : t.ActsOnSets z) {value : UInt32} (hvalue : 1 ≤ value)
    {n? : Option Name} {next : Serial}
    (hedit : t.edit z (.updateSerial value true n?) = (.ok (some next), t')) :
    ∃ m s soa, t.origin.target n? = .ok m ∧ t.RaisesSerial z t' value m s soa next := by
  obtain ⟨c, hplan, rfl⟩ := edit_eq_ok_iff.mp hedit
  obtain ⟨r, hr, heq⟩ := map_eq_ok_iff.mp hplan
  cases heq
  obtain ⟨-, m, s, soa, hm, hs, hsoa, hserial, hput⟩ := exists_soa_of_planUpdateSerial hr
  obtain ⟨hnonzero, hcompare⟩ := compare?_updatedSerial hvalue hserial
  have hfind := h.find?_put m (RecordSet.isEmpty_single s.ttl (.soa (soa.withSerial r.2)))
  rw [planPut_eq_ok hput]
  refine ⟨m, s, soa, hm, hs, RecordSet.head?_of_soa? hsoa, hnonzero, hcompare, fun n hn => ?_,
    fun n key hne => ?_⟩
  · exact (hfind n .soa).trans (if_pos ⟨hn, rfl⟩)
  · exact (hfind n key).trans (if_neg hne)

end Transaction

/-- An update that raises a serial number by `value` and is not refused gives a number other than
zero that is above the old one, with one exception: if it skips zero after the greatest increment,
the new number is exactly opposite. The set at the name, or else at the apex, is replaced by its
first record with the new number, and no other record set changes. -/
theorem ZoneConfig.serial_updates_move_forward (config : ZoneConfig) {value : UInt32}
    (hvalue : 1 ≤ value) (n? : Option Name) (next : Serial) :
    (∀ (events : List (Traffic.Event Action)) (z : VersionedZone),
      ∀ t ∈ (config.traffic events).txns, ∀ t',
        t.edit z (.updateSerial value true n?) = (.ok (some next), t') →
          ∃ m s soa, t.origin.target n? = .ok m ∧ t.RaisesSerial z t' value m s soa next) ∧
    ∀ events : List (Traffic.Event PlainAction), ∀ t ∈ (config.plainTraffic events).txns, ∀ t',
      t.edit (config.plainTraffic events).zone (.updateSerial value true n?) =
          (.ok (some next), t') →
        ∃ m s soa, t.origin.target n? = .ok m ∧
          t.RaisesSerial (config.plainTraffic events).zone t' value m s soa next := by
  obtain ⟨hversioned, hplain⟩ := config.writers_act_on_sets
  constructor
  · intro events z t ht t' hedit
    exact (hversioned events z t ht (Transaction.writes_of_edit hedit)).raisesSerial hvalue hedit
  · intro events t ht t' hedit
    exact (hplain events t ht (Transaction.writes_of_edit hedit)).raisesSerial hvalue hedit

namespace SerialUpdate

open Sample SoleWriter

/-- A start of authority is stored at the apex. -/
def calls (serial : UInt32) : List Call := [.edit (.addRecord (soa serial))]

/-- The last serial number is raised by one: zero is skipped. -/
theorem serial_updates_move_forward_of_last :
    let t := config.traffic (events (calls 0xFFFFFFFF))
    let t' := config.plainTraffic (events (calls 0xFFFFFFFF))
    (1 : UInt32) ≤ 1 ∧
    (∃ w ∈ t.txns, ∃ w', w.edit t.zone (.updateSerial 1 true none) = (.ok (some ⟨1⟩), w') ∧
      ∃ m s soa, w.origin.target none = .ok m ∧ w.RaisesSerial t.zone w' 1 m s soa ⟨1⟩) ∧
    ∃ w ∈ t'.txns, ∃ w', w.edit t'.zone (.updateSerial 1 true none) = (.ok (some ⟨1⟩), w') ∧
      ∃ m s soa, w.origin.target none = .ok m ∧ w.RaisesSerial t'.zone w' 1 m s soa ⟨1⟩ := by
  intro t t'
  have hvalue : (1 : UInt32) ≤ 1 := by decide
  obtain ⟨hversioned, hplain⟩ := config.serial_updates_move_forward hvalue none ⟨1⟩
  have hmem := config.writer_mem_txns (calls 0xFFFFFFFF)
  have hmem' := config.plainWriter_mem_txns (calls 0xFFFFFFFF)
  exact ⟨hvalue, ⟨_, hmem, _, rfl, hversioned _ t.zone _ hmem _ rfl⟩,
    ⟨_, hmem', _, rfl, hplain _ _ hmem' _ rfl⟩⟩

/-- A number that is raised by the greatest increment to zero, which is skipped, becomes one that is
not above it. -/
theorem opposite_serial_of_skip :
    let t := config.traffic (events (calls 0x80000001))
    let t' := config.plainTraffic (events (calls 0x80000001))
    (t.txns.map fun w => (w.edit t.zone (.updateSerial 0x7FFFFFFF true none)).1.toOption) =
        [some (some ⟨1⟩)] ∧
      (t'.txns.map fun w => (w.edit t'.zone (.updateSerial 0x7FFFFFFF true none)).1.toOption) =
        [some (some ⟨1⟩)] ∧
      Serial.compare? ⟨1⟩ ⟨0x80000001⟩ = none :=
  ⟨rfl, rfl, rfl⟩

end SerialUpdate

end DnsZone
