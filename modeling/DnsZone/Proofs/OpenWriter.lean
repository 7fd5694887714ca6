import DnsZone.Proofs.PlainZone.Traffic
import DnsZone.Proofs.VersionedZone.Traffic

/-!
# What an open writer does to the record sets that it finds

Every writer of a zone in use acts on the record sets that it finds, of whichever kind the zone is:
what it stores it finds afterwards in place of what was there, what it erases it does not find any
more, and it finds everything else as before. Checks have no part in this, so it stays true whatever
checks are set.
-/

namespace DnsZone

namespace Transaction

variable {ζ τ : Type} [Access τ] [Backend ζ τ]

/-- An edit that is not refused makes the change that was planned. -/
theorem edit_eq_ok_iff {z : ζ} {t t' : Transaction τ} {e : Edit} {serial? : Option Serial} :
    t.edit z e = (.ok serial?, t') ↔ ∃ c, t.plan z e = .ok (c, serial?) ∧ t' = t.apply c := by
  rw [edit]
  cases t.plan z e with
  | error fault => simp
  | ok r =>
      obtain ⟨c, serial?'⟩ := r
      simp [eq_comm]

/-- Only an open writer makes edits. -/
theorem writes_of_edit {z : ζ} {t t' : Transaction τ} {e : Edit} {serial? : Option Serial}
    (h : t.edit z e = (.ok serial?, t')) : t.writes = true := by
  obtain ⟨c, hplan, -⟩ := edit_eq_ok_iff.mp h
  exact decide_eq_true (plan_eq_ok hplan).1

/-- Edits that are not for it leave the origin alone. -/
theorem origin_edit (z : ζ) (t : Transaction τ) {e : Edit} (he : ∀ origin, e ≠ .setOrigin origin) :
    (t.edit z e).2.origin = t.origin := by
  rw [edit]
  cases hplan : t.plan z e with
  | error fault => rfl
  | ok r =>
      obtain ⟨c, serial?⟩ := r
      cases c with
      | setOrigin origin => exact absurd (eq_setOrigin_of_plan hplan) (he origin)
      | _ => rfl

/-- The state of a writer is as it should be after every change that is planned. -/
theorem StagesSets.good_apply {z : ζ} {good : τ → Prop} (laws : StagesSets z good)
    {t : Transaction τ} (ht : good t.access) {c : Change} (hfits : Fits z t c)
    (hsound : c.Sound t.origin) : good (t.apply c).access := by
  cases c with
  | nothing => exact ht
  | put n s => exact (laws.put ht n hsound.1).1
  | eraseName n => exact (laws.eraseName ht hfits).1
  | eraseSet n key => exact (laws.eraseSet ht hfits).1
  | clear => exact (laws.clear ht).1
  | setOrigin origin => exact ht

/-- The changes of the writer act on the record sets that it finds. -/
def ActsOnSets (z : ζ) (t : Transaction τ) : Prop := ∃ good, StagesSets z good ∧ good t.access

namespace ActsOnSets

variable {z : ζ} {t : Transaction τ} (h : t.ActsOnSets z)
include h

theorem writing : Access.mode t.access = .writing := by
  obtain ⟨good, laws, ht⟩ := h
  exact laws.writing ht

theorem writable : t.requireWritable = .ok () := requireWritable_eq_ok_iff.mpr h.writing

theorem isEnded : t.isEnded = false := by
  rw [Transaction.isEnded, h.writing]
  rfl

theorem key_eq {n : Name} {key : SetKey} {s : RecordSet}
    (hs : Backend.find? z t.access n key = some s) : s.key = key := by
  obtain ⟨good, laws, ht⟩ := h
  exact laws.key_eq ht hs

theorem filled {n : Name} {key : SetKey} {s : RecordSet}
    (hs : Backend.find? z t.access n key = some s) : s.isEmpty = false := by
  obtain ⟨good, laws, ht⟩ := h
  exact laws.filled ht hs

theorem contains_iff (n : Name) : Backend.contains z t.access n = true ↔
    ∃ key, (Backend.find? z t.access n key).isSome = true := by
  obtain ⟨good, laws, ht⟩ := h
  exact laws.contains_iff ht n

theorem find?_put (n : Name) {s : RecordSet} (hs : s.isEmpty = false) (m : Name) (key : SetKey) :
    Backend.find? z (t.apply (.put n s)).access m key =
      if (m == n) = true ∧ key = s.key then some s else Backend.find? z t.access m key := by
  obtain ⟨good, laws, ht⟩ := h
  exact (laws.put ht n hs).2 m key

theorem find?_eraseName {n : Name} (hfound : Backend.contains z t.access n = true) (m : Name)
    (key : SetKey) : Backend.find? z (t.apply (.eraseName n)).access m key =
      if m == n then none else Backend.find? z t.access m key := by
  obtain ⟨good, laws, ht⟩ := h
  exact (laws.eraseName ht hfound).2 m key

theorem find?_eraseSet {n : Name} {key : SetKey}
    (hfound : (Backend.find? z t.access n key).isSome = true) (m : Name) (key' : SetKey) :
    Backend.find? z (t.apply (.eraseSet n key)).access m key' =
      if (m == n) = true ∧ key' = key then none else Backend.find? z t.access m key' := by
  obtain ⟨good, laws, ht⟩ := h
  exact (laws.eraseSet ht hfound).2 m key'

theorem find?_clear (n : Name) (key : SetKey) :
    Backend.find? z (t.apply .clear).access n key = none := by
  obtain ⟨good, laws, ht⟩ := h
  exact (laws.clear ht).2 n key

/-- A writer goes on as one after every change that is planned. -/
theorem apply {c : Change} (hfits : Fits z t c) (hsound : c.Sound t.origin) :
    (t.apply c).ActsOnSets z := by
  obtain ⟨good, laws, ht⟩ := h
  exact ⟨good, laws, laws.good_apply ht hfits hsound⟩

/-- A writer goes on as one after every edit, whatever comes of it. -/
theorem after_edit (e : Edit) : (t.edit z e).2.ActsOnSets z := by
  rw [Transaction.edit]
  cases hplan : t.plan z e with
  | error fault => exact h
  | ok r => exact h.apply (plan_eq_ok hplan).2 (sound_of_plan hplan)

/-- What is found after a change was found before, or is what the change has stored. -/
theorem stored_of_apply {c : Change} (hfits : Fits z t c) (hsound : c.Sound t.origin) {n : Name}
    {key : SetKey} {s : RecordSet} (hs : Backend.find? z (t.apply c).access n key = some s) :
    Backend.find? z t.access n key = some s ∨ ∃ m, c = .put m s ∧ (n == m) = true := by
  cases c with
  | nothing => exact .inl hs
  | setOrigin origin => exact .inl hs
  | put m s' =>
      rw [h.find?_put m hsound.1] at hs
      split at hs
      · rename_i hat
        cases hs
        exact .inr ⟨m, rfl, hat.1⟩
      · exact .inl hs
  | eraseName m =>
      rw [h.find?_eraseName hfits] at hs
      split at hs
      · cases hs
      · exact .inl hs
  | eraseSet m key' =>
      rw [h.find?_eraseSet hfits] at hs
      split at hs
      · cases hs
      · exact .inl hs
  | clear =>
      rw [h.find?_clear] at hs
      cases hs

/-- Only what erases makes a record set disappear. -/
theorem isSome_of_apply {c : Change} (hfits : Fits z t c) (hsound : c.Sound t.origin) {n : Name}
    {key : SetKey} (hfound : (Backend.find? z t.access n key).isSome = true) :
    (Backend.find? z (t.apply c).access n key).isSome = true ∨
      (∃ m, c = .eraseName m ∧ (n == m) = true) ∨
      (∃ m, c = .eraseSet m key ∧ (n == m) = true) ∨ c = .clear := by
  cases c with
  | nothing => exact .inl hfound
  | setOrigin origin => exact .inl hfound
  | put m s =>
      rw [h.find?_put m hsound.1]
      split
      · exact .inl rfl
      · exact .inl hfound
  | eraseName m =>
      rw [h.find?_eraseName hfits]
      split
      · exact .inr (.inl ⟨m, rfl, ‹_›⟩)
      · exact .inl hfound
  | eraseSet m key' =>
      rw [h.find?_eraseSet hfits]
      split
      · rename_i hat
        exact .inr (.inr (.inl ⟨m, by rw [hat.2], hat.1⟩))
      · exact .inl hfound
  | clear => exact .inr (.inr (.inr rfl))

end ActsOnSets

/-! ### Meanwhile -/

/-- In both zones writers find the same. -/
structure WritersSeeAlike (z z' : ζ) : Prop where
  find?_eq {a : τ} (ha : Access.mode a = .writing) (n : Name) (key : SetKey) :
    Backend.find? z' a n key = Backend.find? z a n key
  contains_eq {a : τ} (ha : Access.mode a = .writing) (n : Name) :
    Backend.contains z' a n = Backend.contains z a n

theorem WritersSeeAlike.refl (z : ζ) : WritersSeeAlike (τ := τ) z z :=
  ⟨fun _ _ _ => rfl, fun _ _ => rfl⟩

variable {z z' : ζ} {t : Transaction τ}

theorem StagesSets.congr {good : τ → Prop} (laws : StagesSets z good)
    (hz : WritersSeeAlike z z') : StagesSets z' good where
  writing := laws.writing
  key_eq h _ _ _ hs := laws.key_eq h (by rwa [hz.find?_eq (laws.writing h)] at hs)
  filled h _ _ _ hs := laws.filled h (by rwa [hz.find?_eq (laws.writing h)] at hs)
  contains_iff h n := by
    simp only [hz.find?_eq (laws.writing h), hz.contains_eq (laws.writing h)]
    exact laws.contains_iff h n
  put h n s hs := by
    obtain ⟨hgood, hfind⟩ := laws.put h n hs
    simp only [hz.find?_eq (laws.writing h), hz.find?_eq (laws.writing hgood)]
    exact ⟨hgood, hfind⟩
  eraseName h n hfound := by
    rw [hz.contains_eq (laws.writing h)] at hfound
    obtain ⟨hgood, hfind⟩ := laws.eraseName h hfound
    simp only [hz.find?_eq (laws.writing h), hz.find?_eq (laws.writing hgood)]
    exact ⟨hgood, hfind⟩
  eraseSet h n key hfound := by
    rw [hz.find?_eq (laws.writing h)] at hfound
    obtain ⟨hgood, hfind⟩ := laws.eraseSet h hfound
    simp only [hz.find?_eq (laws.writing h), hz.find?_eq (laws.writing hgood)]
    exact ⟨hgood, hfind⟩
  clear h := by
    obtain ⟨hgood, hfind⟩ := laws.clear h
    simp only [hz.find?_eq (laws.writing hgood)]
    exact ⟨hgood, hfind⟩

/-- A writer goes on as one if others do not change what it finds. -/
theorem ActsOnSets.congr (h : t.ActsOnSets z) (hz : WritersSeeAlike z z') : t.ActsOnSets z' := by
  obtain ⟨good, laws, ht⟩ := h
  exact ⟨good, laws.congr hz, ht⟩

end Transaction

/-- A writer of a zone that keeps versions finds the same whatever becomes of the zone. -/
theorem VersionedZone.writersSeeAlike (z z' : VersionedZone) :
    Transaction.WritersSeeAlike z z' where
  find?_eq _ _ _ := rfl
  contains_eq _ _ := rfl

/-- Writers that were started by users act on the record sets that they find. -/
theorem ZoneConfig.actsOnSets_usage (config : ZoneConfig) (actions : List Action)
    (z : VersionedZone) :
    ∀ p ∈ (config.usage actions).txns, p.txn.writes = true → p.txn.ActsOnSets z := by
  intro p hp hwrites
  obtain ⟨d, hd⟩ := VersionedZone.exists_draft (of_decide_eq_true hwrites)
  have hsolid := (config.holds_solid actions).writers p hp (Participant.writes_of_writing hd) d hd
  exact ⟨_, Ledger.Mirrors.laws z, d, hd, hsolid, trivial⟩

theorem ZoneConfig.actsOnSets_plainUsage (config : ZoneConfig) (actions : List PlainAction) :
    ∀ t ∈ (config.plainUsage actions).txns, t.writes = true →
      t.ActsOnSets (config.plainUsage actions).zone := by
  intro t ht hwrites
  have htended := config.sound_plainUsage actions
  exact ⟨_, htended.good.stagesSets, htended.writers t ht hwrites⟩

/-- Every open writer of a zone in use acts on the record sets that it finds. One of a zone that
keeps versions does so whatever has become of the zone since. -/
theorem ZoneConfig.writers_act_on_sets (config : ZoneConfig) :
    (∀ (events : List (Traffic.Event Action)) (z : VersionedZone),
      ∀ t ∈ (config.traffic events).txns, t.writes = true → t.ActsOnSets z) ∧
    ∀ events : List (Traffic.Event PlainAction), ∀ t ∈ (config.plainTraffic events).txns,
      t.writes = true → t.ActsOnSets (config.plainTraffic events).zone := by
  constructor
  · intro events z t ht hwrites
    have hopen : t.isEnded = false := by
      rw [Transaction.isEnded, of_decide_eq_true hwrites]
      rfl
    obtain ⟨actions, -, hresembles⟩ := config.exists_resembles_traffic events
    obtain ⟨j, p, hp, rfl⟩ := hresembles.exists_participant ht hopen
    exact config.actsOnSets_usage actions z p (List.mem_of_getElem? hp) hwrites
  · intro events t ht hwrites
    have htended := config.sound_plainTraffic events
    exact ⟨_, htended.good.stagesSets, htended.writers t ht hwrites⟩

end DnsZone
