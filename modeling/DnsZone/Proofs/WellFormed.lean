import DnsZone.Proofs.Inheritance
import DnsZone.Proofs.RecordSet.Distinct
import DnsZone.Proofs.Sample
import DnsZone.Proofs.Traffic.SoleWriter

/-!
# What is stored is well formed

No node of a zone is empty, and no record set. The record sets of a node have different keys, and no
set holds a record twice. So there is a node just where a record set is found. This is so of every
version, of all that is staged, and of the content of a plain zone, as long as the sets that callers
bring along hold no record twice themselves; emptiness they need not care about, for an empty set is
never stored.
-/

namespace DnsZone

section

variable {ζ τ : Type} [Access τ] [Backend ζ τ]

/-- What a transaction with state `a` sees of the zone is well formed. -/
structure WellFormed (z : ζ) (a : τ) : Prop where
  nonempty : ∀ n node, Backend.node? z a n = some node → node.isEmpty = false
  /-- The record sets of a node have different keys. -/
  keyed : ∀ n node, Backend.node? z a n = some node → node.Keyed
  filled : ∀ n node, Backend.node? z a n = some node → ∀ s ∈ node.recordSets, s.isEmpty = false
  distinct : ∀ n node, Backend.node? z a n = some node → ∀ s ∈ node.recordSets, s.Distinct
  /-- The record sets that are found are those of the nodes. -/
  find?_eq : ∀ n key,
    Backend.find? z a n key = (Backend.node? z a n).bind fun node => node.find? key
  /-- A record set that is found has the key under which it is found. -/
  key_eq : ∀ n key s, Backend.find? z a n key = some s → s.key = key
  /-- There is a node just where a record set is found. -/
  contains_iff : ∀ n,
    Backend.contains z a n = true ↔ ∃ key, (Backend.find? z a n key).isSome = true

/-- No record set that is found holds a record twice. -/
theorem WellFormed.findsDistinct {z : ζ} {a : τ} (h : WellFormed z a) :
    FindsOnly RecordSet.Distinct z a := by
  intro n key s hs
  rw [h.find?_eq] at hs
  obtain ⟨node, hnode, hs⟩ := Option.bind_eq_some_iff.mp hs
  exact h.distinct n node hnode s (Node.mem_of_find?_eq_some hs).1

/-- It is enough to look at the record sets that are found. -/
theorem Shows.wellFormed {z : ζ} {a : τ} {c : Content} (h : Shows z a c)
    (hsolid : ∀ n node, Backend.node? z a n = some node → node.isEmpty = false)
    (hfilled : ∀ n key s, Backend.find? z a n key = some s → s.isEmpty = false)
    (hdistinct : FindsOnly RecordSet.Distinct z a) : WellFormed z a := by
  have hfound (n : Name) (node : Node) (hnode : Backend.node? z a n = some node) (s : RecordSet)
      (hs : s ∈ node.recordSets) : Backend.find? z a n s.key = some s := by
    rw [h.find?_eq_bind, hnode]
    exact (Node.mem_recordSets_iff (h.keyed n node hnode)).mp hs
  refine ⟨hsolid, h.keyed, ?_, ?_, h.find?_eq_bind, fun n key s hs => ?_, h.contains_iff hsolid⟩
  · exact fun n node hnode s hs => hfilled n s.key s (hfound n node hnode s hs)
  · exact fun n node hnode s hs => hdistinct n s.key s (hfound n node hnode s hs)
  · rw [h.find?_eq_bind] at hs
    obtain ⟨node, -, hs⟩ := Option.bind_eq_some_iff.mp hs
    exact (Node.mem_of_find?_eq_some hs).2

end

theorem RecordSet.isInherited_distinct : IsInherited Distinct where
  single := distinct_single
  union _ hs _ := hs.union _
  difference hs other := hs.difference other

/-! ### Versioned zones -/

namespace VersionedZone

theorem wellFormed (z : VersionedZone) {a : VersionedAccess} (h : a.view.Solid)
    (hdistinct : FindsOnly RecordSet.Distinct z a) : WellFormed z a :=
  (z.shows a h.proper).wellFormed (fun _ _ => VersionedView.isEmpty_of_node? h.proper) h.filled
    hdistinct

end VersionedZone

/-- Every version of a zone in use is well formed, and so is what every transaction sees. -/
theorem ZoneConfig.wellFormed_usage (config : ZoneConfig) {actions : List Action}
    (h : ∀ a ∈ actions, a.Brings RecordSet.Distinct) :
    (∀ v ∈ (config.usage actions).zone.chain.toList,
      WellFormed (config.usage actions).zone (VersionedAccess.reading v)) ∧
    ∀ p ∈ (config.usage actions).txns, WellFormed (config.usage actions).zone p.txn.access := by
  have hsolid := config.holds_solid actions
  obtain ⟨hdistinct, hdistinct'⟩ :=
    config.findsOnly_usage RecordSet.isInherited_distinct h
  have hversion (v : Version) (hv : v ∈ (config.usage actions).zone.chain.toList) :
      WellFormed (config.usage actions).zone (VersionedAccess.reading v) :=
    VersionedZone.wellFormed _ (hsolid.versions v hv) (hdistinct v hv)
  refine ⟨hversion, fun p hp => ?_⟩
  cases haccess : p.txn.access with
  | reading v => exact hversion v ((config.pinned_usage actions).kept p hp v haccess)
  | writing d =>
      have hwriter := hsolid.writers p hp (Participant.writes_of_writing haccess) d haccess
      exact VersionedZone.wellFormed _ hwriter (haccess ▸ hdistinct' p hp)
  | ended =>
      have hblank : VersionedView.Solid .blank := ⟨trivial, fun _ _ _ hs => by cases hs⟩
      exact VersionedZone.wellFormed _ hblank fun _ _ _ hs => by cases hs

/-! ### Plain zones -/

namespace PlainZone

theorem Sound.wellFormed {z : PlainZone} (h : z.Sound) {a : PlainAccess} (ha : a.Proper)
    (hfilled : ∀ n key s, z.findIn? a n key = some s → s.isEmpty = false)
    (hdistinct : FindsOnly RecordSet.Distinct z a) : WellFormed z a :=
  (shows h.proper a ha).wellFormed (fun _ _ => isEmpty_of_nodeIn? h.proper) hfilled hdistinct

end PlainZone

/-- The content of a plain zone in use is well formed, and so is what every transaction sees. -/
theorem ZoneConfig.wellFormed_plainUsage (config : ZoneConfig) {actions : List PlainAction}
    (h : ∀ a ∈ actions, a.Brings RecordSet.Distinct) :
    WellFormed (config.plainUsage actions).zone PlainAccess.reading ∧
    ∀ t ∈ (config.plainUsage actions).txns,
      WellFormed (config.plainUsage actions).zone t.access := by
  have htended := config.sound_plainUsage actions
  have hsound := htended.good
  obtain ⟨hdistinct, hdistinct'⟩ :=
    config.findsOnly_plainUsage RecordSet.isInherited_distinct h
  have hnothing {a : PlainAccess} (ha : a.staging? = none) : a.Proper := by
    intro s hs
    cases ha.symm.trans hs
  have hreading : WellFormed (config.plainUsage actions).zone PlainAccess.reading :=
    hsound.wellFormed (hnothing rfl) hsound.filled hdistinct
  refine ⟨hreading, fun t ht => ?_⟩
  cases haccess : t.access with
  | reading => exact hreading
  | writing s =>
      have hwrites : t.writes = true := decide_eq_true (congrArg Access.mode haccess)
      have hready := htended.writers t ht hwrites
      rw [haccess] at hready
      exact hsound.wellFormed hready.proper (fun _ _ _ hs => hsound.stagesSets.filled hready hs)
        (haccess ▸ hdistinct' t ht)
  | ended => exact hsound.wellFormed (hnothing rfl) hsound.filled hdistinct

/-- Whatever is done to a zone through transactions and, if it is a plain one, directly, and as long
as the sets that are brought along hold no record twice: all versions are well formed, so is the
content of a plain zone, and so is what every transaction sees, with all that it has changed. -/
theorem ZoneConfig.content_well_formed (config : ZoneConfig) :
    (∀ actions : List Action, (∀ a ∈ actions, a.Brings RecordSet.Distinct) →
      (∀ v ∈ (config.usage actions).zone.chain.toList,
        WellFormed (config.usage actions).zone (VersionedAccess.reading v)) ∧
      ∀ p ∈ (config.usage actions).txns,
        WellFormed (config.usage actions).zone p.txn.access) ∧
    ∀ actions : List PlainAction, (∀ a ∈ actions, a.Brings RecordSet.Distinct) →
      WellFormed (config.plainUsage actions).zone PlainAccess.reading ∧
      ∀ t ∈ (config.plainUsage actions).txns,
        WellFormed (config.plainUsage actions).zone t.access :=
  ⟨fun _ => config.wellFormed_usage, fun _ => config.wellFormed_plainUsage⟩

namespace TwoRecords

open Sample SoleWriter

/-- Two records of one key. -/
def both : RecordSet := ⟨{ rtype := .txt }, .hour, [.txt [], .txt [[0x61]]]⟩

/-- Two records are added, one is taken away, and that is committed. -/
def calls : List Call :=
  [.edit (.addSet origin both), .edit (.deleteData origin (.txt []) true), .commit]

theorem content_well_formed_of_two_records :
    let actions : List Action := session 0 calls
    let plainActions : List PlainAction :=
      session 0 calls ++ [.change (.replaceSet origin both)]
    (∀ a ∈ actions, a.Brings RecordSet.Distinct) ∧
      (config.usage actions).zone.latest.id = ⟨2⟩ ∧
      WellFormed (config.usage actions).zone
        (VersionedAccess.reading (config.usage actions).zone.latest) ∧
      (∀ a ∈ plainActions, a.Brings RecordSet.Distinct) ∧
      (config.plainUsage plainActions).zone.generation = ⟨3⟩ ∧
      WellFormed (config.plainUsage plainActions).zone PlainAccess.reading := by
  intro actions plainActions
  have hboth : both.Distinct := by decide
  have hactions : ∀ a ∈ actions, a.Brings RecordSet.Distinct := by
    simp [actions, session, Actions.start, Actions.call, calls, Action.Brings, Call.Brings,
      Edit.Brings, hboth]
  have hplain : ∀ a ∈ plainActions, a.Brings RecordSet.Distinct := by
    simp [plainActions, session, Actions.start, Actions.call, calls, PlainAction.Brings,
      Call.Brings, Edit.Brings, PlainZone.DirectChange.Brings, hboth]
  obtain ⟨hversioned, hcontent⟩ := config.content_well_formed
  have hlatest : (config.usage actions).zone.latest ∈ (config.usage actions).zone.chain.toList :=
    List.mem_append_right _ (List.mem_singleton_self _)
  exact ⟨hactions, by decide, (hversioned actions hactions).1 _ hlatest, hplain, by decide,
    (hcontent plainActions hplain).1⟩

end TwoRecords

end DnsZone
