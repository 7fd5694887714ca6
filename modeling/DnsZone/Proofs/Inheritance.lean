import DnsZone.Proofs.OpenWriter
import DnsZone.Proofs.VersionedZone.Snapshots

/-!
# What stored record sets inherit

A zone stores the record sets that callers bring along, sets of single records, and what comes of
either when records of the same key are added or some are taken away. So a property that this leaves
intact is one of every record set that is ever found, in each version, by each transaction and in a
plain zone, as long as the sets have it that callers bring along.
-/

namespace DnsZone

open VersionedZone (Txn)

/-- Single records have the property as a set, and sets pass it on when records of the same key are
added or some are taken away. -/
structure RecordSet.IsInherited (P : RecordSet → Prop) : Prop where
  single (ttl : Ttl) (d : RecordData) : P (single ttl d)
  union {s other : RecordSet} (hkey : s.key = other.key) (hs : P s) (hother : P other) :
    P (s.union other)
  difference {s : RecordSet} (hs : P s) (other : RecordSet) : P (s.difference other)

/-! ### What callers bring along -/

section

variable (P : RecordSet → Prop)

/-- The record set that an edit brings along, if any, has the property. -/
def Edit.Brings : Edit → Prop
  | .addSet _ s => P s
  | .replace _ s => P s
  | _ => True

def Call.Brings : Call → Prop
  | .edit e => e.Brings P
  | _ => True

def Action.Brings : Action → Prop
  | .call _ c => c.Brings P
  | _ => True

def PlainZone.DirectChange.Brings : PlainZone.DirectChange → Prop
  | .replaceSet _ s => P s
  | _ => True

def PlainAction.Brings : PlainAction → Prop
  | .call _ c => c.Brings P
  | .change c => c.Brings P
  | _ => True

/-- All record sets that are found have the property. -/
def FindsOnly {ζ τ : Type} [Access τ] [Backend ζ τ] (z : ζ) (a : τ) : Prop :=
  ∀ n key s, Backend.find? z a n key = some s → P s

end

variable {P : RecordSet → Prop}

theorem Usage.admitsAll_of_brings {actions : List Action} (h : ∀ a ∈ actions, a.Brings P)
    (u : Usage) : u.AdmitsAll (fun _ e => e.Brings P) actions := by
  induction actions generalizing u with
  | nil => trivial
  | cons a rest ih =>
      obtain ⟨ha, hrest⟩ := List.forall_mem_cons.mp h
      refine ⟨?_, ih hrest _⟩
      cases a with
      | call i c =>
          rintro p - e rfl
          exact ha
      | _ => trivial

theorem PlainUsage.admits_of_brings {a : PlainAction} (h : a.Brings P) (u : PlainUsage) :
    u.Admits (fun _ e => e.Brings P) a := by
  cases a with
  | call i c =>
      rintro t - e rfl
      exact h
  | _ => trivial

/-! ### What an edit stores -/

namespace Transaction

variable {ζ τ : Type} [Access τ] [Backend ζ τ] {z : ζ} {t : Transaction τ}

omit [Access τ] [Backend ζ τ] in
theorem inherits_of_planPut {n m : Name} {s s' : RecordSet}
    (h : t.planPut n s = .ok (.put m s')) (hs : P s) : P s' := by
  cases planPut_eq_ok h
  exact hs

theorem not_put_of_planEraseSet {n m : Name} {key : SetKey} {strict : Bool} {s : RecordSet} :
    t.planEraseSet z n key strict ≠ .ok (.put m s) := by
  rw [planEraseSet]
  intro h
  repeat' split at h
  all_goals cases h

section

variable (hP : RecordSet.IsInherited P) (hz : FindsOnly P z t.access)
  (hkey : ∀ {n key s}, Backend.find? z t.access n key = some s → s.key = key)
include hP hz

include hkey in
theorem inherits_of_planAddSet {n m : Name} {s s' : RecordSet}
    (h : t.planAddSet z n s = .ok (.put m s')) (hs : P s) : P s' := by
  obtain ⟨-, n', -, h⟩ := exists_target h
  split at h
  · cases h
  · split at h
    · exact inherits_of_planPut h hs
    · rename_i old hold
      split at h
      · cases h
      · exact inherits_of_planPut h (hP.union (hkey hold) (hz _ _ old hold) hs)

theorem inherits_of_planDeleteRecords {n m : Name} {s s' : RecordSet} {strict : Bool}
    (h : t.planDeleteRecords z n s strict = .ok (.put m s')) : P s' := by
  obtain ⟨-, n', -, h⟩ := exists_target h
  split at h
  · split at h <;> cases h
  · rename_i old hold
    split at h
    · cases h
    · split at h
      · exact absurd h not_put_of_planEraseSet
      · split at h
        · cases h
        · exact inherits_of_planPut h (hP.difference (hz _ _ old hold) s)

end

theorem inherits_of_planReplace {n m : Name} {s s' : RecordSet}
    (h : t.planReplace z n s = .ok (.put m s')) (hs : P s) : P s' := by
  obtain ⟨-, n', -, h⟩ := exists_target h
  split at h
  · exact absurd h not_put_of_planEraseSet
  · exact inherits_of_planPut h hs

theorem inherits_of_planUpdateSerial (hP : RecordSet.IsInherited P) {value : UInt32}
    {relative : Bool} {n? : Option Name} {m : Name} {s : RecordSet} {serial : Serial}
    (h : t.planUpdateSerial z value relative n? = .ok (.put m s, serial)) : P s := by
  obtain ⟨-, m', ttl, d, -, hput⟩ := exists_planPut_of_planUpdateSerial h
  exact inherits_of_planPut hput (hP.single ttl d)

/-- What an edit stores is brought along, is a set that was found with records added or taken away,
or is a single record. -/
theorem inherits_of_plan (hP : RecordSet.IsInherited P) (hz : FindsOnly P z t.access)
    (hkey : ∀ {n key s}, Backend.find? z t.access n key = some s → s.key = key) {e : Edit}
    {m : Name} {s : RecordSet} {serial? : Option Serial}
    (h : t.plan z e = .ok (.put m s, serial?)) (he : e.Brings P) : P s := by
  have hmap {x : Except ZoneError Change} (h : x.map (·, none) = .ok (.put m s, serial?)) :
      x = .ok (.put m s) := by
    obtain ⟨c, hc, heq⟩ := map_eq_ok_iff.mp h
    cases heq
    exact hc
  cases e with
  | addData n ttl d => exact inherits_of_planAddSet hP hz hkey (hmap h) (hP.single ttl d)
  | addRecord r => exact inherits_of_planAddSet hP hz hkey (hmap h) (hP.single r.ttl r.data)
  | addSet n s' => exact inherits_of_planAddSet hP hz hkey (hmap h) he
  | replace n s' => exact inherits_of_planReplace (hmap h) he
  | deleteRecords n s' strict => exact inherits_of_planDeleteRecords hP hz (hmap h)
  | deleteData n d strict => exact inherits_of_planDeleteRecords hP hz (hmap h)
  | deleteSet n key strict =>
      obtain ⟨-, n', -, h⟩ := exists_target (hmap h)
      exact absurd h not_put_of_planEraseSet
  | updateSerial value relative n? =>
      obtain ⟨⟨c, serial⟩, hr, heq⟩ := map_eq_ok_iff.mp h
      cases heq
      exact inherits_of_planUpdateSerial hP hr
  | deleteAll =>
      obtain ⟨_, _, heq⟩ := map_eq_ok_iff.mp h
      cases heq
  | deleteName n strict =>
      obtain ⟨-, n', -, h⟩ := exists_target (hmap h)
      repeat' split at h
      all_goals cases h
  | setOrigin origin =>
      rcases plan_cases h with ⟨_, htargets, _⟩ | ⟨he, _⟩ | ⟨_, _, horigin⟩
      · exact htargets.elim
      · cases he
      · cases horigin

/-- A writer finds only sets with the property if it has found only such before it made a change. -/
theorem ActsOnSets.findsOnly_apply (h : t.ActsOnSets z) (hP : RecordSet.IsInherited P)
    (hz : FindsOnly P z t.access) {e : Edit} {r : Change × Option Serial}
    (hplan : t.plan z e = .ok r) (he : e.Brings P) : FindsOnly P z (t.apply r.1).access := by
  intro n key s hs
  obtain ⟨c, serial?⟩ := r
  rcases h.stored_of_apply (plan_eq_ok hplan).2 (sound_of_plan hplan) hs with hbefore | ⟨m, rfl, -⟩
  · exact hz n key s hbefore
  · exact inherits_of_plan hP hz h.key_eq hplan he

/-- Whatever writers stage their changes in, they go on to find only sets with the property. -/
theorem StagesSets.keeps_findsOnly {good : τ → Prop} (laws : StagesSets z good)
    (hP : RecordSet.IsInherited P) :
    Keeps (fun _ e => e.Brings P) z fun t => good t.access ∧ FindsOnly P z t.access where
  adds _ _ := trivial
  learns _ _ _ := trivial
  check _ _ h := h
  apply _ _ _ he hplan h :=
    ⟨laws.good_apply h.1 (plan_eq_ok hplan).2 (sound_of_plan hplan),
      ActsOnSets.findsOnly_apply ⟨good, laws, h.1⟩ hP h.2 hplan he⟩

end Transaction

/-! ### Versioned zones -/

namespace VersionedZone

/-- What holds of the versions of a zone and of its writers. -/
theorem zoneInvariant_findsOnly {checks : Bool} (hP : RecordSet.IsInherited P) :
    ZoneInvariant checks (fun _ e => e.Brings P)
      (fun _ v => (VersionedView.committed v).Solid ∧ ∀ n key s, v.find? n key = some s → P s)
      (fun _ t => (∃ d, t.access = .writing d ∧ d.view.Solid ∧ True) ∧
        ∀ n key s, t.access.view.find? n key = some s → P s) where
  start z replacement _ h := by
    refine ⟨⟨_, rfl, Draft.solid_start h.1 replacement, trivial⟩, fun n key s hs => ?_⟩
    cases replacement with
    | true => cases hs
    | false => exact h.2 n key s hs
  keeps z _ := (Ledger.Mirrors.laws z).keeps_findsOnly hP
  commit {z o t d} haccess _ h v hv := by
    obtain ⟨⟨d', hd', hsolid, -⟩, hfinds⟩ := h
    cases haccess.symm.trans hd'
    refine ⟨Draft.solid_version? hsolid hv, fun n key s hs => hfinds n key s ?_⟩
    rw [haccess]
    exact (Draft.find?_version? hv n key).symm.trans hs
  learn _ h := h

end VersionedZone

/-- In every version of a zone in use, and in every transaction, only sets with the property are
found. -/
theorem ZoneConfig.findsOnly_usage (hP : RecordSet.IsInherited P) (config : ZoneConfig)
    {actions : List Action} (h : ∀ a ∈ actions, a.Brings P) :
    (∀ v ∈ (config.usage actions).zone.chain.toList,
      FindsOnly P (config.usage actions).zone (VersionedAccess.reading v)) ∧
    ∀ p ∈ (config.usage actions).txns, FindsOnly P (config.usage actions).zone p.txn.access := by
  have hholds : (config.usage actions).Holds config.checksOrigin _ _ :=
    ZoneConfig.holds_usage (VersionedZone.zoneInvariant_findsOnly hP)
      ⟨VersionedView.solid_empty _ _, fun _ _ _ hs => by cases hs⟩
      (Usage.admitsAll_of_brings h config.unused)
  have hversion (v : Version) (hv : v ∈ (config.usage actions).zone.chain.toList) :
      FindsOnly P (config.usage actions).zone (VersionedAccess.reading v) :=
    (hholds.versions v hv).2
  refine ⟨hversion, fun p hp => ?_⟩
  cases haccess : p.txn.access with
  | reading v => exact hversion v ((config.pinned_usage actions).kept p hp v haccess)
  | writing d =>
      have hwriter := (hholds.writers p hp (Participant.writes_of_writing haccess)).2
      rwa [haccess] at hwriter
  | ended => exact fun _ _ _ hs => by cases hs

/-! ### Plain zones -/

namespace PlainZone

theorem findsOnly_start {z : PlainZone} (h : FindsOnly P z PlainAccess.reading)
    (replacement : Bool) (supply : Nat) :
    FindsOnly P z (PlainAccess.writing (.start replacement supply)) := by
  intro n key s hs
  cases replacement with
  | true => cases hs
  | false => exact h n key s ((z.find?_eq_bind n key).trans hs)

/-- What a direct change stages is brought along, or was found before. -/
theorem findsOnly_stage {z : PlainZone} {a : PlainAccess} (ha : z.Ready a)
    (h : FindsOnly P z a) {c : DirectChange} (hc : c.Brings P) : FindsOnly P z (c.stage a) := by
  obtain ⟨s, rfl, -⟩ := ha
  have heraseSet (n : Name) (key : SetKey) :
      FindsOnly P z (PlainAccess.writing (s.eraseSet n key)) := fun m key' set hset => by
    have hfind := (s.find?_eraseSet z.nodes n m key key').symm.trans hset
    split at hfind
    · cases hfind
    · exact h m key' set hfind
  cases c with
  | replaceSet n set =>
      rw [DirectChange.stage]
      split
      · exact heraseSet n set.key
      · intro m key set' hset'
        have hfind := (s.find?_put z.nodes n m set key).symm.trans hset'
        split at hfind
        · cases hfind
          exact hc
        · exact h m key set' hfind
  | deleteSet n key => exact heraseSet n key
  | deleteNode n =>
      intro m key set hset
      have hfind := (s.find?_eraseName z.nodes n m key).symm.trans hset
      split at hfind
      · cases hfind
      · exact h m key set hfind

/-- What transactions keep of a plain zone and its writer. -/
theorem plainWriterInvariant_findsOnly (hP : RecordSet.IsInherited P) :
    PlainWriterInvariant (fun _ e => e.Brings P)
      (fun z => z.Sound ∧ FindsOnly P z PlainAccess.reading)
      (fun z t => z.Sound ∧ z.Ready t.access ∧ FindsOnly P z t.access) where
  lock h _ := ⟨⟨h.1.proper, h.1.filled⟩, h.2⟩
  start {z} h replacement := ⟨h.1, h.1.ready_start replacement, findsOnly_start h.2 replacement _⟩
  keeps z :=
    { adds := fun _ _ => trivial
      learns := fun _ _ _ => trivial
      check := fun _ _ h => h
      apply := fun t e r he hplan h =>
        ⟨h.1, (h.1.stagesSets.keeps_findsOnly hP).apply t e r he hplan h.2⟩ }
  commit {z t s} hz ht haccess _ := by
    obtain ⟨-, ⟨s', hs', hsolid⟩, hfinds⟩ := ht
    cases haccess.symm.trans hs'
    have hlearn : (z.learn t.learned?).Sound := ⟨hz.1.proper, hz.1.filled⟩
    have hinstall := (z.learn t.learned?).find?_install hsolid.proper
    refine ⟨hlearn.install hsolid, fun n key set hset => hfinds n key set ?_⟩
    rw [haccess]
    exact (hinstall n key).symm.trans hset

end PlainZone

/-- In the content of a plain zone in use, and in every transaction, only sets with the property are
found. -/
theorem ZoneConfig.findsOnly_plainUsage (hP : RecordSet.IsInherited P) (config : ZoneConfig)
    {actions : List PlainAction} (h : ∀ a ∈ actions, a.Brings P) :
    FindsOnly P (config.plainUsage actions).zone PlainAccess.reading ∧
    ∀ t ∈ (config.plainUsage actions).txns,
      FindsOnly P (config.plainUsage actions).zone t.access := by
  have hfirst : config.emptyPlain.Sound ∧ FindsOnly P config.emptyPlain PlainAccess.reading :=
    ⟨PlainZone.sound_create .., fun _ _ _ hs => by cases hs⟩
  have htended := config.tended_plainUsage (PlainZone.plainWriterInvariant_findsOnly hP) hfirst
    (fun a ha => PlainUsage.admits_of_brings (h a ha))
    fun c hc {z t} ⟨hz, hready, hfinds⟩ =>
      ⟨hz, hready.stage c, PlainZone.findsOnly_stage hready hfinds (h _ hc)⟩
  have hreading := htended.good.2
  refine ⟨hreading, fun t ht => ?_⟩
  cases haccess : t.access with
  | reading => exact hreading
  | writing s =>
      have hwrites : t.writes = true := decide_eq_true (congrArg Access.mode haccess)
      have hwriter := (htended.writers t ht hwrites).2.2
      rwa [haccess] at hwriter
  | ended => exact hreading

end DnsZone
