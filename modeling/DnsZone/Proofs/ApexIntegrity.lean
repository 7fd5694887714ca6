import DnsZone.Proofs.OriginIntegrity
import DnsZone.Proofs.Sample
import DnsZone.Proofs.Traffic.SoleWriter

/-!
# Zones that check their apex always have one

A zone that checks its apex refuses to commit changes that leave it without a start of authority or
without name servers. The check looks at what the writer sees, at the apex of the origin that the
writer goes by. If no transaction changes an origin that it knows, that is the apex of the zone as
well, and what the writer sees is what is stored. So from the first commit on there are record sets
for both at the apex, and they hold records.
-/

namespace DnsZone

open VersionedZone (Txn)

/-- Of the record sets that `find?` tells, those for the start of authority and the name servers at
the apex are there, and they hold records. -/
def HoldsApex (find? : Name → SetKey → Option RecordSet) (o : Origin) : Prop :=
  ∃ apex, o.apex? = some apex ∧
    ∀ key ∈ [SetKey.soa, .ns], ∃ s, find? apex key = some s ∧ s.isEmpty = false

namespace HoldsApex

variable {find? : Name → SetKey → Option RecordSet} {o : Origin}

/-- What is at the apex stays there when the zone learns its origin. -/
theorem learn (h : HoldsApex find? o) (learned? : Option Name) :
    HoldsApex find? (o.learn learned?) := by
  obtain ⟨apex, hapex, hsets⟩ := h
  exact ⟨apex, Origin.apex?_learn hapex learned?, hsets⟩

/-- The apex may be spelled in another way. -/
theorem alike (h : HoldsApex find? o)
    (hcongr : ∀ n n' key, (n == n') = true → find? n key = find? n' key) {o' : Origin}
    (halike : o.Alike o') : HoldsApex find? o' := by
  obtain ⟨apex, hapex, hsets⟩ := h
  obtain ⟨apex', hapex', hbeq⟩ := halike.apex?_eq_some hapex
  refine ⟨apex', hapex', fun key hkey => ?_⟩
  rw [← hcongr apex apex' key hbeq]
  exact hsets key hkey

end HoldsApex

/-! ### Writers of zones that check their apex -/

namespace Transaction

variable {ζ τ : Type} [Access τ] [Backend ζ τ] {z : ζ} {o : Origin} {t : Transaction τ}

/-- Changes without a fault at the apex leave both record sets there. -/
theorem found_of_apexFault? (h : t.apexFault? z = none)
    (hmode : Access.mode t.access = .writing) (hchecks : t.checksOrigin = true)
    (hchanged : Backend.changed z t.access = true) :
    ∃ apex, t.origin.apex? = some apex ∧
      ∀ key ∈ [SetKey.soa, .ns], (Backend.find? z t.access apex key).isSome = true := by
  have hreadOnly : t.isReadOnly = false := by
    rw [isReadOnly, hmode]
    rfl
  rw [apexFault?, hreadOnly, hchecks, hchanged] at h
  cases hapex : t.origin.apex? with
  | none =>
      rw [hapex] at h
      cases h
  | some apex =>
      simp only [hapex, Bool.not_true, Bool.or_false, Bool.false_eq_true, ↓reduceIte] at h
      refine ⟨apex, rfl, ?_⟩
      split at h
      · cases h
      · rename_i hsoa
        split at h
        · cases h
        · rename_i hns
          simpa [Option.isSome_iff_ne_none] using And.intro hsoa hns

/-- The writer goes by the origin of its zone and checks the apex. -/
structure MindsApex (o : Origin) (t : Transaction τ) : Prop where
  follows : t.FollowsOrigin o
  checks : t.checksOrigin = true

omit [Backend ζ τ] in
theorem mindsApex_ofWriter [Host ζ τ] (access : τ) (z : ζ) (h : Host.checksOrigin z = true) :
    (ofWriter access z).MindsApex (Host.origin z) :=
  ⟨Origin.alike_learn_none _, h⟩

theorem keeps_mindsApex (z : ζ) (o : Origin) :
    Keeps KeepsOrigin z fun t : Transaction τ => t.MindsApex o where
  adds := (keeps_followsOrigin z o).adds
  learns := (keeps_followsOrigin z o).learns
  apply t e r hkeeps hplan h :=
    ⟨(keeps_followsOrigin z o).apply t e r hkeeps hplan h.follows,
      (t.checksOrigin_apply r.1).trans h.checks⟩
  check _ _ h := ⟨h.follows, h.checks⟩

/-- If what the writer sees is stored as `find?` tells, the zone holds its apex. -/
theorem MindsApex.holdsApex (h : t.MindsApex o) (hmode : Access.mode t.access = .writing)
    (hchanged : Backend.changed z t.access = true) (hfault : t.apexFault? z = none)
    {find? : Name → SetKey → Option RecordSet}
    (hstored : ∀ n key, find? n key = Backend.find? z t.access n key)
    (hfilled : ∀ n key s, find? n key = some s → s.isEmpty = false)
    (hcongr : ∀ n n' key, (n == n') = true → find? n key = find? n' key) :
    HoldsApex find? (o.learn t.learned?) := by
  obtain ⟨apex, hapex, hfound⟩ := found_of_apexFault? hfault hmode h.checks hchanged
  refine HoldsApex.alike ⟨apex, hapex, fun key hkey => ?_⟩ hcongr h.follows
  obtain ⟨s, hs⟩ := Option.isSome_iff_exists.mp (hfound key hkey)
  have hs := (hstored apex key).trans hs
  exact ⟨s, hs, hfilled apex key s hs⟩

end Transaction

/-! ### Versioned zones -/

theorem Version.find?_congr (v : Version) {n n' : Name} (h : (n == n') = true) (key : SetKey) :
    v.find? n key = v.find? n' key := by
  rw [find?, find?, node?, node?, OrderedMap.find?_congr v.nodes (Name.compare_eq_iff.mpr h)]

namespace Usage

/-- No record set of the version is empty, and if it is not the first one, it holds the apex. -/
structure VersionHoldsApex (o : Origin) (v : Version) : Prop where
  solid : (VersionedView.committed v).Solid
  apex : 1 < v.id.val → HoldsApex v.find? o

theorem zoneInvariant_holdsApex :
    ZoneInvariant true Transaction.KeepsOrigin VersionHoldsApex
      fun o t => t.MindsApex o ∧ SeesSolid t where
  start z replacement hchecks h := by
    refine ⟨Transaction.mindsApex_ofWriter _ z hchecks, fun d hd => ?_⟩
    cases hd
    exact Draft.solid_start h.solid replacement
  keeps z o := (Transaction.keeps_mindsApex z o).and (keeps_seesSolid z)
  commit {z o t d} haccess hfault h v hv := by
    have hsolid := Draft.solid_version? (h.2 d haccess) hv
    have hmode : Access.mode t.access = .writing := by
      rw [haccess]
      rfl
    have hchanged : Backend.changed z t.access = true := by
      rw [haccess]
      exact Draft.changed_of_mem_version? hv
    refine ⟨hsolid, fun _ => ?_⟩
    refine h.1.holdsApex hmode hchanged hfault (fun n key => ?_) hsolid.filled fun n n' key hn => ?_
    · rw [VersionedZone.find?_of_writing z haccess]
      exact Draft.find?_version? hv n key
    · exact v.find?_congr hn key
  learn _ hv := ⟨hv.solid, fun hid => (hv.apex hid).learn _⟩

end Usage

theorem ZoneConfig.versions_hold_apex {config : ZoneConfig}
    (hchecks : config.checksOrigin = true) {events : List (Traffic.Event Action)}
    (hkeeps : config.unusedVersioned.AdmitsAll Transaction.KeepsOrigin events) :
    ∀ v ∈ (config.traffic events).zone.chain.toList, 1 < v.id.val →
      HoldsApex v.find? (config.traffic events).zone.origin := by
  obtain ⟨actions, hadmits, hresembles⟩ := config.exists_resembles_traffic events
  have hfirst : Usage.VersionHoldsApex ⟨config.origin?, config.relativize⟩ (.empty .first 0) :=
    ⟨VersionedView.solid_empty _ _, fun hid => absurd hid (Nat.lt_irrefl 1)⟩
  have hI : ZoneInvariant config.checksOrigin Transaction.KeepsOrigin Usage.VersionHoldsApex
      fun o t => t.MindsApex o ∧ Usage.SeesSolid t := hchecks ▸ Usage.zoneInvariant_holdsApex
  have hkeeps := hadmits Transaction.KeepsOrigin Transaction.keepsOrigin_of_ne hkeeps
  have hholds := holds_usage hI hfirst hkeeps
  have hzone : (config.usage actions).zone = (config.traffic events).zone := hresembles.zone
  rw [← hzone]
  exact fun v hv => (hholds.versions v hv).apex

/-! ### Plain zones -/

namespace PlainZone

theorem find?_congr (z : PlainZone) {n n' : Name} (h : (n == n') = true) (key : SetKey) :
    z.find? n key = z.find? n' key := by
  rw [find?_eq_bind, find?_eq_bind, OrderedMap.find?_congr z.nodes (Name.compare_eq_iff.mpr h)]

/-- The zone checks its apex, and since its first commit it has held it. -/
structure HoldsApexOnceUsed (z : PlainZone) : Prop where
  sound : z.Sound
  checks : z.checksOrigin = true
  apex : 1 < z.generation.val → HoldsApex z.find? z.origin

/-- A commit that finds no fault at the apex leaves a zone that holds it. -/
theorem HoldsApexOnceUsed.install {z : PlainZone} (h : z.HoldsApexOnceUsed)
    {t : Transaction PlainAccess} (ht : t.MindsApex z.origin) {s : Staging}
    (haccess : t.access = .writing s) (hsolid : s.Solid z.nodes)
    (hfault : t.apexFault? z = none) :
    ((z.learn t.learned?).install s).HoldsApexOnceUsed := by
  have hlearn : (z.learn t.learned?).Sound := ⟨h.sound.proper, h.sound.filled⟩
  have hsound := hlearn.install hsolid
  have hterms := terms_install (z.learn t.learned?) s
  have hchecks : ((z.learn t.learned?).install s).checksOrigin = z.checksOrigin :=
    congrArg Terms.checksOrigin hterms
  have horigin : ((z.learn t.learned?).install s).origin = z.origin.learn t.learned? :=
    congrArg Terms.origin hterms
  refine ⟨hsound, hchecks.trans h.checks, fun hgeneration => ?_⟩
  rw [horigin]
  cases hchanges : s.hasChanges z.nodes with
  | true =>
      have hmode : Access.mode t.access = .writing := by
        rw [haccess]
        rfl
      have hchanged : Backend.changed z t.access = true := by
        rw [haccess]
        exact hchanges
      refine ht.holdsApex hmode hchanged hfault (fun n key => ?_) hsound.filled
        fun n n' key hn => find?_congr _ hn key
      rw [haccess]
      exact find?_install hsolid.proper n key
  | false =>
      -- nothing is written, but the origin may be learned
      have hsame : (z.learn t.learned?).install s = z.learn t.learned? :=
        if_neg (Bool.eq_false_iff.mp hchanges)
      rw [hsame] at hgeneration ⊢
      exact (h.apex hgeneration).learn _

theorem plainInvariant_holdsApex :
    PlainInvariant Transaction.KeepsOrigin HoldsApexOnceUsed
      fun z t => t.MindsApex z.origin ∧ z.Ready t.access where
  lock h _ := ⟨⟨h.sound.proper, h.sound.filled⟩, h.checks, h.apex⟩
  start {z} h replacement :=
    ⟨Transaction.mindsApex_ofWriter _ z h.checks, h.sound.ready_start replacement⟩
  keeps z := (Transaction.keeps_mindsApex z z.origin).and z.keeps_ready
  change h c := ⟨⟨h.1.follows, h.1.checks⟩, h.2.stage c⟩
  commit {z t s} hz ht haccess hfault := by
    obtain ⟨s', hs', hsolid⟩ := ht.2
    cases haccess.symm.trans hs'
    exact hz.install ht.1 haccess hsolid hfault

end PlainZone

theorem ZoneConfig.plain_holds_apex {config : ZoneConfig} (hchecks : config.checksOrigin = true)
    {events : List (Traffic.Event PlainAction)}
    (hkeeps : config.unusedPlain.AdmitsAll Transaction.KeepsOrigin events) :
    1 < (config.plainTraffic events).zone.generation.val →
      HoldsApex (config.plainTraffic events).zone.find?
        (config.plainTraffic events).zone.origin := by
  have hfirst : config.emptyPlain.HoldsApexOnceUsed :=
    ⟨PlainZone.sound_create .., hchecks,
      fun hgeneration => absurd hgeneration (Nat.lt_irrefl 1)⟩
  exact (config.tended_plainTraffic PlainZone.plainInvariant_holdsApex
    Transaction.keepsOrigin_of_ne hfirst hkeeps).good.apex

/-! ### Both kinds -/

/-- If a zone checks its apex, then, whatever happens to it through transactions that do not change
an origin that they know, updaters and direct changes, every version but the first one holds records
for the start of authority and the name servers at the apex, and so does the content of a plain zone
from its first commit on. -/
theorem ZoneConfig.commits_hold_apex {config : ZoneConfig}
    (hchecks : config.checksOrigin = true) :
    (∀ events, config.unusedVersioned.AdmitsAll Transaction.KeepsOrigin events →
      ∀ v ∈ (config.traffic events).zone.chain.toList, 1 < v.id.val →
        HoldsApex v.find? (config.traffic events).zone.origin) ∧
    ∀ events, config.unusedPlain.AdmitsAll Transaction.KeepsOrigin events →
      1 < (config.plainTraffic events).zone.generation.val →
        HoldsApex (config.plainTraffic events).zone.find?
          (config.plainTraffic events).zone.origin :=
  ⟨fun _ => versions_hold_apex hchecks, fun _ => plain_holds_apex hchecks⟩

namespace ApexIntegrity

open Sample (origin soa)
open SoleWriter (Actions session)

def apex : List Record := [soa 1, ⟨origin, .internet, .zero, .ns origin⟩]

/-- A zone that checks its apex and learns its origin from the first records. -/
def config : ZoneConfig := { checksOrigin := true }

/-- A writer loads an apex and commits, and after it another one tries to commit an empty zone. -/
def sessions {α : Type} [Actions α] : List (Traffic.Event α) :=
  (session 0 [.load .internet apex, .commit] ++ session 1 [.edit .deleteAll, .commit]).map .act

theorem commits_hold_apex_of_loaded :
    let events : List (Traffic.Event Action) := sessions
    let events' : List (Traffic.Event PlainAction) := sessions
    config.checksOrigin = true ∧
      config.unusedVersioned.AdmitsAll Transaction.KeepsOrigin events ∧
      (config.traffic events).zone.latest.id = ⟨2⟩ ∧
      HoldsApex (config.traffic events).zone.latest.find? (config.traffic events).zone.origin ∧
      config.unusedPlain.AdmitsAll Transaction.KeepsOrigin events' ∧
      (config.plainTraffic events').zone.generation = ⟨2⟩ ∧
      HoldsApex (config.plainTraffic events').zone.find?
        (config.plainTraffic events').zone.origin := by
  intro events events'
  have hversioned : config.unusedVersioned.AdmitsAll Transaction.KeepsOrigin events := by
    refine ⟨trivial, trivial, fun p _ e he => ?_, fun p _ e he => ?_, trivial, trivial,
      fun p _ e he => ?_, fun p _ e he => ?_, trivial⟩
    all_goals cases he
    exact Transaction.keepsOrigin_of_ne _ _ nofun
  have hplain : config.unusedPlain.AdmitsAll Transaction.KeepsOrigin events' := by
    refine ⟨trivial, fun t _ e he => ?_, fun t _ e he => ?_, trivial, fun t _ e he => ?_,
      fun t _ e he => ?_, trivial⟩
    all_goals cases he
    exact Transaction.keepsOrigin_of_ne _ _ nofun
  have hversion : (config.traffic events).zone.latest.id = ⟨2⟩ := by decide
  have hgeneration : (config.plainTraffic events').zone.generation = ⟨2⟩ := by decide
  have hchecks : config.checksOrigin = true := rfl
  obtain ⟨hversions, hcontent⟩ := ZoneConfig.commits_hold_apex hchecks
  refine ⟨hchecks, hversioned, hversion, hversions events hversioned _ ?_ ?_, hplain, hgeneration,
    hcontent events' hplain ?_⟩
  · exact List.mem_append_right _ (List.mem_singleton_self _)
  · rw [hversion]
    decide
  · rw [hgeneration]
    decide

end ApexIntegrity

end DnsZone
