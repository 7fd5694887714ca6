import DnsZone.Proofs.Transaction.Origin
import DnsZone.Proofs.VersionChain
import DnsZone.Proofs.VersionedZone.Writers

/-!
# What holds of all versions and all writers of a zone in use

A property of the versions of a zone holds at all times if it holds of the first one and goes from
the latest version to a writer that is started on it, through every edit of the writer, and on to
the version that it commits. Both may depend on the origin of the zone, which a commit can set. Not
every edit need be admitted; then the property holds after such actions only as keep to those that
are.
-/

namespace DnsZone

open VersionedZone (Txn)

/-- What holds of versions by `V` and of open writers by `W`, under the origin of the zone, if that
checks or does not check what a commit leaves at its apex. -/
structure ZoneInvariant (checks : Bool) (A : Txn → Edit → Prop) (V : Origin → Version → Prop)
    (W : Origin → Txn → Prop) : Prop where
  start (z : VersionedZone) (replacement : Bool) :
    z.checksOrigin = checks → V z.origin z.latest → W z.origin (z.startWriter replacement)
  keeps (z : VersionedZone) (o : Origin) : Transaction.Keeps A z (W o)
  commit {z : VersionedZone} {o : Origin} {t : Txn} {d : Draft} : t.access = .writing d →
    t.apexFault? z = none → W o t → ∀ v ∈ d.version?, V (o.learn t.learned?) v
  learn {o : Origin} {t : Txn} {v : Version} : W o t → V o v → V (o.learn t.learned?) v

namespace Usage

/-- All versions of the zone and all open writers on it are as they should be. -/
structure Holds (checks : Bool) (V : Origin → Version → Prop) (W : Origin → Txn → Prop)
    (u : Usage) : Prop where
  checks_eq : u.zone.checksOrigin = checks
  versions : ∀ v ∈ u.zone.chain.toList, V u.zone.origin v
  writers : ∀ p ∈ u.txns, p.writes = true → W u.zone.origin p.txn

/-- An action that makes only edits that are admitted. -/
def Admits (A : Txn → Edit → Prop) (u : Usage) : Action → Prop
  | .call i c => ∀ p, u.txns[i]? = some p → p.txn.Admits A c
  | _ => True

/-- Actions each of which makes only edits that are admitted when its turn comes. -/
def AdmitsAll (A : Txn → Edit → Prop) (u : Usage) : List Action → Prop
  | [] => True
  | a :: rest => u.Admits A a ∧ (u.step a).AdmitsAll A rest

theorem admitsAll_of_forall {A : Txn → Edit → Prop} (hA : ∀ t e, A t e) (u : Usage)
    (actions : List Action) : u.AdmitsAll A actions := by
  induction actions generalizing u with
  | nil => trivial
  | cons a rest ih =>
      refine ⟨?_, ih _⟩
      cases a <;> simp [Admits, Transaction.Admits, hA]

namespace Holds

variable {checks : Bool} {A : Txn → Edit → Prop} {V : Origin → Version → Prop}
  {W : Origin → Txn → Prop} {u : Usage}

theorem latest (h : u.Holds checks V W) : V u.zone.origin u.zone.latest :=
  h.versions _ (List.mem_append_right _ (List.mem_singleton_self _))

theorem quiet (hI : ZoneInvariant checks A V W) (h : u.Holds checks V W) {u' : Usage}
    (hquiet : u.Quiet u') : u'.Holds checks V W := by
  cases hquiet with
  | turns => exact ⟨h.checks_eq, h.versions, h.writers⟩
  | policy => exact ⟨h.checks_eq, h.versions, h.writers⟩
  | begins replacement =>
      refine ⟨h.checks_eq, h.versions, fun p hp hwrites => ?_⟩
      rcases List.mem_append.mp hp with hp | hp
      · exact h.writers p hp hwrites
      · cases List.mem_singleton.mp hp
        exact hI.start u.zone replacement h.checks_eq h.latest
  | reads =>
      refine ⟨h.checks_eq, h.versions, fun p hp hwrites => ?_⟩
      rcases List.mem_append.mp hp with hp | hp
      · exact h.writers p hp hwrites
      · cases List.mem_singleton.mp hp
        cases hwrites

/-- A transaction goes on, and the zone stays as it is. -/
theorem goesOn (h : u.Holds checks V W) {i : Nat} {p' : Participant}
    (hp' : p'.writes = true → W u.zone.origin p'.txn) (committed : List Script)
    (history : List Version) :
    Holds checks V W
      { u with txns := u.txns.set i p', committed := committed, history := history } := by
  refine ⟨h.checks_eq, h.versions, fun q hq hwrites => ?_⟩
  rcases List.mem_or_eq_of_mem_set hq with hq | rfl
  · exact h.writers q hq hwrites
  · exact hp' hwrites

/-- A transaction ends, and with it the writer if it was one. -/
theorem close (hI : ZoneInvariant checks A V W) (h : u.Holds checks V W) (hw : u.Writers)
    {i : Nat} {p p' : Participant} (hp : u.txns[i]? = some p) (hopen : p.txn.isEnded = false)
    (hp' : p'.writes = false) (commit : Bool)
    (hfault : commit = true → p.txn.apexFault? u.zone = none) (committed : List Script)
    (history : List Version) :
    Holds checks V W
      { u with
        zone := (p.txn.close commit u.zone).2.2
        txns := u.txns.set i p'
        committed := committed
        history := history } := by
  cases haccess : p.txn.access with
  | ended =>
      rw [Transaction.isEnded, haccess] at hopen
      cases hopen
  | reading v =>
      have hzone : (p.txn.close commit u.zone).2.2 = u.zone.unpin v.id := by
        change (u.zone.finish commit _ p.txn.access).2 = _
        rw [haccess, VersionedZone.finish, if_pos hw.alive]
      rw [hzone]
      refine ⟨h.checks_eq, fun w hw => ?_, fun q hq hwrites => ?_⟩
      · exact h.versions w ((VersionChain.toList_prune_suffix _ _ _).subset hw)
      · rcases List.mem_or_eq_of_mem_set hq with hq | rfl
        · exact h.writers q hq hwrites
        · rw [hp'] at hwrites
          cases hwrites
  | writing d =>
      have hwriting : p.writes = true := by simp [Participant.writes, haccess, Access.mode,
        VersionedAccess.mode]
      have hnone := (hw.no_other_writer hp hwriting hp').2
      have hwriters (q : Participant) (hq : q ∈ u.txns.set i p') : ¬ q.writes = true :=
        List.countP_eq_zero.mp hnone q hq
      have hW := h.writers p (List.mem_of_getElem? hp) hwriting
      rw [VersionedZone.close_of_writing hw.alive haccess]
      cases commit with
      | false =>
          exact ⟨h.checks_eq, h.versions, fun q hq hwrites => absurd hwrites (hwriters q hq)⟩
      | true =>
          refine ⟨(u.zone.checksOrigin_install d _).trans h.checks_eq, fun v hv => ?_,
            fun q hq hwrites => absurd hwrites (hwriters q hq)⟩
          have horigin : (u.zone.install d p.txn.learned?).origin =
              u.zone.origin.learn p.txn.learned? := u.zone.origin_install d _
          have hv : v ∈ (u.zone.install d p.txn.learned?).chain.toList := hv
          change V (u.zone.install d p.txn.learned?).origin v
          rw [VersionedZone.install_eq] at hv
          have hv := (VersionChain.toList_prune_suffix _ _ _).subset hv
          rw [VersionedZone.toList_append] at hv
          rw [horigin]
          rcases List.mem_append.mp hv with hv | hv
          · exact hI.learn hW (h.versions v hv)
          · exact hI.commit haccess (hfault rfl) hW v (Option.mem_toList.mp hv)

theorem call (hI : ZoneInvariant checks A V W) (h : u.Holds checks V W) (hw : u.Writers)
    {i : Nat} {p : Participant} (hp : u.txns[i]? = some p) {c : Call} (hA : p.txn.Admits A c) :
    (u.call i p c).Holds checks V W := by
  rw [Usage.call]
  by_cases hends : p.txn.ends c = true
  · have hopen := Transaction.isEnded_of_ends hends
    rw [Transaction.call_of_ends hends]
    exact h.close hI hw hp hopen rfl _ Transaction.apexFault?_of_commits _ _
  · have hends := Bool.eq_false_iff.mpr hends
    obtain ⟨hzone, hedited⟩ := Transaction.call_of_not_ends (z := u.zone) hends
    rw [hzone]
    refine h.goesOn (fun hwrites => ?_) _ _
    have hwriting : p.writes = true := by
      rw [Participant.writes, ← VersionedZone.mode_of_edited hedited]
      exact hwrites
    exact (hI.keeps u.zone _).call (h.writers p (List.mem_of_getElem? hp) hwriting) hA hends

theorem drop (hI : ZoneInvariant checks A V W) (h : u.Holds checks V W) (hw : u.Writers)
    {i : Nat} {p : Participant} (hp : u.txns[i]? = some p) : (u.drop i p).Holds checks V W := by
  rw [Usage.drop, Transaction.drop]
  split
  · exact h.goesOn (fun hwrites => by cases hwrites) _ _
  · rename_i hopen
    exact h.close hI hw hp (Bool.eq_false_iff.mpr hopen) rfl false
      (fun hcommit => by cases hcommit) _ _

theorem step (hI : ZoneInvariant checks A V W) (h : u.Holds checks V W) (hw : u.Writers)
    {a : Action} (hA : u.Admits A a) : (u.step a).Holds checks V W := by
  cases a with
  | call i c =>
      rw [Usage.step]
      split
      · exact h
      · rename_i p hp
        exact h.call hI hw hp (hA p hp)
  | drop i =>
      rw [Usage.step]
      split
      · exact h
      · rename_i p hp
        exact h.drop hI hw hp
  | _ => exact h.quiet hI (quiet_step u rfl)

theorem run (hI : ZoneInvariant checks A V W) (h : u.Holds checks V W) (hw : u.Writers)
    {actions : List Action} (hA : u.AdmitsAll A actions) : (u.run actions).Holds checks V W := by
  induction actions generalizing u with
  | nil => exact h
  | cons a rest ih => exact ih (h.step hI hw hA.1) (hw.effect (effect_step u a)) hA.2

end Holds

end Usage

/-- A zone in use, before anybody has used it. -/
def ZoneConfig.unused (config : ZoneConfig) : Usage :=
  .fresh (.create config.origin? config.cls config.relativize config.checksOrigin config.policy)

/-- What holds of the empty first version and is kept holds however the zone is used. -/
theorem ZoneConfig.holds_usage {A : Txn → Edit → Prop} {V : Origin → Version → Prop}
    {W : Origin → Txn → Prop} {config : ZoneConfig}
    (hI : ZoneInvariant config.checksOrigin A V W)
    (hfirst : V ⟨config.origin?, config.relativize⟩ (.empty .first 0)) {actions : List Action}
    (hA : config.unused.AdmitsAll A actions) :
    (config.usage actions).Holds config.checksOrigin V W := by
  refine Usage.Holds.run hI ⟨rfl, fun v hv => ?_, fun p hp => by cases hp⟩
    (Usage.writers_fresh rfl rfl) hA
  cases List.mem_singleton.mp hv
  exact hfirst

end DnsZone
