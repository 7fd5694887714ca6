import DnsZone.Proofs.PlainZone.Traffic
import DnsZone.Proofs.Traffic.Orderly
import DnsZone.Proofs.VersionedZone.Traffic

/-!
# Transfers are applied batch by batch or not at all

An updater that fails leaves the zone as it was before and gives write access up, on versioned and
on plain zones and whatever has happened to them before. If nobody else writes, the content of the
zone is at all times that of the beginning with all updates applied that came before the last
commit: before the last batch that was begun, or up to the last update of the stream.
-/

namespace DnsZone

open Updater (Account CommitPoint)

namespace Traffic

variable {υ ζ τ α : Type} [Access τ] [Host ζ τ] [DirectStore ζ] [Storage ζ τ] [Crowd υ ζ τ α]
  [OrderlyCrowd υ ζ τ α]

/-- What updaters do to a zone in which a writer that ends without a commit does just `release`.
That somebody has write access is told by `held`, and which record sets are stored by `content`. -/
structure Atomic (release : ζ → ζ) (held : ζ → Bool) (content : ζ → SetTable)
    (t : Traffic υ τ) : Prop where
  fails : ∀ u ∈ t.updaters, u.FailsCleanly release t.zone
  gives_up : ∀ u ∈ t.updaters, u.holdsAccess = true →
    held t.zone = true ∧ held (release t.zone) = false
  /-- If an updater is started now and nobody else writes later, readers see what it has committed,
  as told from what came of its updates. -/
  publishes : (Crowd.enlist? t.users).isSome = true →
    ∀ later : List (Event α), (∀ e ∈ later, e.isQuiet υ t.updaters.length = true) →
      let begun := t.step (.start : Event α)
      let log := begun.log t.updaters.length later
      CommitPoint log (Account.ofLog log).committed ∧
        Host.Shows (begun.run later).zone ((⟨Host.origin t.zone, {}, content t.zone⟩ :
          Ledger).afterAll (Account.ofLog log).committed).table

/-- An updater is started while nobody writes. -/
theorem alone_start {t : Traffic υ τ} (hz : Storage.Sound t.zone) (hupdaters : t.UpdatersWrite)
    (hidle : ∀ w ∈ t.txns, w.writes = false) {m : SetTable} (hm : DirectStore.Has t.zone m)
    (henlist : (Crowd.enlist? t.users).isSome = true) :
    (t.step (.start : Event α)).Alone t.updaters.length ⟨Host.origin t.zone, {}, m⟩ {} := by
  obtain ⟨⟨w, users⟩, henlist⟩ := Option.isSome_iff_exists.mp henlist
  have hstart : t.step (.start : Event α) = ⟨users, t.updaters ++ [⟨some w, false⟩]⟩ := by
    rw [step, henlist]
  rw [hstart]
  refine ⟨?_, fun j u hj hu w' hw' => ?_, ⟨some w, false⟩, ?_, ?_⟩
  · rw [OrderlyCrowd.txns_enlist henlist]
    exact fun w' hw' => hidle w' (List.mem_append_left _ hw')
  · have hmem : u ∈ t.updaters := by
      rcases Nat.lt_or_gt_of_ne hj with hlt | hgt
      · exact List.mem_of_getElem? ((List.getElem?_append_left hlt).symm.trans hu)
      · rw [List.getElem?_eq_none (List.length_append ▸ hgt)] at hu
        cases hu
    have hwrites := hidle w' (List.mem_append_right _ (List.mem_filterMap.mpr ⟨u, hmem, hw'⟩))
    rw [Transaction.writes_eq (hupdaters u hmem w' hw')] at hwrites
    simpa using hwrites
  · rw [List.getElem?_append_right (Nat.le_refl _), Nat.sub_self]
    rfl
  · exact .start hm (OrderlyCrowd.starts hz henlist)

/-- Updaters are atomic where zones are sound and writers exclude each other. -/
theorem atomic_of_exclusive {release : ζ → ζ} {held : ζ → Bool} {content : ζ → SetTable}
    {t : Traffic υ τ} (hz : Storage.Sound t.zone) (hreleases : Host.Releases release t.zone)
    (hcontent : DirectStore.Has t.zone (content t.zone)) (hupdaters : t.UpdatersWrite)
    (hheld : ∀ w ∈ t.txns, w.writes = true → held t.zone = true)
    (hrelease : held (release t.zone) = false)
    (hidle : (Crowd.enlist? t.users).isSome = true → ∀ w ∈ t.txns, w.writes = false) :
    t.Atomic release held content where
  fails u hu := Updater.failsCleanly hreleases (hupdaters u hu)
  gives_up u hu hholds := by
    obtain ⟨w, hw, hwrites⟩ := (Option.any_eq_true ..).mp hholds
    exact ⟨hheld w (List.mem_append_right _ (List.mem_filterMap.mpr ⟨u, hu, hw⟩)) hwrites, hrelease⟩
  publishes henlist later hlater := by
    have halone := alone_start hz hupdaters (hidle henlist) hcontent henlist
    exact ⟨Account.commitPoint_ofLog _, (halone.run hlater).shows⟩

end Traffic

/-! ### Versioned zones -/

open VersionedZone (Txn)

namespace VersionedZone

variable {z z' : VersionedZone}

theorem releases (h : z.alive = true) : Host.Releases release z := by
  intro commit learned? a ha
  obtain ⟨d, rfl⟩ := exists_draft ha
  refine ⟨_, if_pos h, fun hcommit => ?_⟩
  rw [hcommit]
  rfl

/-- What leaves the latest version alone concerns neither the content nor a writer. -/
theorem Sound.persists (h : z.Sound) (hlatest : z'.latest = z.latest)
    (hterms : Host.terms z' = Host.terms z) (halive : z'.alive = z.alive) :
    Storage.Persists z z' where
  sound := ⟨halive.trans h.alive, hlatest ▸ h.solid⟩
  terms := hterms
  find?_eq n key := by
    change z'.latest.find? n key = z.latest.find? n key
    rw [hlatest]
  ready a ha := by
    obtain ⟨d, hd, hsolid, htouched, hbase⟩ := ha
    exact ⟨⟨d, hd, hsolid, htouched, hbase.trans hlatest.symm⟩, fun _ _ => rfl⟩

/-- A transaction that does not write leaves the latest version alone. -/
theorem Move.persists {w w' : Txn} (hmove : Move z w w' z') (h : z.Sound)
    (hw : w.writes = false) : Storage.Persists z z' ∧ w'.writes = false := by
  have hmode : Access.mode w.access ≠ .writing := of_decide_eq_false hw
  cases hmove with
  | stays hedited =>
      refine ⟨.refl h, ?_⟩
      rw [Transaction.writes, mode_of_edited hedited]
      exact hw
  | readerEnds => exact ⟨h.persists rfl rfl rfl, rfl⟩
  | writerCommits haccess | writerEnds haccess =>
      exact absurd (congrArg Access.mode haccess) hmode

end VersionedZone

namespace Usage

variable {u : Usage}

theorem Quiet.persists {u' : Usage} (h : u.Quiet u') (hz : u.zone.Sound) :
    Storage.Persists u.zone u'.zone := by
  cases h <;> exact hz.persists rfl rfl rfl

/-- An action on no transaction starts no writer, unless that is what it is for. -/
theorem writes_step (hidle : ∀ w ∈ Crowd.txns u, w.writes = false) {a : Action} (ha : a.txn? = none)
    (hbegin : ∀ replacement, a ≠ .begin replacement) :
    ∀ w ∈ Crowd.txns (u.step a), w.writes = false := by
  cases a with
  | call i c => cases ha
  | drop i => cases ha
  | begin replacement => exact absurd rfl (hbegin replacement)
  | read query? =>
      rw [Usage.step, VersionedZone.reader_eq]
      cases u.zone.select query? with
      | error fault => exact hidle
      | ok v =>
          intro w hw
          obtain ⟨p, hp, rfl⟩ := List.mem_map.mp hw
          rcases List.mem_append.mp hp with hp | hp
          · exact hidle p.txn (List.mem_map.mpr ⟨p, hp, rfl⟩)
          · cases List.mem_singleton.mp hp
            rfl
  | _ =>
      rw [Usage.step]
      repeat' split
      all_goals exact hidle

/-- A transaction goes on or ends without having written. -/
theorem writes_set (hidle : ∀ w ∈ Crowd.txns u, w.writes = false) (i : Nat) {p : Participant}
    (hp : p.txn.writes = false) : ∀ w ∈ (u.txns.set i p).map Participant.txn, w.writes = false := by
  intro w hw
  obtain ⟨q, hq, rfl⟩ := List.mem_map.mp hw
  rcases List.mem_or_eq_of_mem_set hq with hq | rfl
  · exact hidle q.txn (List.mem_map.mpr ⟨q, hq, rfl⟩)
  · exact hp

end Usage

instance : OrderlyCrowd Usage VersionedZone VersionedAccess Action where
  isQuiet
    | .begin _ => false
    | _ => true
  quiet {u a} hz hidle ha := by
    have hz : u.zone.Sound := hz
    have hnot {p : Participant} {i : Nat} (hp : u.txns[i]? = some p) : p.txn.writes = false :=
      hidle p.txn (List.mem_map.mpr ⟨p, List.mem_of_getElem? hp, rfl⟩)
    change Storage.Persists u.zone (u.step a).zone ∧ ∀ w ∈ Crowd.txns (u.step a), w.writes = false
    cases a with
    | begin replacement => cases ha
    | call i c =>
        cases hp : u.txns[i]? with
        | none =>
            rw [Usage.step, hp]
            exact ⟨.refl hz, hidle⟩
        | some p =>
            obtain ⟨hpersists, hp'⟩ := (VersionedZone.move_call hz.alive c).persists hz (hnot hp)
            rw [Usage.step, hp]
            exact ⟨hpersists, Usage.writes_set hidle i hp'⟩
    | drop i =>
        cases hp : u.txns[i]? with
        | none =>
            rw [Usage.step, hp]
            exact ⟨.refl hz, hidle⟩
        | some p =>
            obtain ⟨hpersists, hp'⟩ := (VersionedZone.move_drop hz.alive).persists hz (hnot hp)
            rw [Usage.step, hp]
            exact ⟨hpersists, Usage.writes_set hidle i hp'⟩
    | _ => exact ⟨(u.quiet_step rfl).persists hz, Usage.writes_step hidle rfl nofun⟩
  starts {u u' w} hz henlist := by
    have hz : u.zone.Sound := hz
    obtain ⟨-, hstart⟩ := Traffic.Resembles.enlist?_eq_some henlist
    cases hstart
    exact ⟨hz, rfl, fun _ _ => rfl, u.zone.begin false, rfl, hz.ready_begin, fun _ _ => rfl⟩
  txns_enlist {u u' w} henlist := by
    obtain ⟨-, hstart⟩ := Traffic.Resembles.enlist?_eq_some henlist
    cases hstart
    rfl
  isReadOnly_enlist {u u' w} henlist := by
    obtain ⟨-, hstart⟩ := Traffic.Resembles.enlist?_eq_some henlist
    cases hstart
    rfl

namespace Traffic

variable {t : Traffic Usage VersionedAccess} {s : Usage}

/-- As many transactions write as do in the use that the traffic resembles. -/
theorem Resembles.countP_writes (h : t.Resembles s) :
    t.txns.countP Transaction.writes = s.txns.countP Participant.writes := by
  have hopen (ts : List Txn) : (Transaction.stillOpen ts).countP Transaction.writes =
      ts.countP Transaction.writes := by
    rw [Transaction.stillOpen, List.countP_filter]
    refine List.countP_congr fun w _ => ?_
    cases hended : w.isEnded with
    | true => simp [Transaction.writes_of_isEnded hended]
    | false => simp
  have hcount := h.txns.countP_eq Transaction.writes
  rw [hopen, hopen, List.countP_map] at hcount
  exact hcount.symm

end Traffic

/-- The record sets of the latest version of a zone. -/
def VersionedZone.table (z : VersionedZone) : SetTable := .ofListing z.latest.sets

theorem ZoneConfig.atomic_traffic (config : ZoneConfig) (events : List (Traffic.Event Action)) :
    (config.traffic events).Atomic VersionedZone.release (·.admission.active)
      VersionedZone.table := by
  obtain ⟨actions, -, hresembles⟩ := config.exists_resembles_traffic events
  have hwriters := config.writers_usage actions
  have hsound := VersionedZone.sound_usage config actions
  have hzone : (config.usage actions).zone = (config.traffic events).zone := hresembles.zone
  have hholders : (config.traffic events).users.granted +
      (config.traffic events).txns.countP Transaction.writes =
        (config.traffic events).zone.admission.active.toNat := by
    rw [hresembles.countP_writes, ← hresembles.granted, ← hzone]
    exact hwriters.sound.holders_eq
  rw [hzone] at hsound
  refine Traffic.atomic_of_exclusive hsound (VersionedZone.releases hsound.alive)
    (VersionedZone.has_latest _) ?_ ?_ ?_ ?_
  · exact Traffic.UpdatersWrite.run (t := config.unusedVersioned) (fun u hu => by cases hu) events
  · intro w hw hwrites
    have hpos : 0 < (config.traffic events).txns.countP Transaction.writes :=
      List.countP_pos_iff.mpr ⟨w, hw, hwrites⟩
    cases hactive : (config.traffic events).zone.admission.active with
    | true => rfl
    | false =>
        rw [hactive, Bool.toNat_false] at hholders
        omega
  · change ((config.traffic events).zone.admission.release).active = false
    rw [Admission.release]
    split <;> rfl
  · intro henlist
    obtain ⟨⟨w, users⟩, henlist⟩ := Option.isSome_iff_exists.mp henlist
    have hgranted := (Traffic.Resembles.enlist?_eq_some henlist).1
    have hone := Bool.toNat_le (config.traffic events).zone.admission.active
    have hnone : (config.traffic events).txns.countP Transaction.writes = 0 := by omega
    exact fun w hw => Bool.eq_false_iff.mpr (List.countP_eq_zero.mp hnone w hw)

/-! ### Plain zones -/

namespace PlainZone

theorem releases (z : PlainZone) : Host.Releases unlock z := by
  intro commit learned? a ha
  obtain ⟨s, rfl⟩ := exists_staging ha
  refine ⟨_, rfl, fun hcommit => ?_⟩
  rw [hcommit]
  rfl

/-- The record sets that a zone stores now. -/
def table (z : PlainZone) : SetTable := .ofListing (z.setsIn .reading)

end PlainZone

instance : OrderlyCrowd PlainUsage PlainZone PlainAccess PlainAction where
  isQuiet
    | .start (.writer _) | .change _ => false
    | _ => true
  quiet {u a} hz hidle ha := by
    have hset {i : Nat} {t' : Transaction PlainAccess} (ht' : t'.writes = false) :
        ∀ t ∈ u.txns.set i t', t.writes = false := by
      intro t ht
      rcases List.mem_or_eq_of_mem_set ht with ht | rfl
      · exact hidle t ht
      · exact ht'
    change Storage.Persists u.zone (u.step a).zone ∧ ∀ t ∈ (u.step a).txns, t.writes = false
    cases a with
    | change c => cases ha
    | start s =>
        cases s with
        | writer replacement => cases ha
        | reader query? =>
            rw [PlainUsage.step]
            split
            · rename_i t z hopen
              obtain ⟨rfl, rfl⟩ := PlainZone.reader_eq_ok (Option.some.inj hopen)
              refine ⟨.refl hz, fun t ht => ?_⟩
              rcases List.mem_append.mp ht with ht | ht
              · exact hidle t ht
              · cases List.mem_singleton.mp ht
                rfl
            · exact ⟨.refl hz, hidle⟩
    | call i c =>
        rw [PlainUsage.step]
        split
        · exact ⟨.refl hz, hidle⟩
        · rename_i t ht
          obtain ⟨hzone, ht'⟩ := PlainZone.zone_call_of_not_writes
            (hidle t (List.mem_of_getElem? ht)) u.zone c
          rw [hzone]
          exact ⟨.refl hz, hset ht'⟩
    | drop i =>
        rw [PlainUsage.step]
        split
        · exact ⟨.refl hz, hidle⟩
        · rename_i t ht
          have hzone : t.drop u.zone = u.zone := by
            rw [Transaction.drop, PlainZone.zone_close_of_not_writes
              (hidle t (List.mem_of_getElem? ht)), ite_self]
          rw [hzone]
          exact ⟨.refl hz, hset rfl⟩
  starts {u u' w} hz henlist := by
    obtain ⟨⟨w', z⟩, hwriter, heq⟩ := Option.map_eq_some_iff.mp henlist
    cases heq
    exact Updater.starts_of_writer? hz hwriter
  txns_enlist {u u' w} henlist := by
    obtain ⟨_, -, heq⟩ := Option.map_eq_some_iff.mp henlist
    cases heq
    rfl
  isReadOnly_enlist {u u' w} henlist := by
    obtain ⟨⟨w', z⟩, hwriter, heq⟩ := Option.map_eq_some_iff.mp henlist
    cases heq
    exact Transaction.isReadOnly_of_writer? hwriter

theorem ZoneConfig.atomic_plainTraffic (config : ZoneConfig)
    (events : List (Traffic.Event PlainAction)) :
    (config.plainTraffic events).Atomic PlainZone.unlock (·.locked) PlainZone.table := by
  have htended := config.sound_plainTraffic events
  refine Traffic.atomic_of_exclusive htended.good (PlainZone.releases _) (PlainZone.has_nodes _)
    ?_ (fun w hw hwrites => ?_) rfl fun henlist w hw => ?_
  · exact Traffic.UpdatersWrite.run (t := config.unusedPlain) (fun u hu => by cases hu) events
  · cases hlocked : (config.plainTraffic events).zone.locked with
    | true => rfl
    | false =>
        rw [htended.not_writes hlocked hw] at hwrites
        cases hwrites
  · refine htended.not_writes ?_ hw
    obtain ⟨⟨w, users⟩, henlist⟩ := Option.isSome_iff_exists.mp henlist
    have hwriter := (Traffic.enlist?_eq_some henlist).1
    rw [PlainZone.writer?_eq] at hwriter
    split at hwriter
    · cases hwriter
    · exact Bool.eq_false_iff.mpr ‹_›

/-! ### Both kinds -/

/-- Whatever has happened to a zone, an update that fails and an updater that is dropped leave its
content, its versions or generation, and its origin as they were and give write access up; and while
an updater is the only one to write, readers see all updates up to its last commit and no other
ones. -/
theorem ZoneConfig.updaters_atomic (config : ZoneConfig) :
    (∀ events, (config.traffic events).Atomic VersionedZone.release (·.admission.active)
      VersionedZone.table) ∧
    ∀ events, (config.plainTraffic events).Atomic PlainZone.unlock (·.locked) PlainZone.table :=
  ⟨config.atomic_traffic, config.atomic_plainTraffic⟩

end DnsZone
