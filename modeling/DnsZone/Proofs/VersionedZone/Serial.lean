import DnsZone.Proofs.VersionedZone.History

/-!
# No update is lost

Writers and readers of a zone may come and go in any order, but what they make of the zone is what
the committed writers alone make of it, one after another. Their scripts are run again on a new zone
that keeps all versions, with nobody else around, and this gives every version that there ever was.
-/

namespace DnsZone

open VersionedZone (Txn)

/-! ### Transactions of a versioned zone do not look at the zone -/

namespace VersionedZone

theorem plan_zone (z z' : VersionedZone) (t : Txn) (e : Edit) : t.plan z e = t.plan z' e := by
  cases e <;> rfl

theorem edit_zone (z z' : VersionedZone) (t : Txn) (e : Edit) : t.edit z e = t.edit z' e := by
  rw [Transaction.edit, Transaction.edit, plan_zone z z']

theorem load_zone (z z' : VersionedZone) (cls : RecordClass) (t : Txn) (records : List Record) :
    t.load z cls records = t.load z' cls records := by
  induction records generalizing t with
  | nil => rfl
  | cons r rest ih => simp only [Transaction.load, edit_zone z z', ih]

/-- As long as it is not to end, what becomes of a transaction does not depend on the zone. -/
theorem call_zone {t : Txn} {c : Call} (h : t.ends c = false) (z z' : VersionedZone) :
    (t.call z' c).2 = ((t.call z c).2.1, z') := by
  cases c with
  | query q => rfl
  | edit e =>
      rw [Transaction.call, Transaction.call, edit_zone z' z]
  | load cls records =>
      rw [Transaction.call, Transaction.call, load_zone z' z]
  | commit =>
      have hended : t.isEnded = true := by simpa [Transaction.ends] using h
      rw [Transaction.call, Transaction.call, Transaction.commit, Transaction.commit,
        if_pos hended, if_pos hended]
  | rollback =>
      have hended : t.isEnded = true := by simpa [Transaction.ends] using h
      rw [Transaction.call, Transaction.call, Transaction.rollback, Transaction.rollback,
        if_pos hended, if_pos hended]
  | checkPut check => rfl
  | checkDeleteSet check => rfl
  | checkDeleteName check => rfl

/-- What a writer starts from is the latest version and what is known of the origin. -/
theorem startWriter_congr {z z' : VersionedZone} (hlatest : z'.latest = z.latest)
    (horigin : z'.origin = z.origin) (hchecks : z'.checksOrigin = z.checksOrigin)
    (replacement : Bool) : z'.startWriter replacement = z.startWriter replacement := by
  have hbegin : z'.begin replacement = z.begin replacement := by
    rw [begin, begin, hlatest]
  change Transaction.mk (z'.begin replacement) z'.origin false z'.checksOrigin {} =
    Transaction.mk (z.begin replacement) z.origin false z.checksOrigin {}
  rw [hbegin, horigin, hchecks]

end VersionedZone

/-! ### Running committed scripts again -/

/-- The transaction of a writer is what its calls make of one that is started now. -/
def Participant.ReplaysOn (z : VersionedZone) (p : Participant) : Prop :=
  ∃ replacement, p.start = .writer replacement ∧
    ∀ z' : VersionedZone, ((z.startWriter replacement).exchange z' p.calls).2 = (p.txn, z')

theorem Participant.ReplaysOn.congr {z z' : VersionedZone} {p : Participant} (h : p.ReplaysOn z)
    (hlatest : z'.latest = z.latest) (horigin : z'.origin = z.origin)
    (hchecks : z'.checksOrigin = z.checksOrigin) : p.ReplaysOn z' := by
  obtain ⟨replacement, hstart, hexchange⟩ := h
  refine ⟨replacement, hstart, ?_⟩
  rw [VersionedZone.startWriter_congr hlatest horigin hchecks]
  exact hexchange

/-- The zone `z`, which nobody uses, has come to the same as the one in use and kept all versions;
every open writer can be run again on it. -/
structure Usage.ReplayedBy (u : Usage) (z : VersionedZone) : Prop where
  versions : z.chain.toList = u.history
  latest : z.latest = u.zone.latest
  origin : z.origin = u.zone.origin
  checksOrigin : z.checksOrigin = u.zone.checksOrigin
  alive : z.alive = true
  free : z.admission.isFree = true
  policy : z.policy = .all
  replays : ∀ p ∈ u.txns, p.writes = true → p.ReplaysOn u.zone

namespace Usage.ReplayedBy

variable {u u' : Usage} {z : VersionedZone}

/-- What leaves the latest version and the origin alone can be left out when running again. -/
theorem keep (h : u.ReplayedBy z) (hhistory : u'.history = u.history)
    (hlatest : u'.zone.latest = u.zone.latest) (horigin : u'.zone.origin = u.zone.origin)
    (hchecks : u'.zone.checksOrigin = u.zone.checksOrigin)
    (hreplays : ∀ p ∈ u'.txns, p.writes = true → p ∈ u.txns ∨ p.ReplaysOn u.zone) :
    u'.ReplayedBy z where
  versions := h.versions.trans hhistory.symm
  latest := h.latest.trans hlatest.symm
  origin := h.origin.trans horigin.symm
  checksOrigin := h.checksOrigin.trans hchecks.symm
  alive := h.alive
  free := h.free
  policy := h.policy
  replays p hp hwrites := by
    rcases hreplays p hp hwrites with hp | hp
    · exact (h.replays p hp hwrites).congr hlatest horigin hchecks
    · exact hp.congr hlatest horigin hchecks

end Usage.ReplayedBy

/-- A script that ends in a commit of what the writer `d` has changed. -/
theorem run_committed {z : VersionedZone} (hfree : z.admission.isFree = true)
    (halive : z.alive = true) {p : Participant} (hreplays : p.ReplaysOn z) {d : Draft}
    (haccess : p.txn.access = .writing d) (hcommits : p.txn.commits z .commit = true) :
    ((Script.mk p.start (p.calls ++ [.commit])).run z).2 =
      { z with admission := { z.admission with active := true } }.install d
        p.txn.learned? := by
  obtain ⟨replacement, hstart, hexchange⟩ := hreplays
  have hopen : Start.open? (.writer replacement) z = some (.ok (z.startWriter replacement,
      { z with admission := { z.admission with active := true } })) := by
    rw [Start.open?, VersionedZone.writer?_eq, Admission.seize?, if_pos hfree]
    rfl
  have hends : p.txn.ends .commit = true := by
    rw [Transaction.ends, Transaction.isEnded, haccess]
    rfl
  have hlast (z₁ : VersionedZone) (halive₁ : z₁.alive = true) :
      ((z.startWriter replacement).exchange z₁ (p.calls ++ [.commit])).2 =
        ({ p.txn with access := .ended },
          z₁.install d p.txn.learned?) := by
    have hcommits₁ : p.txn.commits z₁ .commit = true := hcommits
    rw [Transaction.exchange_concat, hexchange]
    change (p.txn.call z₁ .commit).2 = _
    rw [Transaction.call_of_ends hends, hcommits₁,
      VersionedZone.close_of_writing halive₁ haccess]
    rfl
  rw [Script.run, hstart, hopen]
  simp only
  rw [hlast { z with admission := { z.admission with active := true } } halive]
  rfl

/-- The result of a commit tells whether anything was committed. -/
theorem commit_ok_or_error {z : VersionedZone} (halive : z.alive = true) {t : Txn} {d : Draft}
    (haccess : t.access = .writing d) :
    (t.call z .commit).1 = .ok .done ∧ t.commits z .commit = true ∨
      (∃ e, (t.call z .commit).1 = .error e) ∧ t.commits z .commit = false := by
  have hopen : t.isEnded = false := by
    rw [Transaction.isEnded, haccess]
    rfl
  rw [Transaction.call, Transaction.commit, Transaction.commits, hopen]
  cases t.apexFault? z with
  | none =>
      refine .inl ⟨?_, rfl⟩
      simp only [VersionedZone.close_of_writing halive haccess]
      rfl
  | some fault =>
      refine .inr ⟨⟨fault, ?_⟩, rfl⟩
      simp only [VersionedZone.close_of_writing halive haccess]
      rfl

namespace Usage

variable {u : Usage} {z : VersionedZone}

/-- The call with which a writer commits. -/
theorem call_commit (halive : u.zone.alive = true) {i : Nat} {p : Participant} {d : Draft}
    (haccess : p.txn.access = .writing d) (hcommits : p.txn.commits u.zone .commit = true) :
    u.call i p .commit =
      { u with
        zone := u.zone.install d p.txn.learned?
        txns := u.txns.set i
          { p with calls := p.calls ++ [.commit], txn := { p.txn with access := .ended } }
        committed := u.committed ++ [⟨p.start, p.calls ++ [.commit]⟩]
        history := u.historyWith
          (u.zone.install d p.txn.learned?) } := by
  have hends : p.txn.ends .commit = true := by
    rw [Transaction.ends, Transaction.isEnded, haccess]
    rfl
  have hcall : (p.txn.call u.zone .commit).2 = ({ p.txn with access := .ended },
      u.zone.install d p.txn.learned?) := by
    rw [Transaction.call_of_ends hends, hcommits, VersionedZone.close_of_writing halive haccess]
    rfl
  have hresult : (p.txn.call u.zone .commit).1 = .ok .done := by
    rcases commit_ok_or_error halive haccess with ⟨hok, -⟩ | ⟨-, hnot⟩
    · exact hok
    · rw [hcommits] at hnot
      cases hnot
  have hwrites : p.writes = true := decide_eq_true (congrArg Access.mode haccess)
  simp only [call, hcall, hresult, committedWith, hwrites, if_true]

theorem ReplayedBy.commit (h : u.ReplayedBy z) (hw : Writers u) {i : Nat} {p : Participant}
    (hp : u.txns[i]? = some p) {d : Draft} (haccess : p.txn.access = .writing d)
    (hcommits : p.txn.commits u.zone .commit = true) :
    (u.call i p .commit).ReplayedBy ((Script.mk p.start (p.calls ++ [.commit])).run z).2 := by
  have hwrites : p.writes = true := decide_eq_true (congrArg Access.mode haccess)
  have hmem : p ∈ u.txns := List.mem_of_getElem? hp
  obtain ⟨hbase, hnumbered⟩ := hw.based p hmem d haccess
  have hreplays := (h.replays p hmem hwrites).congr h.latest h.origin h.checksOrigin
  rw [run_committed h.free h.alive hreplays haccess hcommits, call_commit hw.alive haccess hcommits]
  generalize p.txn.learned? = learned?
  obtain ⟨-, hhanded, hwaiting⟩ := Admission.isFree_iff.mp h.free
  have hnone := (hw.no_other_writer hp hwrites (q :=
    { p with calls := p.calls ++ [.commit], txn := { p.txn with access := .ended } }) rfl).2
  refine {
    versions := ?_
    latest := ?_
    origin := ?_
    checksOrigin := ?_
    alive := ?_
    free := ?_
    policy := ?_
    replays := ?_ }
  · rw [historyWith_install hbase hnumbered, VersionedZone.install_eq, h.policy,
      VersionChain.prune_all, VersionedZone.toList_append, h.versions]
  · rw [VersionedZone.latest_install, VersionedZone.latest_install, ← h.latest]
    rfl
  · rw [VersionedZone.origin_install, VersionedZone.origin_install, ← h.origin]
    rfl
  · rw [VersionedZone.install_eq, VersionedZone.install_eq]
    exact h.checksOrigin
  · rw [VersionedZone.install_eq]
    exact h.alive
  · rw [VersionedZone.install_eq]
    simp [Admission.release, Admission.isFree, hwaiting, hhanded]
  · rw [VersionedZone.install_eq]
    exact h.policy
  · intro q hq hqw
    exact absurd hqw (List.countP_eq_zero.mp hnone q hq)

/-- The zones do not differ in what a writer starts from. -/
structure SameStart (z z' : VersionedZone) : Prop where
  latest : z'.latest = z.latest
  origin : z'.origin = z.origin
  checksOrigin : z'.checksOrigin = z.checksOrigin

/-- Ending a transaction without committing a writer leaves alone what writers start from. -/
theorem sameStart_close (halive : z.alive = true) {t : Txn} {commit : Bool}
    (hcommit : Access.mode t.access = .writing → commit = false) :
    SameStart z (t.close commit z).2.2 := by
  cases haccess : t.access with
  | reading v =>
      have hzone : (t.close commit z).2.2 = z.unpin v.id := by
        change (z.finish commit _ t.access).2 = _
        rw [haccess, VersionedZone.finish, if_pos halive]
      rw [hzone]
      exact ⟨rfl, rfl, rfl⟩
  | writing d =>
      rw [hcommit (congrArg Access.mode haccess),
        VersionedZone.close_of_writing halive haccess]
      exact ⟨rfl, rfl, rfl⟩
  | ended =>
      have hzone : (t.close commit z).2.2 = z := by
        change (z.finish commit _ t.access).2 = _
        rw [haccess]
        rfl
      rw [hzone]
      exact ⟨rfl, rfl, rfl⟩

theorem committedWith_of_not {p : Participant} {c : Call} {result : Except ZoneError Reply}
    (h : ¬ (c = .commit ∧ (∃ r, result = .ok r) ∧ p.writes = true)) :
    u.committedWith p c result = u.committed := by
  cases c with
  | commit =>
      cases result with
      | error e => rfl
      | ok r => exact if_neg fun hpw => h ⟨rfl, ⟨r, rfl⟩, hpw⟩
  | _ => rfl

theorem exists_writing {p : Participant} (h : p.writes = true) :
    ∃ d, p.txn.access = .writing d := by
  rw [Participant.writes] at h
  cases haccess : p.txn.access with
  | writing d => exact ⟨d, rfl⟩
  | _ =>
      rw [haccess] at h
      cases h

/-- A call that does not commit a writer can be left out when running again. -/
theorem ReplayedBy.call (h : u.ReplayedBy z) (hw : Writers u) {i : Nat} {p : Participant}
    (hp : u.txns[i]? = some p) {c : Call}
    (hnot : Access.mode p.txn.access = .writing → p.txn.commits u.zone c = false) :
    (u.call i p c).ReplayedBy z ∧ (u.call i p c).committed = u.committed := by
  constructor
  · by_cases hends : p.txn.ends c = true
    · have hcall := Transaction.call_of_ends (z := u.zone) hends
      have hsame := sameStart_close hw.alive (t := p.txn) hnot
      rw [← hcall] at hsame
      refine h.keep (historyWith_of_latest hsame.latest) hsame.latest hsame.origin
        hsame.checksOrigin fun q hq hqw => ?_
      rcases List.mem_or_eq_of_mem_set hq with hq | rfl
      · exact .inl hq
      · have htxn : (p.txn.call u.zone c).2.1 = { p.txn with access := .ended } := by
          rw [hcall]
          rfl
        rw [Participant.writes, htxn] at hqw
        cases hqw
    · have hends := Bool.eq_false_iff.mpr hends
      obtain ⟨hzone, hedited⟩ := Transaction.call_of_not_ends (z := u.zone) hends
      have hsame : SameStart u.zone (p.txn.call u.zone c).2.2 := by
        rw [hzone]
        exact ⟨rfl, rfl, rfl⟩
      refine h.keep (historyWith_of_latest hsame.latest) hsame.latest hsame.origin
        hsame.checksOrigin fun q hq hqw => ?_
      rcases List.mem_or_eq_of_mem_set hq with hq | rfl
      · exact .inl hq
      · have hpw : p.writes = true := by
          rw [Participant.writes, VersionedZone.mode_of_edited hedited] at hqw
          exact hqw
        obtain ⟨replacement, hstart, hexchange⟩ :=
          h.replays p (List.mem_of_getElem? hp) hpw
        refine .inr ⟨replacement, hstart, fun z' => ?_⟩
        rw [Transaction.exchange_concat, hexchange]
        exact VersionedZone.call_zone hends u.zone z'
  · refine committedWith_of_not fun hcommits => ?_
    obtain ⟨rfl, hok, hpw⟩ := hcommits
    obtain ⟨d, haccess⟩ := exists_writing hpw
    rcases commit_ok_or_error hw.alive haccess with ⟨-, hyes⟩ | ⟨herror, -⟩
    · rw [hnot (congrArg Access.mode haccess)] at hyes
      cases hyes
    · obtain ⟨e, he⟩ := herror
      obtain ⟨r, hr⟩ := hok
      cases he.symm.trans hr

/-- Dropping a transaction can be left out when running again. -/
theorem ReplayedBy.drop (h : u.ReplayedBy z) (hw : Writers u) (i : Nat) (p : Participant) :
    (u.drop i p).ReplayedBy z := by
  have hsame : SameStart u.zone (p.txn.drop u.zone) := by
    rw [Transaction.drop]
    split
    · exact ⟨rfl, rfl, rfl⟩
    · exact sameStart_close hw.alive fun _ => rfl
  refine h.keep (historyWith_of_latest hsame.latest) hsame.latest hsame.origin hsame.checksOrigin
    fun q hq hqw => ?_
  rcases List.mem_or_eq_of_mem_set hq with hq | rfl
  · exact .inl hq
  · cases hqw

/-- An action on no transaction can be left out. -/
theorem ReplayedBy.quiet (h : u.ReplayedBy z) {u' : Usage} (hquiet : Quiet u u') :
    u'.ReplayedBy z ∧ u'.committed = u.committed := by
  cases hquiet with
  | turns => exact ⟨h.keep rfl rfl rfl rfl fun _ hp _ => .inl hp, rfl⟩
  | policy => exact ⟨h.keep rfl rfl rfl rfl fun _ hp _ => .inl hp, rfl⟩
  | begins replacement =>
      refine ⟨h.keep rfl rfl rfl rfl fun p hp _ => ?_, rfl⟩
      rcases List.mem_append.mp hp with hp | hp
      · exact .inl hp
      · cases List.mem_singleton.mp hp
        exact .inr ⟨replacement, rfl, fun _ => rfl⟩
  | reads =>
      refine ⟨h.keep rfl rfl rfl rfl fun p hp hpw => ?_, rfl⟩
      rcases List.mem_append.mp hp with hp | hp
      · exact .inl hp
      · cases List.mem_singleton.mp hp
        cases hpw

/-- An action either commits a writer, whose script is to be run again, or can be left out. -/
theorem ReplayedBy.effect (h : u.ReplayedBy z) (hw : Writers u) {u' : Usage}
    (heffect : Effect u u') :
    u'.ReplayedBy z ∧ u'.committed = u.committed ∨
      ∃ s, u'.ReplayedBy (s.run z).2 ∧ u'.committed = u.committed ++ [s] := by
  cases heffect with
  | quiet hquiet => exact .inl (h.quiet hquiet)
  | calls hp c =>
      rename_i i p
      by_cases hcommits : Access.mode p.txn.access = .writing ∧ p.txn.commits u.zone c = true
      · obtain ⟨hmode, hcommits⟩ := hcommits
        obtain ⟨d, haccess⟩ := exists_writing (decide_eq_true hmode)
        cases c with
        | commit =>
            refine .inr ⟨_, h.commit hw hp haccess hcommits, ?_⟩
            rw [call_commit hw.alive haccess hcommits]
        | _ => cases hcommits
      · have hnot (hmode : Access.mode p.txn.access = .writing) :
            p.txn.commits u.zone c = false :=
          Bool.eq_false_iff.mpr fun h => hcommits ⟨hmode, h⟩
        exact .inl (h.call hw hp hnot)
  | drops hp => exact .inl ⟨h.drop hw _ _, rfl⟩

end Usage

namespace ZoneConfig

/-- A new zone that keeps all versions, after some scripts with nobody else around. -/
def replay (config : ZoneConfig) (scripts : List Script) : VersionedZone :=
  Script.zoneAfter (.create config.origin? config.cls config.relativize config.checksOrigin .all)
    scripts

theorem replay_concat (config : ZoneConfig) (scripts : List Script) (s : Script) :
    config.replay (scripts ++ [s]) = (s.run (config.replay scripts)).2 :=
  Script.zoneAfter_concat ..

/-- Each version but the first is what one of the committed scripts makes of the version before. -/
def Successive (config : ZoneConfig) (u : Usage) : Prop :=
  ∀ w v, [w, v] <:+: u.history → ∃ done s, done ++ [s] <+: u.committed ∧
    (config.replay done).latest = w ∧ (config.replay (done ++ [s])).latest = v

theorem Successive.effect {config : ZoneConfig} {u u' : Usage} (h : config.Successive u)
    (hw : u.Writers) (hh : u.Historic) (hr : u.ReplayedBy (config.replay u.committed))
    (heffect : u.Effect u') : config.Successive u' := by
  intro w v hwv
  rcases hr.effect hw heffect with ⟨hreplayed, hcommitted⟩ | ⟨s, hreplayed, hcommitted⟩
  · have hhistory : u'.history = u.history :=
      hreplayed.versions.symm.trans hr.versions
    rw [hhistory] at hwv
    rw [hcommitted]
    exact h w v hwv
  · rw [hcommitted]
    have hbefore (hwv : [w, v] <:+: u.history) : ∃ done s', done ++ [s'] <+: u.committed ++ [s] ∧
        (config.replay done).latest = w ∧ (config.replay (done ++ [s'])).latest = v := by
      obtain ⟨done, s', hprefix, hdone⟩ := h w v hwv
      exact ⟨done, s', hprefix.trans (List.prefix_append _ _), hdone⟩
    rcases Usage.history_effect heffect with hhistory | hhistory
    · rw [hhistory] at hwv
      exact hbefore hwv
    · rw [hhistory] at hwv
      rcases List.infix_concat_iff.mp hwv with hlast | hwv
      · rcases List.suffix_concat_iff.mp hlast with hnil | ⟨t, heq, ht⟩
        · cases hnil
        · obtain ⟨rfl, hv⟩ := List.append_inj' (show [w] ++ [v] = _ from heq) rfl
          have hsuffix := List.suffix_of_suffix_length_le ht hh.latest_suffix (Nat.le_refl _)
          have hw := hsuffix.eq_of_length rfl
          refine ⟨u.committed, s, List.prefix_refl _, ?_, ?_⟩
          · rw [hr.latest]
            exact (List.head_eq_of_cons_eq hw).symm
          · rw [replay_concat, hreplayed.latest]
            exact (List.head_eq_of_cons_eq hv).symm
      · exact hbefore hwv

end ZoneConfig

namespace ZoneConfig

end ZoneConfig

end DnsZone
