import DnsZone.Proofs.Publication
import DnsZone.Proofs.Sample
import DnsZone.Proofs.Traffic.SoleWriter
import DnsZone.Proofs.Transaction.Origin

/-!
# All names of a zone have the form that its origin asks for

Names are checked against the origin that a transaction goes by, which the transaction can set at
any time. The zone takes it over with a commit, and only if it had none. As long as no transaction
changes an origin that it knows, both agree, and every name that a zone comes to store is at or
below its origin, or relative if the zone stores relative names. A transaction that does change the
origin of its zone commits names that have nothing to do with it.
-/

namespace DnsZone

open VersionedZone (Txn)

/-! ### Versioned zones -/

namespace VersionedZone

theorem stagesContent (z : VersionedZone) :
    Transaction.StagesContent z (fun a : VersionedAccess => a.view.Proper)
      fun a => a.view.content where
  find? _ := VersionedView.find?_eq_set? _
  contains _ := VersionedView.contains_eq_isSome _
  put {a} h hmode n s := by
    obtain ⟨d, rfl⟩ := exists_draft hmode
    have hproper := Draft.proper_working h
    refine ⟨WorkingCopy.proper_put hproper n s, d.working.id, ?_⟩
    exact (WorkingCopy.content_put hproper n s).trans
      (congrArg (Content.put _ n s) d.content_view.symm)
  eraseName {a} h hmode n := by
    obtain ⟨d, rfl⟩ := exists_draft hmode
    refine ⟨WorkingCopy.proper_eraseName (Draft.proper_working h) n, ?_⟩
    exact (WorkingCopy.content_eraseName d.working n).trans
      (congrArg (Content.eraseName n) d.content_view.symm)
  eraseSet {a} h hmode n key := by
    obtain ⟨d, rfl⟩ := exists_draft hmode
    have hproper := Draft.proper_working h
    refine ⟨WorkingCopy.proper_eraseSet hproper n key, ?_⟩
    by_cases hfound : (d.working.find? n key).isSome = true
    · exact .inr ⟨d.working.id, (WorkingCopy.content_eraseSet hproper hfound).trans
        (congrArg (Content.eraseSet _ n key) d.content_view.symm)⟩
    · -- the working copy is made, but nothing is erased from it
      have hsame : d.working.eraseSet n key = d.working := if_neg hfound
      exact .inl ((congrArg WorkingCopy.content hsame).trans d.content_view.symm)
  clear {a} _ hmode := by
    obtain ⟨d, rfl⟩ := exists_draft hmode
    exact ⟨trivial, rfl⟩

theorem stagesNames (z : VersionedZone) :
    Transaction.StagesNames z fun a : VersionedAccess => a.view.Proper :=
  z.stagesContent.stagesNames

end VersionedZone

namespace Usage

/-- All names of the version have the form that the origin asks for. -/
structure VersionInZone (o : Origin) (v : Version) : Prop where
  absolute : o.Absolute
  proper : NameMap.Proper v.nodes
  within : ∀ n, v.nodes.contains n = true → o.Holds n

theorem zoneInvariant_inZone {checks : Bool} (z : VersionedZone) :
    ZoneInvariant checks Transaction.KeepsOrigin VersionInZone
      fun o t => t.InZone z (fun a => a.view.Proper) o where
  start z' replacement _ h := by
    refine ⟨?_, z'.origin.alike_learn_none, h.absolute, fun n hn => ?_⟩
    · cases replacement with
      | true => trivial
      | false => exact h.proper
    · cases replacement with
      | true => cases hn
      | false => exact h.within n hn
  keeps z' o := Transaction.keeps_inZone z.stagesNames z' o
  commit {_ _ _ d} haccess _ h v hv := by
    have hgood := h.good
    have hwithin := h.within
    rw [haccess] at hgood hwithin
    rw [Draft.eq_freeze_of_mem_version? hv]
    refine ⟨h.absolute.alike h.origin, WorkingCopy.proper_freeze (Draft.proper_working hgood),
      fun n hn => (hwithin n ?_).alike h.origin⟩
    change d.view.contains n = true
    rw [← d.contains_working]
    change (d.working.freeze.node? n).isSome = true at hn
    rw [WorkingCopy.node?_freeze, Option.isSome_map] at hn
    exact hn
  learn h hv :=
    ⟨h.absolute.alike h.origin, hv.proper, fun n hn => (hv.within n hn).learn _⟩

/-- All names in the zone have the form that its origin asks for, and if that form is relative,
writers store names relative to the origin. -/
structure InZone (u : Usage) : Prop where
  names : ∀ v ∈ u.zone.chain.toList, ∀ n ∈ v.nodes.keys, u.zone.origin.Holds n
  writers : ∀ origin, u.zone.relativize = true → u.zone.origin? = some origin →
    ∀ p ∈ u.txns, p.writes = true → p.txn.StoresRelativeTo u.zone origin

end Usage

namespace ZoneConfig

theorem absolute_of_validate {config : ZoneConfig} (h : config.validate = .ok ()) :
    Origin.Absolute ⟨config.origin?, config.relativize⟩ := by
  intro origin (horigin : config.origin? = some origin)
  rw [validate, horigin] at h
  cases habsolute : origin.absolute with
  | true => rfl
  | false => simp [habsolute] at h

theorem inZone_usage {config : ZoneConfig} (hvalid : config.validate = .ok ())
    {actions : List Action}
    (hkeeps : config.unused.AdmitsAll Transaction.KeepsOrigin actions) :
    (config.usage actions).InZone := by
  have hfirst : Usage.VersionInZone ⟨config.origin?, config.relativize⟩ (.empty .first 0) :=
    ⟨absolute_of_validate hvalid, fun _ _ h => (by cases h), fun _ h => (by cases h)⟩
  have hholds := holds_usage
    (Usage.zoneInvariant_inZone (config.usage actions).zone) hfirst hkeeps
  refine ⟨fun v hv n hn => ?_, fun origin hrelativize horigin p hp hwrites => ?_⟩
  · exact (hholds.versions v hv).within n (OrderedMap.contains_of_mem_keys hn)
  · exact (hholds.writers p hp hwrites).storesRelativeTo
      (VersionedZone.stagesNames _) (of_decide_eq_true hwrites) hrelativize horigin

end ZoneConfig

/-! ### Plain zones -/

namespace PlainZone

theorem contains_eq_isSome (z : PlainZone) (access : PlainAccess) (n : Name) :
    Backend.contains z access n = (z.contentIn access n).isSome := (Option.isSome_map ..).symm

theorem stagesContent (z : PlainZone) :
    Transaction.StagesContent z PlainAccess.Proper z.contentIn where
  find? h := z.findIn?_eq_set? h
  contains := z.contains_eq_isSome
  put {a} h hmode n s := by
    obtain ⟨staging, rfl⟩ := exists_staging hmode
    exact ⟨proper_put h n s, _, Staging.content_put (h staging rfl) ..⟩
  eraseName {a} h hmode n := by
    obtain ⟨staging, rfl⟩ := exists_staging hmode
    exact ⟨proper_eraseName h n, Staging.content_eraseName (h staging rfl) ..⟩
  eraseSet {a} h hmode n key := by
    obtain ⟨staging, rfl⟩ := exists_staging hmode
    exact ⟨proper_eraseSet h n key, .inr ⟨_, Staging.content_eraseSet (h staging rfl) ..⟩⟩
  clear {a} h hmode := by
    obtain ⟨staging, rfl⟩ := exists_staging hmode
    exact ⟨proper_clear h, rfl⟩

theorem stagesNames (z : PlainZone) : Transaction.StagesNames z PlainAccess.Proper :=
  z.stagesContent.stagesNames

/-- All names of the zone have the form that its origin asks for. -/
structure NamesInZone (z : PlainZone) : Prop where
  absolute : z.origin.Absolute
  within : ∀ n, Backend.contains z PlainAccess.reading n = true → z.origin.Holds n

/-- A transaction that is started goes by the origin of its zone. -/
theorem NamesInZone.starts {z : PlainZone} (h : z.NamesInZone) {s : Start}
    {t : Transaction PlainAccess} {z' : PlainZone} (ht : s.open? z = some (.ok (t, z'))) :
    z'.NamesInZone ∧ t.InZone z' PlainAccess.Proper z'.origin := by
  cases s with
  | reader query? =>
      obtain ⟨rfl, rfl⟩ := reader_eq_ok (Option.some.inj ht)
      exact ⟨h, fun s hs => (by cases hs), Origin.alike_learn_none _, h.absolute, h.within⟩
  | writer replacement =>
      obtain ⟨r, hr, heq⟩ := Option.map_eq_some_iff.mp ht
      cases heq
      rw [writer?_eq] at hr
      split at hr <;> cases hr
      refine ⟨⟨h.absolute, h.within⟩, proper_start _ _, z.origin.alike_learn_none, h.absolute,
        fun n hn => ?_⟩
      change Backend.contains _ (PlainAccess.writing (.start replacement z.supply)) n = true at hn
      change z.origin.Holds n
      rw [contains_eq_isSome, contentIn_writing, Staging.content_start] at hn
      cases replacement with
      | true => cases hn
      | false =>
          refine h.within n ?_
          rw [contains_eq_isSome, contentIn_of_staging?_eq_none z rfl]
          exact hn

/-- Ending a transaction leaves names that the origin of the zone asks for. -/
theorem NamesInZone.close {z : PlainZone} (h : z.NamesInZone) {t : Transaction PlainAccess}
    (ht : t.InZone z PlainAccess.Proper z.origin) (commit : Bool) :
    (t.close commit z).2.2.NamesInZone := by
  have hclose : (t.close commit z).2.2 = (z.finish commit t.learned? t.access).2 := rfl
  cases haccess : t.access with
  | reading =>
      rw [hclose, haccess]
      exact h
  | ended =>
      rw [hclose, haccess]
      exact h
  | writing s =>
      rw [z.close_of_writing haccess]
      cases commit with
      | false => exact ⟨h.absolute, h.within⟩
      | true =>
          have horigin : ((z.learn t.learned?).install s).unlock.origin =
              z.origin.learn t.learned? := by
            rw [install]
            split <;> rfl
          refine ⟨?_, fun n hn => ?_⟩
          · change Origin.Absolute ((z.learn t.learned?).install s).unlock.origin
            rw [horigin]
            exact ht.absolute.alike ht.origin
          · change Origin.Holds ((z.learn t.learned?).install s).unlock.origin n
            rw [horigin]
            refine Origin.Holds.alike (ht.within n ?_) ht.origin
            have hproper := ht.good
            rw [haccess] at hproper ⊢
            have hreading : PlainAccess.Proper .reading := fun s' hs' => by cases hs'
            have hread := ((z.learn t.learned?).install s).seesNodes hreading
            have hwrite := (z.learn t.learned?).seesNodes hproper
            rw [nodes_install] at hread
            change Backend.contains (z.learn t.learned?) (PlainAccess.writing s) n = true
            rw [hwrite.contains, hwrite.node?, ← hread.node?, ← hread.contains]
            exact hn

/-- Calls of a transaction that does not change its origin leave names as they should be. -/
theorem NamesInZone.exchange {z : PlainZone} (h : z.NamesInZone) {t : Transaction PlainAccess}
    (ht : t.isEnded = false → t.InZone z PlainAccess.Proper z.origin) {calls : List Call}
    (hkeeps : t.AdmitsAll Transaction.KeepsOrigin z calls) :
    (t.exchange z calls).2.2.NamesInZone ∧ ((t.exchange z calls).2.1.isEnded = false →
      (t.exchange z calls).2.1.InZone (t.exchange z calls).2.2 PlainAccess.Proper
        (t.exchange z calls).2.2.origin) := by
  induction calls generalizing t z with
  | nil => exact ⟨h, ht⟩
  | cons c rest ih =>
      obtain ⟨hc, hrest⟩ := hkeeps
      refine ih ?_ ?_ hrest
      · by_cases hends : t.ends c = true
        · rw [Transaction.call_of_ends hends]
          exact h.close (ht (Transaction.isEnded_of_ends hends)) _
        · rw [(Transaction.call_of_not_ends (Bool.eq_false_iff.mpr hends)).1]
          exact h
      · intro hopen
        by_cases hends : t.ends c = true
        · rw [Transaction.txn_call_of_ends hends] at hopen
          cases hopen
        · have hends := Bool.eq_false_iff.mpr hends
          rw [(Transaction.call_of_not_ends hends).1]
          exact (Transaction.keeps_inZone z.stagesNames z z.origin).whileOpen.call ht hc hends hopen

theorem NamesInZone.drop {z : PlainZone} (h : z.NamesInZone) {t : Transaction PlainAccess}
    (ht : t.isEnded = false → t.InZone z PlainAccess.Proper z.origin) :
    (t.drop z).NamesInZone := by
  rw [Transaction.drop]
  split
  · exact h
  · exact h.close (ht (Bool.eq_false_iff.mpr ‹_›)) false

theorem NamesInZone.zoneAfter {z : PlainZone} (h : z.NamesInZone) {scripts : List Script}
    (hkeeps : Script.AdmitsAll Transaction.KeepsOrigin z scripts) :
    (Script.zoneAfter z scripts).NamesInZone := by
  induction scripts generalizing z with
  | nil => exact h
  | cons s rest ih =>
      refine ih ?_ hkeeps.2
      change (s.run z).2.NamesInZone
      rw [Script.run]
      split
      · exact h
      · exact h
      · rename_i t z' hopen
        obtain ⟨hz, ht⟩ := h.starts hopen
        obtain ⟨hz, ht⟩ := hz.exchange (fun _ => ht) (hkeeps.1 t z' hopen)
        exact hz.drop ht

/-- All names in the zone have the form that its origin asks for, and if that form is relative,
writers store names relative to the origin. -/
structure InZone (z : PlainZone) : Prop where
  names : ∀ n ∈ z.nodes.keys, z.origin.Holds n
  writers : ∀ origin, z.relativize = true → z.origin? = some origin →
    ∀ replacement t z' calls, Transaction.writer? replacement z = some (t, z') →
      t.AdmitsAll Transaction.KeepsOrigin z' calls →
        (t.exchange z' calls).2.1.isEnded = false →
          (t.exchange z' calls).2.1.StoresRelativeTo (t.exchange z' calls).2.2 origin

theorem NamesInZone.inZone {z : PlainZone} (h : z.NamesInZone) : z.InZone := by
  refine ⟨fun n hn => h.within n ?_, ?_⟩
  · rw [contains_eq_isSome, contentIn_of_staging?_eq_none z rfl, content, NameMap.content,
      Option.isSome_map]
    exact OrderedMap.contains_of_mem_keys hn
  · intro origin hrelativize horigin replacement t z' calls ht hkeeps hopen
    have hstart : (Start.writer replacement).open? z = some (.ok (t, z')) :=
      Option.map_eq_some_iff.mpr ⟨_, ht, rfl⟩
    obtain ⟨hz, hin⟩ := h.starts hstart
    obtain ⟨hz', hin'⟩ := hz.exchange (fun _ => hin) hkeeps
    obtain ⟨hzone, hedited⟩ := Transaction.exchange_of_open rfl hopen
    rw [writer?_eq] at ht
    split at ht <;> cases ht
    have hmode := hedited.mode_eq mode_apply
    rw [hzone] at hin' ⊢
    exact (hin' hopen).storesRelativeTo (stagesNames _) hmode hrelativize horigin

end PlainZone

namespace ZoneConfig

/-- Whatever the users of a versioned zone do, and whatever transactions are run on a plain zone:
if none of them changes an origin that it knows, all names in the zone have the form that its origin
asks for, and absolute names are stored relative to it where that form is relative. -/
theorem names_stay_in_zone {config : ZoneConfig} (hvalid : config.validate = .ok ()) :
    (∀ actions, config.unused.AdmitsAll Transaction.KeepsOrigin actions →
      (config.usage actions).InZone) ∧
    ∀ scripts, Script.AdmitsAll Transaction.KeepsOrigin config.emptyPlain scripts →
      (Script.zoneAfter config.emptyPlain scripts).InZone := by
  refine ⟨fun actions => inZone_usage hvalid, fun scripts hkeeps => ?_⟩
  have hcreated : config.emptyPlain.NamesInZone :=
    ⟨absolute_of_validate hvalid, fun n hn => by cases hn⟩
  exact (hcreated.zoneAfter hkeeps).inZone

end ZoneConfig

/-! ### A writer that sets another origin -/

namespace OriginIntegrity

open Sample (config origin)
open SoleWriter (session)

/-- The name `b.` -/
def other : Name := .ofOctets [0x62] true (by decide)

/-- The name `w.b.` -/
def host : Name := .ofOctets [0x77, 0x62] true (by decide)

/-- Sets the origin, adds a record below it and commits. -/
def calls : List Call :=
  [.edit (.setOrigin other), .edit (.addData host .zero (.txt [])), .commit]

theorem names_stay_in_zone_of_learned :
    ({} : ZoneConfig).validate = .ok () ∧
      ({} : ZoneConfig).unused.AdmitsAll Transaction.KeepsOrigin (session 0 calls) ∧
      (({} : ZoneConfig).usage (session 0 calls)).InZone ∧
      Script.AdmitsAll Transaction.KeepsOrigin ({} : ZoneConfig).emptyPlain
        [⟨.writer false, calls⟩] ∧
      (Script.zoneAfter ({} : ZoneConfig).emptyPlain [⟨.writer false, calls⟩]).InZone := by
  have hactions : ({} : ZoneConfig).unused.AdmitsAll Transaction.KeepsOrigin (session 0 calls) := by
    refine ⟨trivial, trivial, fun p hp e he origin known ho hk => ?_,
      fun p hp e he origin known ho hk => ?_, fun p hp e he => ?_, trivial⟩
    · cases Option.some.inj hp
      cases hk
    · cases he
      cases ho
    · cases he
  have hscripts : Script.AdmitsAll Transaction.KeepsOrigin ({} : ZoneConfig).emptyPlain
      [⟨.writer false, calls⟩] := by
    refine ⟨fun t z' ht => ⟨fun e he origin known ho hk => ?_, fun e he origin known ho hk => ?_,
      fun e he => ?_, trivial⟩, trivial⟩
    · cases ht
      cases hk
    · cases he
      cases ho
    · cases he
  have hvalid : ({} : ZoneConfig).validate = .ok () := rfl
  obtain ⟨hversioned, hplain⟩ := ZoneConfig.names_stay_in_zone hvalid
  exact ⟨hvalid, hactions, hversioned _ hactions, hscripts, hplain _ hscripts⟩

/-- The zone has the origin `z.` and stores `w.b.` after that, or `w` if it stores relative
names. -/
theorem foreign_name_committed :
    let z := (config.usage (session 0 calls)).zone
    let z' := ({ config with relativize := false }.usage (session 0 calls)).zone
    z'.origin? = some origin ∧ z'.latest.nodes.keys = [host] ∧ host.isSubdomain origin = false ∧
      z.latest.nodes.keys = [host.relativize other] :=
  ⟨rfl, rfl, by decide, rfl⟩

end OriginIntegrity

end DnsZone
