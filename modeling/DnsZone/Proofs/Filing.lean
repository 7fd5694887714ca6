import DnsZone.Proofs.Addition
import DnsZone.Proofs.Inheritance
import DnsZone.Proofs.Sample
import DnsZone.Proofs.StrictDeletion
import DnsZone.Proofs.Traffic.SoleWriter
import DnsZone.Proofs.Transaction.Consent

/-!
# Records and the keys of their sets

A set is stored under a key of its own, and a record of it is looked for under the key that the
record asks for. Both agree in a set that is `Filed`. A set is filed if whoever put it together has
minded the whole key; to mind the type alone is not enough for signatures. A record of its own key
that has been stored can be deleted again, and then it is gone. A record that was stored under
another key cannot: a strict deletion misses it, and none takes it away.
-/

namespace DnsZone

namespace RecordSet

/-- Every record of the set asks for the key that the set has. -/
def Filed (s : RecordSet) : Prop := ∀ d ∈ s.data, d.key = s.key

/-- A set that has been put together from empty sets and single records, where each record that was
added to a set fits the key of that set. -/
inductive Assembled (fits : SetKey → RecordData → Prop) : RecordSet → Prop where
  | empty (key : SetKey) (ttl : Ttl) : Assembled fits (.empty key ttl)
  | single (ttl : Ttl) (d : RecordData) : Assembled fits (.single ttl d)
  | push {s : RecordSet} {d : RecordData} (hs : Assembled fits s) (hd : fits s.key d) :
      Assembled fits (s.push d)
  | union {s other : RecordSet} (hs : Assembled fits s) (hother : Assembled fits other)
      (hd : ∀ d ∈ other.data, fits s.key d) : Assembled fits (s.union other)
  | difference {s : RecordSet} (hs : Assembled fits s) (other : RecordSet) :
      Assembled fits (s.difference other)
  | limitTtl {s : RecordSet} (hs : Assembled fits s) (ttl : Ttl) : Assembled fits (s.limitTtl ttl)

theorem key_union (s other : RecordSet) : (s.union other).key = s.key := by
  rw [union, foldl_push]
  split <;> rfl

theorem mem_union {s other : RecordSet} {d : RecordData} (h : d ∈ (s.union other).data) :
    d ∈ s.data ∨ d ∈ other.data := by
  rw [data_union] at h
  refine (List.mem_append.mp h).imp_right fun hnew => ?_
  exact (List.mem_filter.mp ((eraseDups_sublist _).subset hnew)).1

/-- Every record of an assembled set fits the key of the set. -/
theorem Assembled.fits {fits : SetKey → RecordData → Prop} (hsingle : ∀ d, fits d.key d)
    {s : RecordSet} (h : s.Assembled fits) : ∀ d ∈ s.data, fits s.key d := by
  induction h with
  | empty key ttl => exact nofun
  | single ttl d =>
      intro d' hd'
      rw [List.mem_singleton.mp hd']
      exact hsingle d
  | @push s d hs hd ih =>
      rw [RecordSet.push]
      split
      · exact ih
      · intro d' hd'
        rcases List.mem_append.mp hd' with hd' | hd'
        · exact ih d' hd'
        · rw [List.mem_singleton.mp hd']
          exact hd
  | union hs hother hd ih =>
      rw [key_union]
      exact fun d hmem => (mem_union hmem).elim (ih d) (hd d)
  | difference hs other ih => exact fun d hmem => ih d (List.mem_filter.mp hmem).1
  | limitTtl hs ttl ih => exact ih

theorem isInherited_filed : IsInherited Filed where
  single ttl d d' hd' := by rw [List.mem_singleton.mp hd']; rfl
  union hkey hs hother d hd := by
    rw [key_union]
    exact (mem_union hd).elim (hs d) fun hd => (hother d hd).trans hkey.symm
  difference hs other d hd := hs d (List.mem_filter.mp hd).1

end RecordSet

/-- Data of a type that does not cover another one covers none. -/
theorem RecordData.covers_eq_reserved {d : RecordData} (h : d.rtype.isCovering = false) :
    d.covers = .reserved := by
  cases d with
  | rrsig t octets => cases h
  | _ => rfl

/-- A set of a type that does not cover another one is filed if its records have its type. -/
theorem RecordSet.filed_of_rtype_eq {s : RecordSet} (h : ∀ d ∈ s.data, d.rtype = s.key.rtype)
    (hcovering : s.key.rtype.isCovering = false) (hcovers : s.key.covers = .reserved) :
    s.Filed := by
  intro d hd
  have hrtype := h d hd
  have hnone := RecordData.covers_eq_reserved (hrtype ▸ hcovering)
  rw [RecordData.key, hrtype, hnone, ← hcovers]

/-! ### Storing and deleting again -/

/-- The edit stores the set at the name, alone or together with what is there. -/
def Edit.Stores (n : Name) (s : RecordSet) (e : Edit) : Prop := e = .addSet n s ∨ e = .replace n s

namespace Transaction

variable {ζ τ : Type} [Access τ] [Backend ζ τ] {z : ζ} {t : Transaction τ} {n m : Name}
  {s : RecordSet} {d : RecordData}

/-- The writer finds a set under the key that holds the record. -/
def Holds (z : ζ) (t : Transaction τ) (m : Name) (key : SetKey) (d : RecordData) : Prop :=
  ∃ s, Backend.find? z t.access m key = some s ∧ s.data.contains d = true

/-- What comes of deleting a record strictly at the name `n`, which is `m` in stored form, where the
set of its key holds it. -/
structure TakesBack (z : ζ) (t : Transaction τ) (n m : Name) (d : RecordData) : Prop where
  /-- The change is made unless a check refuses it. -/
  edit_eq : t.edit z (.deleteData n d true) =
    match t.checks.vet ((Deletion.records (.single .zero d)).change z t m) with
    | .ok c => (.ok none, t.apply c)
    | .error fault => (.error fault, t)
  accepted : t.checks = {} → (t.edit z (.deleteData n d true)).1 = .ok none
  gone : ∀ serial? t', t.edit z (.deleteData n d true) = (.ok serial?, t') →
    ¬ t'.Holds z m d.key d

/-- What comes of deleting a record strictly at the name `n`, which is `m` in stored form, where a
set of another key holds it. -/
structure LeavesBehind (z : ζ) (t : Transaction τ) (n m : Name) (key : SetKey) (d : RecordData) :
    Prop where
  missed : ¬ t.Holds z m d.key d →
    t.edit z (.deleteData n d true) = (.error (.missing .records), t)
  stays : (t.edit z (.deleteData n d true)).2.Holds z m key d

/-- What becomes of the records of a set that is stored at the name `n`. -/
structure StoresByKey (z : ζ) (t : Transaction τ) (n : Name) (s : RecordSet) : Prop where
  takesBack : ∀ e serial? t' m, e.Stores n s → t.edit z e = (.ok serial?, t') →
    t.origin.stored n = .ok m → ∀ d ∈ s.data, d.key = s.key → t'.TakesBack z n m d
  leavesBehind : ∀ e serial? t' m, e.Stores n s → t.edit z e = (.ok serial?, t') →
    t.origin.stored n = .ok m → ∀ d ∈ s.data, d.key ≠ s.key → t'.LeavesBehind z n m s.key d

/-- Once the set is stored at the name `n` and a record of it is deleted again, the record is not
found at that name under any key. -/
def Clears (z : ζ) (t : Transaction τ) (n : Name) (s : RecordSet) : Prop :=
  ∀ e serial? t' m, e.Stores n s → t.edit z e = (.ok serial?, t') → t.origin.stored n = .ok m →
    ∀ d ∈ s.data, ∀ serial?' t'', t'.edit z (.deleteData n d true) = (.ok serial?', t'') →
      ∀ key, ¬ t''.Holds z m key d

/-- A record that is to be deleted strictly is missed, or its deletion is put to the checks. -/
theorem plan_deleteData (hwritable : t.requireWritable = .ok ()) (hn : t.origin.stored n = .ok m)
    (d : RecordData) : t.plan z (.deleteData n d true) =
      if (Deletion.records (.single .zero d)).fails z t m then .error (.missing .records)
      else (t.checks.vet ((Deletion.records (.single .zero d)).change z t m)).map (·, none) := by
  have hunchecked : t.unchecked.plan z (.deleteData n d true) =
      if (Deletion.records (.single .zero d)).fails z t m then .error (.missing .records)
      else .ok ((Deletion.records (.single .zero d)).change z t m, none) :=
    plan_deletion (z := z) (t := t.unchecked) hwritable rfl hn (.records (.single .zero d)) true
  rw [plan_vetted, hunchecked]
  split <;> rfl

namespace ActsOnSets

variable (h : t.ActsOnSets z)
include h

/-- A writer that has stored a set holds its records under the key of the set. -/
theorem holds_of_stores {e : Edit} (he : e.Stores n s) {serial? : Option Serial}
    {t' : Transaction τ} (hedit : t.edit z e = (.ok serial?, t')) (hn : t.origin.stored n = .ok m)
    (hd : d ∈ s.data) : t'.Holds z m s.key d := by
  have hs : s.isEmpty = false := by
    rw [RecordSet.isEmpty, List.isEmpty_eq_false_iff]
    exact List.ne_nil_of_mem hd
  rcases he with rfl | rfl
  · have hadded := h.hasAdded_of_edit hedit hn hs
    obtain ⟨old, hold, hall⟩ := (Option.any_eq_true ..).mp hadded
    exact ⟨old, hold, RecordSet.containsAll_iff.mp (Bool.and_eq_true_iff.mp hall).1 d hd⟩
  · obtain ⟨c, hplan, rfl⟩ := edit_eq_ok_iff.mp hedit
    obtain ⟨c, hreplace, heq⟩ := map_eq_ok_iff.mp hplan
    cases heq
    obtain ⟨-, m', hm', hput⟩ := exists_target hreplace
    cases hn.symm.trans hm'
    rw [hs, if_neg Bool.false_ne_true] at hput
    cases planPut_eq_ok hput
    refine ⟨s, ?_, RecordSet.containsAll_iff.mp s.containsAll_self d hd⟩
    rw [h.find?_put m hs, if_pos ⟨BEq.rfl, rfl⟩]

theorem fails_iff_not_holds (m : Name) (d : RecordData) :
    (Deletion.records (.single .zero d)).fails z t m = true ↔ ¬ t.Holds z m d.key d := by
  rw [h.fails_iff]
  simp [Deletion.Lacks, Deletion.IsVain, Holds, RecordSet.single, RecordSet.isEmpty]

/-- Deleting records leaves the sets of other keys as they are. -/
theorem find?_change_of_ne (m : Name) {key : SetKey} (hkey : key ≠ s.key) :
    Backend.find? z (t.apply ((Deletion.records s).change z t m)).access m key =
      Backend.find? z t.access m key := by
  rw [Deletion.change]
  split
  · rfl
  · rename_i old hold
    split
    · rw [h.find?_eraseSet (Option.isSome_of_eq_some hold), if_neg fun hat => hkey hat.2]
    · rename_i hempty
      have hold_key : old.key = s.key := h.key_eq hold
      split
      · rfl
      · rw [h.find?_put m (Bool.eq_false_iff.mpr hempty)]
        exact if_neg fun hat => hkey (hat.2.trans hold_key)

theorem takesBack (hn : t.origin.stored n = .ok m) (hholds : t.Holds z m d.key d) :
    t.TakesBack z n m d := by
  have hfound : (Deletion.records (.single .zero d)).fails z t m = false := by
    rw [← Bool.not_eq_true, h.fails_iff_not_holds]
    exact not_not_intro hholds
  have hplan := plan_deleteData (z := z) h.writable hn d
  rw [hfound, if_neg Bool.false_ne_true] at hplan
  have hedit : t.edit z (.deleteData n d true) =
      match t.checks.vet ((Deletion.records (.single .zero d)).change z t m) with
      | .ok c => (.ok none, t.apply c)
      | .error fault => (.error fault, t) := by
    rw [edit, hplan]
    cases t.checks.vet _ <;> rfl
  refine ⟨hedit, fun hchecks => ?_, fun serial? t' hdeleted => ?_⟩
  · rw [hedit, hchecks]
    cases (Deletion.records (.single .zero d)).change z t m <;> rfl
  · obtain ⟨c, hc, rfl⟩ := edit_eq_ok_iff.mp hdeleted
    rw [hplan] at hc
    obtain ⟨c', hvet, heq⟩ := map_eq_ok_iff.mp hc
    cases heq
    cases vet_eq_ok hvet
    rintro ⟨left, hleft, hcontains⟩
    have hgone := h.gone_change m (.records (.single .zero d)) d List.mem_cons_self left hleft
    rw [hgone] at hcontains
    cases hcontains

theorem leavesBehind (hn : t.origin.stored n = .ok m) {key : SetKey} (hkey : d.key ≠ key)
    (hholds : t.Holds z m key d) : t.LeavesBehind z n m key d := by
  have hplan := plan_deleteData (z := z) h.writable hn d
  constructor
  · intro hmissed
    rw [edit, hplan, if_pos ((h.fails_iff_not_holds m d).mpr hmissed)]
  · rw [edit, hplan]
    by_cases hfails : (Deletion.records (.single .zero d)).fails z t m = true
    · rw [if_pos hfails]
      exact hholds
    · rw [if_neg hfails]
      cases hvet : t.checks.vet ((Deletion.records (.single .zero d)).change z t m) with
      | error fault => exact hholds
      | ok c =>
          cases vet_eq_ok hvet
          obtain ⟨s, hs, hcontains⟩ := hholds
          exact ⟨s, (h.find?_change_of_ne m (Ne.symm hkey)).trans hs, hcontains⟩

theorem storesByKey (n : Name) (s : RecordSet) : t.StoresByKey z n s := by
  have hafter {e : Edit} (he : e.Stores n s) {serial? : Option Serial} {t' : Transaction τ}
      (hedit : t.edit z e = (.ok serial?, t')) :
      t'.ActsOnSets z ∧ t'.origin = t.origin := by
    have hacts := h.after_edit e
    have horigin := t.origin_edit z (e := e) (by rcases he with rfl | rfl <;> exact nofun)
    rw [hedit] at hacts horigin
    exact ⟨hacts, horigin⟩
  constructor
  · intro e serial? t' m he hedit hn d hd hkey
    obtain ⟨hacts, horigin⟩ := hafter he hedit
    refine hacts.takesBack (horigin ▸ hn) ?_
    rw [hkey]
    exact h.holds_of_stores he hedit hn hd
  · intro e serial? t' m he hedit hn d hd hkey
    obtain ⟨hacts, horigin⟩ := hafter he hedit
    exact hacts.leavesBehind (horigin ▸ hn) hkey (h.holds_of_stores he hedit hn hd)

/-- Where all that is found is filed, an edit that brings nothing else keeps it so. -/
theorem findsFiled_edit (hz : FindsOnly RecordSet.Filed z t.access) {e : Edit}
    (he : e.Brings RecordSet.Filed) {serial? : Option Serial} {t' : Transaction τ}
    (hedit : t.edit z e = (.ok serial?, t')) : FindsOnly RecordSet.Filed z t'.access := by
  obtain ⟨c, hplan, rfl⟩ := edit_eq_ok_iff.mp hedit
  exact h.findsOnly_apply RecordSet.isInherited_filed hz hplan he

/-- Where all that is found is filed, a record is held under no key but its own. -/
theorem key_eq_of_holds (hz : FindsOnly RecordSet.Filed z t.access) {key : SetKey}
    (hholds : t.Holds z m key d) : d.key = key := by
  obtain ⟨s, hs, hcontains⟩ := hholds
  obtain ⟨d', hd', hbeq⟩ := List.contains_iff_exists_mem_beq.mp hcontains
  calc d.key = d'.key := RecordData.key_congr hbeq
    _ = s.key := hz m key s hs d' hd'
    _ = key := h.key_eq hs

/-- A record that was stored where all is filed is not left anywhere when it is deleted. -/
theorem clears (hz : FindsOnly RecordSet.Filed z t.access) (n : Name) (hs : s.Filed) :
    t.Clears z n s := by
  intro e serial? t' m he hedit hn d hd serial?' t'' hdeleted key hholds
  have hstored : t'.ActsOnSets z := by
    have hacts := h.after_edit e
    rwa [hedit] at hacts
  have hleft : t''.ActsOnSets z := by
    have hacts := hstored.after_edit (.deleteData n d true)
    rwa [hdeleted] at hacts
  have hbrings : e.Brings RecordSet.Filed := by
    rcases he with rfl | rfl <;> exact hs
  have hfiled := hstored.findsFiled_edit (h.findsFiled_edit hz hbrings hedit)
    (e := .deleteData n d true) trivial hdeleted
  have hkey := hleft.key_eq_of_holds hfiled hholds
  have htakes := (h.storesByKey n s).takesBack e serial? t' m he hedit hn d hd (hs d hd)
  exact htakes.gone serial?' t'' hdeleted (hkey ▸ hholds)

end ActsOnSets

end Transaction

/-- A set that has been put together from records of its type has only such records, and they all
ask for its key if that names no type to be covered and is not for signatures; for signatures, the
records that were added must cover the same type as well. A writer that has stored a set takes back
any record of its key, unless a check refuses, and leaves behind any other; and if nothing has been
brought to the zone but sets that are filed, a record that is taken back is not found any more. -/
theorem ZoneConfig.records_taken_back_by_key (config : ZoneConfig) (n : Name) (s : RecordSet) :
    ((s.Assembled fun key d => d.rtype = key.rtype) → (∀ d ∈ s.data, d.rtype = s.key.rtype) ∧
      (s.key.rtype.isCovering = false → s.key.covers = .reserved → s.Filed)) ∧
    ((s.Assembled fun key d => d.rtype = key.rtype ∧ d.covers = key.covers) → s.Filed) ∧
    (∀ (events : List (Traffic.Event Action)) (z : VersionedZone),
      ∀ t ∈ (config.traffic events).txns, t.writes = true → t.StoresByKey z n s) ∧
    (∀ events : List (Traffic.Event PlainAction), ∀ t ∈ (config.plainTraffic events).txns,
      t.writes = true → t.StoresByKey (config.plainTraffic events).zone n s) ∧
    (s.Filed →
      (∀ actions : List Action, (∀ a ∈ actions, a.Brings RecordSet.Filed) →
        ∀ p ∈ (config.usage actions).txns, p.txn.writes = true →
          p.txn.Clears (config.usage actions).zone n s) ∧
      ∀ actions : List PlainAction, (∀ a ∈ actions, a.Brings RecordSet.Filed) →
        ∀ t ∈ (config.plainUsage actions).txns, t.writes = true →
          t.Clears (config.plainUsage actions).zone n s) := by
  obtain ⟨hversioned, hplain⟩ := config.writers_act_on_sets
  refine ⟨fun hs => ?_, fun hs d hd => ?_, fun events z t ht hwrites => ?_,
    fun events t ht hwrites => ?_, fun hs => ⟨fun actions hactions p hp hwrites => ?_,
      fun actions hactions t ht hwrites => ?_⟩⟩
  · have hrtype := hs.fits fun _ => rfl
    exact ⟨hrtype, RecordSet.filed_of_rtype_eq hrtype⟩
  · obtain ⟨hrtype, hcovers⟩ := hs.fits (fun _ => ⟨rfl, rfl⟩) d hd
    rw [RecordData.key, hrtype, hcovers]
  · exact (hversioned events z t ht hwrites).storesByKey n s
  · exact (hplain events t ht hwrites).storesByKey n s
  · exact (config.actsOnSets_usage actions _ p hp hwrites).clears
      ((config.findsOnly_usage RecordSet.isInherited_filed hactions).2 p hp) n hs
  · exact (config.actsOnSets_plainUsage actions t ht hwrites).clears
      ((config.findsOnly_plainUsage RecordSet.isInherited_filed hactions).2 t ht) n hs

namespace Signatures

open Sample SoleWriter

/-- A signature on addresses. -/
def signature : RecordData := .rrsig .a [0]

/-- A set that the signature was added to. -/
def signed (covers : RecordType) : RecordSet :=
  (RecordSet.empty ⟨.rrsig, covers⟩ .hour).push signature

theorem assembled_signed {fits : SetKey → RecordData → Prop} {covers : RecordType}
    (h : fits ⟨.rrsig, covers⟩ signature) : (signed covers).Assembled fits :=
  .push (.empty ⟨.rrsig, covers⟩ .hour) h

theorem records_taken_back_by_key_of_signature :
    let s := signed .a
    let t := config.traffic (events [])
    let t' := config.plainTraffic (events [])
    let u := config.usage (session 0 [])
    let u' := config.plainUsage (session 0 [])
    (s.Assembled fun key d => d.rtype = key.rtype ∧ d.covers = key.covers) ∧
      (∀ d ∈ s.data, d.rtype = s.key.rtype) ∧ s.Filed ∧
      (∃ w ∈ t.txns, w.writes = true ∧ w.StoresByKey t.zone origin s) ∧
      (∃ w ∈ t'.txns, w.writes = true ∧ w.StoresByKey t'.zone origin s) ∧
      (∃ p ∈ u.txns, p.txn.writes = true ∧ p.txn.Clears u.zone origin s) ∧
      ∃ w ∈ u'.txns, w.writes = true ∧ w.Clears u'.zone origin s := by
  intro s t t' u u'
  obtain ⟨htyped, hfiled, hversioned, hplain, hclears⟩ := config.records_taken_back_by_key origin s
  have hassembled : s.Assembled fun key d => d.rtype = key.rtype ∧ d.covers = key.covers :=
    assembled_signed ⟨rfl, rfl⟩
  have hs := hfiled hassembled
  obtain ⟨husage, hplainUsage⟩ := hclears hs
  have hmem := config.writer_mem_txns []
  have hmem' := config.plainWriter_mem_txns []
  have huser : u.txns[0] ∈ u.txns := List.getElem_mem _
  have huser' : u'.txns[0] ∈ u'.txns := List.getElem_mem _
  have hactions : ∀ a ∈ (session 0 [] : List Action), a.Brings RecordSet.Filed := by
    simp [session, Actions.start, Action.Brings]
  have hactions' : ∀ a ∈ (session 0 [] : List PlainAction), a.Brings RecordSet.Filed := by
    simp [session, Actions.start, PlainAction.Brings]
  exact ⟨hassembled, (htyped (assembled_signed rfl)).1, hs,
    ⟨_, hmem, rfl, hversioned _ t.zone _ hmem rfl⟩, ⟨_, hmem', rfl, hplain _ _ hmem' rfl⟩,
    ⟨_, huser, rfl, husage _ hactions _ huser rfl⟩,
    ⟨_, huser', rfl, hplainUsage _ hactions' _ huser' rfl⟩⟩

/-- The signature was added to a set of its type, and that set to the zone, and yet a strict
deletion of the signature misses it. -/
theorem signature_missed_by_deletion :
    let s := signed .reserved
    let t := config.traffic (events [])
    let t' := config.plainTraffic (events [])
    (s.Assembled fun key d => d.rtype = key.rtype) ∧ s.data = [signature] ∧
      (t.txns.map fun w =>
        let stored := w.edit t.zone (.addSet origin s)
        (stored.1, (stored.2.edit t.zone (.deleteData origin signature true)).1)) =
          [(.ok none, .error (.missing .records))] ∧
      (t'.txns.map fun w =>
        let stored := w.edit t'.zone (.addSet origin s)
        (stored.1, (stored.2.edit t'.zone (.deleteData origin signature true)).1)) =
          [(.ok none, .error (.missing .records))] :=
  ⟨assembled_signed rfl, rfl, rfl, rfl⟩

end Signatures

end DnsZone
