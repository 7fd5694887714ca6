import DnsZone.Proofs.OneMap
import DnsZone.Proofs.OpenWriter
import DnsZone.Proofs.RecordSet.Gathering
import DnsZone.Proofs.Sample
import DnsZone.Proofs.Traffic.SoleWriter
import Mathlib.Data.List.TFAE
import Mathlib.Tactic.TFAE

/-!
# Adding a record set to one that is there

The records that are added join those that are there: the old ones stay in front, the new ones
follow, each once, and the shorter time to live is kept. Before a writer joins two sets it looks
whether all the records are there already and whether the time to live is no longer, and if so it
stores nothing. That is so exactly when storing would leave everything that it finds as it is. So to
add the same set again changes nothing.
-/

namespace DnsZone

namespace RecordSet

variable {s other : RecordSet}

theorem containsAll_iff :
    s.containsAll other = true ↔ ∀ d ∈ other.data, s.data.contains d = true := List.all_eq_true

theorem containsAll_self (s : RecordSet) : s.containsAll s = true :=
  containsAll_iff.mpr fun d hd => List.contains_iff_exists_mem_beq.mpr ⟨d, hd, BEq.rfl⟩

/-- The records that were added are there. -/
theorem containsAll_merge (s other : RecordSet) : (s.merge other).containsAll other = true := by
  refine containsAll_iff.mpr fun d hd => ?_
  rw [contains_merge, containsAll_iff.mp other.containsAll_self d hd, Bool.or_true]

/-- To join a set to another leaves that one as it is, be it up to the spelling of records, exactly
if it has all the records and no longer a time to live. -/
theorem tfae_merge_eq (s other : RecordSet) : [s.merge other = s, (s.merge other == s) = true,
    s.containsAll other = true ∧ s.ttl.secs ≤ other.ttl.secs].TFAE := by
  tfae_have 1 → 2 := fun h => by rw [h]; exact s.beq_self
  tfae_have 2 → 3 := fun h => by
    obtain ⟨-, httl, hdata⟩ := beq_iff.mp h
    simpa using merge_same_iff.mp ⟨hdata.length_eq, httl⟩
  tfae_have 3 → 1 := fun h => merge_eq_self (merge_same_iff.mpr (by simpa using h))
  tfae_finish

/-- What is taken away again leaves those old records that were not among the added ones. -/
theorem difference_merge (s other : RecordSet) : (s.merge other).difference other =
    { s.difference other with ttl := ⟨min s.ttl.secs other.ttl.secs⟩ } := by
  have hadded : ((other.data.filter fun d => !s.data.contains d).eraseDups.filter
      fun d => !other.data.contains d) = [] := by
    refine List.filter_eq_nil_iff.mpr fun d hd => ?_
    have hmem := (List.mem_filter.mp ((eraseDups_sublist _).subset hd)).1
    simpa using containsAll_iff.mp other.containsAll_self d hmem
  simp [difference, merge, hadded]

/-- What comes of adding the records of `other` to the set. -/
structure MergesWith (s other : RecordSet) : Prop where
  union_eq : s.union other =
    { key := s.key
      ttl := ⟨min s.ttl.secs other.ttl.secs⟩
      data := s.data ++ (other.data.filter fun d => !s.data.contains d).eraseDups }
  distinct : s.Distinct → (s.union other).Distinct
  /-- The set stays as it is, or equal to what it was, exactly if nothing new is added. -/
  same : [s.union other = s, (s.union other == s) = true,
    s.containsAll other = true ∧ s.ttl.secs ≤ other.ttl.secs].TFAE
  /-- What is taken away again leaves the old records that were not among the added ones. -/
  difference_union : (s.union other).difference other =
    { key := s.key
      ttl := ⟨min s.ttl.secs other.ttl.secs⟩
      data := s.data.filter fun d => !other.data.contains d }

theorem mergesWith (h : s.isEmpty = false) (other : RecordSet) : s.MergesWith other where
  union_eq := union_eq_merge h other
  distinct hdistinct := hdistinct.union other
  same := by
    rw [union_eq_merge h]
    exact s.tfae_merge_eq other
  difference_union := by
    rw [union_eq_merge h, difference_merge]
    rfl

end RecordSet

namespace Transaction

variable {ζ τ : Type} [Access τ] [Backend ζ τ]

/-- The set that is stored if the records of `s` are added at a name in stored form. -/
def joined (z : ζ) (t : Transaction τ) (m : Name) (s : RecordSet) : RecordSet :=
  match Backend.find? z t.access m s.key with
  | none => s
  | some old => old.union s

/-- All that is to be added at a name in stored form is there, and with no longer time to live. -/
def hasAdded (z : ζ) (t : Transaction τ) (m : Name) (s : RecordSet) : Bool :=
  (Backend.find? z t.access m s.key).any fun old =>
    old.containsAll s && old.ttl.secs ≤ s.ttl.secs

variable {z : ζ} {t : Transaction τ} {n m : Name} {s : RecordSet}

theorem plan_addSet (hwritable : t.requireWritable = .ok ()) (hn : t.origin.stored n = .ok m)
    (hs : s.isEmpty = false) : t.plan z (.addSet n s) =
      if t.hasAdded z m s then .ok (.nothing, none)
      else (t.planPut m (t.joined z m s)).map (·, none) := by
  rw [plan, planAddSet, hwritable, hn]
  change Except.map _ (if s.isEmpty then _ else _) = _
  rw [hs, if_neg Bool.false_ne_true, hasAdded, joined]
  cases Backend.find? z t.access m s.key with
  | none => rfl
  | some old =>
      simp only [Option.any_some]
      split <;> rfl

theorem isEmpty_joined (z : ζ) (t : Transaction τ) (m : Name) (hs : s.isEmpty = false) :
    (t.joined z m s).isEmpty = false := by
  rw [joined]
  split
  · exact hs
  · exact RecordSet.isEmpty_union _ hs

/-- Who sees all that is to be added plans nothing, and nobody else does so. -/
theorem plan_addSet_eq_nothing_iff (hwritable : t.requireWritable = .ok ())
    (hn : t.origin.stored n = .ok m) (hs : s.isEmpty = false) :
    t.plan z (.addSet n s) = .ok (.nothing, none) ↔ t.hasAdded z m s = true := by
  rw [plan_addSet hwritable hn hs]
  split
  · simpa
  · rename_i hnew
    refine iff_of_false (fun h => ?_) hnew
    obtain ⟨c, hc, heq⟩ := map_eq_ok_iff.mp h
    cases planPut_eq_ok hc
    cases heq

namespace ActsOnSets

variable (h : t.ActsOnSets z)
include h

theorem key_joined (m : Name) (s : RecordSet) : (t.joined z m s).key = s.key := by
  rw [joined]
  split
  · rfl
  · rename_i old hold
    rw [RecordSet.union_eq_merge (h.filled hold)]
    change old.key = s.key
    exact h.key_eq hold

/-- What would be stored is what is there exactly if all that is to be added is there. -/
theorem tfae_hasAdded (m : Name) (s : RecordSet) : [t.hasAdded z m s = true,
    some (t.joined z m s) = Backend.find? z t.access m s.key,
    (some (t.joined z m s) == Backend.find? z t.access m s.key) = true].TFAE := by
  rw [hasAdded, joined]
  cases hfound : Backend.find? z t.access m s.key with
  | none => simp
  | some old =>
      have hsame := (RecordSet.mergesWith (h.filled hfound) s).same
      have heq := hsame.out 2 0
      have hbeq := hsame.out 2 1
      simpa [List.tfae_cons_cons, heq] using heq.symm.trans hbeq

/-- A writer adds nothing exactly if it would find the same if it did. -/
theorem tfae_plan_addSet (hn : t.origin.stored n = .ok m) (hs : s.isEmpty = false)
    (hcongr : ∀ n' key, (n' == m) = true →
      Backend.find? z t.access n' key = Backend.find? z t.access m key) :
    [t.plan z (.addSet n s) = .ok (.nothing, none),
      ∀ n' key, Backend.find? z (t.apply (.put m (t.joined z m s))).access n' key =
        Backend.find? z t.access n' key,
      ∀ n' key, (Backend.find? z (t.apply (.put m (t.joined z m s))).access n' key ==
        Backend.find? z t.access n' key) = true].TFAE := by
  have hkey := h.key_joined m s
  have hput := h.find?_put m (isEmpty_joined z t m hs)
  have hadded := h.tfae_hasAdded m s
  rw [plan_addSet_eq_nothing_iff h.writable hn hs]
  tfae_have 1 → 2 := fun hskips n' key => by
    rw [hput]
    split
    · rename_i hat
      rw [hcongr n' key hat.1, hat.2, hkey]
      exact (hadded.out 0 1).mp hskips
    · rfl
  tfae_have 2 → 3 := fun hfind n' key => by
    rw [hfind]
    cases Backend.find? z t.access n' key with
    | none => rfl
    | some old => exact old.beq_self
  tfae_have 3 → 1 := fun hfind => by
    have hthere := hfind m s.key
    rw [hput, if_pos ⟨BEq.rfl, hkey.symm⟩] at hthere
    exact (hadded.out 0 2).mpr hthere
  tfae_finish

/-- Who has just stored the joined set sees all that was to be added. -/
theorem hasAdded_apply (m : Name) (hs : s.isEmpty = false) :
    (t.apply (.put m (t.joined z m s))).hasAdded z m s = true := by
  rw [hasAdded, h.find?_put m (isEmpty_joined z t m hs), if_pos ⟨BEq.rfl, (h.key_joined m s).symm⟩,
    Option.any_some, Bool.and_eq_true, decide_eq_true_iff]
  rw [joined]
  split
  · exact ⟨s.containsAll_self, UInt32.le_refl _⟩
  · rename_i old hold
    rw [RecordSet.union_eq_merge (h.filled hold)]
    exact ⟨old.containsAll_merge s, Std.min_le_right⟩

/-- Who has added a set sees all of it. -/
theorem hasAdded_of_edit {serial? : Option Serial} {t' : Transaction τ}
    (hedit : t.edit z (.addSet n s) = (.ok serial?, t')) (hn : t.origin.stored n = .ok m)
    (hs : s.isEmpty = false) : t'.hasAdded z m s = true := by
  obtain ⟨c, hplan, rfl⟩ := edit_eq_ok_iff.mp hedit
  rw [plan_addSet h.writable hn hs] at hplan
  split at hplan
  · rename_i hadded
    cases hplan
    exact hadded
  · obtain ⟨c, hput, heq⟩ := map_eq_ok_iff.mp hplan
    cases heq
    cases planPut_eq_ok hput
    exact h.hasAdded_apply m hs

/-- To add a set again changes nothing, whatever came of adding it first. -/
theorem edit_addSet_again {serial? : Option Serial} {t' : Transaction τ}
    (hedit : t.edit z (.addSet n s) = (.ok serial?, t')) :
    t'.edit z (.addSet n s) = (.ok none, t') := by
  obtain ⟨c, hplan, rfl⟩ := edit_eq_ok_iff.mp hedit
  obtain ⟨c, hadd, heq⟩ := map_eq_ok_iff.mp hplan
  cases heq
  obtain ⟨-, m, hn, hadd⟩ := exists_target hadd
  cases hs : s.isEmpty with
  | true =>
      rw [hs, if_pos rfl] at hadd
      cases hadd
      exact hedit
  | false =>
      have hwriter := h.after_edit (.addSet n s)
      have hn' := t.origin_edit z (e := .addSet n s) nofun ▸ hn
      rw [hedit] at hwriter hn'
      exact edit_eq_ok_iff.mpr ⟨.nothing, (plan_addSet_eq_nothing_iff hwriter.writable hn' hs).mpr
        (h.hasAdded_of_edit hedit hn hs), rfl⟩

end ActsOnSets

/-- What comes of adding the set `s` at the name `n`. -/
structure AddsOnce (z : ζ) (t : Transaction τ) (n : Name) (s : RecordSet) : Prop where
  /-- A set that is not empty is joined to the one that is there, unless nothing is planned. -/
  stores : ∀ m, t.origin.stored n = .ok m → s.isEmpty = false →
    t.plan z (.addSet n s) ≠ .ok (.nothing, none) →
      t.plan z (.addSet n s) = (t.planPut m (t.joined z m s)).map (·, none)
  /-- Nothing is planned exactly if storing the joined set would change nothing that is found, and
  if it would not even do so up to the spelling of records. -/
  skips : ∀ m, t.origin.stored n = .ok m → s.isEmpty = false →
    [t.plan z (.addSet n s) = .ok (.nothing, none),
      ∀ n' key, Backend.find? z (t.apply (.put m (t.joined z m s))).access n' key =
        Backend.find? z t.access n' key,
      ∀ n' key, (Backend.find? z (t.apply (.put m (t.joined z m s))).access n' key ==
        Backend.find? z t.access n' key) = true].TFAE
  /-- Who has added the set changes nothing by adding it again. -/
  again : ∀ serial? t', t.edit z (.addSet n s) = (.ok serial?, t') →
    t'.edit z (.addSet n s) = (.ok none, t')

theorem ActsOnSets.addsOnce (h : t.ActsOnSets z) {c : Content} (hshows : Shows z t.access c)
    (n : Name) (s : RecordSet) : t.AddsOnce z n s where
  stores m hn hs hnew := by
    have hplan := plan_addSet (z := z) h.writable hn hs
    split at hplan
    · exact absurd hplan hnew
    · exact hplan
  skips m hn hs := h.tfae_plan_addSet hn hs fun n' key hm => hshows.find?_congr hm key
  again _ _ := h.edit_addSet_again

end Transaction

/-- New records that are added to a set come behind those that it holds, each once, and the shorter
time to live counts. The set stays as it is exactly if it had all the records and no longer a time
to live, and if they are taken away again, it keeps what was not among them. So a writer that is to
add a set stores nothing exactly if storing would change nothing, and a set that was added changes
nothing when it is added again. -/
theorem ZoneConfig.additions_merge_once (config : ZoneConfig) (n : Name) (s : RecordSet) :
    (∀ old : RecordSet, old.isEmpty = false → old.MergesWith s) ∧
    (∀ (events : List (Traffic.Event Action)) (z : VersionedZone),
      ∀ t ∈ (config.traffic events).txns, t.writes = true → t.AddsOnce z n s) ∧
    ∀ events : List (Traffic.Event PlainAction), ∀ t ∈ (config.plainTraffic events).txns,
      t.writes = true → t.AddsOnce (config.plainTraffic events).zone n s := by
  obtain ⟨hversioned, hplain⟩ := config.writers_act_on_sets
  refine ⟨fun old hold => old.mergesWith hold s, fun events z t ht hwrites => ?_,
    fun events t ht hwrites => ?_⟩
  · have hwriter := hversioned events z t ht hwrites
    have hproper := config.proper_traffic events t ht hwriter.isEnded
    exact hwriter.addsOnce (z.shows t.access hproper) n s
  · obtain ⟨hsound, hproper⟩ := config.ready_plainTraffic events
    exact (hplain events t ht hwrites).addsOnce
      (PlainZone.shows hsound.proper t.access (hproper t ht)) n s

namespace JoinedTwice

open Sample SoleWriter

/-- An address is stored at the apex. -/
def calls : List Call := [.edit (.addData origin .hour (.a ⟨192, 0, 2, 1⟩))]

/-- The address at the apex and, twice, another one. -/
def both : RecordSet :=
  ⟨{ rtype := .a }, .hour, [.a ⟨192, 0, 2, 2⟩, .a ⟨192, 0, 2, 1⟩, .a ⟨192, 0, 2, 2⟩]⟩

theorem additions_merge_once_of_repeated :
    let t := config.traffic (events calls)
    let t' := config.plainTraffic (events calls)
    (RecordSet.single .hour (.a ⟨192, 0, 2, 1⟩)).MergesWith both ∧
      (∃ w ∈ t.txns, w.writes = true ∧ w.AddsOnce t.zone origin both) ∧
      ∃ w ∈ t'.txns, w.writes = true ∧ w.AddsOnce t'.zone origin both := by
  intro t t'
  obtain ⟨hmerges, hversioned, hplain⟩ := config.additions_merge_once origin both
  have hmem := config.writer_mem_txns calls
  have hmem' := config.plainWriter_mem_txns calls
  exact ⟨hmerges _ rfl, ⟨_, hmem, rfl, hversioned _ t.zone _ hmem rfl⟩,
    ⟨_, hmem', rfl, hplain _ _ hmem' rfl⟩⟩

end JoinedTwice

end DnsZone
