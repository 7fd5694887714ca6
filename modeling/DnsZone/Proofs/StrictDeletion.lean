import DnsZone.Proofs.Ledger.Records
import DnsZone.Proofs.OpenWriter
import DnsZone.Proofs.Sample
import DnsZone.Proofs.Traffic.SoleWriter

/-!
# Strict and lenient deletions

A name, a record set or some records are deleted strictly or leniently. At a name in stored form
both make the same change, `Deletion.change`, but a strict deletion is refused if something is
missing of what it is to delete. One case does not fit: to delete no records at all, where there is
no set of their key, is refused as well.
-/

namespace DnsZone

/-- What a caller wants to be deleted at a name. -/
inductive Deletion where
  | name
  | recordSet (key : SetKey)
  | records (s : RecordSet)

namespace Deletion

def edit (n : Name) (strict : Bool) : Deletion → Edit
  | .name => .deleteName n strict
  | .recordSet key => .deleteSet n key strict
  | .records s => .deleteRecords n s strict

/-- What a strict deletion that is refused names as missing. -/
def what : Deletion → Missing
  | .name => .name
  | .recordSet _ => .recordSet
  | .records _ => .records

section

variable (find? : Name → SetKey → Option RecordSet) (n : Name)

/-- Something is missing at a name of what is to be deleted. -/
def Lacks : Deletion → Prop
  | .name => ∀ key, find? n key = none
  | .recordSet key => find? n key = none
  | .records s => ∃ d ∈ s.data, ∀ old, find? n s.key = some old → old.data.contains d = false

/-- No records are to be deleted, of a set that is not there. -/
def IsVain : Deletion → Prop
  | .records s => s.isEmpty = true ∧ find? n s.key = none
  | _ => False

/-- Nothing is there of what is to be deleted. -/
def Gone : Deletion → Prop
  | .name => ∀ key, find? n key = none
  | .recordSet key => find? n key = none
  | .records s => ∀ d ∈ s.data, ∀ left, find? n s.key = some left → left.data.contains d = false

end

section

variable {ζ τ : Type} [Access τ] [Backend ζ τ]

/-- Whether a strict deletion finds that something is missing. -/
def fails (z : ζ) (t : Transaction τ) (m : Name) : Deletion → Bool
  | .name => !Backend.contains z t.access m
  | .recordSet key => (Backend.find? z t.access m key).isNone
  | .records s => !(Backend.find? z t.access m s.key).any fun old => old.containsAll s

/-- The change that a deletion makes if it is not refused. -/
def change (z : ζ) (t : Transaction τ) (m : Name) : Deletion → Change
  | .name => if Backend.contains z t.access m then .eraseName m else .nothing
  | .recordSet key =>
      if (Backend.find? z t.access m key).isSome then .eraseSet m key else .nothing
  | .records s =>
      match Backend.find? z t.access m s.key with
      | none => .nothing
      | some old =>
          if (old.difference s).isEmpty then .eraseSet m s.key
          else if (old.difference s).size = old.size then .nothing
          else .put m (old.difference s)

end

end Deletion

namespace Transaction

variable {ζ τ : Type} [Access τ] [Backend ζ τ] {z : ζ} {t : Transaction τ} {n m : Name}

/-- Strict and lenient deletions differ in what they refuse only. -/
theorem plan_deletion (hwritable : t.requireWritable = .ok ()) (hchecks : t.checks = {})
    (hn : t.origin.stored n = .ok m) (d : Deletion) (strict : Bool) :
    t.plan z (d.edit n strict) =
      if strict && d.fails z t m then .error (.missing d.what)
      else .ok (d.change z t m, none) := by
  cases d with
  | name =>
      rw [Deletion.edit, plan, planDeleteName_eq, hwritable, hn, hchecks]
      change Except.map _ (if _ then _ else _) = _
      cases hfound : Backend.contains z t.access m <;> cases strict <;>
        simp [Deletion.fails, Deletion.change, Deletion.what, hfound, consented, Except.map]
  | recordSet key =>
      rw [Deletion.edit, plan, planDeleteSet, hwritable, hn]
      change Except.map _ (t.planEraseSet z m key strict) = _
      rw [planEraseSet_eq, hchecks]
      cases hfound : Backend.find? z t.access m key <;> cases strict <;>
        simp [Deletion.fails, Deletion.change, Deletion.what, hfound, consented, Except.map]
  | records s =>
      have hput (rest : RecordSet) : t.planPut m rest = .ok (.put m rest) := by
        rw [planPut_eq, hchecks]
        rfl
      rw [Deletion.edit, plan, planDeleteRecords, hwritable, hn]
      change Except.map _
        (match Backend.find? z t.access m s.key with | none => _ | some _ => _) = _
      cases hfound : Backend.find? z t.access m s.key with
      | none =>
          cases strict <;> simp [Deletion.fails, Deletion.change, Deletion.what, hfound, Except.map]
      | some old =>
          have herase : t.planEraseSet z m s.key false = .ok (.eraseSet m s.key) := by
            rw [planEraseSet_eq, hfound, hchecks]
            rfl
          simp only [Deletion.fails, Deletion.change, Deletion.what, hfound, Option.any_some, hput,
            herase]
          split
          · rfl
          · repeat' split
            all_goals rfl

namespace ActsOnSets

variable (h : t.ActsOnSets z)
include h

/-- A strict deletion is refused if something is missing, or if it is vain. -/
theorem fails_iff (m : Name) (d : Deletion) : d.fails z t m = true ↔
    d.Lacks (Backend.find? z t.access) m ∨ d.IsVain (Backend.find? z t.access) m := by
  cases d with
  | name =>
      have hcontains := (h.contains_iff m).not
      simp only [not_exists, Option.not_isSome_iff_eq_none] at hcontains
      simpa [Deletion.fails, Deletion.Lacks, Deletion.IsVain] using hcontains
  | recordSet key => simp [Deletion.fails, Deletion.Lacks, Deletion.IsVain]
  | records s =>
      cases hfound : Backend.find? z t.access m s.key with
      | none =>
          -- there is a record to be missed unless none is asked for
          cases hdata : s.data <;>
            simp [Deletion.fails, Deletion.Lacks, Deletion.IsVain, RecordSet.isEmpty, hfound, hdata]
      | some old =>
          simp [Deletion.fails, Deletion.Lacks, Deletion.IsVain, RecordSet.containsAll, hfound]

/-- What was to be deleted is gone after the change. -/
theorem gone_change (m : Name) (d : Deletion) :
    d.Gone (Backend.find? z (t.apply (d.change z t m)).access) m := by
  cases d with
  | name =>
      intro key
      rw [Deletion.change]
      split
      · rename_i hfound
        rw [h.find?_eraseName hfound, if_pos BEq.rfl]
      · rename_i hfound
        by_contra hkey
        exact hfound ((h.contains_iff m).mpr ⟨key, Option.isSome_iff_ne_none.mpr hkey⟩)
  | recordSet key =>
      change Backend.find? z _ m key = none
      rw [Deletion.change]
      split
      · rename_i hfound
        rw [h.find?_eraseSet hfound, if_pos ⟨BEq.rfl, rfl⟩]
      · rename_i hfound
        exact Option.not_isSome_iff_eq_none.mp hfound
  | records s =>
      intro d hd left hleft
      have hasked : s.data.contains d = true :=
        List.contains_iff_exists_mem_beq.mpr ⟨d, hd, BEq.rfl⟩
      rw [Deletion.change] at hleft
      split at hleft
      · rename_i hfound
        cases hfound.symm.trans hleft
      · rename_i old hfound
        have hrest : (old.difference s).data.contains d = false := by
          rw [RecordSet.contains_difference, hasked, Bool.not_true, Bool.and_false]
        split at hleft
        · rw [h.find?_eraseSet (Option.isSome_of_eq_some hfound), if_pos ⟨BEq.rfl, rfl⟩] at hleft
          cases hleft
        · rename_i hempty
          split at hleft
          · rename_i hsize
            cases hfound.symm.trans hleft
            rwa [RecordSet.difference_eq_self hsize] at hrest
          · rw [h.find?_put m (Bool.eq_false_iff.mpr hempty),
              if_pos ⟨BEq.rfl, (h.key_eq hfound).symm⟩] at hleft
            cases hleft
            exact hrest

end ActsOnSets

/-- What comes of a deletion at the name `n`, which is `m` in stored form. -/
structure DeletesExactly (z : ζ) (t : Transaction τ) (n m : Name) (d : Deletion) : Prop where
  refused_iff : (t.edit z (d.edit n true)).1 = .error (.missing d.what) ↔
    d.Lacks (Backend.find? z t.access) m ∨ d.IsVain (Backend.find? z t.access) m
  lenient : (t.edit z (d.edit n false)).1 = .ok none
  strict : ∀ serial? t', t.edit z (d.edit n true) = (.ok serial?, t') →
    t.edit z (d.edit n false) = (.ok serial?, t') ∧ d.Gone (Backend.find? z t'.access) m

theorem ActsOnSets.deletesExactly (h : t.ActsOnSets z) (hchecks : t.checks = {})
    (hn : t.origin.stored n = .ok m) (d : Deletion) : t.DeletesExactly z n m d := by
  have hstrict := plan_deletion (z := z) h.writable hchecks hn d true
  have hlenient : t.edit z (d.edit n false) = (.ok none, t.apply (d.change z t m)) := by
    rw [edit, plan_deletion h.writable hchecks hn d false]
    rfl
  refine ⟨?_, by rw [hlenient], fun serial? t' hedit => ?_⟩
  · rw [← h.fails_iff, edit, hstrict]
    cases d.fails z t m <;> simp
  · obtain ⟨c, hplan, rfl⟩ := edit_eq_ok_iff.mp hedit
    rw [hstrict] at hplan
    split at hplan
    · cases hplan
    · cases hplan
      exact ⟨hlenient, h.gone_change m d⟩

end Transaction

/-- A writer without checks that is to delete something at a name in the zone: if it is to do so
strictly it refuses exactly if something is missing, or if it is asked for no records of a set that
is not there, and names what; otherwise it does what it does leniently, which is never refused, and
all that was to be deleted is gone. -/
theorem ZoneConfig.deletions_are_exact (config : ZoneConfig) (n m : Name) (d : Deletion) :
    (∀ (events : List (Traffic.Event Action)) (z : VersionedZone),
      ∀ t ∈ (config.traffic events).txns, t.writes = true → t.checks = {} →
        t.origin.stored n = .ok m → t.DeletesExactly z n m d) ∧
    ∀ events : List (Traffic.Event PlainAction), ∀ t ∈ (config.plainTraffic events).txns,
      t.writes = true → t.checks = {} → t.origin.stored n = .ok m →
        t.DeletesExactly (config.plainTraffic events).zone n m d := by
  obtain ⟨hversioned, hplain⟩ := config.writers_act_on_sets
  constructor
  · intro events z t ht hwrites hchecks hn
    exact (hversioned events z t ht hwrites).deletesExactly hchecks hn d
  · intro events t ht hwrites hchecks hn
    exact (hplain events t ht hwrites).deletesExactly hchecks hn d

namespace StrictDeletion

open Sample SoleWriter

/-- Two records are stored at the apex. -/
def calls : List Call :=
  [.edit (.addData origin .hour (.txt [])), .edit (.addData origin .hour (.txt [[0x61]]))]

/-- One of the records, and one that is not there. -/
def overlapping : Deletion := .records ⟨{ rtype := .txt }, .hour, [.txt [], .txt [[0x62]]]⟩

theorem deletions_are_exact_of_overlapping :
    let t := config.traffic (events calls)
    let t' := config.plainTraffic (events calls)
    (∃ w ∈ t.txns, w.writes = true ∧ w.checks = {} ∧ w.origin.stored origin = .ok .empty ∧
      w.DeletesExactly t.zone origin .empty overlapping) ∧
    ∃ w ∈ t'.txns, w.writes = true ∧ w.checks = {} ∧ w.origin.stored origin = .ok .empty ∧
      w.DeletesExactly t'.zone origin .empty overlapping := by
  intro t t'
  obtain ⟨hversioned, hplain⟩ := config.deletions_are_exact origin .empty overlapping
  have hmem := config.writer_mem_txns calls
  have hmem' := config.plainWriter_mem_txns calls
  exact ⟨⟨_, hmem, rfl, rfl, rfl, hversioned _ t.zone _ hmem rfl rfl rfl⟩,
    ⟨_, hmem', rfl, rfl, rfl, hplain _ _ hmem' rfl rfl rfl⟩⟩

/-- No addresses at all. -/
def vain : Deletion := .records (.empty { rtype := .a } .hour)

/-- A strict deletion of no records misses none of them, and yet is refused. -/
theorem vain_deletion_refused :
    let t := config.traffic (events calls)
    let t' := config.plainTraffic (events calls)
    (t.txns.map fun w => (w.edit t.zone (vain.edit origin true)).1) =
        [.error (.missing .records)] ∧
      (t'.txns.map fun w => (w.edit t'.zone (vain.edit origin true)).1) =
        [.error (.missing .records)] ∧
      ∀ find? m, ¬ vain.Lacks find? m :=
  ⟨rfl, rfl, fun _ _ hlacks => by simp [vain, Deletion.Lacks, RecordSet.empty] at hlacks⟩

end StrictDeletion

end DnsZone
