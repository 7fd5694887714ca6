import DnsZone.Proofs.Sample
import DnsZone.Proofs.Traffic.SoleWriter
import DnsZone.Proofs.VersionedZone.Turnover

/-!
# In which order readers end

Each end of a reader drops the versions that have become free, and how far it gets depends on who
still reads. Several readers may end in any order all the same: as they go, there is less and less
to be kept, so what was dropped on the way would be dropped in the end as well. All that matters is
which readers there are afterwards.
-/

namespace DnsZone

open VersionedZone (Txn)

namespace VersionedZone

/-- Readers of the given versions end one after another. -/
def unpinAll (z : VersionedZone) (ids : List VersionId) : VersionedZone :=
  ids.foldl (fun z id => z.unpin id) z

theorem unpinAll_cons (z : VersionedZone) (id : VersionId) (ids : List VersionId) :
    z.unpinAll (id :: ids) = (z.unpin id).unpinAll ids := rfl

/-- After the end of two readers it is as if both had been taken off before anything was dropped. -/
theorem unpin_unpin {z : VersionedZone} (h : z.readers.Positive) (id id' : VersionId) :
    (z.unpin id).unpin id' =
      prune { z with readers := (z.readers.unregister id).unregister id' } := by
  have hless := z.chain.leastKept_le_unregister (Readers.positive_unregister h id) id'
  have hchain := VersionChain.prune_prune_of_le hless z.policy
  rw [unpin, unpin, prune, prune, prune]
  simp only [hchain]

theorem unpin_comm {z : VersionedZone} (h : z.readers.Positive) (id id' : VersionId) :
    (z.unpin id).unpin id' = (z.unpin id').unpin id := by
  rw [unpin_unpin h, unpin_unpin h, Readers.unregister_comm h]

/-- Readers may end in any order. -/
theorem unpinAll_perm {ids ids' : List VersionId} (hperm : ids.Perm ids') {z : VersionedZone}
    (h : z.readers.Positive) : z.unpinAll ids = z.unpinAll ids' := by
  induction hperm generalizing z with
  | nil => rfl
  | cons id _ ih => exact ih (Readers.positive_unregister h id)
  | swap id id' ids =>
      rw [unpinAll_cons, unpinAll_cons, unpinAll_cons, unpinAll_cons, unpin_comm h]
  | trans _ _ ih ih' => exact (ih h).trans (ih' h)

end VersionedZone

/-- The number of the transaction that an action ends, unless it has ended before. -/
def Action.ended? : Action → Option Nat
  | .call i .commit => some i
  | .call i .rollback => some i
  | .drop i => some i
  | _ => none

namespace Usage

variable {u : Usage} {i : Nat} {p : Participant} {v : Version}

/-- The actions end one reader each: those that were started as the given numbers, which are open
before the first of the actions. -/
structure EndsReaders (u : Usage) (ends : List Action) (readers : List Nat) : Prop where
  ended : ends.map Action.ended? = readers.map some
  distinct : readers.Nodup
  reading : ∀ i ∈ readers, ∃ p v, u.txns[i]? = some p ∧ p.txn.access = .reading v

/-- The version that the transaction started as number `i` reads. -/
def versionRead? (u : Usage) (i : Nat) : Option VersionId :=
  u.txns[i]?.bind fun p =>
    match p.txn.access with
    | .reading v => some v.id
    | _ => none

theorem versionRead?_eq_some (hp : u.txns[i]? = some p) (hv : p.txn.access = .reading v) :
    u.versionRead? i = some v.id := by
  rw [versionRead?, hp, Option.bind_some, hv]

/-- A reader that is ended, in whichever way, is counted off. The other transactions stay. -/
theorem step_of_ended (hw : Writers u) {a : Action} (ha : a.ended? = some i)
    (hp : u.txns[i]? = some p) (hv : p.txn.access = .reading v) :
    (u.step a).zone = u.zone.unpin v.id ∧ ∀ j, j ≠ i → (u.step a).txns[j]? = u.txns[j]? := by
  have hopen := VersionedZone.isEnded_of_reading hv
  have hclose (commit : Bool) := VersionedZone.close_of_reading hw.alive hv commit
  have hcall {c : Call} (hends : p.txn.ends c = true) :
      (u.step (.call i c)).zone = u.zone.unpin v.id ∧
        ∀ j, j ≠ i → (u.step (.call i c)).txns[j]? = u.txns[j]? := by
    rw [step, hp]
    refine ⟨?_, fun j hj => List.getElem?_set_ne hj.symm⟩
    exact (congrArg (·.2) (Transaction.call_of_ends hends)).trans (hclose _)
  have hcommit : p.txn.ends .commit = true := by rw [Transaction.ends, hopen, Bool.not_false]
  have hrollback : p.txn.ends .rollback = true := by rw [Transaction.ends, hopen, Bool.not_false]
  cases a with
  | call i' c =>
      cases c with
      | commit =>
          cases ha
          exact hcall hcommit
      | rollback =>
          cases ha
          exact hcall hrollback
      | _ => cases ha
  | drop i' =>
      cases ha
      rw [step, hp]
      refine ⟨?_, fun j hj => List.getElem?_set_ne hj.symm⟩
      change p.txn.drop u.zone = _
      rw [Transaction.drop, hopen, if_neg Bool.false_ne_true, hclose]
  | _ => cases ha

/-- All that the ends of several readers do to the zone is to count off what these read. -/
theorem zone_run_of_endsReaders (hw : Writers u) {ends : List Action} {readers : List Nat}
    (h : u.EndsReaders ends readers) :
    (u.run ends).zone = u.zone.unpinAll (readers.filterMap u.versionRead?) := by
  induction ends generalizing u readers with
  | nil =>
      cases readers with
      | nil => rfl
      | cons i readers => cases h.ended
  | cons a ends ih =>
      cases readers with
      | nil => cases h.ended
      | cons i readers =>
          obtain ⟨ha, hended⟩ := List.cons.inj h.ended
          obtain ⟨hi, hdistinct⟩ := List.nodup_cons.mp h.distinct
          obtain ⟨p, v, hp, hv⟩ := h.reading i List.mem_cons_self
          obtain ⟨hzone, htxns⟩ := step_of_ended hw ha hp hv
          have hother (j : Nat) (hj : j ∈ readers) : (u.step a).txns[j]? = u.txns[j]? :=
            htxns j fun hji => hi (hji ▸ hj)
          have hrest : (u.step a).EndsReaders ends readers :=
            { ended := hended
              distinct := hdistinct
              reading := fun j hj => by
                rw [hother j hj]
                exact h.reading j (List.mem_cons_of_mem i hj) }
          have hread : readers.filterMap (u.step a).versionRead? =
              readers.filterMap u.versionRead? :=
            List.filterMap_congr fun j hj => by rw [versionRead?, versionRead?, hother j hj]
          have hrun := ih (hw.effect (effect_step u a)) hrest
          rw [hread, hzone] at hrun
          rw [List.filterMap_cons_some (versionRead?_eq_some hp hv), VersionedZone.unpinAll_cons]
          exact hrun

end Usage

/-- However readers and writers of a new zone come and go, and whatever its policy is: open readers
may be ended in any order, by committing them, rolling them back or dropping them. The same versions
are kept, the same readers remain, and nothing else about the zone differs. -/
theorem ZoneConfig.readers_end_in_any_order (config : ZoneConfig) (actions : List Action)
    {ends ends' : List Action} {readers readers' : List Nat}
    (h : (config.usage actions).EndsReaders ends readers)
    (h' : (config.usage actions).EndsReaders ends' readers') (hperm : readers.Perm readers') :
    ((config.usage actions).run ends).zone = ((config.usage actions).run ends').zone := by
  have hw := config.writers_usage actions
  rw [Usage.zone_run_of_endsReaders hw h, Usage.zone_run_of_endsReaders hw h']
  exact VersionedZone.unpinAll_perm (hperm.filterMap _) (config.pinned_usage actions).positive

namespace ReaderEnds

open Sample SoleWriter

/-- A writer, started as number `i`, adds a record and commits. -/
def publish (i : Nat) (data : RecordData) : List Action :=
  session i [.edit (.addData origin .hour data), .commit]

/-- Two readers of the first version and one of the second, while there is a third. -/
def actions : List Action :=
  [.read none, .read none] ++ publish 2 (.txt []) ++ [.read none] ++ publish 4 (.txt [[0x61]])

theorem readers_end_in_two_orders :
    let u := config.usage actions
    let ends := [.drop 0, .call 3 .commit, .call 1 .rollback]
    let ends' := [.call 1 .commit, .drop 0, .drop 3]
    u.EndsReaders ends [0, 3, 1] ∧ u.EndsReaders ends' [1, 0, 3] ∧ [0, 3, 1].Perm [1, 0, 3] ∧
      u.zone.chain.ids = [⟨1⟩, ⟨2⟩, ⟨3⟩] ∧ (u.run ends).zone = (u.run ends').zone := by
  intro u ends ends'
  have hreading : ∀ i ∈ [0, 1, 3], ∃ p v, u.txns[i]? = some p ∧ p.txn.access = .reading v := by
    simp only [List.forall_mem_cons, List.not_mem_nil, false_imp_iff, implies_true, and_true]
    exact ⟨⟨_, _, rfl, rfl⟩, ⟨_, _, rfl, rfl⟩, ⟨_, _, rfl, rfl⟩⟩
  have hends : u.EndsReaders ends [0, 3, 1] :=
    ⟨rfl, by decide, fun i hi => hreading i (by simp at hi ⊢; omega)⟩
  have hends' : u.EndsReaders ends' [1, 0, 3] :=
    ⟨rfl, by decide, fun i hi => hreading i (by simp at hi ⊢; omega)⟩
  have hperm : [0, 3, 1].Perm [1, 0, 3] := by decide
  exact ⟨hends, hends', hperm, by decide,
    config.readers_end_in_any_order actions hends hends' hperm⟩

end ReaderEnds

end DnsZone
