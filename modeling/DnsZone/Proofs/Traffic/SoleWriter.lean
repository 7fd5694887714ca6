import DnsZone.Proofs.PlainZone.Traffic
import DnsZone.Proofs.VersionedZone.Traffic

/-!
# A writer on its own

In the simplest traffic a writer is started, calls are made on it one after another, and nobody else
is around. For both kinds of zones no more comes of such a session than of the exchange of the calls
with the writer.
-/

namespace DnsZone

open VersionedZone (Txn)

namespace SoleWriter

/-- How a writer is started and called, in what users of a kind of zone do in one go. -/
class Actions (α : Type) where
  start : List α
  /-- A call is made on the transaction started as number `i`. -/
  call (i : Nat) (c : Call) : α

instance : Actions Action where
  start := [.seize, .begin false]
  call := .call

instance : Actions PlainAction where
  start := [.start (.writer false)]
  call := .call

variable {α : Type} [Actions α]

/-- A writer is started, as transaction number `i`, and calls are made on it. -/
def session (i : Nat) (calls : List Call) : List α := Actions.start ++ calls.map (Actions.call i)

/-- The first writer of a zone makes calls. -/
def events (calls : List Call) : List (Traffic.Event α) := (session 0 calls).map .act

/-- It goes on to make calls. -/
def later (calls : List Call) : List (Traffic.Event α) := (calls.map (Actions.call 0)).map .act

end SoleWriter

/-! ### The exchange of a session -/

theorem Usage.run_calls {u : Usage} {p : Participant} (h : u.txns = [p]) (calls : List Call) :
    (u.run (calls.map (.call 0))).txns =
      [⟨p.start, p.calls ++ calls, (p.txn.exchange u.zone calls).2.1⟩] := by
  induction calls generalizing u p with
  | nil => simp [run, h, Transaction.exchange]
  | cons c rest ih =>
      have hp : u.txns[0]? = some p := by
        rw [h]
        rfl
      have hstep : u.step (.call 0 c) = u.call 0 p c := by rw [step, hp]
      have htxns : (u.call 0 p c).txns =
          [⟨p.start, p.calls ++ [c], (p.txn.call u.zone c).2.1⟩] := by
        rw [call, h]
        rfl
      rw [List.map_cons, run, List.foldl_cons, hstep]
      refine (ih htxns).trans ?_
      rw [List.append_assoc]
      rfl

theorem PlainUsage.run_calls (z : PlainZone) (t : Transaction PlainAccess) (calls : List Call) :
    (PlainUsage.mk z [t]).run (calls.map (.call 0)) =
      ⟨(t.exchange z calls).2.2, [(t.exchange z calls).2.1]⟩ := by
  induction calls generalizing z t with
  | nil => rfl
  | cons c rest ih => exact ih _ _

theorem Traffic.run_acts {υ ζ τ α : Type} [Access τ] [Host ζ τ] [Crowd υ ζ τ α]
    (t : Traffic υ τ) (actions : List α) :
    t.run (actions.map .act) = ⟨actions.foldl Crowd.act t.users, t.updaters⟩ := by
  induction actions generalizing t with
  | nil => rfl
  | cons a rest ih => exact ih _

namespace ZoneConfig

/-- A writer of a new zone that keeps versions, after some calls. -/
def writer (config : ZoneConfig) (calls : List Call) : Txn :=
  let z : VersionedZone := { config.unused.zone with admission := { active := true } }
  ((z.startWriter false).exchange z calls).2.1

/-- A writer of a new plain zone, after some calls. -/
def plainWriter (config : ZoneConfig) (calls : List Call) : Transaction PlainAccess :=
  let z : PlainZone := { config.emptyPlain with locked := true }
  ((Transaction.ofWriter (.writing (.start false 0)) z).exchange z calls).2.1

variable (config : ZoneConfig) (calls : List Call)

theorem txns_usage_session : (config.usage (SoleWriter.session 0 calls)).txns =
    [⟨.writer false, calls, config.writer calls⟩] := by
  have hstart : (config.usage (SoleWriter.session 0 [])).txns =
      [⟨.writer false, [], config.writer []⟩] := rfl
  exact Usage.run_calls hstart calls

theorem txns_plainUsage_session : (config.plainUsage (SoleWriter.session 0 calls)).txns =
    [config.plainWriter calls] :=
  congrArg PlainUsage.txns (PlainUsage.run_calls ..)

theorem txns_traffic_session : Crowd.txns (config.traffic (SoleWriter.events calls)).users =
    [config.writer calls] := by
  rw [traffic, SoleWriter.events, Traffic.run_acts]
  exact congrArg (List.map Participant.txn) (config.txns_usage_session calls)

theorem txns_plainTraffic_session :
    Crowd.txns (config.plainTraffic (SoleWriter.events calls)).users =
      [config.plainWriter calls] := by
  rw [plainTraffic, SoleWriter.events, Traffic.run_acts]
  exact config.txns_plainUsage_session calls

/-- The writer takes part in the traffic. -/
theorem writer_mem_txns :
    config.writer calls ∈ (config.traffic (SoleWriter.events calls)).txns := by
  refine List.mem_append_left _ ?_
  rw [txns_traffic_session]
  exact List.mem_singleton_self _

theorem plainWriter_mem_txns :
    config.plainWriter calls ∈ (config.plainTraffic (SoleWriter.events calls)).txns := by
  refine List.mem_append_left _ ?_
  rw [txns_plainTraffic_session]
  exact List.mem_singleton_self _

end ZoneConfig

end DnsZone
