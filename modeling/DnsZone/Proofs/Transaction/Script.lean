import DnsZone.Proofs.Transaction.Bisimulation

/-!
# Whole transactions

A `Script` is all that a caller does with one transaction: start it, make calls on it, and drop it,
which rolls it back unless one of the calls has ended it. What the caller learns is the transcript
of the script. On two kinds of zone that are related by a `Bisimulation` and start transactions
alike, any sequence of scripts has transcripts that agree.
-/

namespace DnsZone

/-- How a transaction is started. -/
inductive Start where
  /-- As a reader, of the latest content or of what a query asks for. -/
  | reader (query? : Option VersionQuery)
  /-- As a writer, which sees no content if `replacement` holds. -/
  | writer (replacement : Bool)

/-- All that a caller does with one transaction before dropping it. -/
structure Script where
  start : Start
  calls : List Call

/-- The result of a call, and what the transaction says of its changes right after it. -/
structure Exchange where
  result : Except ZoneError Reply
  changed : Except ZoneError Bool

/-- What the caller of a script learns: nothing if it cannot start without waiting, the error if it
is refused, and otherwise what the calls yield. -/
abbrev Transcript := Option (Except ZoneError (List Exchange))

section Run

variable {ζ τ : Type} [Access τ]

/-- Starts a transaction, unless it has to wait for write access. -/
def Start.open? [Host ζ τ] (s : Start) (z : ζ) : Option (Except ZoneError (Transaction τ × ζ)) :=
  match s with
  | .reader query? => some (Transaction.reader query? z)
  | .writer replacement => (Transaction.writer? replacement z).map .ok

/-- Makes calls on a transaction in order. -/
def Transaction.exchange [Backend ζ τ] (t : Transaction τ) (z : ζ) :
    List Call → List Exchange × Transaction τ × ζ
  | [] => ([], t, z)
  | c :: rest =>
      let o := t.call z c
      let r := o.2.1.exchange o.2.2 rest
      (⟨o.1, o.2.1.changed o.2.2⟩ :: r.1, r.2)

/-- Runs a script, yielding its transcript and the zone after it. -/
def Script.run [Host ζ τ] (s : Script) (z : ζ) : Transcript × ζ :=
  match s.start.open? z with
  | none => (none, z)
  | some (.error e) => (some (.error e), z)
  | some (.ok (t, z)) =>
      let r := t.exchange z s.calls
      (some (.ok r.1), r.2.1.drop r.2.2)

/-- Runs scripts one after another, yielding for each its transcript and the zone after it. -/
def Script.runAll [Host ζ τ] (z : ζ) : List Script → List (Transcript × ζ)
  | [] => []
  | s :: rest => s.run z :: runAll (s.run z).2 rest

/-- The zone after some scripts. -/
def Script.zoneAfter [Host ζ τ] (z : ζ) (scripts : List Script) : ζ :=
  scripts.foldl (fun z s => (s.run z).2) z

theorem Script.zoneAfter_concat [Host ζ τ] (z : ζ) (scripts : List Script) (s : Script) :
    Script.zoneAfter z (scripts ++ [s]) = (s.run (Script.zoneAfter z scripts)).2 :=
  List.foldl_concat ..

/-- The last of some calls is made on what the others leave. -/
theorem Transaction.exchange_concat [Backend ζ τ] (t : Transaction τ) (z : ζ) (calls : List Call)
    (c : Call) :
    (t.exchange z (calls ++ [c])).2 =
      ((t.exchange z calls).2.1.call (t.exchange z calls).2.2 c).2 := by
  induction calls generalizing t z with
  | nil => rfl
  | cons d rest ih => exact ih _ _

end Run

/-- Two exchanges with agreeing results and the same answer on changes. -/
structure Exchange.Agree (x y : Exchange) : Prop where
  result : SameResult Reply.Agree x.result y.result
  changed : x.changed = y.changed

/-- Both scripts were started or refused, with the same error or with agreeing exchanges. -/
def Transcript.Agree (x y : Transcript) : Prop :=
  ∃ r r', x = some r ∧ y = some r' ∧ SameResult (List.Forall₂ Exchange.Agree) r r'

variable {ζ τ ζ' τ' : Type} [Access τ] [Host ζ τ] [Access τ'] [Host ζ' τ']

/-- A bisimulation under which transactions are started alike, as long as none is open. -/
structure HostBisimulation (R : ζ → τ → ζ' → τ' → Prop) : Prop extends Bisimulation R where
  origin {z a z' a'} (h : R z a z' a') : Host.origin z = Host.origin z'
  checksOrigin {z a z' a'} (h : R z a z' a') : Host.checksOrigin z = Host.checksOrigin z'
  openReader {z z'} (h : R z Access.ended z' Access.ended) (query? : Option VersionQuery) :
    SameResult (fun o o' => R o.2 o.1 o'.2 o'.1) (Host.openReader query? z)
      (Host.openReader query? z')
  openWriter? {z z'} (h : R z Access.ended z' Access.ended) (replacement : Bool) :
    ∃ o o', Host.openWriter? replacement z = some o ∧ Host.openWriter? replacement z' = some o' ∧
      R o.2 o.1 o'.2 o'.1

namespace Transaction.Related

variable {R : ζ → τ → ζ' → τ' → Prop} {t : Transaction τ} {z : ζ} {t' : Transaction τ'} {z' : ζ'}

theorem exchange (hR : Bisimulation R) (h : Related R t z t' z') (calls : List Call) :
    List.Forall₂ Exchange.Agree (t.exchange z calls).1 (t'.exchange z' calls).1 ∧
      Related R (t.exchange z calls).2.1 (t.exchange z calls).2.2 (t'.exchange z' calls).2.1
        (t'.exchange z' calls).2.2 := by
  induction calls generalizing t z t' z' with
  | nil => exact ⟨.nil, h⟩
  | cons c rest ih =>
      obtain ⟨hresult, hrel⟩ := h.call hR c
      obtain ⟨hrest, hlast⟩ := ih hrel
      exact ⟨.cons ⟨hresult, hrel.changed_eq hR⟩ hrest, hlast⟩

end Transaction.Related

namespace HostBisimulation

variable {R : ζ → τ → ζ' → τ' → Prop} {z : ζ} {z' : ζ'}

/-- Both transactions are refused for the same reason, or are started and related. -/
theorem starts (hR : HostBisimulation R) (h : R z Access.ended z' Access.ended) (s : Start) :
    ∃ r r', s.open? z = some r ∧ s.open? z' = some r' ∧
      SameResult (fun o o' => Transaction.Related R o.1 o.2 o'.1 o'.2) r r' := by
  cases s with
  | reader query? =>
      refine ⟨_, _, rfl, rfl, ?_⟩
      have hopen := hR.openReader h query?
      rw [Transaction.reader, Transaction.reader]
      generalize Host.openReader query? z = x at hopen ⊢
      generalize Host.openReader query? z' = x' at hopen ⊢
      cases hopen with
      | error e => exact .error e
      | ok haccess => exact .ok ⟨haccess, hR.origin haccess, rfl, rfl, rfl⟩
  | writer replacement =>
      obtain ⟨o, o', ho, ho', haccess⟩ := hR.openWriter? h replacement
      refine ⟨.ok (.ofWriter o.1 o.2, o.2), .ok (.ofWriter o'.1 o'.2, o'.2), ?_, ?_,
        .ok ⟨haccess, hR.origin haccess, rfl, hR.checksOrigin haccess, rfl⟩⟩
      · rw [Start.open?, Transaction.writer?, ho]
        rfl
      · rw [Start.open?, Transaction.writer?, ho']
        rfl

theorem run (hR : HostBisimulation R) (h : R z Access.ended z' Access.ended) (s : Script) :
    Transcript.Agree (s.run z).1 (s.run z').1 ∧
      R (s.run z).2 Access.ended (s.run z').2 Access.ended := by
  obtain ⟨r, r', hr, hr', hsame⟩ := hR.starts h s.start
  rw [Script.run, Script.run, hr, hr']
  cases hsame with
  | error e => exact ⟨⟨_, _, rfl, rfl, .error e⟩, h⟩
  | ok hrel =>
      obtain ⟨hagree, hlast⟩ := hrel.exchange hR.toBisimulation s.calls
      exact ⟨⟨_, _, rfl, rfl, .ok hagree⟩, hlast.drop hR.toBisimulation⟩

/-- Scripts run one after another have agreeing transcripts, and the zones stay related. -/
theorem runAll (hR : HostBisimulation R) (h : R z Access.ended z' Access.ended)
    (scripts : List Script) :
    List.Forall₂ (fun x y => Transcript.Agree x.1 y.1 ∧ R x.2 Access.ended y.2 Access.ended)
      (Script.runAll z scripts) (Script.runAll z' scripts) := by
  induction scripts generalizing z z' with
  | nil => exact .nil
  | cons s rest ih =>
      have hrun := hR.run h s
      exact .cons hrun (ih hrun.2)

end HostBisimulation

end DnsZone
