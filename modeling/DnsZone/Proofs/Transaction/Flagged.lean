import DnsZone.Proofs.Transaction.Moments

/-!
# The flag of a transaction

Whether a transaction has ended can be read off its state in the zone. It may as well keep a flag of
its own and go by that: the flag is raised whenever the transaction is ended in its zone, and so the
two agree at all times.
-/

namespace DnsZone

/-- A transaction with a flag that tells whether it has ended. -/
structure Flagged (τ : Type) where
  ended : Bool
  txn : Transaction τ

namespace Flagged

variable {ζ τ : Type} [Access τ] [Backend ζ τ]

/-- Raises the flag and ends the transaction in its zone, whatever its state is there. -/
def close (commit : Bool) (f : Flagged τ) (z : ζ) : Except ZoneError Unit × Flagged τ × ζ :=
  let (result, t, z') := f.txn.close commit z
  (result, ⟨true, t⟩, z')

def rollback (f : Flagged τ) (z : ζ) : Except ZoneError Unit × Flagged τ × ζ :=
  if f.ended then (.error .alreadyEnded, f, z) else f.close false z

/-- Commits the transaction, or has it rolled back if the origin would lack what it needs. -/
def commit (f : Flagged τ) (z : ζ) : Except ZoneError Unit × Flagged τ × ζ :=
  if f.ended then (.error .alreadyEnded, f, z)
  else
    match f.txn.apexFault? z with
    | none => f.close true z
    | some fault =>
        match f.rollback z with
        | (.error e, f', z') => (.error e, f', z')
        | (.ok _, f', z') => (.error fault, f', z')

def drop (f : Flagged τ) (z : ζ) : ζ := if f.ended then z else (f.close false z).2.2

/-- The flag is looked at before anything else. -/
def call (f : Flagged τ) (z : ζ) : Call → Except ZoneError Reply × Flagged τ × ζ
  | .commit =>
      let (result, f', z') := f.commit z
      (result.map fun _ => .done, f', z')
  | .rollback =>
      let (result, f', z') := f.rollback z
      (result.map fun _ => .done, f', z')
  | .query .status => (.ok (.status { f.txn.status with ended := f.ended }), f, z)
  | c =>
      if f.ended && c.isGuarded then (.error .alreadyEnded, f, z)
      else
        let (result, t, z') := f.txn.call z c
        (result, ⟨f.ended, t⟩, z')

def meet (s : Flagged τ × ζ) : Moment ζ → Flagged τ × ζ
  | .call c => (s.1.call s.2 c).2
  | .others act => (s.1, act s.2)

/-- The zone after some moments and the drop. -/
def live (f : Flagged τ) (z : ζ) (moments : List (Moment ζ)) : ζ :=
  let (f', z') := moments.foldl meet (f, z)
  f'.drop z'

/-! ### The flag agrees with the state -/

omit [Backend ζ τ] in
/-- The transaction with the flag that agrees with its state. -/
def ofTxn (t : Transaction τ) : Flagged τ := ⟨t.isEnded, t⟩

/-- What comes of a transaction, with the flag that agrees with its state. -/
def ofOutcome {α : Type} (o : Transaction.Outcome ζ τ α) : Except ZoneError α × Flagged τ × ζ :=
  (o.1, ofTxn o.2.1, o.2.2)

section

variable {z : ζ} {t : Transaction τ} [LawfulAccess τ]

theorem close_ofTxn (commit : Bool) : (ofTxn t).close commit z = ofOutcome (t.close commit z) := by
  have hflag : (t.close commit z).2.1.isEnded = true := decide_eq_true LawfulAccess.mode_ended
  rw [ofOutcome, ofTxn, ofTxn, hflag]
  rfl

theorem rollback_ofTxn : (ofTxn t).rollback z = ofOutcome (t.rollback z) := by
  rw [rollback, Transaction.rollback, close_ofTxn]
  change (if t.isEnded = true then _ else _) = _
  split <;> rfl

theorem commit_ofTxn : (ofTxn t).commit z = ofOutcome (t.commit z) := by
  rw [commit, Transaction.commit, close_ofTxn, rollback_ofTxn, Transaction.rollback]
  change (if t.isEnded = true then _ else match t.apexFault? z with | none => _ | some _ => _) = _
  split
  · rfl
  · cases t.apexFault? z with
    | none => rfl
    | some fault =>
        generalize t.close false z = x
        obtain ⟨result, t', z'⟩ := x
        cases result <;> rfl

/-- A call has the same result and effect, whether the flag is looked at or the state. -/
theorem call_ofTxn (c : Call) : (ofTxn t).call z c = ofOutcome (t.call z c) := by
  have hother (hends : t.ends c = false) :
      (if t.isEnded && c.isGuarded then (.error .alreadyEnded, ofTxn t, z)
        else ((t.call z c).1, ⟨t.isEnded, (t.call z c).2.1⟩, (t.call z c).2.2)) =
      ofOutcome (t.call z c) := by
    split
    · rename_i hrefused
      obtain ⟨hover, hguarded⟩ := Bool.and_eq_true_iff.mp hrefused
      rw [(Transaction.isOver hover).refuses c hguarded]
      rfl
    · rw [ofOutcome, ofTxn, Transaction.isEnded_call hends]
  cases c with
  | query q => cases q <;> first | exact hother rfl | rfl
  | edit e => exact hother rfl
  | load cls records => exact hother rfl
  | commit =>
      rw [call, commit_ofTxn]
      rfl
  | rollback =>
      rw [call, rollback_ofTxn]
      rfl
  | checkPut check => exact hother rfl
  | checkDeleteSet check => exact hother rfl
  | checkDeleteName check => exact hother rfl

theorem live_ofTxn (moments : List (Moment ζ)) : (ofTxn t).live z moments = t.live z moments := by
  induction moments generalizing t z with
  | nil => rfl
  | cons m rest ih =>
      cases m with
      | others act => exact ih
      | call c =>
          change (((ofTxn t).call z c).2.1).live ((ofTxn t).call z c).2.2 rest = _
          rw [call_ofTxn]
          exact ih

end

end Flagged

end DnsZone
