import DnsZone.Proofs.Translation.Script

/-!
# Transactions that take turns on zones that correspond

Transactions need not be run one after another: while a writer is open, readers come and go, and
those that are open stay so while other writers commit. In an `Interplay` any transaction that was
started can be called at any time. If corresponding things are done to zones that correspond, what
is told of them corresponds turn by turn, and so do the zones.
-/

namespace DnsZone

/-! ### Turns -/

/-- Something that is done to a zone through its transactions. Each of these is known by the number
of those that were started before it. -/
inductive Interplay.Turn where
  | start (s : Start)
  | call (i : Nat) (c : Call)
  | drop (i : Nat)

/-- What is told of a turn. -/
inductive Interplay.Report where
  /-- A transaction was started, which sees a version with this number. -/
  | started (id? : Option VersionId)
  | refused (e : ZoneError)
  /-- The transaction would have to wait for write access. -/
  | waits
  | told (x : Exchange)
  | dropped
  /-- No transaction of this number was started. -/
  | unknown

/-- A zone and all transactions that were started on it. -/
structure Interplay (ζ τ : Type) where
  zone : ζ
  txns : List (Transaction τ) := []

namespace Interplay

variable {ζ τ : Type} [Access τ] [Host ζ τ]

def turn (p : Interplay ζ τ) : Turn → Report × Interplay ζ τ
  | .start s =>
      match s.open? p.zone with
      | none => (.waits, p)
      | some (.error e) => (.refused e, p)
      | some (.ok (t, z)) => (.started (Access.versionId? t.access), ⟨z, p.txns ++ [t]⟩)
  | .call i c =>
      match p.txns[i]? with
      | none => (.unknown, p)
      | some t =>
          let o := t.call p.zone c
          (.told ⟨o.1, o.2.1.changed o.2.2⟩, ⟨o.2.2, p.txns.set i o.2.1⟩)
  | .drop i =>
      match p.txns[i]? with
      | none => (.unknown, p)
      | some t => (.dropped, ⟨t.drop p.zone, p.txns.set i { t with access := Access.ended }⟩)

/-- What is told of turns that follow each other, and how things stand after each of them. -/
def run (p : Interplay ζ τ) : List Turn → List (Report × Interplay ζ τ)
  | [] => []
  | a :: rest => p.turn a :: run (p.turn a).2 rest

end Interplay

namespace Translation

variable (T : Translation)

inductive Turns : Interplay.Turn → Interplay.Turn → Prop where
  | start (s : Start) : Turns (.start s) (.start s)
  | call (i : Nat) {c c' : Call} (h : T.Calls c c') : Turns (.call i c) (.call i c')
  | drop (i : Nat) : Turns (.drop i) (.drop i)

inductive Reports : Interplay.Report → Interplay.Report → Prop where
  | started (id? : Option VersionId) : Reports (.started id?) (.started id?)
  | refused {e e' : ZoneError} (h : T.Fault e e') : Reports (.refused e) (.refused e')
  | waits : Reports .waits .waits
  | told {x x' : Exchange} (h : T.Exchanges x x') : Reports (.told x) (.told x')
  | dropped : Reports .dropped .dropped
  | unknown : Reports .unknown .unknown

structure Interplays {ζ τ : Type} (Z : ζ → ζ → Prop) (A : τ → τ → Prop) (p p' : Interplay ζ τ) :
    Prop where
  zone : Z p.zone p'.zone
  txns : List.Forall₂ (T.Txns A) p.txns p'.txns

/-! ### Turns on zones that correspond -/

variable {T} {ζ τ : Type} [Access τ] [Host ζ τ] {Z : ζ → ζ → Prop} {A : τ → τ → Prop}
  {p p' : Interplay ζ τ}

omit [Access τ] [Host ζ τ] in
theorem interplays_of_zones {z z' : ζ} (h : Z z z') :
    T.Interplays Z A { zone := z } { zone := z' } := ⟨h, .nil⟩

/-- What is told of a turn corresponds, and what it leaves. -/
theorem CarriedByHost.turn (hC : T.CarriedByHost Z A) (hT : T.Lawful) (h : T.Interplays Z A p p')
    {a a' : Interplay.Turn} (ha : T.Turns a a') :
    T.Reports (p.turn a).1 (p'.turn a').1 ∧ T.Interplays Z A (p.turn a).2 (p'.turn a').2 := by
  cases ha with
  | start s =>
      have hstarts := hC.starts h.zone s
      rw [Interplay.turn, Interplay.turn]
      generalize s.open? p.zone = opened?, s.open? p'.zone = opened'? at hstarts ⊢
      cases hstarts with
      | none => exact ⟨.waits, h⟩
      | some ho =>
          cases ho with
          | error hfault => exact ⟨.refused hfault, h⟩
          | ok ho =>
              obtain ⟨ht, hzone⟩ := ho
              simp only [hC.versionId?_eq ht.access]
              exact ⟨.started _, hzone, List.rel_append h.txns (.cons ht .nil)⟩
  | call i hc =>
      have hget := rel_getElem? h.txns i
      rw [Interplay.turn, Interplay.turn]
      generalize p.txns[i]? = t?, p'.txns[i]? = t'? at hget ⊢
      cases hget with
      | none => exact ⟨.unknown, h⟩
      | some ht =>
          obtain ⟨hresult, htxns, hzone⟩ := ht.call hT hC.toCarried h.zone hc
          exact ⟨.told ⟨hresult, htxns.changed_eq hC.toCarried hzone⟩, hzone,
            forall₂_set h.txns i htxns⟩
  | drop i =>
      have hget := rel_getElem? h.txns i
      rw [Interplay.turn, Interplay.turn]
      generalize p.txns[i]? = t?, p'.txns[i]? = t'? at hget ⊢
      cases hget with
      | none => exact ⟨.unknown, h⟩
      | some ht =>
          exact ⟨.dropped, ht.drop hC.toCarried h.zone,
            forall₂_set h.txns i { ht with access := hC.ended }⟩

/-- What is told of corresponding turns corresponds, whatever order the transactions take them in,
and so do the zones after each of them. -/
theorem CarriedByHost.runTurns (hC : T.CarriedByHost Z A) (hT : T.Lawful)
    (h : T.Interplays Z A p p') {turns turns' : List Interplay.Turn}
    (hturns : List.Forall₂ T.Turns turns turns') :
    List.Forall₂ (fun x x' => T.Reports x.1 x'.1 ∧ T.Interplays Z A x.2 x'.2) (p.run turns)
      (p'.run turns') := by
  induction hturns generalizing p p' with
  | nil => exact .nil
  | cons ha _ ih =>
      have hturn := hC.turn hT h ha
      exact .cons hturn (ih hturn.2)

end Translation

end DnsZone
