import DnsZone.Proofs.Translation.Transaction
import DnsZone.Proofs.Transaction.Edited

/-!
# Scripts on zones that correspond

An edit comes to changes that correspond, and applying these leaves transactions that correspond.
From this it follows for all calls in turn, and for scripts that are run one after another: what
they are told corresponds, and so do the zones after each of them.
-/

namespace DnsZone

namespace Translation

variable {T : Translation} {ζ τ : Type} [Access τ] [Backend ζ τ] {Z : ζ → ζ → Prop}
  {A : τ → τ → Prop} {t t' : Transaction τ} {z z' : ζ}

namespace Txns

/-! ### Edits -/

theorem apply (hT : T.Lawful) (hC : T.Carried Z A) (h : T.Txns A t t') {c c' : Change}
    (hc : T.Changes c c') : T.Txns A (t.apply c) (t'.apply c') := by
  cases hc with
  | nothing => exact h
  | put hn hs => exact { h with access := hC.put h.access hn hs }
  | eraseName hn => exact { h with access := hC.eraseName h.access hn }
  | eraseSet hn key => exact { h with access := hC.eraseSet h.access hn key }
  | clear => exact { h with access := hC.clear h.access }
  | setOrigin hn => exact { h with origin := hT.origin_of_named h.origin hn, originSet := rfl }

section

variable (hT : T.Lawful) (hC : T.Carried Z A) (hz : Z z z')

include hT hC hz

theorem edit (h : T.Txns A t t') {e e' : Edit} (he : T.Edits e e') :
    T.Outcome Eq (t.edit z e).1 (t'.edit z' e').1 ∧
      T.Txns A (t.edit z e).2 (t'.edit z' e').2 := by
  rw [Transaction.edit, Transaction.edit]
  have hplan := h.plan hT hC hz he
  generalize t.plan z e = planned, t'.plan z' e' = planned' at hplan ⊢
  cases hplan with
  | error hfault => exact ⟨.error hfault, h⟩
  | ok hchange => exact ⟨.ok hchange.2, h.apply hT hC hchange.1⟩

/-- Both learn the origin from the record, or neither does. -/
theorem learnFrom (h : T.Txns A t t') {r r' : Record} (hr : T.Records r r') :
    T.Outcome Eq (t.learnFrom z r).1 (t'.learnFrom z' r').1 ∧
      T.Txns A (t.learnFrom z r).2 (t'.learnFrom z' r').2 := by
  rw [Transaction.learnFrom, Transaction.learnFrom, ← hT.isNone_name? h.origin,
    ← isSome_eq_of_rel (hT.soa? hr.data), ← hT.absolute_eq hr.owner]
  split
  · rename_i hlearns
    simp only [Bool.and_eq_true, Option.isNone_iff_eq_none] at hlearns
    exact h.edit hT hC hz (.setOrigin (hT.named_of_given h.origin hlearns.1.1 hr.owner))
  · exact ⟨.ok rfl, h⟩

omit [Access τ] [Backend ζ τ] hT hC hz in
/-- Either both steps are refused, or both are followed by the next ones. -/
theorem andThen {α β : Type} {x x' : Except ZoneError α × Transaction τ}
    (h : T.Outcome Eq x.1 x'.1 ∧ T.Txns A x.2 x'.2)
    {next next' : α → Transaction τ → Except ZoneError β × Transaction τ}
    (hnext : ∀ a t t', T.Txns A t t' →
      T.Outcome Eq (next a t).1 (next' a t').1 ∧ T.Txns A (next a t).2 (next' a t').2) :
    T.Outcome Eq (Transaction.andThen x next).1 (Transaction.andThen x' next').1 ∧
      T.Txns A (Transaction.andThen x next).2 (Transaction.andThen x' next').2 := by
  obtain ⟨result, t⟩ := x
  obtain ⟨result', t'⟩ := x'
  obtain ⟨hresult, htxns⟩ := h
  cases hresult with
  | error hfault => exact ⟨.error hfault, htxns⟩
  | ok heq =>
      cases heq
      exact hnext _ t t' htxns

theorem load (h : T.Txns A t t') (cls : RecordClass) {l l' : List Record}
    (hl : List.Forall₂ T.Records l l') :
    T.Outcome Eq (t.load z cls l).1 (t'.load z' cls l').1 ∧
      T.Txns A (t.load z cls l).2 (t'.load z' cls l').2 := by
  induction hl generalizing t t' with
  | nil => exact ⟨.ok rfl, h⟩
  | @cons r r' l l' hr _ ih =>
      rw [Transaction.load_cons, Transaction.load_cons, hr.cls]
      split
      · exact ⟨.error (.same _), h⟩
      · refine andThen (h.learnFrom hT hC hz hr) fun _ t₁ t₁' h₁ => ?_
        refine andThen (h₁.edit hT hC hz (.addRecord hr)) fun _ t₂ t₂' h₂ => ?_
        exact andThen (ih h₂) fun _ t₃ t₃' h₃ => ⟨.ok rfl, h₃⟩

/-! ### Questions -/

omit hT in
theorem changed_eq (h : T.Txns A t t') : t.changed z = t'.changed z' := by
  rw [Transaction.changed, Transaction.changed, h.requireOpen_eq hC, hC.changed_eq hz h.access]

omit hT in
theorem sets (h : T.Txns A t t') :
    T.Outcome (List.Forall₂ T.OwnedSets) (t.sets z) (t'.sets z') := by
  rw [Transaction.sets, Transaction.sets, h.requireOpen_eq hC]
  exact Outcome.refl.bind fun _ _ _ => .ok (hC.sets hz h.access)

theorem names (h : T.Txns A t t') :
    T.Outcome (List.Forall₂ T.stored) (t.names z) (t'.names z') :=
  (h.sets hC hz).map fun _ _ hl => forall₂_distinctNames hT hl .none

/-- Questions that correspond have answers that do. -/
theorem ask (h : T.Txns A t t') {q q' : Query} (hq : T.Queries q q') :
    T.Outcome T.Replies (t.ask z q) (t'.ask z' q') := by
  cases hq with
  | @recordSet n n' hn key =>
      have hget : T.Outcome (Option.Rel T.Sets) (t.get z n key) (t'.get z' n' key) := by
        rw [Transaction.get, Transaction.get, h.requireOpen_eq hC]
        exact Outcome.refl.bind fun _ _ _ => (hT.stores h.origin hn).bind
          fun _ _ hm => .ok (hC.find? hz h.access hm key)
      exact hget.map fun _ _ => .recordSet
  | @node n n' hn =>
      have hget : T.Outcome (Option.Rel T.Nodes) (t.getNode z n) (t'.getNode z' n') := by
        rw [Transaction.getNode, Transaction.getNode, h.requireOpen_eq hC]
        exact Outcome.refl.bind fun _ _ _ => (hT.stores h.origin hn).bind
          fun _ _ hm => .ok (hC.node? hz h.access hm)
      exact hget.map fun _ _ => .node
  | @nameExists n n' hn =>
      have hexists : T.Outcome Eq (t.nameExists z n) (t'.nameExists z' n') := by
        rw [Transaction.nameExists, Transaction.nameExists, h.requireOpen_eq hC]
        exact Outcome.refl.bind fun _ _ _ => (hT.stores h.origin hn).bind
          fun _ _ hm => .ok (hC.contains_eq hz h.access hm)
      refine hexists.map ?_
      rintro b _ rfl
      exact .flag b
  | changed =>
      refine (Outcome.of_eq (h.changed_eq hC hz)).map ?_
      rintro b _ rfl
      exact .flag b
  | sets => exact (h.sets hC hz).map fun _ _ => .sets
  | names => exact (h.names hT hC hz).map fun _ _ => .names
  | status =>
      exact .ok (.status ⟨h.isReadOnly_eq hC, h.isEnded_eq hC, h.origin, hC.versionId?_eq h.access⟩)

/-! ### Ending -/

omit hT in
theorem close (h : T.Txns A t t') (commit : Bool) :
    (t.close commit z).1 = (t'.close commit z').1 ∧
      T.Txns A (t.close commit z).2.1 (t'.close commit z').2.1 ∧
      Z (t.close commit z).2.2 (t'.close commit z').2.2 := by
  have hlearned : T.Learned t.learned? t'.learned? := by
    rw [Transaction.learned?, Transaction.learned?, h.originSet]
    split
    · exact .name h.origin
    · exact .nothing
  rw [Transaction.close_eq, Transaction.close_eq]
  obtain ⟨heq, hzone⟩ := hC.finish hz h.access commit hlearned
  exact ⟨heq, { h with access := hC.ended }, hzone⟩

theorem apexFault?_eq (h : T.Txns A t t') : t.apexFault? z = t'.apexFault? z' := by
  rw [Transaction.apexFault?, Transaction.apexFault?, h.isReadOnly_eq hC, h.checksOrigin,
    hC.changed_eq hz h.access]
  split
  · rfl
  · have hapex := hT.apex? h.origin
    generalize t.origin.apex? = apex?, t'.origin.apex? = apex'? at hapex ⊢
    cases hapex with
    | none => rfl
    | some hm =>
        simp only [isNone_eq_of_rel (hC.find? hz h.access hm .soa),
          isNone_eq_of_rel (hC.find? hz h.access hm .ns)]

omit hT in
theorem rollback (h : T.Txns A t t') :
    (t.rollback z).1 = (t'.rollback z').1 ∧
      T.Txns A (t.rollback z).2.1 (t'.rollback z').2.1 ∧
      Z (t.rollback z).2.2 (t'.rollback z').2.2 := by
  rw [Transaction.rollback, Transaction.rollback, ← h.isEnded_eq hC]
  split
  · exact ⟨rfl, h, hz⟩
  · exact h.close hC hz false

theorem commit (h : T.Txns A t t') :
    (t.commit z).1 = (t'.commit z').1 ∧
      T.Txns A (t.commit z).2.1 (t'.commit z').2.1 ∧
      Z (t.commit z).2.2 (t'.commit z').2.2 := by
  rw [Transaction.commit, Transaction.commit, ← h.isEnded_eq hC, ← h.apexFault?_eq hT hC hz]
  split
  · exact ⟨rfl, h, hz⟩
  · cases t.apexFault? z with
    | none => exact h.close hC hz true
    | some fault =>
        have hclose := h.close hC hz false
        simp only
        revert hclose
        generalize t.close false z = o
        generalize t'.close false z' = o'
        obtain ⟨result, t₁, z₁⟩ := o
        obtain ⟨result', t₁', z₁'⟩ := o'
        rintro ⟨heq, hrest⟩
        cases heq
        cases result with
        | error fault' => exact ⟨rfl, hrest⟩
        | ok _ => exact ⟨rfl, hrest⟩

omit hT in
theorem drop (h : T.Txns A t t') : Z (t.drop z) (t'.drop z') := by
  rw [Transaction.drop, Transaction.drop, ← h.isEnded_eq hC]
  split
  · exact hz
  · exact (h.close hC hz false).2.2

/-! ### Calls -/

/-- Calls that correspond have results that do, and leave transactions and zones that do. -/
theorem call (h : T.Txns A t t') {c c' : Call} (hc : T.Calls c c') :
    T.Outcome T.Replies (t.call z c).1 (t'.call z' c').1 ∧
      T.Txns A (t.call z c).2.1 (t'.call z' c').2.1 ∧
      Z (t.call z c).2.2 (t'.call z' c').2.2 := by
  cases hc with
  | query hq => exact ⟨h.ask hT hC hz hq, h, hz⟩
  | edit he =>
      obtain ⟨hresult, htxns⟩ := h.edit hT hC hz he
      refine ⟨hresult.map ?_, htxns, hz⟩
      rintro serial? _ rfl
      cases serial? with
      | none => exact .done
      | some serial => exact .serial serial
  | load cls hl =>
      obtain ⟨hresult, htxns⟩ := h.load hT hC hz cls hl
      refine ⟨hresult.map ?_, htxns, hz⟩
      rintro count _ rfl
      exact .count count
  | commit =>
      obtain ⟨heq, hrest⟩ := h.commit hT hC hz
      exact ⟨(Outcome.of_eq heq).map fun _ _ _ => .done, hrest⟩
  | rollback =>
      obtain ⟨heq, hrest⟩ := h.rollback hC hz
      exact ⟨(Outcome.of_eq heq).map fun _ _ _ => .done, hrest⟩

omit hz in
/-- What a call keeps, calls made one after another keep. -/
theorem exchange (h : T.Txns A t t') (hz : Z z z') {calls calls' : List Call}
    (hcalls : List.Forall₂ T.Calls calls calls') :
    List.Forall₂ T.Exchanges (t.exchange z calls).1 (t'.exchange z' calls').1 ∧
      T.Txns A (t.exchange z calls).2.1 (t'.exchange z' calls').2.1 ∧
      Z (t.exchange z calls).2.2 (t'.exchange z' calls').2.2 := by
  induction hcalls generalizing t t' z z' with
  | nil => exact ⟨.nil, h, hz⟩
  | cons hc _ ih =>
      obtain ⟨hresult, htxns, hzone⟩ := h.call hT hC hz hc
      obtain ⟨hrest, hlast⟩ := ih htxns hzone
      exact ⟨.cons ⟨hresult, htxns.changed_eq hC hzone⟩ hrest, hlast⟩

end

end Txns

/-! ### Scripts -/

section

omit [Backend ζ τ]

variable [Host ζ τ] (hT : T.Lawful) (hC : T.CarriedByHost Z A)

include hC

/-- Transactions are started on both zones and correspond, or both zones refuse to start one or let
it wait. -/
theorem CarriedByHost.starts (hz : Z z z') (s : Start) :
    Option.Rel (T.Outcome fun o o' => T.Txns A o.1 o'.1 ∧ Z o.2 o'.2) (s.open? z)
      (s.open? z') := by
  cases s with
  | reader query? =>
      have hopen := hC.openReader hz query?
      refine .some ?_
      rw [Transaction.reader, Transaction.reader]
      generalize Host.openReader query? z = opened, Host.openReader query? z' = opened' at hopen ⊢
      cases hopen with
      | error hfault => exact .error hfault
      | ok ho => exact .ok ⟨⟨ho.1, hC.origin ho.2, rfl, rfl, rfl, rfl⟩, ho.2⟩
  | writer replacement =>
      have hopen := hC.openWriter? hz replacement
      rw [Start.open?, Start.open?, Transaction.writer?, Transaction.writer?]
      generalize Host.openWriter? replacement z = opened?,
        Host.openWriter? replacement z' = opened'? at hopen ⊢
      cases hopen with
      | none => exact .none
      | some ho =>
          have horigin := hC.origin ho.2
          exact .some (.ok ⟨⟨ho.1, horigin, rfl, hC.checksOrigin_eq ho.2, rfl, rfl⟩, ho.2⟩)

include hT

/-- A script has corresponding transcripts on both zones, which correspond again after it. -/
theorem CarriedByHost.run (hz : Z z z') {s s' : Script} (hs : T.Scripts s s') :
    T.Transcripts (s.run z).1 (s'.run z').1 ∧ Z (s.run z).2 (s'.run z').2 := by
  have hstarts := hC.starts hz s'.start
  rw [Script.run, Script.run, hs.start]
  generalize s'.start.open? z = opened?, s'.start.open? z' = opened'? at hstarts ⊢
  cases hstarts with
  | none => exact ⟨.none, hz⟩
  | some ho =>
      cases ho with
      | error hfault => exact ⟨.some (.error hfault), hz⟩
      | ok ho =>
          obtain ⟨hexchanges, htxns, hzone⟩ := ho.1.exchange hT hC.toCarried ho.2 hs.calls
          exact ⟨.some (.ok hexchanges), htxns.drop hC.toCarried hzone⟩

/-- Scripts that correspond, run one after another, have corresponding transcripts, and the zones
correspond after each of them. -/
theorem CarriedByHost.runAll (hz : Z z z') {scripts scripts' : List Script}
    (hs : List.Forall₂ T.Scripts scripts scripts') :
    List.Forall₂ (fun x x' => T.Transcripts x.1 x'.1 ∧ Z x.2 x'.2) (Script.runAll z scripts)
      (Script.runAll z' scripts') := by
  induction hs generalizing z z' with
  | nil => exact .nil
  | cons hs _ ih =>
      have hrun := hC.run hT hz hs
      exact .cons hrun (ih hrun.2)

end

end Translation

end DnsZone
