import DnsZone.Proofs.Translation.Basic
import DnsZone.Proofs.Transaction.Script

/-!
# Transactions on zones that correspond

What a kind of zone offers to its transactions carries a `Translation` if every operation on zones
and transaction states that correspond, with names and data that do, has results that correspond.
Everything a transaction does is made of these operations, so corresponding calls have corresponding
results, and so have scripts of them that are run one after another.
-/

namespace DnsZone

namespace Translation

variable (T : Translation)

/-! ### What is asked of transactions -/

structure Records (r r' : Record) : Prop where
  owner : T.given r.owner r'.owner
  cls : r.cls = r'.cls
  ttl : r.ttl = r'.ttl
  data : T.data r.data r'.data

inductive Edits : Edit → Edit → Prop where
  | addData {n n' d d'} (hn : T.given n n') (ttl : Ttl) (hd : T.data d d') :
      Edits (.addData n ttl d) (.addData n' ttl d')
  | addRecord {r r'} (h : T.Records r r') : Edits (.addRecord r) (.addRecord r')
  | addSet {n n' s s'} (hn : T.given n n') (hs : T.Sets s s') : Edits (.addSet n s) (.addSet n' s')
  | replace {n n' s s'} (hn : T.given n n') (hs : T.Sets s s') :
      Edits (.replace n s) (.replace n' s')
  | deleteAll : Edits .deleteAll .deleteAll
  | deleteName {n n'} (hn : T.given n n') (strict : Bool) :
      Edits (.deleteName n strict) (.deleteName n' strict)
  | deleteSet {n n'} (hn : T.given n n') (key : SetKey) (strict : Bool) :
      Edits (.deleteSet n key strict) (.deleteSet n' key strict)
  | deleteRecords {n n' s s'} (hn : T.given n n') (hs : T.Sets s s') (strict : Bool) :
      Edits (.deleteRecords n s strict) (.deleteRecords n' s' strict)
  | deleteData {n n' d d'} (hn : T.given n n') (hd : T.data d d') (strict : Bool) :
      Edits (.deleteData n d strict) (.deleteData n' d' strict)
  | updateSerial (value : UInt32) (relative : Bool) {n? n'?} (hn : Option.Rel T.given n? n'?) :
      Edits (.updateSerial value relative n?) (.updateSerial value relative n'?)
  | setOrigin {n n'} (hn : T.named n n') : Edits (.setOrigin n) (.setOrigin n')

inductive Queries : Query → Query → Prop where
  | recordSet {n n'} (hn : T.given n n') (key : SetKey) :
      Queries (.recordSet n key) (.recordSet n' key)
  | node {n n'} (hn : T.given n n') : Queries (.node n) (.node n')
  | nameExists {n n'} (hn : T.given n n') : Queries (.nameExists n) (.nameExists n')
  | changed : Queries .changed .changed
  | sets : Queries .sets .sets
  | names : Queries .names .names
  | status : Queries .status .status

/-- Calls that correspond. Checks are not among them, since they see names as they are stored. -/
inductive Calls : Call → Call → Prop where
  | query {q q'} (h : T.Queries q q') : Calls (.query q) (.query q')
  | edit {e e'} (h : T.Edits e e') : Calls (.edit e) (.edit e')
  | load (cls : RecordClass) {l l'} (h : List.Forall₂ T.Records l l') :
      Calls (.load cls l) (.load cls l')
  | commit : Calls .commit .commit
  | rollback : Calls .rollback .rollback

structure Scripts (s s' : Script) : Prop where
  start : s.start = s'.start
  calls : List.Forall₂ T.Calls s.calls s'.calls

/-! ### What they answer -/

structure Statuses (s s' : Status) : Prop where
  readOnly : s.readOnly = s'.readOnly
  ended : s.ended = s'.ended
  origin : T.origin s.origin s'.origin
  versionId? : s.versionId? = s'.versionId?

inductive Replies : Reply → Reply → Prop where
  | done : Replies .done .done
  | recordSet {s? s'?} (h : Option.Rel T.Sets s? s'?) : Replies (.recordSet s?) (.recordSet s'?)
  | node {n? n'?} (h : Option.Rel T.Nodes n? n'?) : Replies (.node n?) (.node n'?)
  | flag (b : Bool) : Replies (.flag b) (.flag b)
  | sets {l l'} (h : List.Forall₂ T.OwnedSets l l') : Replies (.sets l) (.sets l')
  | names {l l'} (h : List.Forall₂ T.stored l l') : Replies (.names l) (.names l')
  | serial (s : Serial) : Replies (.serial s) (.serial s)
  | count (n : Nat) : Replies (.count n) (.count n)
  | status {s s'} (h : T.Statuses s s') : Replies (.status s) (.status s')

structure Exchanges (x x' : Exchange) : Prop where
  result : T.Outcome T.Replies x.result x'.result
  changed : x.changed = x'.changed

/-- Neither script was started, or both were refused or have exchanges that correspond. -/
abbrev Transcripts : Transcript → Transcript → Prop :=
  Option.Rel (T.Outcome (List.Forall₂ T.Exchanges))

/-! ### What zones do for them -/

section

variable {ζ τ : Type} [Access τ]

/-- Operations on zones related by `Z` and states of transactions related by `A` go together. -/
structure Carried [Backend ζ τ] (Z : ζ → ζ → Prop) (A : τ → τ → Prop) : Prop where
  mode_eq {a a'} (h : A a a') : Access.mode a = Access.mode a'
  ended : A Access.ended Access.ended
  versionId?_eq {a a'} (h : A a a') : Access.versionId? a = Access.versionId? a'
  put {a a'} (h : A a a') {n n' s s'} (hn : T.stored n n') (hs : T.Sets s s') :
    A (Access.put n s a) (Access.put n' s' a')
  eraseName {a a'} (h : A a a') {n n'} (hn : T.stored n n') :
    A (Access.eraseName n a) (Access.eraseName n' a')
  eraseSet {a a'} (h : A a a') {n n'} (hn : T.stored n n') (key : SetKey) :
    A (Access.eraseSet n key a) (Access.eraseSet n' key a')
  clear {a a'} (h : A a a') : A (Access.clear a) (Access.clear a')
  find? {z z' a a'} (hz : Z z z') (h : A a a') {n n'} (hn : T.stored n n') (key : SetKey) :
    Option.Rel T.Sets (Backend.find? z a n key) (Backend.find? z' a' n' key)
  node? {z z' a a'} (hz : Z z z') (h : A a a') {n n'} (hn : T.stored n n') :
    Option.Rel T.Nodes (Backend.node? z a n) (Backend.node? z' a' n')
  contains_eq {z z' a a'} (hz : Z z z') (h : A a a') {n n'} (hn : T.stored n n') :
    Backend.contains z a n = Backend.contains z' a' n'
  sets {z z' a a'} (hz : Z z z') (h : A a a') :
    List.Forall₂ T.OwnedSets (Backend.sets z a) (Backend.sets z' a')
  changed_eq {z z' a a'} (hz : Z z z') (h : A a a') : Backend.changed z a = Backend.changed z' a'
  finish {z z' a a'} (hz : Z z z') (h : A a a') (commit : Bool) {learned? learned'?}
    (hl : T.Learned learned? learned'?) :
    (Backend.finish commit learned? a z).1 = (Backend.finish commit learned'? a' z').1 ∧
      Z (Backend.finish commit learned? a z).2 (Backend.finish commit learned'? a' z').2

/-- Transactions are started on both zones or on neither, too. -/
structure CarriedByHost [Host ζ τ] (Z : ζ → ζ → Prop) (A : τ → τ → Prop) : Prop
    extends Carried T Z A where
  origin {z z'} (h : Z z z') : T.origin (Host.origin z) (Host.origin z')
  checksOrigin_eq {z z'} (h : Z z z') : Host.checksOrigin z = Host.checksOrigin z'
  openReader {z z'} (h : Z z z') (query? : Option VersionQuery) :
    T.Outcome (fun o o' => A o.1 o'.1 ∧ Z o.2 o'.2) (Host.openReader query? z)
      (Host.openReader query? z')
  openWriter? {z z'} (h : Z z z') (replacement : Bool) :
    Option.Rel (fun o o' => A o.1 o'.1 ∧ Z o.2 o'.2) (Host.openWriter? replacement z)
      (Host.openWriter? replacement z')

end

/-- Changes that are planned for edits that correspond. -/
inductive Changes : Change → Change → Prop where
  | nothing : Changes .nothing .nothing
  | put {n n' s s'} (hn : T.stored n n') (hs : T.Sets s s') : Changes (.put n s) (.put n' s')
  | eraseName {n n'} (hn : T.stored n n') : Changes (.eraseName n) (.eraseName n')
  | eraseSet {n n'} (hn : T.stored n n') (key : SetKey) :
      Changes (.eraseSet n key) (.eraseSet n' key)
  | clear : Changes .clear .clear
  | setOrigin {n n'} (hn : T.named n n') : Changes (.setOrigin n) (.setOrigin n')

/-- Transactions that correspond, without checks. -/
structure Txns {τ : Type} (A : τ → τ → Prop) (t t' : Transaction τ) : Prop where
  access : A t.access t'.access
  origin : T.origin t.origin t'.origin
  originSet : t.originSet = t'.originSet
  checksOrigin : t.checksOrigin = t'.checksOrigin
  unchecked : t.checks = {}
  unchecked' : t'.checks = {}

variable {T} {ζ τ : Type} [Access τ] [Backend ζ τ] {Z : ζ → ζ → Prop} {A : τ → τ → Prop}
  {t t' : Transaction τ} {z z' : ζ}

namespace Txns

/-! ### Edits -/

section

variable (hC : T.Carried Z A) (h : T.Txns A t t')

include hC h

theorem isEnded_eq : t.isEnded = t'.isEnded := by
  rw [Transaction.isEnded, Transaction.isEnded, hC.mode_eq h.access]

theorem isReadOnly_eq : t.isReadOnly = t'.isReadOnly := by
  rw [Transaction.isReadOnly, Transaction.isReadOnly, hC.mode_eq h.access]

theorem requireOpen_eq : t.requireOpen = t'.requireOpen := by
  rw [Transaction.requireOpen, Transaction.requireOpen, h.isEnded_eq hC]

theorem requireWritable_eq : t.requireWritable = t'.requireWritable := by
  rw [Transaction.requireWritable, Transaction.requireWritable, h.isEnded_eq hC,
    h.isReadOnly_eq hC]

end

omit [Access τ] [Backend ζ τ] in
theorem planPut (h : T.Txns A t t') {n n' : Name} {s s' : RecordSet} (hn : T.stored n n')
    (hs : T.Sets s s') : T.Outcome T.Changes (t.planPut n s) (t'.planPut n' s') := by
  rw [Transaction.planPut, Transaction.planPut, h.unchecked, h.unchecked']
  exact .ok (.put hn hs)

section

variable (hT : T.Lawful) (hC : T.Carried Z A) (hz : Z z z') (h : T.Txns A t t') {n n' : Name}
  {s s' : RecordSet}

include hC hz h

theorem planEraseSet (hn : T.stored n n') (key : SetKey) (strict : Bool) :
    T.Outcome T.Changes (t.planEraseSet z n key strict) (t'.planEraseSet z' n' key strict) := by
  rw [Transaction.planEraseSet, Transaction.planEraseSet, h.unchecked, h.unchecked']
  have hfind := hC.find? hz h.access hn key
  generalize Backend.find? z t.access n key = found?,
    Backend.find? z' t'.access n' key = found'? at hfind ⊢
  cases hfind with
  | some _ => exact .ok (.eraseSet hn key)
  | none =>
      cases strict with
      | true => exact .error (.same _)
      | false => exact .ok .nothing

include hT

theorem planAddSet (hn : T.given n n') (hs : T.Sets s s') :
    T.Outcome T.Changes (t.planAddSet z n s) (t'.planAddSet z' n' s') := by
  rw [Transaction.planAddSet, Transaction.planAddSet, h.requireWritable_eq hC, hs.isEmpty_eq,
    hs.key]
  refine Outcome.refl.bind fun _ _ _ => (hT.stores h.origin hn).bind fun m m' hm => ?_
  split
  · exact .ok .nothing
  · have hfind := hC.find? hz h.access hm s'.key
    generalize Backend.find? z t.access m s'.key = found?,
      Backend.find? z' t'.access m' s'.key = found'? at hfind ⊢
    cases hfind with
    | none => exact h.planPut hm hs
    | some hold =>
        simp only [hold.containsAll_eq hT hs, hold.ttl, hs.ttl]
        split
        · exact .ok .nothing
        · exact h.planPut hm (hold.union hT hs)

theorem planReplace (hn : T.given n n') (hs : T.Sets s s') :
    T.Outcome T.Changes (t.planReplace z n s) (t'.planReplace z' n' s') := by
  rw [Transaction.planReplace, Transaction.planReplace, h.requireWritable_eq hC, hs.isEmpty_eq,
    hs.key]
  refine Outcome.refl.bind fun _ _ _ => (hT.stores h.origin hn).bind fun m m' hm => ?_
  split
  · exact h.planEraseSet hC hz hm _ _
  · exact h.planPut hm hs

theorem planDeleteName (hn : T.given n n') (strict : Bool) :
    T.Outcome T.Changes (t.planDeleteName z n strict) (t'.planDeleteName z' n' strict) := by
  rw [Transaction.planDeleteName, Transaction.planDeleteName, h.requireWritable_eq hC, h.unchecked,
    h.unchecked']
  refine Outcome.refl.bind fun _ _ _ => (hT.stores h.origin hn).bind fun m m' hm => ?_
  rw [hC.contains_eq hz h.access hm]
  split
  · cases strict with
    | true => exact .error (.same _)
    | false => exact .ok .nothing
  · exact .ok (.eraseName hm)

theorem planDeleteSet (hn : T.given n n') (key : SetKey) (strict : Bool) :
    T.Outcome T.Changes (t.planDeleteSet z n key strict) (t'.planDeleteSet z' n' key strict) := by
  rw [Transaction.planDeleteSet, Transaction.planDeleteSet, h.requireWritable_eq hC]
  refine Outcome.refl.bind fun _ _ _ => (hT.stores h.origin hn).bind fun m m' hm => ?_
  exact h.planEraseSet hC hz hm key strict

theorem planDeleteRecords (hn : T.given n n') (hs : T.Sets s s') (strict : Bool) :
    T.Outcome T.Changes (t.planDeleteRecords z n s strict)
      (t'.planDeleteRecords z' n' s' strict) := by
  rw [Transaction.planDeleteRecords, Transaction.planDeleteRecords, h.requireWritable_eq hC,
    hs.key]
  refine Outcome.refl.bind fun _ _ _ => (hT.stores h.origin hn).bind fun m m' hm => ?_
  have hfind := hC.find? hz h.access hm s'.key
  generalize Backend.find? z t.access m s'.key = found?,
    Backend.find? z' t'.access m' s'.key = found'? at hfind ⊢
  cases hfind with
  | none =>
      cases strict with
      | true => exact .error (.same _)
      | false => exact .ok .nothing
  | some hold =>
      have hrest := hold.difference hT hs
      simp only [hold.containsAll_eq hT hs, hrest.isEmpty_eq, hrest.size_eq, hold.size_eq]
      split
      · exact .error (.same _)
      · split
        · exact h.planEraseSet hC hz hm _ _
        · split
          · exact .ok .nothing
          · exact h.planPut hm hrest

theorem planUpdateSerial (value : UInt32) (relative : Bool) {n? n'? : Option Name}
    (hn : Option.Rel T.given n? n'?) :
    T.Outcome (fun r r' => T.Changes r.1 r'.1 ∧ r.2 = r'.2)
      (t.planUpdateSerial z value relative n?) (t'.planUpdateSerial z' value relative n'?) := by
  have htarget : T.Outcome T.stored (t.origin.target n?) (t'.origin.target n'?) := by
    cases hn with
    | some hn => exact hT.stores h.origin hn
    | none =>
        rw [Origin.target, Origin.target]
        have hapex := hT.apex? h.origin
        generalize t.origin.apex? = apex?, t'.origin.apex? = apex'? at hapex ⊢
        cases hapex with
        | some hm => exact .ok hm
        | none => exact .error (.same _)
  rw [Transaction.planUpdateSerial_eq, Transaction.planUpdateSerial_eq, h.requireWritable_eq hC]
  refine Outcome.refl.bind fun _ _ _ => htarget.bind fun m m' hm => ?_
  rw [Transaction.planSerialAt, Transaction.planSerialAt]
  have hfind := hC.find? hz h.access hm .soa
  generalize Backend.find? z t.access m .soa = found?,
    Backend.find? z' t'.access m' .soa = found'? at hfind ⊢
  cases hfind with
  | none => exact .error (.same _)
  | @some old old' hold =>
      have hsoa := hold.soa? hT
      simp only
      generalize old.first?.bind RecordData.soa? = soa?,
        old'.first?.bind RecordData.soa? = soa'? at hsoa ⊢
      cases hsoa with
      | none => exact .error (.same _)
      | some hsoa =>
          simp only [hT.serial_eq hsoa, hold.ttl]
          refine Outcome.refl.bind fun serial _ hserial => ?_
          cases hserial
          have hset := Sets.single hT old'.ttl (hT.withSerial hsoa serial)
          exact (h.planPut hm hset).bind fun _ _ hc => .ok ⟨hc, rfl⟩

/-- Edits that correspond are refused with corresponding errors, or come to changes that
correspond. -/
theorem plan {e e' : Edit} (he : T.Edits e e') :
    T.Outcome (fun r r' => T.Changes r.1 r'.1 ∧ r.2 = r'.2) (t.plan z e) (t'.plan z' e') := by
  cases he with
  | addData hn ttl hd =>
      exact (h.planAddSet hT hC hz hn (.single hT ttl hd)).map fun _ _ hc => ⟨hc, rfl⟩
  | addRecord hr =>
      rw [Transaction.plan, Transaction.plan, hr.ttl]
      exact (h.planAddSet hT hC hz hr.owner (.single hT _ hr.data)).map fun _ _ hc => ⟨hc, rfl⟩
  | addSet hn hs => exact (h.planAddSet hT hC hz hn hs).map fun _ _ hc => ⟨hc, rfl⟩
  | replace hn hs => exact (h.planReplace hT hC hz hn hs).map fun _ _ hc => ⟨hc, rfl⟩
  | deleteAll =>
      rw [Transaction.plan, Transaction.plan, h.requireWritable_eq hC]
      exact Outcome.refl.map fun _ _ _ => ⟨.clear, rfl⟩
  | deleteName hn strict => exact (h.planDeleteName hT hC hz hn strict).map fun _ _ hc => ⟨hc, rfl⟩
  | deleteSet hn key strict =>
      exact (h.planDeleteSet hT hC hz hn key strict).map fun _ _ hc => ⟨hc, rfl⟩
  | deleteRecords hn hs strict =>
      exact (h.planDeleteRecords hT hC hz hn hs strict).map fun _ _ hc => ⟨hc, rfl⟩
  | deleteData hn hd strict =>
      exact (h.planDeleteRecords hT hC hz hn (.single hT .zero hd) strict).map
        fun _ _ hc => ⟨hc, rfl⟩
  | updateSerial value relative hn =>
      exact (h.planUpdateSerial hT hC hz value relative hn).map
        fun _ _ hc => ⟨hc.1, congrArg some hc.2⟩
  | setOrigin hn =>
      rw [Transaction.plan, Transaction.plan, Transaction.planSetOrigin,
        Transaction.planSetOrigin, h.requireWritable_eq hC, hT.absolute_eq_of_named hn]
      refine Outcome.map (S := T.Changes) (Outcome.refl.bind fun _ _ _ => ?_)
        fun _ _ hc => ⟨hc, rfl⟩
      split
      · exact .error (.relativeOrigin hn)
      · exact .ok (.setOrigin hn)

end

end Txns

end Translation

end DnsZone
