import DnsZone.Proofs.Transaction.Plan
import DnsZone.Proofs.Transaction.Shows
import DnsZone.Transaction.Call

/-!
# Kinds of zone that transactions cannot tell apart

A `Bisimulation` relates the states of two backends: related states show the same content and the
same changes, and go on to related states under every primitive change that fits the content, and
when the transaction ends. Everything that a transaction does is made of these, so each of its calls
has the same result on both sides.
-/

namespace DnsZone

/-- Two results that are the same error, or values that are related. -/
inductive SameResult {ε α β : Type} (S : α → β → Prop) : Except ε α → Except ε β → Prop where
  | error (e : ε) : SameResult S (.error e) (.error e)
  | ok {a : α} {b : β} (h : S a b) : SameResult S (.ok a) (.ok b)

theorem SameResult.of_eq {ε α : Type} {x y : Except ε α} (h : x = y) : SameResult Eq x y := by
  subst h
  cases x with
  | error e => exact .error e
  | ok a => exact .ok rfl

theorem SameResult.map {ε α β α' β' : Type} {S : α → β → Prop} {S' : α' → β' → Prop}
    {f : α → α'} {g : β → β'} {x : Except ε α} {y : Except ε β} (h : SameResult S x y)
    (hfg : ∀ a b, S a b → S' (f a) (g b)) : SameResult S' (x.map f) (y.map g) := by
  cases h with
  | error e => exact .error e
  | ok h => exact .ok (hfg _ _ h)

theorem SameResult.bind {ε α β α' β' : Type} {S : α → β → Prop} {S' : α' → β' → Prop}
    {f : α → Except ε α'} {g : β → Except ε β'} {x : Except ε α} {y : Except ε β}
    (h : SameResult S x y) (hfg : ∀ a b, S a b → SameResult S' (f a) (g b)) :
    SameResult S' (x >>= f) (y >>= g) := by
  cases h with
  | error e => exact .error e
  | ok h => exact hfg _ _ h

theorem SameResult.trans {ε α β γ : Type} {S : α → β → Prop} {S' : β → γ → Prop}
    {S'' : α → γ → Prop} {x : Except ε α} {y : Except ε β} {y' : Except ε γ} (h : SameResult S x y)
    (h' : SameResult S' y y') (hS : ∀ a b c, S a b → S' b c → S'' a c) : SameResult S'' x y' := by
  cases h with
  | error e =>
      cases h'
      exact .error e
  | ok h =>
      cases h' with
      | ok h' => exact .ok (hS _ _ _ h h')

/-- Replies that tell the same. Names may differ in their spelling and the record sets of a node
in their order, and only one kind of zone may number what a transaction sees. -/
inductive Reply.Agree : Reply → Reply → Prop where
  | done : Agree .done .done
  | recordSet (s? : Option RecordSet) : Agree (.recordSet s?) (.recordSet s?)
  | node {n? n?' : Option Node} (h : Option.Rel Node.Alike n? n?') : Agree (.node n?) (.node n?')
  | flag (b : Bool) : Agree (.flag b) (.flag b)
  | sets {l l' : List (Name × RecordSet)} (h : Listing.Agree l l') : Agree (.sets l) (.sets l')
  | names {l l' : List Name} (h : List.Forall₂ (fun a b => (a == b) = true) l l') :
      Agree (.names l) (.names l')
  | serial (s : Serial) : Agree (.serial s) (.serial s)
  | count (n : Nat) : Agree (.count n) (.count n)
  | status {s s' : Status} (hreadOnly : s.readOnly = s'.readOnly) (hended : s.ended = s'.ended)
      (horigin : s.origin = s'.origin) : Agree (.status s) (.status s')

variable {ζ τ ζ' τ' : Type} [Access τ] [Backend ζ τ] [Access τ'] [Backend ζ' τ']

/-- A relation of two kinds of zone and their transactions that all operations keep. -/
structure Bisimulation (R : ζ → τ → ζ' → τ' → Prop) : Prop where
  mode {z a z' a'} (h : R z a z' a') : Access.mode a = Access.mode a'
  shows {z a z' a'} (h : R z a z' a') (hopen : Access.mode a ≠ .ended) :
    ∃ c, Shows z a c ∧ Shows z' a' c
  changed {z a z' a'} (h : R z a z' a') (hopen : Access.mode a ≠ .ended) :
    Backend.changed z a = Backend.changed z' a'
  put {z a z' a'} (h : R z a z' a') (hopen : Access.mode a = .writing) (n : Name) (s : RecordSet) :
    R z (Access.put n s a) z' (Access.put n s a')
  eraseName {z a z' a'} (h : R z a z' a') (hopen : Access.mode a = .writing) {n : Name}
    (hn : Backend.contains z a n = true) : R z (Access.eraseName n a) z' (Access.eraseName n a')
  eraseSet {z a z' a'} (h : R z a z' a') (hopen : Access.mode a = .writing) {n : Name}
    {key : SetKey} (hkey : (Backend.find? z a n key).isSome = true) :
    R z (Access.eraseSet n key a) z' (Access.eraseSet n key a')
  clear {z a z' a'} (h : R z a z' a') (hopen : Access.mode a = .writing) :
    R z (Access.clear a) z' (Access.clear a')
  finish {z a z' a'} (h : R z a z' a') (hopen : Access.mode a ≠ .ended) (commit : Bool)
    (learned? : Option Name) :
    (Backend.finish commit learned? a z).1 = (Backend.finish commit learned? a' z').1 ∧
      R (Backend.finish commit learned? a z).2 Access.ended
        (Backend.finish commit learned? a' z').2 Access.ended
  ended {z a z' a'} (h : R z a z' a') (hended : Access.mode a = .ended) :
    R z Access.ended z' Access.ended

namespace Transaction

/-- Two transactions whose states are related and that are alike in all else. -/
structure Related (R : ζ → τ → ζ' → τ' → Prop) (t : Transaction τ) (z : ζ) (t' : Transaction τ')
    (z' : ζ') : Prop where
  access : R z t.access z' t'.access
  origin : t.origin = t'.origin
  originSet : t.originSet = t'.originSet
  checksOrigin : t.checksOrigin = t'.checksOrigin
  checks : t.checks = t'.checks

namespace Related

variable {R : ζ → τ → ζ' → τ' → Prop} {t : Transaction τ} {z : ζ} {t' : Transaction τ'} {z' : ζ'}

theorem isEnded_eq (hR : Bisimulation R) (h : Related R t z t' z') : t.isEnded = t'.isEnded := by
  rw [isEnded, isEnded, hR.mode h.access]

theorem isReadOnly_eq (hR : Bisimulation R) (h : Related R t z t' z') :
    t.isReadOnly = t'.isReadOnly := by
  rw [isReadOnly, isReadOnly, hR.mode h.access]

theorem requireOpen_eq (hR : Bisimulation R) (h : Related R t z t' z') :
    t.requireOpen = t'.requireOpen := by
  rw [requireOpen, requireOpen, h.isEnded_eq hR]

theorem requireWritable_eq (hR : Bisimulation R) (h : Related R t z t' z') :
    t.requireWritable = t'.requireWritable := by
  rw [requireWritable, requireWritable, h.isEnded_eq hR, h.isReadOnly_eq hR]

/-! ### Edits -/

omit [Backend ζ τ] [Backend ζ' τ'] [Access τ] [Access τ'] in
theorem planPut_eq (h : Related R t z t' z') (n : Name) (s : RecordSet) :
    t.planPut n s = t'.planPut n s := by
  rw [planPut, planPut, h.checks]

/-- Both plan the same change, or refuse the edit for the same reason. -/
theorem plan_eq (hR : Bisimulation R) (h : Related R t z t' z') (e : Edit) :
    t.plan z e = t'.plan z' e := by
  have hreq := h.requireWritable_eq hR
  cases hw : t'.requireWritable with
  | error fault => rw [plan_of_refused (hreq.trans hw), plan_of_refused hw]
  | ok _ =>
      have hopen : Access.mode t.access ≠ .ended := by
        rw [requireWritable_eq_ok_iff.mp (hreq.trans hw)]
        decide
      obtain ⟨c, hc, hc'⟩ := hR.shows h.access hopen
      have hfind := hc.find?_eq hc'
      have hcontains := hc.contains_eq hc'
      have heraseSet (n : Name) (key : SetKey) (strict : Bool) :
          t.planEraseSet z n key strict = t'.planEraseSet z' n key strict := by
        rw [planEraseSet, planEraseSet, hfind, h.checks]
      have haddSet (n : Name) (s : RecordSet) : t.planAddSet z n s = t'.planAddSet z' n s := by
        simp only [planAddSet, hreq, h.origin, hfind, h.planPut_eq]
      have hdeleteRecords (n : Name) (s : RecordSet) (strict : Bool) :
          t.planDeleteRecords z n s strict = t'.planDeleteRecords z' n s strict := by
        simp only [planDeleteRecords, hreq, h.origin, hfind, h.planPut_eq, heraseSet]
      cases e with
      | addData n ttl d => simp only [plan, haddSet]
      | addRecord r => simp only [plan, haddSet]
      | addSet n s => simp only [plan, haddSet]
      | replace n s => simp only [plan, planReplace, hreq, h.origin, heraseSet, h.planPut_eq]
      | deleteAll => simp only [plan, hreq]
      | deleteName n strict =>
          simp only [plan, planDeleteName, hreq, h.origin, hcontains, h.checks]
      | deleteSet n key strict => simp only [plan, planDeleteSet, hreq, h.origin, heraseSet]
      | deleteRecords n s strict => simp only [plan, hdeleteRecords]
      | deleteData n d strict => simp only [plan, hdeleteRecords]
      | updateSerial value relative n? =>
          simp only [plan, planUpdateSerial, hreq, h.origin, hfind, h.planPut_eq]
      | setOrigin origin => simp only [plan, planSetOrigin, hreq]

theorem apply (hR : Bisimulation R) (h : Related R t z t' z') {c : Change}
    (hopen : Access.mode t.access = .writing) (hfits : Fits z t c) :
    Related R (t.apply c) z (t'.apply c) z' := by
  cases c with
  | nothing => exact h
  | put n s => exact { h with access := hR.put h.access hopen n s }
  | eraseName n => exact { h with access := hR.eraseName h.access hopen hfits }
  | eraseSet n key => exact { h with access := hR.eraseSet h.access hopen hfits }
  | clear => exact { h with access := hR.clear h.access hopen }
  | setOrigin origin =>
      refine { h with origin := ?_, originSet := rfl }
      change { t.origin with name? := some origin } = { t'.origin with name? := some origin }
      rw [h.origin]

theorem edit (hR : Bisimulation R) (h : Related R t z t' z') (e : Edit) :
    (t.edit z e).1 = (t'.edit z' e).1 ∧ Related R (t.edit z e).2 z (t'.edit z' e).2 z' := by
  rw [Transaction.edit, Transaction.edit, ← h.plan_eq hR]
  cases hplan : t.plan z e with
  | error fault => exact ⟨rfl, h⟩
  | ok r =>
      obtain ⟨hopen, hfits⟩ := plan_eq_ok hplan
      exact ⟨rfl, h.apply hR hopen hfits⟩

theorem learnFrom (hR : Bisimulation R) (h : Related R t z t' z') (r : Record) :
    (t.learnFrom z r).1 = (t'.learnFrom z' r).1 ∧
      Related R (t.learnFrom z r).2 z (t'.learnFrom z' r).2 z' := by
  rw [Transaction.learnFrom, Transaction.learnFrom, h.origin]
  split
  · exact h.edit hR _
  · exact ⟨rfl, h⟩

omit [Access τ] [Backend ζ τ] [Access τ'] [Backend ζ' τ'] in
/-- Either both steps are refused, or both are followed by the next ones. -/
theorem andThen {α β : Type} {x : Except ZoneError α × Transaction τ}
    {x' : Except ZoneError α × Transaction τ'} (h : x.1 = x'.1 ∧ Related R x.2 z x'.2 z')
    {next : α → Transaction τ → Except ZoneError β × Transaction τ}
    {next' : α → Transaction τ' → Except ZoneError β × Transaction τ'}
    (hnext : ∀ a t t', Related R t z t' z' →
      (next a t).1 = (next' a t').1 ∧ Related R (next a t).2 z (next' a t').2 z') :
    (Transaction.andThen x next).1 = (Transaction.andThen x' next').1 ∧
      Related R (Transaction.andThen x next).2 z (Transaction.andThen x' next').2 z' := by
  obtain ⟨result, t⟩ := x
  obtain ⟨result', t'⟩ := x'
  obtain ⟨heq, hrel⟩ := h
  cases heq
  cases result with
  | error fault => exact ⟨rfl, hrel⟩
  | ok a => exact hnext a t t' hrel

theorem load (hR : Bisimulation R) (h : Related R t z t' z') (cls : RecordClass)
    (records : List Record) :
    (t.load z cls records).1 = (t'.load z' cls records).1 ∧
      Related R (t.load z cls records).2 z (t'.load z' cls records).2 z' := by
  induction records generalizing t t' with
  | nil => exact ⟨rfl, h⟩
  | cons r rest ih =>
      rw [load_cons, load_cons]
      split
      · exact ⟨rfl, h⟩
      · refine andThen (h.learnFrom hR r) fun _ t₁ t₁' h₁ => ?_
        refine andThen (h₁.edit hR (.addRecord r)) fun _ t₂ t₂' h₂ => ?_
        exact andThen (ih h₂) fun _ t₃ t₃' h₃ => ⟨rfl, h₃⟩

/-! ### Questions -/

/-- Both refuse to answer for the same reason, or both see the same content. -/
theorem refused_or_shows (hR : Bisimulation R) (h : Related R t z t' z') :
    (∃ fault, t.requireOpen = .error fault ∧ t'.requireOpen = .error fault) ∨
      t.requireOpen = .ok () ∧ t'.requireOpen = .ok () ∧
        Backend.changed z t.access = Backend.changed z' t'.access ∧
        ∃ c, Shows z t.access c ∧ Shows z' t'.access c := by
  have hreq := h.requireOpen_eq hR
  cases hr : t'.requireOpen with
  | error fault => exact .inl ⟨fault, hreq.trans hr, rfl⟩
  | ok _ =>
      have hopen := requireOpen_eq_ok_iff.mp (hreq.trans hr)
      exact .inr ⟨hreq.trans hr, rfl, hR.changed h.access hopen, hR.shows h.access hopen⟩

theorem get_eq (hR : Bisimulation R) (h : Related R t z t' z') (n : Name) (key : SetKey) :
    t.get z n key = t'.get z' n key := by
  rw [get, get, h.origin]
  rcases h.refused_or_shows hR with ⟨fault, hr, hr'⟩ | ⟨hr, hr', -, c, hc, hc'⟩
  · rw [hr, hr']
    rfl
  · rw [hr, hr', hc.find?_eq hc']

theorem getNode (hR : Bisimulation R) (h : Related R t z t' z') (n : Name) :
    SameResult (Option.Rel Node.Alike) (t.getNode z n) (t'.getNode z' n) := by
  rw [Transaction.getNode, Transaction.getNode, h.origin]
  rcases h.refused_or_shows hR with ⟨fault, hr, hr'⟩ | ⟨hr, hr', -, c, hc, hc'⟩
  · rw [hr, hr']
    exact .error fault
  · rw [hr, hr']
    cases t'.origin.stored n with
    | error fault => exact .error fault
    | ok m => exact .ok (hc.rel_node? hc' m)

theorem nameExists_eq (hR : Bisimulation R) (h : Related R t z t' z') (n : Name) :
    t.nameExists z n = t'.nameExists z' n := by
  rw [nameExists, nameExists, h.origin]
  rcases h.refused_or_shows hR with ⟨fault, hr, hr'⟩ | ⟨hr, hr', -, c, hc, hc'⟩
  · rw [hr, hr']
    rfl
  · rw [hr, hr', hc.contains_eq hc']

theorem changed_eq (hR : Bisimulation R) (h : Related R t z t' z') :
    t.changed z = t'.changed z' := by
  rw [Transaction.changed, Transaction.changed]
  rcases h.refused_or_shows hR with ⟨fault, hr, hr'⟩ | ⟨hr, hr', hchanged, -⟩
  · rw [hr, hr']
    rfl
  · rw [hr, hr', hchanged]

theorem sets (hR : Bisimulation R) (h : Related R t z t' z') :
    SameResult Listing.Agree (t.sets z) (t'.sets z') := by
  rw [Transaction.sets, Transaction.sets]
  rcases h.refused_or_shows hR with ⟨fault, hr, hr'⟩ | ⟨hr, hr', -, c, hc, hc'⟩
  · rw [hr, hr']
    exact .error fault
  · rw [hr, hr']
    exact .ok (hc.agree_sets hc')

/-- Both answer every question alike. -/
theorem ask (hR : Bisimulation R) (h : Related R t z t' z') (q : Query) :
    SameResult Reply.Agree (t.ask z q) (t'.ask z' q) := by
  cases q with
  | recordSet n key =>
      refine (SameResult.of_eq (h.get_eq hR n key)).map ?_
      rintro s? _ rfl
      exact .recordSet s?
  | node n => exact (h.getNode hR n).map fun _ _ => .node
  | nameExists n =>
      refine (SameResult.of_eq (h.nameExists_eq hR n)).map ?_
      rintro b _ rfl
      exact .flag b
  | changed =>
      refine (SameResult.of_eq (h.changed_eq hR)).map ?_
      rintro b _ rfl
      exact .flag b
  | sets => exact (h.sets hR).map fun _ _ => .sets
  | names =>
      have hnames : SameResult (List.Forall₂ fun a b => (a == b) = true) (t.names z)
          (t'.names z') :=
        (h.sets hR).map fun _ _ hsets => Listing.forall₂_distinctNames hsets.names rfl
      exact hnames.map fun _ _ => .names
  | status => exact .ok (.status (h.isReadOnly_eq hR) (h.isEnded_eq hR) h.origin)

/-! ### Ending -/

theorem close (hR : Bisimulation R) (h : Related R t z t' z') (hopen : t.isEnded = false)
    (commit : Bool) :
    (t.close commit z).1 = (t'.close commit z').1 ∧
      Related R (t.close commit z).2.1 (t.close commit z).2.2 (t'.close commit z').2.1
        (t'.close commit z').2.2 := by
  have hmode : Access.mode t.access ≠ .ended := by simpa [isEnded] using hopen
  unfold Transaction.close
  rw [h.origin, h.originSet]
  obtain ⟨heq, haccess⟩ :=
    hR.finish h.access hmode commit (if t'.originSet then t'.origin.name? else none)
  exact ⟨heq, haccess, rfl, rfl, h.checksOrigin, h.checks⟩

theorem apexFault?_eq (hR : Bisimulation R) (h : Related R t z t' z')
    (hopen : t.isEnded = false) : t.apexFault? z = t'.apexFault? z' := by
  have hmode : Access.mode t.access ≠ .ended := by simpa [isEnded] using hopen
  obtain ⟨c, hc, hc'⟩ := hR.shows h.access hmode
  simp only [apexFault?, h.isReadOnly_eq hR, h.checksOrigin, hR.changed h.access hmode, h.origin,
    hc.find?_eq hc']

theorem rollback (hR : Bisimulation R) (h : Related R t z t' z') :
    (t.rollback z).1 = (t'.rollback z').1 ∧
      Related R (t.rollback z).2.1 (t.rollback z).2.2 (t'.rollback z').2.1
        (t'.rollback z').2.2 := by
  unfold Transaction.rollback
  rw [← h.isEnded_eq hR]
  split
  · exact ⟨rfl, h⟩
  · rename_i hopen
    exact h.close hR (Bool.eq_false_iff.mpr hopen) false

theorem commit (hR : Bisimulation R) (h : Related R t z t' z') :
    (t.commit z).1 = (t'.commit z').1 ∧
      Related R (t.commit z).2.1 (t.commit z).2.2 (t'.commit z').2.1 (t'.commit z').2.2 := by
  unfold Transaction.commit
  rw [← h.isEnded_eq hR]
  split
  · exact ⟨rfl, h⟩
  · rename_i hopen
    have hopen := Bool.eq_false_iff.mpr hopen
    rw [← h.apexFault?_eq hR hopen]
    cases t.apexFault? z with
    | none => exact h.close hR hopen true
    | some fault =>
        have hclose := h.close hR hopen false
        simp only
        revert hclose
        generalize t.close false z = x
        generalize t'.close false z' = x'
        obtain ⟨result, t₁, z₁⟩ := x
        obtain ⟨result', t₁', z₁'⟩ := x'
        rintro ⟨heq, hrel⟩
        cases heq
        cases result with
        | error fault' => exact ⟨rfl, hrel⟩
        | ok _ => exact ⟨rfl, hrel⟩

/-- Dropping both leaves zones on which no transaction is open. -/
theorem drop (hR : Bisimulation R) (h : Related R t z t' z') :
    R (t.drop z) Access.ended (t'.drop z') Access.ended := by
  rw [Transaction.drop, Transaction.drop, ← h.isEnded_eq hR]
  split
  · rename_i hended
    exact hR.ended h.access (by simpa [isEnded] using hended)
  · rename_i hopen
    exact (h.close hR (Bool.eq_false_iff.mpr hopen) false).2.access

/-- Every call has the same result in both and leaves them related. -/
theorem call (hR : Bisimulation R) (h : Related R t z t' z') (c : Call) :
    SameResult Reply.Agree (t.call z c).1 (t'.call z' c).1 ∧
      Related R (t.call z c).2.1 (t.call z c).2.2 (t'.call z' c).2.1 (t'.call z' c).2.2 := by
  cases c with
  | query q => exact ⟨h.ask hR q, h⟩
  | edit e =>
      obtain ⟨heq, hrel⟩ := h.edit hR e
      refine ⟨(SameResult.of_eq heq).map ?_, hrel⟩
      rintro serial? _ rfl
      cases serial? with
      | none => exact .done
      | some serial => exact .serial serial
  | load cls records =>
      obtain ⟨heq, hrel⟩ := h.load hR cls records
      refine ⟨(SameResult.of_eq heq).map ?_, hrel⟩
      rintro count _ rfl
      exact .count count
  | commit =>
      obtain ⟨heq, hrel⟩ := h.commit hR
      exact ⟨(SameResult.of_eq heq).map fun _ _ _ => .done, hrel⟩
  | rollback =>
      obtain ⟨heq, hrel⟩ := h.rollback hR
      exact ⟨(SameResult.of_eq heq).map fun _ _ _ => .done, hrel⟩
  | checkPut check =>
      have hchecks := congrArg (fun checks => { checks with put? := some check }) h.checks
      exact ⟨.ok .done, { h with checks := hchecks }⟩
  | checkDeleteSet check =>
      have hchecks := congrArg (fun checks => { checks with deleteSet? := some check }) h.checks
      exact ⟨.ok .done, { h with checks := hchecks }⟩
  | checkDeleteName check =>
      have hchecks := congrArg (fun checks => { checks with deleteName? := some check }) h.checks
      exact ⟨.ok .done, { h with checks := hchecks }⟩

end Related

end Transaction

end DnsZone
