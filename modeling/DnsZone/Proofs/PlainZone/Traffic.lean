import DnsZone.Proofs.PlainZone.Storage
import DnsZone.Proofs.Traffic

/-!
# Plain zones in use

Any number of readers use a plain zone at the same time, and one writer, which holds the lock of the
zone: a transaction, an updater, or a change that is made directly. What holds of such a zone at all
times is shown of what each writer does: it holds if it goes from the zone to a writer that is
started on it, through every edit of the writer, and on to what it commits. Not every edit need be
admitted; then the property holds after such events only as keep to those that are.
-/

namespace DnsZone

/-- A plain zone and all transactions that were started on it. -/
structure PlainUsage where
  zone : PlainZone
  txns : List (Transaction PlainAccess) := []

namespace PlainZone

/-- A change that is made without a transaction. -/
inductive DirectChange where
  | replaceSet (n : Name) (s : RecordSet)
  | deleteSet (n : Name) (key : SetKey)
  | deleteNode (n : Name)

namespace DirectChange

def make? (z : PlainZone) : DirectChange → Option (Except ZoneError Unit × PlainZone)
  | .replaceSet n s => DirectStore.replaceSet n s z
  | .deleteSet n key => DirectStore.deleteSet n key z
  | .deleteNode n => DirectStore.deleteNode n z

/-- What is staged to make the change. -/
def stage : DirectChange → PlainAccess → PlainAccess
  | .replaceSet n s => if s.isEmpty then Access.eraseSet n s.key else Access.put n s
  | .deleteSet n key => Access.eraseSet n key
  | .deleteNode n => Access.eraseName n

theorem make?_eq (c : DirectChange) (z : PlainZone) : c.make? z = z.writeDirect c.stage := by
  cases c with
  | replaceSet n s =>
      change (if s.isEmpty then _ else _) = _
      rw [stage]
      split <;> rfl
  | _ => rfl

theorem mode_stage (c : DirectChange) (a : PlainAccess) :
    Access.mode (c.stage a) = Access.mode a := by
  have hmodify (f : Staging → Staging) (a : PlainAccess) :
      Access.mode (a.modify f) = Access.mode a := by
    cases a <;> rfl
  cases c with
  | replaceSet n s =>
      rw [stage]
      split <;> exact hmodify _ _
  | _ => exact hmodify _ _

end DirectChange

theorem Ready.stage {z : PlainZone} {a : PlainAccess} (h : z.Ready a) (c : DirectChange) :
    z.Ready (c.stage a) := by
  obtain ⟨s, rfl, hs⟩ := h
  cases c with
  | replaceSet n set =>
      rw [DirectChange.stage]
      cases hset : set.isEmpty with
      | true => exact ⟨_, rfl, hs.eraseSet n set.key⟩
      | false => exact ⟨_, rfl, hs.put n hset⟩
  | deleteSet n key => exact ⟨_, rfl, hs.eraseSet n key⟩
  | deleteNode n => exact ⟨_, rfl, hs.eraseName n⟩

end PlainZone

open PlainZone (DirectChange)

/-- What a user of a plain zone does in one go. -/
inductive PlainAction where
  | start (s : Start)
  /-- A call is made on the transaction started as number `i`. -/
  | call (i : Nat) (c : Call)
  | drop (i : Nat)
  | change (c : DirectChange)

namespace PlainUsage

/-- The zone and its users after an action. What cannot be done has no effect. -/
def step (u : PlainUsage) : PlainAction → PlainUsage
  | .start s =>
      match s.open? u.zone with
      | some (.ok (t, z)) => ⟨z, u.txns ++ [t]⟩
      | _ => u
  | .call i c =>
      match u.txns[i]? with
      | none => u
      | some t => ⟨(t.call u.zone c).2.2, u.txns.set i (t.call u.zone c).2.1⟩
  | .drop i =>
      match u.txns[i]? with
      | none => u
      | some t => ⟨t.drop u.zone, u.txns.set i { t with access := Access.ended }⟩
  | .change c =>
      match c.make? u.zone with
      | none => u
      | some (_, z) => { u with zone := z }

/-- An action that makes only edits that are admitted. -/
def Admits (A : Transaction PlainAccess → Edit → Prop) (u : PlainUsage) : PlainAction → Prop
  | .call i c => ∀ t, u.txns[i]? = some t → t.Admits A c
  | _ => True

/-- The zone and its users after some actions. -/
def run (u : PlainUsage) (actions : List PlainAction) : PlainUsage := actions.foldl step u

end PlainUsage

/-- A new plain zone after some actions of its users. -/
def ZoneConfig.plainUsage (config : ZoneConfig) (actions : List PlainAction) : PlainUsage :=
  (PlainUsage.mk config.emptyPlain []).run actions

instance : Crowd PlainUsage PlainZone PlainAccess PlainAction where
  zone u := u.zone
  txns u := u.txns
  act u a := u.step a
  Admits := PlainUsage.Admits
  enlist? u := (Transaction.writer? false u.zone).map fun (w, z) => (w, { u with zone := z })
  leave z u := { u with zone := z }
  zone_leave _ _ := rfl
  txns_leave _ _ := rfl
  admits_of_forall hA u a := by cases a <;> simp [PlainUsage.Admits, Transaction.Admits, hA]

/-- A new plain zone that nobody has used yet. -/
def ZoneConfig.unusedPlain (config : ZoneConfig) : Traffic PlainUsage PlainAccess :=
  ⟨⟨config.emptyPlain, []⟩, []⟩

/-- A new plain zone after some events. -/
def ZoneConfig.plainTraffic (config : ZoneConfig) (events : List (Traffic.Event PlainAction)) :
    Traffic PlainUsage PlainAccess := config.unusedPlain.run events

/-! ### What the transactions of a zone keep -/

/-- What transactions keep of a plain zone, where `G` tells of the zone and `W` of the writer that
is open on it. -/
structure PlainWriterInvariant (A : Transaction PlainAccess → Edit → Prop) (G : PlainZone → Prop)
    (W : PlainZone → Transaction PlainAccess → Prop) : Prop where
  lock {z : PlainZone} (h : G z) (locked : Bool) : G { z with locked := locked }
  start {z : PlainZone} (h : G z) (replacement : Bool) :
    W z (.ofWriter (.writing (.start replacement z.supply)) z)
  keeps (z : PlainZone) : Transaction.Keeps A z (W z)
  commit {z : PlainZone} {t : Transaction PlainAccess} {s : Staging} (hz : G z) (ht : W z t)
    (haccess : t.access = .writing s) (hfault : t.apexFault? z = none) :
    G ((z.learn t.learned?).install s)

/-- What direct changes keep as well. -/
structure PlainInvariant (A : Transaction PlainAccess → Edit → Prop) (G : PlainZone → Prop)
    (W : PlainZone → Transaction PlainAccess → Prop) : Prop
    extends PlainWriterInvariant A G W where
  change {z : PlainZone} {t : Transaction PlainAccess} (h : W z t) (c : DirectChange) :
    W z { t with access := c.stage t.access }

namespace PlainZone

/-- The end of a transaction that does not write leaves the zone alone. -/
theorem zone_close_of_not_writes {t : Transaction PlainAccess} (ht : t.writes = false)
    (commit : Bool) (z : PlainZone) : (t.close commit z).2.2 = z := by
  change (z.finish _ _ t.access).2 = z
  cases haccess : t.access with
  | writing s => exact absurd (congrArg Access.mode haccess) (of_decide_eq_false ht)
  | _ => rfl

theorem zone_drop_of_not_writes {t : Transaction PlainAccess} (ht : t.writes = false)
    (z : PlainZone) : t.drop z = z := by
  rw [Transaction.drop, zone_close_of_not_writes ht, ite_self]

theorem zone_call_of_not_writes {t : Transaction PlainAccess} (ht : t.writes = false)
    (z : PlainZone) (c : Call) :
    (t.call z c).2.2 = z ∧ (t.call z c).2.1.writes = false := by
  have hmode : Access.mode t.access ≠ .writing := of_decide_eq_false ht
  by_cases hends : t.ends c = true
  · rw [Transaction.call_of_ends hends]
    exact ⟨zone_close_of_not_writes ht _ z, rfl⟩
  · obtain ⟨hzone, hedited⟩ := Transaction.call_of_not_ends (z := z) (Bool.eq_false_iff.mpr hends)
    refine ⟨hzone, ?_⟩
    rw [Transaction.writes, (hedited.of_not_writing hmode).1]
    exact ht

theorem keeps_ready (z : PlainZone) :
    Transaction.Keeps (fun _ _ => True) z fun t => z.Ready t.access where
  adds _ _ := trivial
  learns _ _ _ := trivial
  apply _ _ _ _ hplan h := h.apply (Transaction.sound_of_plan hplan)
  check _ _ h := h

/-- All that is stored in a zone in use and staged by its writer is sound. -/
theorem plainInvariant_sound :
    PlainInvariant (fun _ _ => True) Sound fun z t => z.Ready t.access where
  lock h _ := ⟨h.proper, h.filled⟩
  start h replacement := h.ready_start replacement
  keeps := keeps_ready
  change h c := h.stage c
  commit {z t s} hz ht haccess _ := by
    obtain ⟨s', hs', hsolid⟩ := ht
    cases haccess.symm.trans hs'
    have hlearn : (z.learn t.learned?).Sound := ⟨hz.proper, hz.filled⟩
    exact hlearn.install hsolid

/-- A zone with all transactions on it is as it should be: one of them writes if the zone is locked,
and none otherwise. -/
structure Tended (G : PlainZone → Prop) (W : PlainZone → Transaction PlainAccess → Prop)
    (z : PlainZone) (ts : List (Transaction PlainAccess)) : Prop where
  good : G z
  lock : ts.countP Transaction.writes = z.locked.toNat
  writers : ∀ t ∈ ts, t.writes = true → W z t

namespace Tended

variable {A : Transaction PlainAccess → Edit → Prop} {G : PlainZone → Prop}
  {W : PlainZone → Transaction PlainAccess → Prop} {z : PlainZone}
  {t t' : Transaction PlainAccess} {ts ts' : List (Transaction PlainAccess)}

theorem perm (h : Tended G W z ts) (hperm : ts'.Perm ts) : Tended G W z ts' where
  good := h.good
  lock := (hperm.countP_eq _).trans h.lock
  writers t ht := h.writers t (hperm.mem_iff.mp ht)

/-- A transaction that does not write makes no difference. -/
theorem cons_iff (ht : t.writes = false) : Tended G W z (t :: ts) ↔ Tended G W z ts := by
  have hcount : (t :: ts).countP Transaction.writes = ts.countP Transaction.writes :=
    List.countP_cons_of_neg (by simp [ht])
  refine ⟨fun h => ⟨h.good, hcount ▸ h.lock, fun t' ht' => ?_⟩,
    fun h => ⟨h.good, hcount ▸ h.lock, fun t' ht' hwrites => ?_⟩⟩
  · exact h.writers t' (List.mem_cons_of_mem t ht')
  · rcases List.mem_cons.mp ht' with rfl | ht'
    · rw [ht] at hwrites
      cases hwrites
    · exact h.writers t' ht' hwrites

/-- Nor does an updater whose writer has ended. -/
theorem toList_append_iff {t? : Option (Transaction PlainAccess)}
    (h : ∀ t ∈ t?, t.isEnded = true) :
    Tended G W z (t?.toList ++ ts) ↔ Tended G W z ts := by
  cases t? with
  | none => rfl
  | some t => exact cons_iff (Transaction.writes_of_isEnded (h t rfl))

/-- Nobody writes to a zone that is not locked. -/
theorem not_writes (h : Tended G W z ts) (hz : z.locked = false) (ht : t ∈ ts) :
    t.writes = false := by
  have hcount := h.lock
  rw [hz] at hcount
  exact Bool.eq_false_iff.mpr (List.countP_eq_zero.mp hcount t ht)

/-- A zone is locked while somebody writes to it, and nobody else does. -/
theorem of_writes (h : Tended G W z (t :: ts)) (ht : t.writes = true) :
    z.locked = true ∧ ts.countP Transaction.writes = 0 := by
  have hcount := h.lock
  rw [List.countP_cons_of_pos ht] at hcount
  cases hz : z.locked with
  | true =>
      rw [hz] at hcount
      exact ⟨rfl, Nat.succ.inj hcount⟩
  | false =>
      rw [hz] at hcount
      cases hcount

/-- What nobody writes to need only be good. -/
theorem of_unlocked (hz : G z) (hlocked : z.locked = false)
    (hts : ts.countP Transaction.writes = 0) : Tended G W z ts where
  good := hz
  lock := by
    rw [hlocked, hts]
    rfl
  writers t ht hwrites := absurd hwrites (List.countP_eq_zero.mp hts t ht)

/-- The writer ends, and nobody writes any more. -/
theorem close (hI : PlainWriterInvariant A G W) (h : Tended G W z (t :: ts)) (ht : t.writes = true)
    (commit : Bool) (hfault : commit = true → t.apexFault? z = none) (hended : t'.writes = false) :
    Tended G W (t.close commit z).2.2 (t' :: ts) := by
  obtain ⟨s, haccess⟩ := exists_staging (of_decide_eq_true ht)
  have hgood : G (t.close commit z).2.2 := by
    rw [z.close_of_writing haccess]
    cases commit with
    | false => exact hI.lock h.good false
    | true =>
        exact hI.lock (hI.commit h.good (h.writers t List.mem_cons_self ht) haccess (hfault rfl))
          false
  have hlocked : (t.close commit z).2.2.locked = false := by
    rw [z.close_of_writing haccess]
    cases commit <;> rfl
  refine .of_unlocked hgood hlocked ?_
  rw [List.countP_cons_of_neg (by simp [hended])]
  exact (h.of_writes ht).2

theorem call (hI : PlainWriterInvariant A G W) (h : Tended G W z (t :: ts)) {c : Call}
    (hA : t.Admits A c) : Tended G W (t.call z c).2.2 ((t.call z c).2.1 :: ts) := by
  cases ht : t.writes with
  | false =>
      obtain ⟨hzone, ht'⟩ := zone_call_of_not_writes ht z c
      rw [hzone, cons_iff ht']
      exact (cons_iff ht).mp h
  | true =>
      by_cases hends : t.ends c = true
      · have hended : (t.call z c).2.1.writes = false := by
          rw [Transaction.txn_call_of_ends hends]
          rfl
        have hclose := h.close hI ht (t.commits z c) Transaction.apexFault?_of_commits hended
        rwa [← Transaction.call_of_ends hends] at hclose
      · have hends := Bool.eq_false_iff.mpr hends
        obtain ⟨hzone, hedited⟩ := Transaction.call_of_not_ends (z := z) hends
        have hmode := hedited.mode_eq mode_apply
        have hwrites : (t.call z c).2.1.writes = true := by
          rw [Transaction.writes, hmode]
          exact ht
        have hcount : ((t.call z c).2.1 :: ts).countP Transaction.writes =
            (t :: ts).countP Transaction.writes := by
          rw [List.countP_cons_of_pos hwrites, List.countP_cons_of_pos ht]
        rw [hzone]
        refine ⟨h.good, hcount.trans h.lock, fun t' ht' hwrites' => ?_⟩
        rcases List.mem_cons.mp ht' with rfl | ht'
        · exact (hI.keeps z).call (h.writers t List.mem_cons_self ht) hA hends
        · exact h.writers t' (List.mem_cons_of_mem t ht') hwrites'

theorem drop (hI : PlainWriterInvariant A G W) (h : Tended G W z (t :: ts)) :
    Tended G W (t.drop z) ts := by
  have hended : ({ t with access := Access.ended } : Transaction PlainAccess).writes = false := rfl
  cases ht : t.writes with
  | true =>
      have hopen : t.isEnded = false := by
        obtain ⟨s, haccess⟩ := exists_staging (of_decide_eq_true ht)
        rw [Transaction.isEnded, haccess]
        rfl
      rw [Transaction.drop, hopen]
      exact (cons_iff hended).mp (h.close hI ht false (fun hcommit => by cases hcommit) hended)
  | false =>
      rw [zone_drop_of_not_writes ht]
      exact (cons_iff ht).mp h

theorem exchange (hI : PlainWriterInvariant A G W) (h : Tended G W z (t :: ts)) {calls : List Call}
    (hA : ∀ c ∈ calls, ∀ t : Transaction PlainAccess, t.Admits A c) :
    Tended G W (t.exchange z calls).2.2 ((t.exchange z calls).2.1 :: ts) := by
  induction calls generalizing t z with
  | nil => exact h
  | cons c rest ih =>
      exact ih (h.call hI (hA c List.mem_cons_self t))
        fun c' hc' => hA c' (List.mem_cons_of_mem c hc')

/-- A writer is started. -/
theorem start (hI : PlainWriterInvariant A G W) (h : Tended G W z ts) {replacement : Bool}
    {z' : PlainZone} (ht : Transaction.writer? replacement z = some (t, z')) :
    Tended G W z' (t :: ts) := by
  rw [writer?_eq] at ht
  split at ht
  · cases ht
  · rename_i hz
    have hz := Bool.eq_false_iff.mpr hz
    cases ht
    have hlocked := hI.lock h.good true
    have hcount : ts.countP Transaction.writes = 0 := by
      rw [h.lock, hz]
      rfl
    refine ⟨hlocked, ?_, fun t' ht' hwrites => ?_⟩
    · rw [List.countP_cons_of_pos rfl, hcount]
      rfl
    · rcases List.mem_cons.mp ht' with rfl | ht'
      · exact hI.start hlocked replacement
      · exact absurd hwrites (List.countP_eq_zero.mp hcount t' ht')

/-- An updater goes on as it can. -/
theorem conduct (hI : PlainWriterInvariant A G W)
    (hA : ∀ t e, (∀ origin, e ≠ .setOrigin origin) → A t e) (h : Tended G W z (t :: ts))
    {w? : Option (Transaction PlainAccess)} {z' : PlainZone}
    (hconduct : Updater.Conduct z t w? z') : Tended G W z' (w?.toList ++ ts) := by
  have hadmits {calls : List Call} (hcalls : ∀ c ∈ calls, c.OfTransfer) :
      ∀ c ∈ calls, ∀ t : Transaction PlainAccess, t.Admits A c := by
    intro c hc t e he
    rcases hcalls c hc with hcommit | ⟨e', hedit, hne⟩
    · rw [hcommit] at he
      cases he
    · rw [hedit] at he
      cases he
      exact hA t _ hne
  cases hconduct with
  | goesOn hcalls => exact h.exchange hI (hadmits hcalls)
  | stops hcalls => exact (h.exchange hI (hadmits hcalls)).drop hI
  | restarts hcalls hended hnext =>
      have hidle := Transaction.writes_of_isEnded hended
      exact ((cons_iff hidle).mp (h.exchange hI (hadmits hcalls))).start hI hnext

/-- A change is made directly, and what is staged to make it is as it should be. -/
theorem change (hI : PlainWriterInvariant A G W) (h : Tended G W z ts) {c : DirectChange}
    (hW : ∀ {z t}, W z t → W z { t with access := c.stage t.access })
    {result : Except ZoneError Unit} {z' : PlainZone} (hc : c.make? z = some (result, z')) :
    Tended G W z' ts := by
  rw [c.make?_eq, writeDirect] at hc
  obtain ⟨⟨t, z₁⟩, ht, heq⟩ := Option.map_eq_some_iff.mp hc
  cases heq
  have hstart := h.start hI ht
  have hwrites : t.writes = true := by
    rw [writer?_eq] at ht
    split at ht
    · cases ht
    · cases ht
      rfl
  -- what is staged is a state of the writer like any other
  have hstaged : Tended G W z₁ ({ t with access := c.stage t.access } :: ts) := by
    have hwrites' : ({ t with access := c.stage t.access } : Transaction PlainAccess).writes =
        true := by
      rw [Transaction.writes, c.mode_stage]
      exact hwrites
    refine ⟨hstart.good, ?_, fun t' ht' hw => ?_⟩
    · rw [← hstart.lock, List.countP_cons_of_pos hwrites', List.countP_cons_of_pos hwrites]
    · rcases List.mem_cons.mp ht' with rfl | ht'
      · exact hW (hstart.writers t List.mem_cons_self hwrites)
      · exact hstart.writers t' (List.mem_cons_of_mem t ht') hw
  have hcommit := hstaged.call hI (c := .commit) fun e he => by cases he
  have hended := Transaction.isEnded_commit rfl z₁ { t with access := c.stage t.access }
  exact (cons_iff (Transaction.writes_of_isEnded hended)).mp hcommit

end Tended

end PlainZone

section Runs

variable {A : Transaction PlainAccess → Edit → Prop} {G : PlainZone → Prop}
  {W : PlainZone → Transaction PlainAccess → Prop}

open PlainZone (Tended)

/-- What users do keeps the zone and all transactions as they should be; `others` are those of
updaters. -/
theorem PlainUsage.tended_step (hI : PlainWriterInvariant A G W) {u : PlainUsage}
    {others : List (Transaction PlainAccess)} (h : Tended G W u.zone (u.txns ++ others))
    {a : PlainAction} (hA : u.Admits A a)
    (hW : ∀ c, a = .change c → ∀ {z t}, W z t → W z { t with access := c.stage t.access }) :
    Tended G W (u.step a).zone ((u.step a).txns ++ others) := by
  cases a with
  | start s =>
      rw [step]
      split
      · rename_i t z hopen
        have hperm : (u.txns ++ [t] ++ others).Perm (t :: (u.txns ++ others)) :=
          List.perm_append_comm.append_right others
        refine Tended.perm ?_ hperm
        cases s with
        | reader query? =>
            obtain ⟨rfl, rfl⟩ := PlainZone.reader_eq_ok (Option.some.inj hopen)
            exact (Tended.cons_iff rfl).mpr h
        | writer replacement =>
            obtain ⟨r, hr, heq⟩ := Option.map_eq_some_iff.mp hopen
            cases heq
            exact h.start hI hr
      · exact h
  | call i c =>
      rw [step]
      split
      · exact h
      · rename_i t ht
        have hi : i < u.txns.length := (List.getElem?_eq_some_iff.mp ht).1
        have hcall := (h.perm ((perm_cons_eraseIdx ht).symm.append_right others)).call hI (hA t ht)
        exact hcall.perm ((List.set_perm_cons_eraseIdx hi _).append_right others)
  | drop i =>
      rw [step]
      split
      · exact h
      · rename_i t ht
        have hi : i < u.txns.length := (List.getElem?_eq_some_iff.mp ht).1
        have hdrop := (h.perm ((perm_cons_eraseIdx ht).symm.append_right others)).drop hI
        have hended :
            ({ t with access := Access.ended } : Transaction PlainAccess).writes = false := rfl
        exact ((Tended.cons_iff hended).mpr hdrop).perm
          ((List.set_perm_cons_eraseIdx hi _).append_right others)
  | change c =>
      rw [step]
      split
      · exact h
      · exact h.change hI (hW c rfl) ‹_›

theorem PlainUsage.tended_run (hI : PlainWriterInvariant A G W) {u : PlainUsage}
    (h : Tended G W u.zone u.txns) {actions : List PlainAction}
    (hA : ∀ a ∈ actions, ∀ u : PlainUsage, u.Admits A a)
    (hW : ∀ c, .change c ∈ actions → ∀ {z t}, W z t → W z { t with access := c.stage t.access }) :
    Tended G W (u.run actions).zone (u.run actions).txns := by
  induction actions generalizing u with
  | nil => exact h
  | cons a rest ih =>
      obtain ⟨ha, hrest⟩ := List.forall_mem_cons.mp hA
      have hothers : Tended G W u.zone (u.txns ++ []) := by rwa [List.append_nil]
      have hstep := tended_step hI hothers (ha u) fun c hc => hW c (hc ▸ List.mem_cons_self)
      rw [List.append_nil] at hstep
      exact ih hstep hrest fun c hc => hW c (List.mem_cons_of_mem a hc)

namespace Traffic

variable {t : Traffic PlainUsage PlainAccess}

theorem enlist?_eq_some {users : PlainUsage} {w : Transaction PlainAccess}
    (h : Crowd.enlist? t.users = some (w, users)) :
    Transaction.writer? false t.zone = some (w, users.zone) ∧ users.txns = t.users.txns := by
  obtain ⟨r, hr, heq⟩ := Option.map_eq_some_iff.mp h
  cases heq
  exact ⟨hr, rfl⟩

theorem tended_step (hI : PlainInvariant A G W)
    (hA : ∀ t e, (∀ origin, e ≠ .setOrigin origin) → A t e) (h : Tended G W t.zone t.txns)
    {e : Event PlainAction} (hadmits : t.Admits A e) :
    Tended G W (t.step e).zone (t.step e).txns := by
  have heffect := t.effect_step rfl e
  generalize t.step e = t' at heffect ⊢
  cases heffect with
  | acts a =>
      exact PlainUsage.tended_step hI.toPlainWriterInvariant h hadmits fun c _ => (hI.change · c)
  | stays => exact h
  | starts henlist =>
      obtain ⟨hwriter, htxns⟩ := enlist?_eq_some henlist
      refine (h.start hI.toPlainWriterInvariant hwriter).perm ?_
      change (PlainUsage.txns _ ++ List.filterMap _ _).Perm _
      rw [htxns, List.filterMap_append, ← List.append_assoc]
      exact List.perm_append_comm
  | @conducts _ _ u u' w z hu hw hopen hconduct =>
      have hone := h.perm (perm_txns hu).symm
      rw [hw] at hone
      exact (hone.conduct hI.toPlainWriterInvariant hA hconduct).perm
        (perm_txns_set hu (Crowd.txns_leave z t.users) u')
  | @idles _ _ u u' hu hidle hu' =>
      have hset := perm_txns_set hu (Crowd.txns_leave t.zone t.users) u'
      rw [hu'] at hset
      exact ((Tended.toList_append_iff hidle).mp (h.perm (perm_txns hu).symm)).perm hset
  | @resumes _ _ u w users hu hwaits henlist =>
      obtain ⟨hwriter, htxns⟩ := enlist?_eq_some henlist
      obtain ⟨w', hw', hended⟩ := (Option.any_eq_true ..).mp hwaits
      have hidle : ∀ w ∈ u.writer?, w.isEnded = true := by
        intro w hw
        cases hw'.symm.trans hw
        exact hended
      have hothers := (Tended.toList_append_iff hidle).mp (h.perm (perm_txns hu).symm)
      exact (hothers.start hI.toPlainWriterInvariant hwriter).perm
        (perm_txns_set hu htxns ⟨some w, true⟩)

theorem tended_run (hI : PlainInvariant A G W)
    (hA : ∀ t e, (∀ origin, e ≠ .setOrigin origin) → A t e) (h : Tended G W t.zone t.txns)
    {events : List (Event PlainAction)} (hadmits : t.AdmitsAll A events) :
    Tended G W (t.run events).zone (t.run events).txns := by
  induction events generalizing t with
  | nil => exact h
  | cons e rest ih => exact ih (tended_step hI hA h hadmits.1) hadmits.2

end Traffic

/-- What holds of a new zone and is kept holds whatever happens to the zone. -/
theorem ZoneConfig.tended_plainTraffic (hI : PlainInvariant A G W)
    (hA : ∀ t e, (∀ origin, e ≠ .setOrigin origin) → A t e) (config : ZoneConfig)
    (hfirst : G config.emptyPlain) {events : List (Traffic.Event PlainAction)}
    (hadmits : config.unusedPlain.AdmitsAll A events) :
    Tended G W (config.plainTraffic events).zone (config.plainTraffic events).txns :=
  Traffic.tended_run hI hA (t := config.unusedPlain) (.of_unlocked hfirst rfl rfl) hadmits

theorem ZoneConfig.sound_plainTraffic (config : ZoneConfig)
    (events : List (Traffic.Event PlainAction)) :
    Tended PlainZone.Sound (fun z t => z.Ready t.access) (config.plainTraffic events).zone
      (config.plainTraffic events).txns :=
  config.tended_plainTraffic PlainZone.plainInvariant_sound (fun _ _ _ => trivial)
    (PlainZone.sound_create ..)
    (Traffic.admitsAll_of_forall (fun _ _ => trivial) config.unusedPlain events)

theorem ZoneConfig.tended_plainUsage (hI : PlainWriterInvariant A G W) (config : ZoneConfig)
    (hfirst : G config.emptyPlain) {actions : List PlainAction}
    (hA : ∀ a ∈ actions, ∀ u : PlainUsage, u.Admits A a)
    (hW : ∀ c, .change c ∈ actions → ∀ {z t}, W z t → W z { t with access := c.stage t.access }) :
    Tended G W (config.plainUsage actions).zone (config.plainUsage actions).txns :=
  PlainUsage.tended_run hI (u := ⟨config.emptyPlain, []⟩) (.of_unlocked hfirst rfl rfl) hA hW

theorem ZoneConfig.sound_plainUsage (config : ZoneConfig) (actions : List PlainAction) :
    Tended PlainZone.Sound (fun z t => z.Ready t.access) (config.plainUsage actions).zone
      (config.plainUsage actions).txns :=
  config.tended_plainUsage PlainZone.plainInvariant_sound.toPlainWriterInvariant
    (PlainZone.sound_create ..)
    (fun a _ u => by cases a <;> simp [PlainUsage.Admits, Transaction.Admits])
    fun c _ {_ _} h => PlainZone.plainInvariant_sound.change h c

end Runs

end DnsZone
