import DnsZone.Proofs.RecordSet
import DnsZone.Proofs.Transaction.Edited

/-!
# What all calls keep

A planned edit changes one name that the origin of the transaction yields, unless it drops all
content or sets the origin, and it stores only record sets that hold records. A property of
transactions that is kept whenever such a change is applied and whenever checks are set is kept by
every call that does not end the transaction, loading included.
-/

namespace DnsZone

/-- The name is what a name comes to be in stored form, or that of the apex. -/
def Origin.Yields (o : Origin) (n : Name) : Prop := (∃ m, o.stored m = .ok n) ∨ o.apex? = some n

theorem Origin.yields_of_target {o : Origin} {n? : Option Name} {n : Name}
    (h : o.target n? = .ok n) : o.Yields n := by
  cases n? with
  | some m => exact .inl ⟨m, h⟩
  | none =>
      rw [target] at h
      split at h
      · cases h
      · rename_i apex happex
        cases h
        exact .inr happex

/-- A change at one name, or none at all. If it stores a set, that holds records. -/
def Change.IsAt (m : Name) : Change → Prop
  | .nothing => True
  | .put n s => n = m ∧ s.isEmpty = false
  | .eraseName n => n = m
  | .eraseSet n _ => n = m
  | .clear => False
  | .setOrigin _ => False

/-- A change that stores only sets that hold records, under names that the origin yields. -/
def Change.Sound (o : Origin) : Change → Prop
  | .put n s => s.isEmpty = false ∧ o.Yields n
  | _ => True

theorem Change.IsAt.sound {c : Change} {o : Origin} {m : Name} (h : c.IsAt m) (hm : o.Yields m) :
    c.Sound o := by
  cases c with
  | put n s =>
      obtain ⟨rfl, hs⟩ := h
      exact ⟨hs, hm⟩
  | _ => trivial

/-- The edit is about what is at a name, `m` in stored form. -/
def Edit.Targets (o : Origin) (m : Name) : Edit → Prop
  | .addData n _ _ => o.stored n = .ok m
  | .addRecord r => o.stored r.owner = .ok m
  | .addSet n _ => o.stored n = .ok m
  | .replace n _ => o.stored n = .ok m
  | .deleteAll => False
  | .deleteName n _ => o.stored n = .ok m
  | .deleteSet n _ _ => o.stored n = .ok m
  | .deleteRecords n _ _ => o.stored n = .ok m
  | .deleteData n _ _ => o.stored n = .ok m
  | .updateSerial _ _ n? => o.target n? = .ok m
  | .setOrigin _ => False

theorem Edit.Targets.yields {e : Edit} {o : Origin} {m : Name} (h : e.Targets o m) :
    o.Yields m := by
  cases e with
  | deleteAll => exact h.elim
  | setOrigin origin => exact h.elim
  | updateSerial value relative n? => exact Origin.yields_of_target h
  | _ => exact .inl ⟨_, h⟩

namespace Transaction

variable {ζ τ : Type} [Access τ] [Backend ζ τ] {z : ζ} {t : Transaction τ}

omit [Access τ] [Backend ζ τ] in
theorem isAt_of_planPut {n : Name} {s : RecordSet} {c : Change} (h : t.planPut n s = .ok c)
    (hs : s.isEmpty = false) : c.IsAt n := by
  rw [planPut_eq_ok h]
  exact ⟨rfl, hs⟩

theorem isAt_of_planEraseSet {n : Name} {key : SetKey} {strict : Bool} {c : Change}
    (h : t.planEraseSet z n key strict = .ok c) : c.IsAt n := by
  unfold planEraseSet at h
  repeat' split at h
  all_goals cases h
  all_goals trivial

theorem isAt_of_planAddSet {n : Name} {s : RecordSet} {c : Change}
    (h : t.planAddSet z n s = .ok c) : ∃ m, t.origin.stored n = .ok m ∧ c.IsAt m := by
  obtain ⟨-, m, hm, h⟩ := exists_target h
  refine ⟨m, hm, ?_⟩
  split at h
  · cases h
    trivial
  · rename_i hs
    have hs : s.isEmpty = false := Bool.eq_false_iff.mpr hs
    split at h
    · exact isAt_of_planPut h hs
    · rename_i old _
      split at h
      · cases h
        trivial
      · exact isAt_of_planPut h (old.isEmpty_union hs)

theorem isAt_of_planReplace {n : Name} {s : RecordSet} {c : Change}
    (h : t.planReplace z n s = .ok c) : ∃ m, t.origin.stored n = .ok m ∧ c.IsAt m := by
  obtain ⟨-, m, hm, h⟩ := exists_target h
  refine ⟨m, hm, ?_⟩
  split at h
  · exact isAt_of_planEraseSet h
  · rename_i hs
    exact isAt_of_planPut h (Bool.eq_false_iff.mpr hs)

theorem isAt_of_planDeleteName {n : Name} {strict : Bool} {c : Change}
    (h : t.planDeleteName z n strict = .ok c) : ∃ m, t.origin.stored n = .ok m ∧ c.IsAt m := by
  obtain ⟨-, m, hm, h⟩ := exists_target h
  refine ⟨m, hm, ?_⟩
  repeat' split at h
  all_goals cases h
  all_goals trivial

theorem isAt_of_planDeleteSet {n : Name} {key : SetKey} {strict : Bool} {c : Change}
    (h : t.planDeleteSet z n key strict = .ok c) : ∃ m, t.origin.stored n = .ok m ∧ c.IsAt m := by
  obtain ⟨-, m, hm, h⟩ := exists_target h
  exact ⟨m, hm, isAt_of_planEraseSet h⟩

theorem isAt_of_planDeleteRecords {n : Name} {s : RecordSet} {strict : Bool} {c : Change}
    (h : t.planDeleteRecords z n s strict = .ok c) :
    ∃ m, t.origin.stored n = .ok m ∧ c.IsAt m := by
  obtain ⟨-, m, hm, h⟩ := exists_target h
  refine ⟨m, hm, ?_⟩
  split at h
  · split at h <;> cases h
    trivial
  · split at h
    · cases h
    · split at h
      · exact isAt_of_planEraseSet h
      · rename_i hrest
        split at h
        · cases h
          trivial
        · exact isAt_of_planPut h (Bool.eq_false_iff.mpr hrest)

theorem isAt_of_planUpdateSerial {value : UInt32} {relative : Bool} {n? : Option Name}
    {r : Change × Serial} (h : t.planUpdateSerial z value relative n? = .ok r) :
    ∃ m, t.origin.target n? = .ok m ∧ r.1.IsAt m := by
  obtain ⟨-, m, ttl, d, hm, hput⟩ := exists_planPut_of_planUpdateSerial h
  exact ⟨m, hm, isAt_of_planPut hput (RecordSet.isEmpty_single ttl d)⟩

/-- A planned edit changes one name, drops all content, or sets the origin. -/
theorem plan_cases {e : Edit} {r : Change × Option Serial} (h : t.plan z e = .ok r) :
    (∃ m, e.Targets t.origin m ∧ r.1.IsAt m) ∨ (e = .deleteAll ∧ r.1 = .clear) ∨
      ∃ origin, e = .setOrigin origin ∧ r.1 = .setOrigin origin := by
  cases e with
  | deleteAll =>
      obtain ⟨_, _, rfl⟩ := map_eq_ok_iff.mp h
      exact .inr (.inl ⟨rfl, rfl⟩)
  | setOrigin origin =>
      obtain ⟨c, hc, rfl⟩ := map_eq_ok_iff.mp h
      rw [planSetOrigin] at hc
      obtain ⟨_, _, hc⟩ := bind_eq_ok_iff.mp hc
      split at hc <;> cases hc
      exact .inr (.inr ⟨origin, rfl, rfl⟩)
  | updateSerial value relative n? =>
      obtain ⟨r', hr', rfl⟩ := map_eq_ok_iff.mp h
      exact .inl (isAt_of_planUpdateSerial hr')
  | addData n ttl d =>
      obtain ⟨c, hc, rfl⟩ := map_eq_ok_iff.mp h
      exact .inl (isAt_of_planAddSet hc)
  | addRecord record =>
      obtain ⟨c, hc, rfl⟩ := map_eq_ok_iff.mp h
      exact .inl (isAt_of_planAddSet hc)
  | addSet n s =>
      obtain ⟨c, hc, rfl⟩ := map_eq_ok_iff.mp h
      exact .inl (isAt_of_planAddSet hc)
  | replace n s =>
      obtain ⟨c, hc, rfl⟩ := map_eq_ok_iff.mp h
      exact .inl (isAt_of_planReplace hc)
  | deleteName n strict =>
      obtain ⟨c, hc, rfl⟩ := map_eq_ok_iff.mp h
      exact .inl (isAt_of_planDeleteName hc)
  | deleteSet n key strict =>
      obtain ⟨c, hc, rfl⟩ := map_eq_ok_iff.mp h
      exact .inl (isAt_of_planDeleteSet hc)
  | deleteRecords n s strict =>
      obtain ⟨c, hc, rfl⟩ := map_eq_ok_iff.mp h
      exact .inl (isAt_of_planDeleteRecords hc)
  | deleteData n d strict =>
      obtain ⟨c, hc, rfl⟩ := map_eq_ok_iff.mp h
      exact .inl (isAt_of_planDeleteRecords hc)

/-- The origin is set only by the edit that is for it. -/
theorem eq_setOrigin_of_plan {e : Edit} {origin : Name} {serial? : Option Serial}
    (h : t.plan z e = .ok (.setOrigin origin, serial?)) : e = .setOrigin origin := by
  rcases plan_cases h with ⟨m, _, hat⟩ | ⟨_, hclear⟩ | ⟨origin', he, horigin⟩
  · exact hat.elim
  · cases hclear
  · cases horigin
    exact he

theorem sound_of_plan {e : Edit} {r : Change × Option Serial} (h : t.plan z e = .ok r) :
    r.1.Sound t.origin := by
  rcases plan_cases h with ⟨m, htargets, hat⟩ | ⟨_, hclear⟩ | ⟨origin, _, horigin⟩
  · exact hat.sound htargets.yields
  · rw [hclear]
    trivial
  · rw [horigin]
    trivial

/-! ### Properties that calls keep -/

/-- Planned edits keep the property `P`, as long as they are among those that `A` admits. Loading
records is admitted in any case. -/
structure Keeps (A : Transaction τ → Edit → Prop) (z : ζ) (P : Transaction τ → Prop) : Prop where
  adds (t : Transaction τ) (r : Record) : A t (.addRecord r)
  learns (t : Transaction τ) (origin : Name) : t.origin.name? = none → A t (.setOrigin origin)
  apply (t : Transaction τ) (e : Edit) (r : Change × Option Serial) :
    A t e → t.plan z e = .ok r → P t → P (t.apply r.1)
  check (t : Transaction τ) (checks : Checks) : P t → P { t with checks := checks }

/-- The edit that a call makes, if it makes one, is admitted. -/
def Admits (A : Transaction τ → Edit → Prop) (t : Transaction τ) (c : Call) : Prop :=
  ∀ e, c = .edit e → A t e

namespace Keeps

variable {A : Transaction τ → Edit → Prop} {P : Transaction τ → Prop}

theorem edit (hP : Keeps A z P) (h : P t) {e : Edit} (hA : A t e) : P (t.edit z e).2 := by
  rw [Transaction.edit]
  cases hplan : t.plan z e with
  | error fault => exact h
  | ok r => exact hP.apply t e r hA hplan h

theorem load (hP : Keeps A z P) (h : P t) (cls : RecordClass) (records : List Record) :
    P (t.load z cls records).2 :=
  load_induction (fun t r ht => hP.edit ht (hP.adds t r))
    (fun t origin horigin ht => hP.edit ht (hP.learns t origin horigin)) h cls records

/-- What all edits keep is kept besides. -/
theorem and (hP : Keeps A z P) {Q : Transaction τ → Prop} (hQ : Keeps (fun _ _ => True) z Q) :
    Keeps A z fun t => P t ∧ Q t where
  adds := hP.adds
  learns := hP.learns
  apply t e r hA hplan h := ⟨hP.apply t e r hA hplan h.1, hQ.apply t e r trivial hplan h.2⟩
  check t checks h := ⟨hP.check t checks h.1, hQ.check t checks h.2⟩

/-- What is true of open transactions only can be kept as well, since ended ones are not edited. -/
theorem whileOpen (hP : Keeps A z P) : Keeps A z fun t => t.isEnded = false → P t where
  adds := hP.adds
  learns := hP.learns
  apply t e r hA hplan h _ := by
    refine hP.apply t e r hA hplan (h ?_)
    rw [isEnded, (plan_eq_ok hplan).1]
    rfl
  check t checks h hopen := hP.check t checks (h hopen)

/-- A call that does not end the transaction keeps the property. -/
theorem call (hP : Keeps A z P) (h : P t) {c : Call} (hA : t.Admits A c)
    (hends : t.ends c = false) : P (t.call z c).2.1 := by
  cases c with
  | query q => exact h
  | edit e => exact hP.edit h (hA e rfl)
  | load cls records => exact hP.load h cls records
  | commit =>
      have hended : t.isEnded = true := by simpa [ends] using hends
      rw [Transaction.call, Transaction.commit, if_pos hended]
      exact h
  | rollback =>
      have hended : t.isEnded = true := by simpa [ends] using hends
      rw [Transaction.call, Transaction.rollback, if_pos hended]
      exact h
  | checkPut check => exact hP.check t _ h
  | checkDeleteSet check => exact hP.check t _ h
  | checkDeleteName check => exact hP.check t _ h

end Keeps

end Transaction

end DnsZone
