import DnsZone.Admission
import Mathlib.Data.List.Nodup
import Mathlib.Data.List.Range

/-!
# Writers are admitted in the order in which they arrive

The protocol by which writers are admitted is followed together with the writers themselves: who is
still waiting for an answer, who has arrived, who was admitted and who gave up, each in order. What
the protocol keeps up is `Admission.Sound`. Its core is that the writers admitted, the one that was
handed access and those that wait are, in this order, all that have arrived and have not given up.
So nobody is overtaken, and nobody is lost.
-/

namespace DnsZone

/-- How a writer that has arrived came to its answer. -/
inductive Turn where
  /-- It got access at once. -/
  | atOnce
  /-- It was given a number under which to wait. -/
  | waited (id : Nat)
  deriving DecidableEq, Repr

/-- The number under which the writer had to wait. -/
def Turn.id? : Turn → Option Nat
  | .atOnce => none
  | .waited id => some id

/-- The writers that have asked for access to a zone. -/
structure Queuers where
  /-- The numbers of those that have not returned from waiting yet. -/
  callers : List Nat := []
  /-- All that arrived, in order, but for those that would not have waited and left at once. -/
  arrivals : List Turn := []
  admitted : List Turn := []
  /-- The numbers of those that gave up. -/
  timedOut : List Nat := []

namespace Queuers

/-- A writer arrives and is admitted, or waits under the number it is given. -/
def arrive (id? : Option Nat) (q : Queuers) : Queuers :=
  match id? with
  | none => { q with arrivals := q.arrivals ++ [.atOnce], admitted := q.admitted ++ [.atOnce] }
  | some id =>
      { q with arrivals := q.arrivals ++ [.waited id], callers := q.callers ++ [id] }

/-- The waiting writer `id` is admitted. -/
def enter (id : Nat) (q : Queuers) : Queuers :=
  { q with callers := q.callers.filter (· != id), admitted := q.admitted ++ [.waited id] }

/-- The waiting writer `id` gives up. -/
def leave (id : Nat) (q : Queuers) : Queuers :=
  { q with callers := q.callers.filter (· != id), timedOut := q.timedOut ++ [id] }

/-- Whether a writer has not given up. -/
def remains (q : Queuers) : Turn → Bool
  | .atOnce => true
  | .waited id => !q.timedOut.contains id

/-- All but the one that leaves remain. -/
theorem remains_leave (id : Nat) (q : Queuers) :
    (q.leave id).remains = fun t => (t != .waited id) && q.remains t := by
  funext t
  cases t with
  | atOnce => rfl
  | waited w =>
      by_cases hw : w = id
      · simp [remains, leave, hw]
      · simp [remains, leave, hw]

end Queuers

namespace Admission

/-- The numbers of the writers that were handed access or wait for it. -/
def queued (a : Admission) : List Nat := a.handedTo.toList ++ a.waiting

/-- What holds of the writers of a zone, `holders` of which have access. -/
structure Sound (a : Admission) (holders : Nat) (q : Queuers) : Prop where
  holders_eq : holders = a.active.toNat
  handedTo_eq : a.active = true → a.handedTo = none
  busy : a.waiting ≠ [] → a.active = true ∨ a.handedTo.isSome = true
  callers_eq : q.callers = a.queued
  arrivals_id? : q.arrivals.filterMap Turn.id? = List.range a.next
  timedOut_lt : ∀ id ∈ q.timedOut, id < a.next
  in_order : q.admitted ++ a.queued.map Turn.waited = q.arrivals.filter q.remains

/-- What a writer that arrives, wakes up or runs out of time does to the protocol. It adds `k` to
the number of those that have access. -/
inductive Turns (a : Admission) (q : Queuers) : (k : Nat) → Admission → Queuers → Prop where
  | atOnce (hfree : a.isFree = true) : Turns a q 1 { a with active := true } (q.arrive none)
  | waits (hbusy : a.isFree = false) :
      Turns a q 0 { a with waiting := a.waiting ++ [a.next], next := a.next + 1 }
        (q.arrive (some a.next))
  | takes {id : Nat} (hhanded : a.handedTo = some id) :
      Turns a q 1 { a with active := true, handedTo := none } (q.enter id)
  | leaves {id : Nat} (hid : id ∈ q.callers) (hhanded : a.handedTo ≠ some id) :
      Turns a q 0 { a with waiting := a.waiting.filter (· != id) } (q.leave id)

/-- Who has given up has done so for good. -/
theorem Turns.timedOut_subset {a a' : Admission} {q q' : Queuers} {k : Nat}
    (h : Turns a q k a' q') : q.timedOut ⊆ q'.timedOut := by
  cases h with
  | leaves => exact List.subset_append_left _ _
  | _ => exact List.Subset.refl _

theorem isFree_iff {a : Admission} :
    a.isFree = true ↔ a.active = false ∧ a.handedTo = none ∧ a.waiting = [] := by
  simp [isFree, and_assoc]

theorem queued_of_isFree {a : Admission} (h : a.isFree = true) : a.queued = [] := by
  obtain ⟨-, hhanded, hwaiting⟩ := isFree_iff.mp h
  rw [queued, hhanded, hwaiting]
  rfl

namespace Sound

variable {a a' : Admission} {n id : Nat} {q q' : Queuers}

/-- Every number is given to one writer only. -/
theorem nodup_ids (h : a.Sound n q) :
    ((q.admitted ++ a.queued.map Turn.waited).filterMap Turn.id?).Nodup := by
  rw [h.in_order]
  have hsub := (List.filter_sublist (p := q.remains) (l := q.arrivals)).filterMap Turn.id?
  rw [h.arrivals_id?] at hsub
  exact List.nodup_range.sublist hsub

/-- The numbers of the writers admitted are in increasing order. -/
theorem sorted_admitted (h : a.Sound n q) :
    (q.admitted.filterMap Turn.id?).Pairwise (· < ·) := by
  have hsub : (q.admitted.filterMap Turn.id?).Sublist (List.range a.next) := by
    rw [← h.arrivals_id?]
    refine List.Sublist.filterMap Turn.id? ?_
    have hfilter := List.filter_sublist (p := q.remains) (l := q.arrivals)
    rw [← h.in_order] at hfilter
    exact (List.sublist_append_left _ _).trans hfilter
  exact List.pairwise_lt_range.sublist hsub

theorem filterMap_waited (l : List Nat) : (l.map Turn.waited).filterMap Turn.id? = l := by
  rw [List.filterMap_map]
  exact List.filterMap_some

theorem nodup_queued (h : a.Sound n q) : a.queued.Nodup := by
  have hids := h.nodup_ids
  rw [List.filterMap_append, filterMap_waited] at hids
  exact (List.nodup_append.mp hids).2.1

/-- A writer that waits was not admitted yet. -/
theorem not_mem_admitted (h : a.Sound n q) (hid : id ∈ a.queued) : .waited id ∉ q.admitted := by
  intro hmem
  have hids := h.nodup_ids
  rw [List.filterMap_append, filterMap_waited] at hids
  have hdisjoint := (List.nodup_append.mp hids).2.2
  exact hdisjoint id (List.mem_filterMap.mpr ⟨.waited id, hmem, rfl⟩) id hid rfl

theorem lt_of_mem_queued (h : a.Sound n q) (hid : id ∈ a.queued) : id < a.next := by
  have hmem : .waited id ∈ q.arrivals.filter q.remains := by
    rw [← h.in_order]
    exact List.mem_append_right _ (List.mem_map_of_mem hid)
  rw [← List.mem_range, ← h.arrivals_id?]
  exact List.mem_filterMap.mpr ⟨.waited id, (List.mem_filter.mp hmem).1, rfl⟩

/-- A writer that gave up was not admitted, and does not wait any more. -/
theorem not_mem_of_timedOut (h : a.Sound n q) (hid : id ∈ q.timedOut) :
    .waited id ∉ q.admitted ∧ id ∉ a.queued := by
  have hremains : .waited id ∉ q.admitted ++ a.queued.map Turn.waited := by
    rw [h.in_order, List.mem_filter]
    simp [Queuers.remains, hid]
  simpa using hremains

/-! ### What every operation keeps -/

theorem initial : Sound {} 0 {} where
  holders_eq := rfl
  handedTo_eq h := by cases h
  busy h := absurd rfl h
  callers_eq := rfl
  arrivals_id? := rfl
  timedOut_lt id hid := by cases hid
  in_order := rfl

/-- A writer that arrives while access is free is admitted after all that were admitted before. -/
theorem admitAtOnce (h : a.Sound n q) (hfree : a.isFree = true) :
    Sound { a with active := true } (n + 1) (q.arrive none) := by
  obtain ⟨hactive, hhanded, hwaiting⟩ := isFree_iff.mp hfree
  have hn : n = 0 := by
    rw [h.holders_eq, hactive]
    rfl
  have hempty := queued_of_isFree hfree
  refine {
    holders_eq := ?_
    handedTo_eq := fun _ => hhanded
    busy := fun _ => .inl rfl
    callers_eq := h.callers_eq
    arrivals_id? := ?_
    timedOut_lt := h.timedOut_lt
    in_order := ?_ }
  · rw [hn]
    rfl
  · rw [Queuers.arrive, List.filterMap_append, h.arrivals_id?]
    exact List.append_nil _
  · have horder := h.in_order
    rw [hempty, List.map_nil, List.append_nil] at horder
    change (q.admitted ++ [.atOnce]) ++ a.queued.map Turn.waited =
      (q.arrivals ++ [Turn.atOnce]).filter q.remains
    rw [hempty, List.map_nil, List.append_nil, List.filter_append, horder]
    rfl

/-- A writer that cannot be admitted at once waits behind all the others. -/
theorem queue (h : a.Sound n q) (hbusy : a.isFree = false) :
    Sound { a with waiting := a.waiting ++ [a.next], next := a.next + 1 } n
      (q.arrive (some a.next)) := by
  have hnew : a.next ∉ q.timedOut := fun hmem => Nat.lt_irrefl _ (h.timedOut_lt _ hmem)
  refine {
    holders_eq := h.holders_eq
    handedTo_eq := h.handedTo_eq
    busy := fun _ => ?_
    callers_eq := ?_
    arrivals_id? := ?_
    timedOut_lt := fun id hid => Nat.lt_succ_of_lt (h.timedOut_lt id hid)
    in_order := ?_ }
  · change a.active = true ∨ a.handedTo.isSome = true
    by_cases hactive : a.active = true
    · exact .inl hactive
    · by_cases hwaiting : a.waiting = []
      · refine .inr (Option.isSome_iff_ne_none.mpr fun hhanded => ?_)
        have hfree := isFree_iff.mpr ⟨Bool.eq_false_iff.mpr hactive, hhanded, hwaiting⟩
        rw [hfree] at hbusy
        cases hbusy
      · exact h.busy hwaiting
  · rw [Queuers.arrive, h.callers_eq]
    exact List.append_assoc ..
  · rw [Queuers.arrive, List.filterMap_append, h.arrivals_id?, List.range_succ]
    rfl
  · change q.admitted ++ (a.handedTo.toList ++ (a.waiting ++ [a.next])).map Turn.waited =
      (q.arrivals ++ [Turn.waited a.next]).filter q.remains
    rw [List.filter_append, ← h.in_order, ← List.append_assoc, List.map_append,
      ← List.append_assoc]
    congr 1
    simp [Queuers.remains, hnew]

/-- The writer that was handed access takes its turn. -/
theorem take (h : a.Sound n q) (hhanded : a.handedTo = some id) :
    Sound { a with active := true, handedTo := none } (n + 1) (q.enter id) := by
  have hactive : a.active = false := by
    rw [← Bool.not_eq_true]
    intro hactive
    rw [h.handedTo_eq hactive] at hhanded
    cases hhanded
  have hqueued : a.queued = id :: a.waiting := by
    rw [queued, hhanded]
    rfl
  have hnodup := h.nodup_queued
  rw [hqueued] at hnodup
  have hid : id ∉ a.waiting := (List.nodup_cons.mp hnodup).1
  refine {
    holders_eq := ?_
    handedTo_eq := fun _ => rfl
    busy := fun _ => .inl rfl
    callers_eq := ?_
    arrivals_id? := h.arrivals_id?
    timedOut_lt := h.timedOut_lt
    in_order := ?_ }
  · rw [h.holders_eq, hactive]
    rfl
  · change q.callers.filter (· != id) = a.waiting
    rw [h.callers_eq, hqueued, List.filter_cons_of_neg (by simp), List.filter_eq_self]
    intro w hw
    simp only [bne_iff_ne, ne_eq]
    rintro rfl
    exact hid hw
  · change (q.admitted ++ [.waited id]) ++ a.waiting.map Turn.waited =
      q.arrivals.filter q.remains
    rw [← h.in_order, hqueued, List.append_assoc]
    rfl

/-- Taking a number out of those that wait is taking its turn out. -/
theorem filter_map_waited (id : Nat) (l : List Nat) :
    (l.map Turn.waited).filter (· != .waited id) = (l.filter (· != id)).map Turn.waited := by
  rw [List.filter_map]
  congr 2
  funext w
  simp [bne]

/-- A writer that was not handed access leaves the others in their order. -/
theorem leave (h : a.Sound n q) (hid : id ∈ q.callers) (hhanded : a.handedTo ≠ some id) :
    Sound { a with waiting := a.waiting.filter (· != id) } n (q.leave id) := by
  have hwaits : id ∈ a.queued := h.callers_eq ▸ hid
  have hkept : a.handedTo.toList.filter (· != id) = a.handedTo.toList := by
    rw [List.filter_eq_self]
    intro w hw
    simp only [bne_iff_ne, ne_eq]
    rintro rfl
    exact hhanded (Option.mem_toList.mp hw)
  have hqueued : a.queued.filter (· != id) =
      a.handedTo.toList ++ a.waiting.filter (· != id) := by
    rw [queued, List.filter_append, hkept]
  refine {
    holders_eq := h.holders_eq
    handedTo_eq := h.handedTo_eq
    busy := fun hne => h.busy ?_
    callers_eq := ?_
    arrivals_id? := h.arrivals_id?
    timedOut_lt := ?_
    in_order := ?_ }
  · intro hnil
    rw [hnil] at hne
    exact hne rfl
  · change q.callers.filter (· != id) = _
    rw [h.callers_eq, hqueued]
    rfl
  · intro w hw
    rcases List.mem_append.mp hw with hw | hw
    · exact h.timedOut_lt w hw
    · rw [List.mem_singleton.mp hw]
      exact h.lt_of_mem_queued hwaits
  · have hadmitted : q.admitted.filter (· != .waited id) = q.admitted := by
      rw [List.filter_eq_self]
      intro t ht
      simp only [bne_iff_ne, ne_eq]
      rintro rfl
      exact h.not_mem_admitted hwaits ht
    change q.admitted ++ (a.handedTo.toList ++ a.waiting.filter (· != id)).map Turn.waited =
      q.arrivals.filter (q.leave id).remains
    rw [Queuers.remains_leave, ← List.filter_filter, ← h.in_order, List.filter_append, hadmitted,
      filter_map_waited, hqueued]

/-- Whoever arrives, is admitted or gives up, the protocol is kept up. -/
theorem turn (h : a.Sound n q) {k : Nat} (hturn : Turns a q k a' q') : a'.Sound (n + k) q' := by
  cases hturn with
  | atOnce hfree => exact h.admitAtOnce hfree
  | waits hbusy => exact h.queue hbusy
  | takes hhanded => exact h.take hhanded
  | leaves hid hhanded => exact h.leave hid hhanded

/-- Once the writer that has access has ended, the one that has waited longest is next. -/
theorem release (h : a.Sound (n + 1) q) : Sound a.release n q := by
  have hactive : a.active = true := by
    have hn := h.holders_eq
    cases hc : a.active with
    | true => rfl
    | false =>
        rw [hc] at hn
        cases hn
  have hn : n = 0 := by
    have hn := h.holders_eq
    rw [hactive] at hn
    exact Nat.succ.inj hn
  have hhanded := h.handedTo_eq hactive
  have hsame : a.release.queued = a.queued := by
    rw [Admission.release, queued, queued, hhanded]
    cases a.waiting with
    | nil => rfl
    | cons id rest => rfl
  have hnext : a.release.next = a.next := by
    rw [Admission.release]
    split <;> rfl
  have hinactive : a.release.active = false := by
    rw [Admission.release]
    split <;> rfl
  constructor
  · rw [hn, hinactive]
    rfl
  · intro h
    rw [hinactive] at h
    cases h
  · intro hne
    rw [Admission.release] at hne ⊢
    split at hne
    · exact absurd ‹_› hne
    · exact .inr rfl
  · rw [hsame]
    exact h.callers_eq
  · rw [hnext]
    exact h.arrivals_id?
  · rw [hnext]
    exact h.timedOut_lt
  · rw [hsame]
    exact h.in_order

end Sound

end Admission

end DnsZone
