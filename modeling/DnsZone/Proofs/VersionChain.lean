import DnsZone.Proofs.Readers
import DnsZone.VersionChain

/-!
# What pruning keeps

Pruning takes versions away from the old end of a chain only. It never touches the head, nor any
version numbered at least as high as the lowest reader.
-/

namespace DnsZone.VersionChain

variable {policy : Retention} {bound : VersionId} {l : List Version}

theorem dropOldest_suffix (policy : Retention) (bound : VersionId) (l : List Version) :
    dropOldest policy bound l <:+ l := by
  induction l with
  | nil => exact List.suffix_refl []
  | cons v rest ih =>
      unfold dropOldest
      split
      · exact List.suffix_refl _
      · exact ih.trans (List.suffix_cons v rest)

/-- Going through the versions stops at the bound at the latest. -/
theorem mem_dropOldest {v : Version} (hv : v ∈ l) (hbound : bound.val ≤ v.id.val) :
    v ∈ dropOldest policy bound l := by
  induction l with
  | nil => cases hv
  | cons w rest ih =>
      unfold dropOldest
      split
      · exact hv
      · rename_i hdrops
        rcases List.mem_cons.mp hv with rfl | hv
        · simp [hbound] at hdrops
        · exact ih hv

/-- The policy that keeps the latest version only drops everything below the bound. -/
theorem dropOldest_latest (h : ∀ v ∈ l, v.id.val < bound.val) :
    dropOldest .latest bound l = [] := by
  induction l with
  | nil => rfl
  | cons v rest ih =>
      have hv : ¬ bound.val ≤ v.id.val := Nat.not_le.mpr (h v List.mem_cons_self)
      rw [dropOldest, if_neg (by simp [hv, Retention.drops])]
      exact ih fun w hw => h w (List.mem_cons_of_mem v hw)

/-- The policy that keeps all versions drops none. -/
theorem dropOldest_all (bound : VersionId) (l : List Version) : dropOldest .all bound l = l := by
  cases l with
  | nil => rfl
  | cons v rest => rw [dropOldest, if_pos (by simp [Retention.drops])]

theorem prune_all (c : VersionChain) (readers : Readers) : c.prune .all readers = c := by
  rw [prune, dropOldest_all]

theorem toList_prune_suffix (c : VersionChain) (policy : Retention) (readers : Readers) :
    (c.prune policy readers).toList <:+ c.toList := by
  obtain ⟨dropped, hdropped⟩ := dropOldest_suffix policy (c.leastKept readers) c.older
  refine ⟨dropped, ?_⟩
  rw [toList, toList, ← hdropped, List.append_assoc]
  rfl

/-- A version that is read is not dropped. -/
theorem mem_prune {c : VersionChain} {policy : Retention} {readers : Readers} {v : Version}
    (hv : v ∈ c.toList) (hread : 0 < readers.count v.id) :
    v ∈ (c.prune policy readers).toList := by
  rcases List.mem_append.mp hv with hv | hv
  · refine List.mem_append_left _ (mem_dropOldest hv ?_)
    obtain ⟨low, hlow, hle⟩ := Readers.lowest?_le hread
    rw [leastKept, hlow]
    simp only
    split
    · exact hle
    · rename_i hhead
      exact Nat.le_trans (Nat.le_of_not_le hhead) hle
  · exact List.mem_append_right _ hv

theorem mem_of_byId? {c : VersionChain} {id : VersionId} {v : Version}
    (h : c.byId? id = some v) : v ∈ c.toList ∧ v.id = id := by
  rw [byId?] at h
  exact ⟨List.mem_of_find?_eq_some h, by simpa using List.find?_some h⟩

theorem mem_of_bySerial? {c : VersionChain} {apex : Name} {serial : Serial} {v : Version}
    (h : c.bySerial? apex serial = some v) : v ∈ c.toList :=
  List.mem_reverse.mp (List.mem_of_find?_eq_some h)

/-- A version that shares its number with no other is found by it. -/
theorem byId?_of_mem {c : VersionChain} {v : Version} (hv : v ∈ c.toList)
    (hunique : ∀ w ∈ c.toList, w.id = v.id → w = v) : c.byId? v.id = some v := by
  cases hfind : c.byId? v.id with
  | none => exact absurd (decide_eq_true rfl) (List.find?_eq_none.mp hfind v hv)
  | some w =>
      obtain ⟨hw, hid⟩ := mem_of_byId? hfind
      rw [hunique w hw hid]

/-- Without readers, everything but the head may be dropped. -/
theorem leastKept_of_not_read (c : VersionChain) {readers : Readers} (h : readers.toList = []) :
    c.leastKept readers = c.head.id := by
  rw [leastKept, Readers.lowest?, h]
  rfl

/-- Keeping the latest version only, a chain that nobody reads is left with its head. -/
theorem older_prune_latest {c : VersionChain} {readers : Readers} (h : readers.toList = [])
    (holder : ∀ v ∈ c.older, v.id.val < c.head.id.val) : (c.prune .latest readers).older = [] := by
  rw [prune, leastKept_of_not_read c h]
  exact dropOldest_latest holder

/-! ### The oldest version -/

/-- The oldest version that is kept. -/
def oldest (c : VersionChain) : Version := c.older.headD c.head

theorem oldest_mem (c : VersionChain) : c.oldest ∈ c.toList := by
  rw [oldest, toList]
  cases c.older with
  | nil => exact List.mem_singleton_self _
  | cons v rest => exact List.mem_cons_self

theorem dropOldest_eq_self_iff {v : Version} {rest : List Version} :
    dropOldest policy bound (v :: rest) = v :: rest ↔
      bound.val ≤ v.id.val ∨ policy.drops v (rest.length + 2) = false := by
  rw [dropOldest]
  split
  next h => simpa using h
  next h =>
    have hlength := (dropOldest_suffix policy bound rest).length_le
    refine iff_of_false (fun hself => ?_) (by simpa using h)
    rw [hself] at hlength
    exact absurd hlength (Nat.not_succ_le_self _)

/-- What is dropped up to a bound may as well be dropped in two goes, up to a lower bound first. How
many versions there are when the policy is asked about one depends only on those after it. -/
theorem dropOldest_dropOldest (policy : Retention) {bound bound' : VersionId}
    (hle : bound.val ≤ bound'.val) (l : List Version) :
    dropOldest policy bound' (dropOldest policy bound l) = dropOldest policy bound' l := by
  induction l with
  | nil => rfl
  | cons v rest ih =>
      by_cases h : dropOldest policy bound (v :: rest) = v :: rest
      · rw [h]
      · rw [dropOldest_eq_self_iff, not_or] at h
        have hbound' : ¬ bound'.val ≤ v.id.val := fun hle' => h.1 (Nat.le_trans hle hle')
        rw [dropOldest, if_neg (by simpa using h), ih, dropOldest,
          if_neg (by simpa [hbound'] using h.2)]

theorem dropOldest_eq_self_of_le {bound' : VersionId} (hle : bound'.val ≤ bound.val)
    (h : dropOldest policy bound l = l) : dropOldest policy bound' l = l := by
  cases l with
  | nil => rfl
  | cons v rest =>
      rw [dropOldest_eq_self_iff] at h ⊢
      exact h.imp_left (Nat.le_trans hle)

theorem prune_eq_self_iff {c : VersionChain} {readers : Readers} :
    c.prune policy readers = c ↔ dropOldest policy (c.leastKept readers) c.older = c.older := by
  constructor
  · exact congrArg older
  · intro h
    rw [prune, h]

/-- Old versions may as well be dropped in two goes, with less to be kept the second time. -/
theorem prune_prune_of_le {c : VersionChain} {readers readers' : Readers}
    (h : (c.leastKept readers).val ≤ (c.leastKept readers').val) (policy : Retention) :
    (c.prune policy readers).prune policy readers' = c.prune policy readers' :=
  congrArg (VersionChain.mk · c.head) (dropOldest_dropOldest policy h c.older)

/-- What is left is not asked about again. -/
theorem prune_prune (c : VersionChain) (policy : Retention) (readers : Readers) :
    (c.prune policy readers).prune policy readers = c.prune policy readers :=
  prune_prune_of_le (Nat.le_refl _) policy

/-! ### The lowest number that has to be kept -/

/-- What has to be kept is bounded by the head and by every reader, and by nothing else. -/
theorem le_leastKept_iff {c : VersionChain} {readers : Readers} {n : Nat} :
    n ≤ (c.leastKept readers).val ↔
      n ≤ c.head.id.val ∧ ∀ low, readers.lowest? = some low → n ≤ low.val := by
  rw [leastKept]
  cases readers.lowest? with
  | none => simp
  | some low =>
      simp only [Option.some.injEq, forall_eq']
      split <;> omega

theorem leastKept_le_head (c : VersionChain) (readers : Readers) :
    (c.leastKept readers).val ≤ c.head.id.val := (le_leastKept_iff.mp (Nat.le_refl _)).1

theorem leastKept_le_lowest (c : VersionChain) {readers : Readers} {low : VersionId}
    (h : readers.lowest? = some low) : (c.leastKept readers).val ≤ low.val :=
  (le_leastKept_iff.mp (Nat.le_refl _)).2 low h

/-- The more versions are read, the more has to be kept. -/
theorem leastKept_le_of_count (c : VersionChain) {readers readers' : Readers}
    (h : readers.Positive) (hcount : ∀ id, 0 < readers.count id → 0 < readers'.count id) :
    (c.leastKept readers').val ≤ (c.leastKept readers).val := by
  refine le_leastKept_iff.mpr ⟨c.leastKept_le_head _, fun low hlow => ?_⟩
  obtain ⟨low', hlow', hle⟩ :=
    Readers.lowest?_le (hcount low (Readers.count_pos_of_lowest? h hlow))
  exact Nat.le_trans (c.leastKept_le_lowest hlow') hle

/-- A reader that is started leaves at least as much to be kept as before. -/
theorem leastKept_register_le (c : VersionChain) {readers : Readers} (h : readers.Positive)
    (id : VersionId) : (c.leastKept (readers.register id)).val ≤ (c.leastKept readers).val := by
  refine c.leastKept_le_of_count h fun id' hid' => ?_
  rw [Readers.count_register]
  exact Nat.add_pos_left hid' _

/-- A reader that ends leaves at most as much to be kept as before. -/
theorem leastKept_le_unregister (c : VersionChain) {readers : Readers} (h : readers.Positive)
    (id : VersionId) : (c.leastKept readers).val ≤ (c.leastKept (readers.unregister id)).val := by
  refine c.leastKept_le_of_count (Readers.positive_unregister h id) fun id' hid' => ?_
  rw [Readers.count_unregister] at hid'
  exact Nat.lt_of_lt_of_le hid' (Nat.sub_le _ _)

/-! ### What the policy is asked -/

/-- Takes versions away from the front of all versions, stopping at the first one that is numbered
`bound` or higher or that the policy keeps. -/
def dropFront (policy : Retention) (bound : VersionId) : List Version → List Version
  | [] => []
  | v :: rest =>
      if bound.val ≤ v.id.val || !policy.drops v (rest.length + 1) then v :: rest
      else dropFront policy bound rest

/-- What the policy is asked on the way: about which version, and how many there are then. -/
def askedFront (policy : Retention) (bound : VersionId) : List Version → List (Version × Nat)
  | [] => []
  | v :: rest =>
      if bound.val ≤ v.id.val then []
      else
        (v, rest.length + 1) ::
          if policy.drops v (rest.length + 1) then askedFront policy bound rest else []

/-- What the policy is asked when old versions are dropped. -/
def asked (c : VersionChain) (policy : Retention) (readers : Readers) : List (Version × Nat) :=
  askedFront policy (c.leastKept readers) c.toList

theorem dropFront_concat {head : Version} (h : bound.val ≤ head.id.val) (l : List Version) :
    dropFront policy bound (l ++ [head]) = dropOldest policy bound l ++ [head] := by
  induction l with
  | nil => simp [dropFront, dropOldest, h]
  | cons v rest ih =>
      rw [List.cons_append, dropFront, dropOldest, List.length_append, List.length_singleton, ih]
      split <;> rfl

/-- Pruning may as well go through all versions: it stops at the latest one if not before. -/
theorem toList_prune (c : VersionChain) (policy : Retention) (readers : Readers) :
    (c.prune policy readers).toList = dropFront policy (c.leastKept readers) c.toList :=
  (dropFront_concat (c.leastKept_le_head readers) c.older).symm

theorem lt_of_mem_askedFront {q : Version × Nat} (h : q ∈ askedFront policy bound l) :
    q.1.id.val < bound.val := by
  induction l with
  | nil => cases h
  | cons v rest ih =>
      rw [askedFront] at h
      split at h
      · cases h
      · rename_i hbound
        rcases List.mem_cons.mp h with rfl | h
        · exact Nat.not_le.mp hbound
        · split at h
          · exact ih h
          · cases h

theorem dropFront_congr {policy' : Retention}
    (h : ∀ q ∈ askedFront policy bound l, policy'.drops q.1 q.2 = policy.drops q.1 q.2) :
    dropFront policy' bound l = dropFront policy bound l := by
  induction l with
  | nil => rfl
  | cons v rest ih =>
      rw [askedFront] at h
      rw [dropFront, dropFront]
      by_cases hbound : bound.val ≤ v.id.val
      · simp [hbound]
      · rw [if_neg hbound, List.forall_mem_cons] at h
        rw [h.1]
        cases hdrops : policy.drops v (rest.length + 1) with
        | false => simp
        | true =>
            rw [hdrops, if_pos rfl] at h
            rw [ih h.2]

theorem toList_inj {c c' : VersionChain} (h : c.toList = c'.toList) : c = c' := by
  obtain ⟨older, head⟩ := c
  obtain ⟨older', head'⟩ := c'
  obtain ⟨rfl, hhead⟩ := List.append_inj' (show older ++ [head] = older' ++ [head'] from h) rfl
  cases hhead
  rfl

/-- The answers to what is asked are all that matters of a policy. -/
theorem prune_congr {c : VersionChain} {readers : Readers} {policy' : Retention}
    (h : ∀ q ∈ c.asked policy readers, policy'.drops q.1 q.2 = policy.drops q.1 q.2) :
    c.prune policy' readers = c.prune policy readers := by
  refine toList_inj ?_
  rw [toList_prune, toList_prune]
  exact dropFront_congr h

/-- The policy is asked only about versions below the head and below every reader. -/
theorem lt_of_mem_asked {c : VersionChain} {readers : Readers} {q : Version × Nat}
    (h : q ∈ c.asked policy readers) :
    q.1.id.val < c.head.id.val ∧ ∀ id, 0 < readers.count id → q.1.id.val < id.val := by
  obtain ⟨hhead, hlow⟩ := le_leastKept_iff.mp (Nat.succ_le_of_lt (lt_of_mem_askedFront h))
  refine ⟨hhead, fun id hid => ?_⟩
  obtain ⟨low, hlowest, hle⟩ := Readers.lowest?_le hid
  exact Nat.lt_of_lt_of_le (hlow low hlowest) hle

end DnsZone.VersionChain
