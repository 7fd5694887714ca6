import DnsZone.RecordSet

/-!
# What adding records to a set amounts to

Records are added one after another, each unless it is present. The outcome can be told at once: the
records of the set stay in front, those that are new follow in their order, each once, and the
smaller time to live is kept.
-/

namespace DnsZone

theorem Ttl.shorter_eq_min (a b : Ttl) : a.shorter b = ⟨min a.secs b.secs⟩ := by
  change _ = Ttl.mk (if a.secs ≤ b.secs then a.secs else b.secs)
  rw [shorter]
  split <;> rfl

theorem Ttl.shorter_eq_left_iff {a b : Ttl} : a.shorter b = a ↔ a.secs ≤ b.secs := by
  rw [shorter]
  split
  · simp [*]
  · rename_i h
    refine iff_of_false (fun heq => h ?_) h
    rw [heq]
    exact UInt32.le_refl _

namespace RecordSet

/-- The set with the new records of `other` behind its own and the smaller time to live. -/
def merge (s other : RecordSet) : RecordSet where
  key := s.key
  ttl := ⟨min s.ttl.secs other.ttl.secs⟩
  data := s.data ++ (other.data.filter fun d => !s.data.contains d).eraseDups

theorem foldl_push (l : List RecordData) (s : RecordSet) :
    l.foldl push s =
      { s with data := s.data ++ (l.filter fun d => !s.data.contains d).eraseDups } := by
  induction l generalizing s with
  | nil => simp
  | cons d l ih =>
      rw [List.foldl_cons, ih, push]
      by_cases hd : s.data.contains d = true
      · simp [hd]
      · have hnew : (!s.data.contains d) = true := by simpa using hd
        have htail : (l.filter fun b => !(s.data ++ [d]).contains b) =
            (l.filter fun b => !s.data.contains b).filter fun b => !b == d := by
          rw [List.filter_filter]
          congr 1
          funext b
          simp [Bool.and_comm]
        simp only [hd, Bool.false_eq_true, ↓reduceIte]
        rw [htail, List.filter_cons, if_pos hnew, List.eraseDups_cons, List.append_assoc,
          List.singleton_append]

/-- Adding to a set that holds records merges the two. -/
theorem union_eq_merge {s : RecordSet} (h : s.isEmpty = false) (other : RecordSet) :
    s.union other = s.merge other := by
  rw [union, h, foldl_push, limitTtl, Ttl.shorter_eq_min]
  rfl

@[simp] theorem isEmpty_single (ttl : Ttl) (d : RecordData) : (single ttl d).isEmpty = false := rfl

theorem isEmpty_merge {s : RecordSet} (h : s.isEmpty = false) (other : RecordSet) :
    (s.merge other).isEmpty = false := by
  simp only [isEmpty, merge, List.isEmpty_eq_false_iff] at h ⊢
  simp [h]

/-- There are records after some were added. -/
theorem isEmpty_union (s : RecordSet) {other : RecordSet} (h : other.isEmpty = false) :
    (s.union other).isEmpty = false := by
  cases hs : s.isEmpty with
  | false =>
      rw [union_eq_merge hs]
      exact isEmpty_merge hs other
  | true =>
      obtain ⟨d, l, hother⟩ := List.exists_cons_of_ne_nil (List.isEmpty_eq_false_iff.mp h)
      rw [union, foldl_push, hother]
      simp [isEmpty, List.isEmpty_iff.mp hs, List.eraseDups_cons]

/-- Merging leaves the set as it is exactly if it has all the records and the smaller time to
live. -/
theorem merge_same_iff {s other : RecordSet} :
    (s.merge other).data.length = s.data.length ∧ (s.merge other).ttl = s.ttl ↔
      (s.containsAll other && decide (s.ttl.secs ≤ other.ttl.secs)) = true := by
  have hnil (l : List RecordData) : l.eraseDups = [] ↔ l = [] := by
    cases l <;> simp [List.eraseDups_cons]
  rw [merge, ← Ttl.shorter_eq_min, Ttl.shorter_eq_left_iff, Bool.and_eq_true, decide_eq_true_iff]
  simp [containsAll, hnil, List.filter_eq_nil_iff]

/-! ### Taking records out -/

/-- A set is divided into the records that are taken out and those that are left. -/
theorem partition_contains (s other : RecordSet) : s.data.partition other.data.contains =
    (s.data.filter other.data.contains, (s.difference other).data) :=
  List.partition_eq_filter_filter ..

/-- A set from which as many records are left has lost none. -/
theorem difference_eq_self {s other : RecordSet} (h : (s.difference other).size = s.size) :
    s.difference other = s := by
  have hkeep : (s.data.filter fun d => !other.data.contains d) = s.data := by
    simpa [size, difference, List.length_filter_eq_length_iff] using h
  rw [difference, hkeep]

/-- As many records are left as there were exactly if none is taken out. -/
theorem size_difference_eq_iff {s other : RecordSet} :
    (s.difference other).size = s.size ↔ s.data.filter other.data.contains = [] := by
  simp [size, difference, List.length_filter_eq_length_iff, List.filter_eq_nil_iff]

end RecordSet

end DnsZone
