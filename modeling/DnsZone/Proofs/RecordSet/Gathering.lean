import DnsZone.Proofs.RecordSet.Distinct
import DnsZone.Record

/-!
# Gathering records in a set

Records that are added to a set one after another are gathered in it: it comes to hold the records
that it had and all that were added, each once, and its time to live is the least of all that it
had or was given on the way. So it hardly matters in which order the records come. Only the order in
which they are held depends on it, and which spelling of equal records is kept.
-/

namespace DnsZone.RecordSet

theorem contains_single (ttl : Ttl) (d d' : RecordData) :
    (single ttl d).data.contains d' = (d' == d) := by
  simp [single]

/-- A record that is added comes last, unless it is present. -/
theorem data_merge_single (s : RecordSet) (ttl : Ttl) (d : RecordData) :
    (s.merge (single ttl d)).data = s.data ++ if s.data.contains d then [] else [d] := by
  rw [merge, single, List.filter_singleton]
  cases s.data.contains d <;> simp [List.eraseDups_cons]

/-- Nothing was merged in if the set has as many records as before and the same time to live. -/
theorem merge_eq_self {s other : RecordSet}
    (h : (s.merge other).data.length = s.data.length ∧ (s.merge other).ttl = s.ttl) :
    s.merge other = s := by
  have hdata : (other.data.filter fun d => !s.data.contains d).eraseDups = [] := by
    have hlength := h.1
    rw [merge, List.length_append] at hlength
    exact List.eq_nil_of_length_eq_zero (by omega)
  obtain ⟨key, ttl, data⟩ := s
  have httl := h.2
  simp only [merge] at httl hdata ⊢
  rw [httl, hdata, List.append_nil]

theorem contains_merge_single (s : RecordSet) (ttl : Ttl) (d d' : RecordData) :
    (s.merge (single ttl d)).data.contains d' = (s.data.contains d' || d' == d) := by
  rw [contains_merge, contains_single]

/-- The record set that comes of adding a record where `old?` is. -/
def adding (old? : Option RecordSet) (ttl : Ttl) (d : RecordData) : RecordSet :=
  match old? with
  | none => single ttl d
  | some old => old.merge (single ttl d)

/-- The record set that comes of adding records where `old?` is, one after another. -/
def gather (old? : Option RecordSet) (records : List Record) : Option RecordSet :=
  records.foldl (fun s? r => some (adding s? r.ttl r.data)) old?

theorem contains_adding (old? : Option RecordSet) (ttl : Ttl) (d d' : RecordData) :
    (adding old? ttl d).data.contains d' =
      ((old?.any fun old => old.data.contains d') || d' == d) := by
  cases old? with
  | none => exact contains_single ttl d d'
  | some old => exact old.contains_merge_single ttl d d'

theorem distinct_adding {old? : Option RecordSet} (h : ∀ old ∈ old?, old.Distinct) (ttl : Ttl)
    (d : RecordData) : (adding old? ttl d).Distinct := by
  cases old? with
  | none => exact distinct_single ttl d
  | some old =>
      rw [adding, Distinct, data_merge_single, List.pairwise_append]
      refine ⟨h old rfl, ?_, fun d' hd' d'' hd'' => ?_⟩
      · split <;> simp
      · split at hd''
        · cases hd''
        · rename_i hnew
          rw [List.mem_singleton.mp hd'', ← Bool.not_eq_true]
          exact fun hbeq =>
            hnew (List.contains_iff_exists_mem_beq.mpr ⟨d', hd', BEq.symm hbeq⟩)

/-- The set `s?` is what `old?` becomes when the records are added, in whatever order. -/
structure Gathers (old? : Option RecordSet) (records : List Record) (s? : Option RecordSet) :
    Prop where
  /-- Where no records are added, nothing changes. -/
  unchanged : records = [] → s? = old?
  contains : ∀ d, (s?.any fun s => s.data.contains d) =
    ((old?.any fun old => old.data.contains d) || records.any fun r => d == r.data)
  distinct : ∀ s ∈ s?, s.Distinct
  /-- The least time to live counts, be it that of a record that was present. -/
  ttl : s?.map (·.ttl.secs) =
    (old?.toList.map (·.ttl.secs) ++ records.map (·.ttl.secs)).min?

theorem gathers_gather {old? : Option RecordSet} (h : ∀ old ∈ old?, old.Distinct)
    (records : List Record) : Gathers old? records (gather old? records) := by
  induction records generalizing old? with
  | nil =>
      refine ⟨fun _ => rfl, fun d => (Bool.or_false _).symm, h, ?_⟩
      cases old? <;> rfl
  | cons r rest ih =>
      have hadding : ∀ s ∈ some (adding old? r.ttl r.data), s.Distinct := by
        rintro s ⟨⟩
        exact distinct_adding h r.ttl r.data
      obtain ⟨-, hcontains, hdistinct, httl⟩ := ih hadding
      refine ⟨nofun, fun d => ?_, hdistinct, httl.trans ?_⟩
      · rw [List.any_cons, ← Bool.or_assoc, ← contains_adding]
        exact hcontains d
      · cases old? <;> rfl

theorem min?_eq_of_perm {l l' : List UInt32} (h : l.Perm l') : l.min? = l'.min? := by
  cases hl : l.min? with
  | none =>
      rw [List.min?_eq_none_iff] at hl
      rw [hl, List.nil_perm] at h
      rw [h]
      rfl
  | some least =>
      obtain ⟨hmem, hle⟩ := List.min?_eq_some_iff.mp hl
      exact (List.min?_eq_some_iff.mpr
        ⟨h.mem_iff.mp hmem, fun a ha => hle a (h.mem_iff.mpr ha)⟩).symm

/-- The order in which records come makes no difference but for that in which they are held. -/
theorem Gathers.rel_of_perm {old? s? s?' : Option RecordSet} {records records' : List Record}
    (h : Gathers old? records s?) (h' : Gathers old? records' s?')
    (hperm : records.Perm records') {key : SetKey} (hkey : ∀ s ∈ s?, s.key = key)
    (hkey' : ∀ s ∈ s?', s.key = key) : Option.Rel Matches s? s?' := by
  have httl : s?.map (·.ttl.secs) = s?'.map (·.ttl.secs) := by
    rw [h.ttl, h'.ttl]
    exact min?_eq_of_perm ((hperm.map _).append_left _)
  have hcontains (d : RecordData) : (s?.any fun s => s.data.contains d) =
      s?'.any fun s => s.data.contains d := by
    rw [h.contains, h'.contains, hperm.any_eq]
  cases s? with
  | none =>
      cases s?' with
      | none => exact .none
      | some s' => cases httl
  | some s =>
      cases s?' with
      | none => cases httl
      | some s' =>
          exact .some (matches_of_contains_eq ((hkey s rfl).trans (hkey' s' rfl).symm)
            (congrArg Ttl.mk (Option.some.inj httl)) (h.distinct s rfl) (h'.distinct s' rfl)
            hcontains)

end DnsZone.RecordSet
