import DnsZone.Order

/-!
# Finite maps in key order

`OrderedMap κ cmp α` is a finite map whose entries are listed in strictly increasing order of their
keys under `cmp`. Two keys that compare equal are one key of the map even where they are different
values, as two spellings of a name are; the map keeps the spelling it was first given, also when
the value under it is replaced, until the entry is removed.
-/

namespace DnsZone

universe u v w

/-- A finite map from `κ` to `α`, listed in increasing order of the keys. -/
structure OrderedMap (κ : Type u) (cmp : κ → κ → Ordering) (α : Type v) where
  toList : List (κ × α)
  sorted : toList.Pairwise fun a b => cmp a.1 b.1 = .lt

namespace OrderedMap

variable {κ : Type u} {cmp : κ → κ → Ordering} {α : Type v} {β : Type w}

/-- The value under the first key that compares equal to `k`. -/
def lookup (cmp : κ → κ → Ordering) (k : κ) (l : List (κ × α)) : Option α :=
  (l.find? fun e => cmp k e.1 == .eq).map (·.2)

/-- The entries with `v` under `k`: a new entry in its place in the order, or a new value under the
key already there. -/
def insertEntry (cmp : κ → κ → Ordering) (k : κ) (v : α) : List (κ × α) → List (κ × α)
  | [] => [(k, v)]
  | e :: rest =>
      match cmp k e.1 with
      | .lt => (k, v) :: e :: rest
      | .eq => (e.1, v) :: rest
      | .gt => e :: insertEntry cmp k v rest

/-- An entry after an insertion is an old one or holds the new value under a key equal to `k`. -/
theorem mem_insertEntry {k : κ} {v : α} {l : List (κ × α)} {e : κ × α}
    (h : e ∈ insertEntry cmp k v l) :
    e ∈ l ∨ e = (k, v) ∨ ∃ d ∈ l, cmp k d.1 = .eq ∧ e = (d.1, v) := by
  induction l with
  | nil => exact .inr (.inl (by simpa [insertEntry] using h))
  | cons d rest ih =>
      unfold insertEntry at h
      split at h
      · rcases List.mem_cons.mp h with h | h
        · exact .inr (.inl h)
        · exact .inl h
      · rename_i heq
        rcases List.mem_cons.mp h with h | h
        · exact .inr (.inr ⟨d, by simp, heq, h⟩)
        · exact .inl (List.mem_cons_of_mem _ h)
      · rcases List.mem_cons.mp h with h | h
        · exact .inl (h ▸ List.mem_cons_self)
        · rcases ih h with h | h | ⟨d', hd', hk⟩
          · exact .inl (List.mem_cons_of_mem _ h)
          · exact .inr (.inl h)
          · exact .inr (.inr ⟨d', List.mem_cons_of_mem _ hd', hk⟩)

theorem sorted_insertEntry [Std.TransCmp cmp] (k : κ) (v : α) {l : List (κ × α)}
    (h : l.Pairwise fun a b => cmp a.1 b.1 = .lt) :
    (insertEntry cmp k v l).Pairwise fun a b => cmp a.1 b.1 = .lt := by
  induction l with
  | nil => simp [insertEntry]
  | cons d rest ih =>
      obtain ⟨hd, hrest⟩ := List.pairwise_cons.mp h
      unfold insertEntry
      split
      · rename_i hlt
        refine List.pairwise_cons.mpr ⟨fun e he => ?_, h⟩
        rcases List.mem_cons.mp he with rfl | he
        · exact hlt
        · exact Std.TransCmp.lt_trans hlt (hd e he)
      · exact List.pairwise_cons.mpr ⟨fun e he => hd e he, hrest⟩
      · rename_i hgt
        refine List.pairwise_cons.mpr ⟨fun e he => ?_, ih hrest⟩
        have hdk : cmp d.1 k = .lt := Std.OrientedCmp.lt_of_gt hgt
        rcases mem_insertEntry he with he | rfl | ⟨d', hd', hk, rfl⟩
        · exact hd e he
        · exact hdk
        · exact hd d' hd'

def empty : OrderedMap κ cmp α := ⟨[], .nil⟩

instance : Inhabited (OrderedMap κ cmp α) := ⟨empty⟩

def find? (m : OrderedMap κ cmp α) (k : κ) : Option α := lookup cmp k m.toList

def contains (m : OrderedMap κ cmp α) (k : κ) : Bool := (m.find? k).isSome

def isEmpty (m : OrderedMap κ cmp α) : Bool := m.toList.isEmpty

def size (m : OrderedMap κ cmp α) : Nat := m.toList.length

def keys (m : OrderedMap κ cmp α) : List κ := m.toList.map (·.1)

/-- The map with `v` under `k`; a key already there keeps its spelling. -/
def insert [Std.TransCmp cmp] (m : OrderedMap κ cmp α) (k : κ) (v : α) : OrderedMap κ cmp α :=
  ⟨insertEntry cmp k v m.toList, sorted_insertEntry k v m.sorted⟩

def erase (m : OrderedMap κ cmp α) (k : κ) : OrderedMap κ cmp α :=
  ⟨m.toList.filter fun e => cmp k e.1 != .eq, m.sorted.filter _⟩

def mapValues (f : α → β) (m : OrderedMap κ cmp α) : OrderedMap κ cmp β :=
  ⟨m.toList.map fun e => (e.1, f e.2), List.pairwise_map.mpr m.sorted⟩

def filter (p : κ → α → Bool) (m : OrderedMap κ cmp α) : OrderedMap κ cmp α :=
  ⟨m.toList.filter fun e => p e.1 e.2, m.sorted.filter _⟩

@[simp] theorem toList_empty : (empty : OrderedMap κ cmp α).toList = [] := rfl

@[simp] theorem toList_insert [Std.TransCmp cmp] (m : OrderedMap κ cmp α) (k : κ) (v : α) :
    (m.insert k v).toList = insertEntry cmp k v m.toList := rfl

@[simp] theorem toList_erase (m : OrderedMap κ cmp α) (k : κ) :
    (m.erase k).toList = m.toList.filter fun e => cmp k e.1 != .eq := rfl

@[simp] theorem toList_mapValues (f : α → β) (m : OrderedMap κ cmp α) :
    (m.mapValues f).toList = m.toList.map fun e => (e.1, f e.2) := rfl

/-- A value of the map after an insertion is the new one or was there before. -/
theorem value_of_mem_insert [Std.TransCmp cmp] {m : OrderedMap κ cmp α} {k : κ} {v : α}
    {e : κ × α} (h : e ∈ (m.insert k v).toList) : e.2 = v ∨ e ∈ m.toList := by
  rcases mem_insertEntry h with h | rfl | ⟨_, _, _, rfl⟩
  · exact .inr h
  · exact .inl rfl
  · exact .inl rfl

theorem mem_of_mem_erase {m : OrderedMap κ cmp α} {k : κ} {e : κ × α}
    (h : e ∈ (m.erase k).toList) : e ∈ m.toList := (List.mem_filter.mp h).1

/-- What is found under a key is the value of an entry. -/
theorem mem_of_find?_eq_some {m : OrderedMap κ cmp α} {k : κ} {v : α} (h : m.find? k = some v) :
    ∃ e ∈ m.toList, cmp k e.1 = .eq ∧ e.2 = v := by
  obtain ⟨e, he, rfl⟩ := Option.map_eq_some_iff.mp h
  exact ⟨e, List.mem_of_find?_eq_some he, by simpa using List.find?_some he, rfl⟩

end OrderedMap

end DnsZone
