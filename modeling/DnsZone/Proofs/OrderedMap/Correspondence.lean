import DnsZone.Proofs.OrderedMap

/-!
# Maps that correspond entry by entry

Keys of one map may stand for keys of another map, and values for values. As long as comparing keys
gives the same on both sides, every operation that is carried out with corresponding keys and values
on maps whose entries correspond one by one gives maps of which that is true again. The maps need
have neither the same keys nor the same comparison function.
-/

namespace DnsZone

universe u v w x

section

variable {α : Type u} {β : Type v} {γ : Type w} {δ : Type x} {R : α → β → Prop} {S : γ → δ → Prop}
  {a? : Option α} {b? : Option β}

theorem rel_optionMap (h : Option.Rel R a? b?) {f : α → γ} {g : β → δ}
    (hfg : ∀ a b, R a b → S (f a) (g b)) : Option.Rel S (a?.map f) (b?.map g) := by
  cases h with
  | some h => exact .some (hfg _ _ h)
  | none => exact .none

theorem rel_optionBind (h : Option.Rel R a? b?) {f : α → Option γ} {g : β → Option δ}
    (hfg : ∀ a b, R a b → Option.Rel S (f a) (g b)) : Option.Rel S (a?.bind f) (b?.bind g) := by
  cases h with
  | some h => exact hfg _ _ h
  | none => exact .none

theorem rel_or {a'? : Option α} {b'? : Option β} (h : Option.Rel R a? b?)
    (h' : Option.Rel R a'? b'?) : Option.Rel R (a?.or a'?) (b?.or b'?) := by
  cases h with
  | some h => exact .some h
  | none => exact h'

theorem isSome_eq_of_rel (h : Option.Rel R a? b?) : a?.isSome = b?.isSome := by
  cases h <;> rfl

theorem isNone_eq_of_rel (h : Option.Rel R a? b?) : a?.isNone = b?.isNone := by
  cases h <;> rfl

/-- What is computed from corresponding values is equal if it does not depend on what differs. -/
theorem map_eq_of_rel (h : Option.Rel R a? b?) {f : α → γ} {g : β → γ}
    (hfg : ∀ a b, R a b → f a = g b) : a?.map f = b?.map g := by
  cases h with
  | some h => exact congrArg some (hfg _ _ h)
  | none => rfl

theorem isEmpty_eq_of_forall₂ {l : List α} {l' : List β} (h : List.Forall₂ R l l') :
    l.isEmpty = l'.isEmpty := by
  cases h <;> rfl

theorem rel_head? {l : List α} {l' : List β} (h : List.Forall₂ R l l') :
    Option.Rel R l.head? l'.head? := by
  cases h with
  | nil => exact .none
  | cons h _ => exact .some h

theorem rel_getElem? {l : List α} {l' : List β} (h : List.Forall₂ R l l') (i : Nat) :
    Option.Rel R l[i]? l'[i]? := by
  induction h generalizing i with
  | nil => exact .none
  | cons h _ ih =>
      cases i with
      | zero => exact .some h
      | succ i => exact ih i

theorem forall₂_set {l : List α} {l' : List β} (h : List.Forall₂ R l l') (i : Nat) {a : α} {b : β}
    (hab : R a b) : List.Forall₂ R (l.set i a) (l'.set i b) := by
  induction h generalizing i with
  | nil => exact .nil
  | cons hhead htail ih =>
      cases i with
      | zero => exact .cons hab htail
      | succ i => exact .cons hhead (ih i)

theorem rel_find? {l : List α} {l' : List β} (h : List.Forall₂ R l l') {p : α → Bool} {q : β → Bool}
    (hpq : ∀ a b, R a b → p a = q b) : Option.Rel R (l.find? p) (l'.find? q) := by
  induction h with
  | nil => exact .none
  | cons h _ ih =>
      rw [List.find?_cons, List.find?_cons, hpq _ _ h]
      split
      · exact .some h
      · exact ih

end

namespace OrderedMap

variable {κ κ' : Type u} {α α' : Type v} {β β' : Type w} {cmp : κ → κ → Ordering}
  {cmp' : κ' → κ' → Ordering} {K : κ → κ' → Prop} {V : α → α' → Prop} {W : β → β' → Prop}

/-- Comparing keys gives the same as comparing the keys that they stand for. -/
def KeepsOrder (cmp : κ → κ → Ordering) (cmp' : κ' → κ' → Ordering) (K : κ → κ' → Prop) : Prop :=
  ∀ a a' b b', K a a' → K b b' → cmp a b = cmp' a' b'

/-- Two entries whose keys and values correspond. -/
structure EntryRel (K : κ → κ' → Prop) (V : α → α' → Prop) (e : κ × α) (e' : κ' × α') : Prop where
  key : K e.1 e'.1
  value : V e.2 e'.2

/-- Two maps whose entries correspond one by one. -/
def Rel (K : κ → κ' → Prop) (V : α → α' → Prop) (m : OrderedMap κ cmp α)
    (m' : OrderedMap κ' cmp' α') : Prop :=
  List.Forall₂ (EntryRel K V) m.toList m'.toList

/-! ### Lists of entries -/

theorem rel_lookup (hK : KeepsOrder cmp cmp' K) {k : κ} {k' : κ'} (hk : K k k') {l : List (κ × α)}
    {l' : List (κ' × α')} (h : List.Forall₂ (EntryRel K V) l l') :
    Option.Rel V (lookup cmp k l) (lookup cmp' k' l') := by
  induction h with
  | nil => exact .none
  | cons he _ ih =>
      rw [lookup_cons, lookup_cons, hK _ _ _ _ hk he.key]
      split
      · exact .some he.value
      · exact ih

theorem rel_insertEntry (hK : KeepsOrder cmp cmp' K) {k : κ} {k' : κ'} (hk : K k k') {v : α}
    {v' : α'} (hv : V v v') {l : List (κ × α)} {l' : List (κ' × α')}
    (h : List.Forall₂ (EntryRel K V) l l') :
    List.Forall₂ (EntryRel K V) (insertEntry cmp k v l) (insertEntry cmp' k' v' l') := by
  induction h with
  | nil => exact .cons ⟨hk, hv⟩ .nil
  | cons he hrest ih =>
      unfold insertEntry
      rw [hK _ _ _ _ hk he.key]
      split
      · exact .cons ⟨hk, hv⟩ (.cons he hrest)
      · exact .cons ⟨he.key, hv⟩ hrest
      · exact .cons he ih

/-! ### Maps -/

namespace Rel

variable {m : OrderedMap κ cmp α} {m' : OrderedMap κ' cmp' α'}

theorem empty : Rel K V (.empty : OrderedMap κ cmp α) (.empty : OrderedMap κ' cmp' α') := .nil

theorem find? (hK : KeepsOrder cmp cmp' K) (h : Rel K V m m') {k : κ} {k' : κ'} (hk : K k k') :
    Option.Rel V (m.find? k) (m'.find? k') := rel_lookup hK hk h

theorem contains_eq (hK : KeepsOrder cmp cmp' K) (h : Rel K V m m') {k : κ} {k' : κ'}
    (hk : K k k') : m.contains k = m'.contains k' := isSome_eq_of_rel (h.find? hK hk)

theorem isEmpty_eq (h : Rel K V m m') : m.isEmpty = m'.isEmpty := isEmpty_eq_of_forall₂ h

theorem keys (h : Rel K V m m') : List.Forall₂ K m.keys m'.keys :=
  List.rel_map (fun _ _ he => he.key) h

theorem insert [Std.TransCmp cmp] [Std.TransCmp cmp'] (hK : KeepsOrder cmp cmp' K)
    (h : Rel K V m m') {k : κ} {k' : κ'} (hk : K k k') {v : α} {v' : α'} (hv : V v v') :
    Rel K V (m.insert k v) (m'.insert k' v') := rel_insertEntry hK hk hv h

theorem erase (hK : KeepsOrder cmp cmp' K) (h : Rel K V m m') {k : κ} {k' : κ'} (hk : K k k') :
    Rel K V (m.erase k) (m'.erase k') := by
  refine List.rel_filter ?_ h
  intro e e' he
  simp only [hK _ _ _ _ hk he.key]

theorem mapValues (h : Rel K V m m') {f : α → β} {g : α' → β'}
    (hfg : ∀ a a', V a a' → W (f a) (g a')) : Rel K W (m.mapValues f) (m'.mapValues g) :=
  List.rel_map (fun _ _ he => ⟨he.key, hfg _ _ he.value⟩) h

theorem foldl_erase (hK : KeepsOrder cmp cmp' K) (h : Rel K V m m') {ks : List κ} {ks' : List κ'}
    (hks : List.Forall₂ K ks ks') :
    Rel K V (ks.foldl OrderedMap.erase m) (ks'.foldl OrderedMap.erase m') :=
  List.rel_foldl (fun _ _ hm _ _ hk => hm.erase hK hk) h hks

theorem foldl_insert [Std.TransCmp cmp] [Std.TransCmp cmp'] (hK : KeepsOrder cmp cmp' K)
    (h : Rel K V m m') {ks : List κ} {ks' : List κ'} (hks : List.Forall₂ K ks ks') {v : α} {v' : α'}
    (hv : V v v') :
    Rel K V (ks.foldl (fun m k => m.insert k v) m) (ks'.foldl (fun m k => m.insert k v') m') :=
  List.rel_foldl (fun _ _ hm _ _ hk => hm.insert hK hk hv) h hks

end Rel

end OrderedMap

end DnsZone
