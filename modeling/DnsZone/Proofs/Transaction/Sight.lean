import DnsZone.Proofs.Listing
import DnsZone.Transaction.Call

/-!
# What a transaction sees, to the letter

All that a transaction sees of the content of a zone comes from a list of nodes in name order. Two
transactions that see the same list cannot be told apart by looking, not even by the letter case of
names or by the order of record sets. A writer publishes what it sees if, whenever its commit is
accepted, a reader started right after it sees just that.
-/

namespace DnsZone

variable {ζ τ : Type} [Access τ]

section

variable [Backend ζ τ]

/-- All that the transaction sees comes from these nodes. -/
structure SeesNodes (z : ζ) (a : τ) (nodes : List (Name × Node)) : Prop where
  node? : ∀ n, Backend.node? z a n = OrderedMap.lookup Name.compare n nodes
  find? : ∀ n key, Backend.find? z a n key =
    (Backend.node? z a n).bind fun node => node.find? key
  contains : ∀ n, Backend.contains z a n = (Backend.node? z a n).isSome
  sets : Backend.sets z a = ownedSets nodes

namespace Transaction

/-- Both transactions are open and see the same, whichever way they look. -/
structure SeesAlike (z : ζ) (t : Transaction τ) (z' : ζ) (t' : Transaction τ) : Prop where
  sets : ∃ l, t.sets z = .ok l ∧ t'.sets z' = .ok l
  find? : ∀ n key, Backend.find? z t.access n key = Backend.find? z' t'.access n key
  node? : ∀ n, Backend.node? z t.access n = Backend.node? z' t'.access n
  contains : ∀ n, Backend.contains z t.access n = Backend.contains z' t'.access n

theorem sets_of_open {z : ζ} {t : Transaction τ} (h : t.isEnded = false) :
    t.sets z = .ok (Backend.sets z t.access) := by
  rw [Transaction.sets, requireOpen, h]
  rfl

theorem SeesAlike.of_nodes {z z' : ζ} {t t' : Transaction τ} {nodes : List (Name × Node)}
    (h : SeesNodes z t.access nodes) (h' : SeesNodes z' t'.access nodes)
    (hopen : t.isEnded = false) (hopen' : t'.isEnded = false) : SeesAlike z t z' t' where
  sets := by
    refine ⟨ownedSets nodes, ?_, ?_⟩
    · rw [sets_of_open hopen, h.sets]
    · rw [sets_of_open hopen', h'.sets]
  find? n key := by rw [h.find?, h'.find?, h.node?, h'.node?]
  node? n := by rw [h.node?, h'.node?]
  contains n := by rw [h.contains, h'.contains, h.node?, h'.node?]

theorem SeesAlike.trans {z z' z'' : ζ} {t t' t'' : Transaction τ} (h : SeesAlike z t z' t')
    (h' : SeesAlike z' t' z'' t'') : SeesAlike z t z'' t'' where
  sets := by
    obtain ⟨l, hl, hl₁⟩ := h.sets
    obtain ⟨l', hl₂, hl'⟩ := h'.sets
    cases hl₁.symm.trans hl₂
    exact ⟨l, hl, hl'⟩
  find? n key := (h.find? n key).trans (h'.find? n key)
  node? n := (h.node? n).trans (h'.node? n)
  contains n := (h.contains n).trans (h'.contains n)

/-- A commit that is accepted has committed the changes of the transaction. -/
theorem close_of_commit_ok {z : ζ} {t : Transaction τ} (h : (t.commit z).1 = .ok ()) :
    t.isEnded = false ∧ (t.commit z).2 = (t.close true z).2 := by
  rw [commit] at h ⊢
  cases hended : t.isEnded with
  | true =>
      rw [hended] at h
      cases h
  | false =>
      refine ⟨rfl, ?_⟩
      rw [hended] at h
      cases hfault : t.apexFault? z with
      | none => rfl
      | some fault =>
          rw [hfault] at h
          simp only [Bool.false_eq_true, ↓reduceIte] at h
          revert h
          generalize t.close false z = x
          obtain ⟨result, t', z'⟩ := x
          intro h
          cases result <;> cases h

end Transaction

end

/-- If the commit of the transaction is accepted, a reader started right after it can be started and
sees what the transaction saw. -/
def Transaction.Publishes [Host ζ τ] (z : ζ) (t : Transaction τ) : Prop :=
  (t.commit z).1 = .ok () →
    ∃ t' z', Transaction.reader none (t.commit z).2.2 = .ok (t', z') ∧ SeesAlike z t z' t'

end DnsZone
