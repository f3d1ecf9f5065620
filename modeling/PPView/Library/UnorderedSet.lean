import Mathlib.Data.List.Nodup

/-!
# Sets without an order of their own

A set whose elements are visited in an order that may depend on everything done with it before.
A state stands for one such set; only its elements are known.
-/

namespace PPView

class UnorderedSet (σ : Type) (α : outParam Type) where
  toList : σ → List α
  empty : σ
  insert : σ → α → σ
  erase : σ → α → σ
  nodup_toList : ∀ s, (toList s).Nodup
  not_mem_empty : ∀ a, a ∉ toList empty
  mem_insert : ∀ s a b, b ∈ toList (insert s a) ↔ b = a ∨ b ∈ toList s
  mem_erase : ∀ s a b, b ∈ toList (erase s a) ↔ b ≠ a ∧ b ∈ toList s

namespace UnorderedSet

variable {σ α : Type} [UnorderedSet σ α]

/-- The elements of a list, inserted one after the other. -/
def ofList (l : List α) : σ := l.foldl insert empty

theorem mem_foldl_insert {l : List α} {s : σ} {b : α} :
    b ∈ toList (l.foldl insert s) ↔ b ∈ toList s ∨ b ∈ l := by
  induction l generalizing s with
  | nil => simp
  | cons a l ih =>
    rw [List.foldl_cons, ih, mem_insert, List.mem_cons]
    tauto

theorem mem_ofList {l : List α} {b : α} : b ∈ toList (ofList l : σ) ↔ b ∈ l := by
  rw [ofList, mem_foldl_insert]
  simp [not_mem_empty]

end UnorderedSet

/-- The set that visits its elements in the order of their insertion. -/
instance {α : Type} [DecidableEq α] : UnorderedSet {l : List α // l.Nodup} α where
  toList s := s.1
  empty := ⟨[], List.nodup_nil⟩
  insert s a := if h : a ∈ s.1 then s else ⟨s.1 ++ [a], by
    refine List.nodup_append.mpr ⟨s.2, List.nodup_singleton a, ?_⟩
    intro b hb c hc
    obtain rfl : c = a := by simpa using hc
    exact fun hbc => h (hbc ▸ hb)⟩
  erase s a := ⟨s.1.erase a, s.2.erase a⟩
  nodup_toList s := s.2
  not_mem_empty := by simp
  mem_insert s a b := by
    split_ifs with h
    · exact ⟨.inr, fun hb => hb.elim (fun hba => hba ▸ h) id⟩
    · simp [or_comm]
  mem_erase s a b := s.2.mem_erase_iff

end PPView
