import Mathlib.Data.List.Nodup

/-!
# Greedy matchings

Pairs are taken in the order of a list, unless one side of the pair is already taken. What is taken
is a matching to which no pair of the list can be added.
-/

namespace PPView.Greedy

variable {α β : Type*} [DecidableEq α] [DecidableEq β] {pairs : List (α × β)} {p : α × β}
  {m : List (α × β)}

def take (m : List (α × β)) (p : α × β) : List (α × β) :=
  if p.1 ∈ m.map Prod.fst ∨ p.2 ∈ m.map Prod.snd then m else m ++ [p]

def matching (pairs : List (α × β)) : List (α × β) := pairs.foldl take []

theorem take_of_mem (h : p.1 ∈ m.map Prod.fst ∨ p.2 ∈ m.map Prod.snd) : take m p = m := if_pos h

theorem take_of_not_mem (h : ¬ (p.1 ∈ m.map Prod.fst ∨ p.2 ∈ m.map Prod.snd)) :
    take m p = m ++ [p] := if_neg h

/-- No side is taken twice, and every pair of the list has a side that is taken. -/
structure IsMaximal (pairs m : List (α × β)) : Prop where
  sub : ∀ p ∈ m, p ∈ pairs
  nodup_fst : (m.map Prod.fst).Nodup
  nodup_snd : (m.map Prod.snd).Nodup
  covered : ∀ p ∈ pairs, p.1 ∈ m.map Prod.fst ∨ p.2 ∈ m.map Prod.snd

theorem IsMaximal.take (h : IsMaximal pairs m) (p : α × β) :
    IsMaximal (pairs ++ [p]) (take m p) := by
  by_cases hused : p.1 ∈ m.map Prod.fst ∨ p.2 ∈ m.map Prod.snd
  · rw [take_of_mem hused]
    refine ⟨fun q hq => List.mem_append_left _ (h.sub q hq), h.nodup_fst, h.nodup_snd, ?_⟩
    intro q hq
    rcases List.mem_append.mp hq with hq | hq
    · exact h.covered q hq
    · rwa [List.mem_singleton.mp hq]
  · rw [take_of_not_mem hused]
    rw [not_or] at hused
    refine ⟨?_, ?_, ?_, ?_⟩
    · intro q hq
      rcases List.mem_append.mp hq with hq | hq
      · exact List.mem_append_left _ (h.sub q hq)
      · exact List.mem_append_right _ hq
    · rw [List.map_append, List.map_singleton]
      exact h.nodup_fst.append (List.nodup_singleton _) (by simpa using hused.1)
    · rw [List.map_append, List.map_singleton]
      exact h.nodup_snd.append (List.nodup_singleton _) (by simpa using hused.2)
    · intro q hq
      rw [List.map_append, List.map_append, List.mem_append, List.mem_append]
      rcases List.mem_append.mp hq with hq | hq
      · exact (h.covered q hq).imp .inl .inl
      · obtain rfl := List.mem_singleton.mp hq
        exact .inl (.inr (by simp))

theorem foldl_take_isMaximal (h : IsMaximal pairs m) (l : List (α × β)) :
    IsMaximal (pairs ++ l) (l.foldl take m) := by
  induction l generalizing pairs m with
  | nil => rwa [List.append_nil]
  | cons p l ih =>
    rw [List.foldl_cons, List.append_cons]
    exact ih (h.take p)

theorem matching_isMaximal (pairs : List (α × β)) : IsMaximal pairs (matching pairs) := by
  have hnil : IsMaximal ([] : List (α × β)) [] := ⟨by simp, by simp, by simp, by simp⟩
  exact foldl_take_isMaximal hnil pairs

end PPView.Greedy
