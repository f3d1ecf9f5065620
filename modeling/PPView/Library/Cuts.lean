import Mathlib.Data.List.Basic

/-!
# Cutting behind marks

A list is cut behind each of its marked elements. Behind the last one there may be a rest.
-/

namespace PPView.Cuts

variable {α : Type*} {p : α → Bool} {l : List α}

/-- The parts that end with a mark; `part` is what the first one has so far. -/
def closed (p : α → Bool) : List α → List α → List (List α)
  | _, [] => []
  | part, x :: l =>
    if p x then (part ++ [x]) :: closed p [] l else closed p (part ++ [x]) l

/-- What is behind the last mark. -/
def rest (p : α → Bool) : List α → List α → List α
  | part, [] => part
  | part, x :: l => if p x then rest p [] l else rest p (part ++ [x]) l

theorem flatten_closed (p : α → Bool) (part l : List α) :
    (closed p part l).flatten ++ rest p part l = part ++ l := by
  induction l generalizing part with
  | nil => simp [closed, rest]
  | cons x l ih =>
    rw [closed, rest]
    split_ifs
    · rw [List.flatten_cons, List.append_assoc, ih]
      simp
    · rw [ih]
      simp

theorem length_closed (p : α → Bool) (part l : List α) : (closed p part l).length = l.countP p := by
  induction l generalizing part with
  | nil => rfl
  | cons x l ih =>
    rw [closed, List.countP_cons]
    split_ifs with hx
    · rw [List.length_cons, ih]
    · exact ih _

theorem mem_closed {part : List α} (hpart : ∀ y ∈ part, ¬ p y) {s : List α}
    (hs : s ∈ closed p part l) : ∃ s' x, s = s' ++ [x] ∧ p x ∧ ∀ y ∈ s', ¬ p y := by
  induction l generalizing part with
  | nil => simp [closed] at hs
  | cons x l ih =>
    rw [closed] at hs
    split_ifs at hs with hx
    · rcases List.mem_cons.mp hs with rfl | hs
      · exact ⟨part, x, rfl, hx, hpart⟩
      · exact ih (by simp) hs
    · refine ih (fun y hy => ?_) hs
      rcases List.mem_append.mp hy with hy | hy
      · exact hpart y hy
      · exact List.mem_singleton.mp hy ▸ hx

theorem not_of_mem_rest {part : List α} (hpart : ∀ y ∈ part, ¬ p y) :
    ∀ y ∈ rest p part l, ¬ p y := by
  induction l generalizing part with
  | nil => exact hpart
  | cons x l ih =>
    rw [rest]
    split_ifs with hx
    · exact ih (by simp)
    · refine ih fun y hy => ?_
      rcases List.mem_append.mp hy with hy | hy
      · exact hpart y hy
      · exact List.mem_singleton.mp hy ▸ hx

theorem rest_concat (p : α → Bool) (part l : List α) (x : α) :
    rest p part (l ++ [x]) = if p x then [] else rest p part l ++ [x] := by
  induction l generalizing part with
  | nil => rfl
  | cons y l ih =>
    rw [List.cons_append, rest, rest]
    split_ifs
    all_goals simp_all

/-- A cut of the list: every part but the last one ends with a mark, and there are no other marks in
front of the end of a part. -/
structure IsCut (p : α → Bool) (l : List α) (parts : List (List α)) : Prop where
  flatten : parts.flatten = l
  ends : ∀ s ∈ parts.dropLast, ∃ x ∈ s.getLast?, p x
  inner : ∀ s ∈ parts, ∀ x ∈ s.dropLast, ¬ p x

theorem isCut_closed {x : α} (hx : p x) : IsCut p (l ++ [x]) (closed p [] (l ++ [x])) where
  flatten := by
    have h := flatten_closed p [] (l ++ [x])
    rwa [rest_concat, if_pos hx, List.append_nil] at h
  ends s hs := by
    obtain ⟨s', y, rfl, hy, -⟩ := mem_closed (by simp) (List.dropLast_subset _ hs)
    exact ⟨y, by simp, hy⟩
  inner s hs := by
    obtain ⟨s', y, rfl, -, hs'⟩ := mem_closed (by simp) hs
    simpa using hs'

theorem isCut_closed_rest (p : α → Bool) (l : List α) :
    IsCut p l (closed p [] l ++ [rest p [] l]) where
  flatten := by simpa using flatten_closed p [] l
  ends s hs := by
    rw [List.dropLast_concat] at hs
    obtain ⟨s', y, rfl, hy, -⟩ := mem_closed (by simp) hs
    exact ⟨y, by simp, hy⟩
  inner s hs := by
    rcases List.mem_append.mp hs with hs | hs
    · obtain ⟨s', y, rfl, -, hs'⟩ := mem_closed (by simp) hs
      simpa using hs'
    · rw [List.mem_singleton.mp hs]
      exact fun x hx => not_of_mem_rest (by simp) x (List.dropLast_subset _ hx)

end PPView.Cuts
