import Mathlib.Order.Monotone.Defs
import Mathlib.Order.MinMax
import PPView.Library.Least

/-!
# The least of values that are not reset

A loop that takes the least of a running value and the value of each element, and compares what it
has got after a conversion that depends on the element. An element is undercut if an earlier one,
or the start, has a lesser value: then the running value is not its own.
-/

namespace PPView

variable {α β γ : Type*} [LinearOrder β] [LinearOrder γ] (value : α → β) (conv : α → β → γ)

/-- The least of a start and the values of a list. -/
def runningLeast (low : β) (l : List α) : β := l.foldl (fun low a => min low (value a)) low

/-- Each element with the running value behind it. -/
def lowered (low : β) : List α → List (α × β)
  | [] => []
  | a :: l => (a, min low (value a)) :: lowered (min low (value a)) l

variable {value conv} {low : β} {l : List α}

theorem lowered_append (low : β) (l l' : List α) : lowered value low (l ++ l') =
    lowered value low l ++ lowered value (runningLeast value low l) l' := by
  induction l generalizing low with
  | nil => rfl
  | cons a l ih => exact congrArg _ (ih _)

theorem lowered_split {before after : List (α × β)} {a : α} {b : β}
    (h : lowered value low l = before ++ (a, b) :: after) :
    ∃ l₁ l₂, l = l₁ ++ a :: l₂ ∧ before = lowered value low l₁ ∧
      b = min (runningLeast value low l₁) (value a) := by
  induction l generalizing low before with
  | nil => simp [lowered] at h
  | cons c l ih =>
    cases before with
    | nil =>
      obtain ⟨hhead, -⟩ := List.cons.inj h
      obtain ⟨rfl, rfl⟩ := Prod.mk.inj hhead
      exact ⟨[], l, rfl, rfl, rfl⟩
    | cons head before =>
      obtain ⟨rfl, htail⟩ := List.cons.inj h
      obtain ⟨l₁, l₂, rfl, rfl, rfl⟩ := ih htail
      exact ⟨c :: l₁, l₂, rfl, rfl, rfl⟩

theorem exists_mem_lowered (value : α → β) {a : α} (h : a ∈ l) (low : β) :
    ∃ b, (a, b) ∈ lowered value low l ∧ b ≤ value a := by
  obtain ⟨l₁, l₂, rfl⟩ := List.append_of_mem h
  refine ⟨min (runningLeast value low l₁) (value a), ?_, min_le_right _ _⟩
  rw [lowered_append]
  exact List.mem_append_right _ List.mem_cons_self

section

variable {bound : γ} {a : α} {v : β}

theorem exists_mem_lowered_le (hconv : ∀ a ∈ l, Monotone (conv a)) (low : β) (ha : a ∈ l) :
    ∃ b, (a, b) ∈ lowered value low l ∧ conv a b ≤ conv a (value a) := by
  obtain ⟨b, hb, hle⟩ := exists_mem_lowered value ha low
  exact ⟨b, hb, hconv a ha hle⟩

/-- What is found converts to no more than any element's own value. -/
theorem least_lowered_le (hconv : ∀ a ∈ l, Monotone (conv a))
    (hleast : least (fun o => conv o.1 o.2) bound (lowered value low l) = some (a, v)) :
    ∀ b ∈ l, conv a v ≤ conv b (value b) := by
  intro b hb
  obtain ⟨w, hw, hle⟩ := exists_mem_lowered_le hconv low hb
  exact ((mem_of_least hleast).2.2 _ hw).trans hle

/-- If an element is found with its own value, what is undercut converts to more, or comes behind it
and converts to no less. -/
theorem undercut_of_least
    (hleast : least (fun o => conv o.1 o.2) bound (lowered value low l) = some (a, value a))
    {before after : List α} {b : α} (heq : l = before ++ b :: after)
    (hunder : runningLeast value low before < value b) :
    (∃ c ∈ l, conv c (value c) < conv b (runningLeast value low before)) ∨
      ∃ c ∈ before, conv c (value c) ≤ conv b (runningLeast value low before) := by
  have hb : (b, runningLeast value low before) ∈ lowered value low (before ++ [b]) := by
    rw [lowered_append, lowered, min_eq_left hunder.le]
    exact List.mem_append_right _ List.mem_cons_self
  obtain ⟨-, -, hmin⟩ := mem_of_least hleast
  obtain ⟨lowBefore, lowAfter, hsplit, hbefore⟩ := least_split hleast
  obtain ⟨l₁, l₂, rfl, rfl, hown⟩ := lowered_split hsplit
  have hle : value a ≤ runningLeast value low l₁ := min_eq_right_iff.mp hown.symm
  -- where the two elements stand to each other
  rcases List.append_eq_append_iff.mp heq with ⟨between, rfl, hrest⟩ | ⟨between, rfl, hrest⟩
  · cases between with
    | nil =>
      obtain ⟨rfl, -⟩ := List.cons.inj hrest
      rw [List.append_nil] at hunder
      exact absurd hunder (not_lt.mpr hle)
    | cons c between =>
      obtain ⟨rfl, rfl⟩ := List.cons.inj hrest
      refine .inr ⟨a, by simp, hmin (b, runningLeast value low (l₁ ++ a :: between)) ?_⟩
      rw [heq, List.append_cons, lowered_append]
      exact List.mem_append_left _ hb
  · cases between with
    | nil =>
      obtain ⟨rfl, -⟩ := List.cons.inj hrest
      rw [List.append_nil] at hle
      exact absurd hunder (not_lt.mpr hle)
    | cons c between =>
      obtain ⟨rfl, -⟩ := List.cons.inj hrest
      refine .inl ⟨a, by simp, hbefore (b, runningLeast value low before) ?_⟩
      rw [List.append_cons, lowered_append]
      exact List.mem_append_left _ hb

/-- If what is undercut converts to more than another element, or to no less than an earlier one,
an element is found with its own value. -/
theorem own_of_least (hconv : ∀ a ∈ l, Monotone (conv a))
    (hunder : ∀ before a after, l = before ++ a :: after → runningLeast value low before < value a →
      (∃ b ∈ l, conv b (value b) < conv a (runningLeast value low before)) ∨
        ∃ b ∈ before, conv b (value b) ≤ conv a (runningLeast value low before))
    (hleast : least (fun o => conv o.1 o.2) bound (lowered value low l) = some (a, v)) :
    a ∈ l ∧ v = value a := by
  have hle := least_lowered_le hconv hleast
  obtain ⟨lowBefore, lowAfter, hsplit, hbefore⟩ := least_split hleast
  obtain ⟨l₁, l₂, rfl, rfl, rfl⟩ := lowered_split hsplit
  refine ⟨by simp, min_eq_right ?_⟩
  by_contra hlow
  rw [not_le] at hlow
  rw [min_eq_left hlow.le] at hle hbefore
  rcases hunder l₁ a l₂ rfl hlow with ⟨b, hb, hless⟩ | ⟨b, hb, hble⟩
  · exact absurd (hle b hb) (not_le.mpr hless)
  · obtain ⟨w, hw, hwle⟩ := exists_mem_lowered value hb low
    have hless := hbefore _ hw
    exact absurd ((hconv b (by simp [hb]) hwle).trans hble) (not_le.mpr hless)

end

/-- The first of the least conversions is of an element's own value exactly if some conversion is
below the bound, and every element that is undercut converts to more than another one, or to no
less than an earlier one. -/
theorem least_lowered_iff (hconv : ∀ a ∈ l, Monotone (conv a)) (low : β) (bound : γ) :
    (∃ a ∈ l, least (fun o => conv o.1 o.2) bound (lowered value low l) = some (a, value a) ∧
        ∀ b ∈ l, conv a (value a) ≤ conv b (value b)) ↔
      (∃ a ∈ l, conv a (value a) < bound) ∧
        ∀ before a after, l = before ++ a :: after → runningLeast value low before < value a →
          (∃ b ∈ l, conv b (value b) < conv a (runningLeast value low before)) ∨
            ∃ b ∈ before, conv b (value b) ≤ conv a (runningLeast value low before) := by
  constructor
  · rintro ⟨a, ha, hleast, -⟩
    refine ⟨⟨a, ha, (mem_of_least hleast).2.1⟩, ?_⟩
    intro before b after heq hunder
    exact undercut_of_least hleast heq hunder
  · rintro ⟨⟨a, ha, hlt⟩, hunder⟩
    obtain ⟨b, hb, hle⟩ := exists_mem_lowered_le hconv low ha
    have hsome : least (fun o => conv o.1 o.2) bound (lowered value low l) ≠ none := by
      intro hnone
      exact absurd (hle.trans_lt hlt) (not_lt.mpr (least_eq_none_iff.mp hnone _ hb))
    obtain ⟨⟨c, v⟩, hleast⟩ := Option.ne_none_iff_exists'.mp hsome
    obtain ⟨hc, rfl⟩ := own_of_least hconv hunder hleast
    exact ⟨c, hc, hleast, least_lowered_le hconv hleast⟩

end PPView
