import Mathlib.Tactic.Common

/-!
# Faults

A modelled function that may not return yields a `Res`. Only the ways in which the source can
fail are told apart.
-/

namespace PPView

/-- The ways in which a modelled function does not return. -/
inductive Fault where
  /-- `Json::Value::operator[](int)` asserts that its index is not negative. -/
  | negativeIndex
  /-- `std::bitset::set` throws `std::out_of_range`. -/
  | bitset
  /-- An access past the end of a C array. -/
  | arrayBound
  /-- A null pointer is dereferenced. -/
  | nullPointer
  /-- The fuel of a loop is used up. -/
  | outOfFuel
  deriving DecidableEq, Repr

abbrev Res := Except Fault

theorem bind_ok {α β : Type} {x : Res α} {f : α → Res β} {b : β} :
    x >>= f = .ok b ↔ ∃ a, x = .ok a ∧ f a = .ok b := by
  cases x <;> simp [bind, Except.bind]

theorem bind_error {α β : Type} {x : Res α} {f : α → Res β} {e : Fault} :
    x >>= f = .error e ↔ x = .error e ∨ ∃ a, x = .ok a ∧ f a = .error e := by
  cases x <;> simp [bind, Except.bind]

theorem toOption_eq_some {α : Type} {x : Res α} {a : α} : x.toOption = some a ↔ x = .ok a := by
  cases x <;> simp [Except.toOption]

/-! ## Loops -/

/-- What every step of an element of the list keeps, the loop keeps. -/
theorem foldlM_keeps_mem {α β : Type} {f : β → α → Res β} {P : β → Prop} {l : List α}
    (hf : ∀ s, ∀ a ∈ l, ∀ s', P s → f s a = .ok s' → P s') {s s' : β} (hs : P s)
    (h : l.foldlM f s = .ok s') : P s' := by
  induction l generalizing s with
  | nil =>
    obtain rfl : s = s' := by simpa [pure, Except.pure] using h
    exact hs
  | cons a l ih =>
    rw [List.foldlM_cons] at h
    obtain ⟨s'', hs'', h⟩ := bind_ok.mp h
    exact ih (fun s b hb => hf s b (by simp [hb])) (hf s a (by simp) s'' hs hs'') h

/-- What every step keeps, the loop keeps. -/
theorem foldlM_keeps {α β : Type} {f : β → α → Res β} {P : β → Prop}
    (hf : ∀ s a s', P s → f s a = .ok s' → P s') {l : List α} {s s' : β} (hs : P s)
    (h : l.foldlM f s = .ok s') : P s' :=
  foldlM_keeps_mem (fun s a _ => hf s a) hs h

/-- What the step for an element reaches and no other step loses, the loop reaches for all. -/
theorem foldlM_reaches {α β : Type} {f : β → α → Res β} {P : α → β → Prop}
    (hreach : ∀ s a s', f s a = .ok s' → P a s')
    (hkeep : ∀ s a s' b, f s a = .ok s' → P b s → P b s') {l : List α} {s s' : β}
    (h : l.foldlM f s = .ok s') : ∀ a ∈ l, P a s' := by
  induction l generalizing s with
  | nil => simp
  | cons a l ih =>
    rw [List.foldlM_cons] at h
    obtain ⟨s'', hs'', hl⟩ := bind_ok.mp h
    intro b hb
    rcases List.mem_cons.mp hb with rfl | hb
    · exact foldlM_keeps (fun s c s' hs hc => hkeep s c s' b hc hs) (hreach s b s'' hs'') hl
    · exact ih hl b hb

/-- A loop fails as its steps do. -/
theorem foldlM_error {α β : Type} {f : β → α → Res β} {E : Fault → Prop}
    (hf : ∀ s a e, f s a = .error e → E e) {l : List α} {s : β} {e : Fault}
    (h : l.foldlM f s = .error e) : E e := by
  induction l generalizing s with
  | nil => simp [pure, Except.pure] at h
  | cons a l ih =>
    rw [List.foldlM_cons] at h
    rcases bind_error.mp h with h | ⟨s', -, h⟩
    · exact hf s a e h
    · exact ih h

/-- A loop ends if every step ends in a state in which the next one does. -/
theorem foldlM_ok {α β : Type} {f : β → α → Res β} {P : β → Prop} {l : List α} {s : β}
    (hf : ∀ s, ∀ a ∈ l, P s → ∃ s', f s a = .ok s' ∧ P s') (hs : P s) :
    ∃ s', l.foldlM f s = .ok s' ∧ P s' := by
  induction l generalizing s with
  | nil => exact ⟨s, rfl, hs⟩
  | cons a l ih =>
    obtain ⟨s', hs', hP⟩ := hf s a (by simp) hs
    obtain ⟨s'', hs'', hP'⟩ := ih (fun s b hb => hf s b (by simp [hb])) hP
    refine ⟨s'', ?_, hP'⟩
    simp only [List.foldlM_cons, hs', bind, Except.bind]
    exact hs''

theorem mapM_ok {α β : Type} {f : α → Res β} {P : β → Prop} {l : List α}
    (hf : ∀ a ∈ l, ∃ b, f a = .ok b ∧ P b) :
    ∃ l', l.mapM f = .ok l' ∧ (∀ b ∈ l', P b) ∧ l'.length = l.length := by
  induction l with
  | nil => exact ⟨[], rfl, by simp, rfl⟩
  | cons a l ih =>
    obtain ⟨ha, hl⟩ := List.forall_mem_cons.mp hf
    obtain ⟨b, hb, hP⟩ := ha
    obtain ⟨l', hl', hP', hlen⟩ := ih hl
    refine ⟨b :: l', ?_, List.forall_mem_cons.mpr ⟨hP, hP'⟩, by simp [hlen]⟩
    rw [List.mapM_cons, hb, bind_ok]
    exact ⟨b, rfl, bind_ok.mpr ⟨l', hl', rfl⟩⟩

/-- A loop commutes with what its steps commute with. -/
theorem foldlM_commute {α β : Type} {f : β → α → Res β} {φ : β → β} {P : β → Prop} {l : List α}
    {s : β} (hf : ∀ s, ∀ a ∈ l, P s → f (φ s) a = (f s a).map φ ∧ ∀ s', f s a = .ok s' → P s')
    (hs : P s) : l.foldlM f (φ s) = (l.foldlM f s).map φ := by
  induction l generalizing s with
  | nil => rfl
  | cons a l ih =>
    obtain ⟨hstep, hkeep⟩ := hf s a (by simp) hs
    rw [List.foldlM_cons, List.foldlM_cons, hstep]
    cases hrun : f s a with
    | error e => rfl
    | ok s' => exact ih (fun s b hb => hf s b (by simp [hb])) (hkeep s' hrun)

end PPView
