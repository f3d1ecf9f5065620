import Mathlib.Data.List.Forall2

/-!
# Lists that are related entry by entry

A loop that rewrites the entries of a list one by one leaves a list that is related to the one
before by `List.Forall₂`. Such relations compose, and what the entries keep, the lists keep.
-/

namespace PPView

variable {α β γ : Type*}

theorem forall₂_mem_right {S : α → β → Prop} {l : List α} {l' : List β}
    (h : List.Forall₂ S l l') {b : β} (hb : b ∈ l') : ∃ a ∈ l, S a b := by
  induction h with
  | nil => simp at hb
  | cons hab _ ih =>
    rcases List.mem_cons.mp hb with rfl | hb
    · exact ⟨_, List.mem_cons_self, hab⟩
    · obtain ⟨a, ha, hS⟩ := ih hb
      exact ⟨a, List.mem_cons_of_mem _ ha, hS⟩

theorem forall₂_trans {S : α → β → Prop} {T : β → γ → Prop} {U : α → γ → Prop}
    (hST : ∀ a b c, S a b → T b c → U a c) {l : List α} {l' : List β} {l'' : List γ}
    (h : List.Forall₂ S l l') (h' : List.Forall₂ T l' l'') : List.Forall₂ U l l'' := by
  induction h generalizing l'' with
  | nil =>
    cases h'
    exact .nil
  | cons hab _ ih =>
    cases h' with
    | cons hbc h' => exact .cons (hST _ _ _ hab hbc) (ih h')

theorem forall₂_modify {S : α → α → Prop} (hS : ∀ a, S a a) {f : α → α} {l : List α}
    {j : Nat} (h : ∀ a, l[j]? = some a → S a (f a)) : List.Forall₂ S l (l.modify j f) := by
  induction l generalizing j with
  | nil => simp
  | cons a l ih =>
    cases j with
    | zero => exact .cons (h a rfl) (List.forall₂_same.mpr fun b _ => hS b)
    | succ j => exact .cons (hS a) (ih h)

theorem forall₂_concat {S : α → β → Prop} {l : List α} {a : α} {l' : List β}
    (h : List.Forall₂ S (l ++ [a]) l') : ∃ l₁ b, l' = l₁ ++ [b] ∧ List.Forall₂ S l l₁ ∧ S a b := by
  induction l generalizing l' with
  | nil =>
    cases h with
    | cons hab hnil =>
      cases hnil
      exact ⟨[], _, rfl, .nil, hab⟩
  | cons c l ih =>
    cases h with
    | cons hcd h =>
      obtain ⟨l₁, b, rfl, hl, hab⟩ := ih h
      exact ⟨_ :: l₁, b, rfl, .cons hcd hl, hab⟩

theorem forall₂_map_eq {S : α → α → Prop} {g : α → β} (hS : ∀ a b, S a b → g b = g a)
    {l l' : List α} (h : List.Forall₂ S l l') : l'.map g = l.map g := by
  induction h with
  | nil => rfl
  | cons hab _ ih => simp only [List.map_cons, hS _ _ hab, ih]

theorem forall₂_of_map_eq {g : α → β} {l l' : List α} (h : l'.map g = l.map g) :
    List.Forall₂ (fun a b => g b = g a) l l' := by
  have h : List.Forall₂ (· = ·) (l.map g) (l'.map g) := by rw [List.forall₂_eq_eq_eq, h]
  rw [List.forall₂_map_left_iff, List.forall₂_map_right_iff] at h
  exact h.imp fun _ _ hab => hab.symm

theorem forall₂_and {S T : α → α → Prop} {l l' : List α} (h : List.Forall₂ S l l')
    (h' : List.Forall₂ T l l') : List.Forall₂ (fun a b => S a b ∧ T a b) l l' := by
  induction h with
  | nil => exact .nil
  | cons hab _ ih =>
    cases h' with
    | cons hab' h' => exact .cons ⟨hab, hab'⟩ (ih h')

theorem forall₂_flatMap_perm {f : α → List γ} {g : β → List γ} {l : List α} {l' : List β}
    (h : List.Forall₂ (fun a b => (f a).Perm (g b)) l l') :
    (l.flatMap f).Perm (l'.flatMap g) := by
  induction h with
  | nil => exact .refl _
  | cons hab _ ih => exact hab.append ih

end PPView
