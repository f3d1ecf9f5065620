import Mathlib.Data.Set.CoeSort
import Mathlib.Order.Lattice
import Mathlib.Order.RelClasses

/-!
# Strict weak orders on a set

What a sort asks of a comparator, on the elements that it compares. `strictWeakOn_iff` reduces it
to two facts on pairs and triples. A comparator that looks at a key first is a strict weak order if
it is one among the elements of each key (`strictWeakOn_lex`); one that compares within the classes
of a key only is one if no element of another class stands beside a related pair
(`strictWeakOn_within`).
-/

namespace PPView.WeakOrders

variable {α κ : Type*} {s : Set α} {r : α → α → Prop}

/-- `r` is a strict weak order among the elements of `s`. -/
abbrev StrictWeakOn (s : Set α) (r : α → α → Prop) : Prop :=
  IsStrictWeakOrder s fun a b => r a b

/-- Of a related pair at least one end is related to any other element, in the same direction. -/
theorem strictWeakOn_iff : StrictWeakOn s r ↔
    (∀ a ∈ s, ∀ b ∈ s, r a b → ¬ r b a) ∧
      ∀ a ∈ s, ∀ b ∈ s, ∀ c ∈ s, r a c → r a b ∨ r b c := by
  constructor
  · intro h
    have hasymm : ∀ a ∈ s, ∀ b ∈ s, r a b → ¬ r b a := fun a ha b hb hab hba =>
      h.irrefl ⟨a, ha⟩ (h.trans ⟨a, ha⟩ ⟨b, hb⟩ ⟨a, ha⟩ hab hba)
    refine ⟨hasymm, fun a ha b hb c hc hac => ?_⟩
    by_contra hn
    obtain ⟨hab, hbc⟩ := not_or.mp hn
    have hba : ¬ r b a := fun hba => hbc (h.trans ⟨b, hb⟩ ⟨a, ha⟩ ⟨c, hc⟩ hba hac)
    have hcb : ¬ r c b := fun hcb => hab (h.trans ⟨a, ha⟩ ⟨c, hc⟩ ⟨b, hb⟩ hac hcb)
    exact (h.incomp_trans ⟨a, ha⟩ ⟨b, hb⟩ ⟨c, hc⟩ ⟨hab, hba⟩ ⟨hbc, hcb⟩).1 hac
  · rintro ⟨hasymm, hconn⟩
    have : Std.Asymm fun a b : s => r a b := ⟨fun a b => hasymm a a.2 b b.2⟩
    have : IsOrderConnected s fun a b => r a b := ⟨fun a b c => hconn a a.2 b b.2 c c.2⟩
    exact isStrictWeakOrder_of_isOrderConnected

/-- The key decides, and `r` among elements of the same key. -/
theorem strictWeakOn_lex [LinearOrder κ] (key : α → κ) :
    StrictWeakOn s (fun a b => key a < key b ∨ key a = key b ∧ r a b) ↔
      ∀ k, StrictWeakOn {a ∈ s | key a = k} r := by
  simp only [strictWeakOn_iff]
  constructor
  · rintro ⟨hasymm, hconn⟩ k
    refine ⟨?_, ?_⟩
    · rintro a ⟨ha, rfl⟩ b ⟨hb, hkey⟩ hab hba
      exact hasymm a ha b hb (.inr ⟨hkey.symm, hab⟩) (.inr ⟨hkey, hba⟩)
    · rintro a ⟨ha, rfl⟩ b ⟨hb, hb'⟩ c ⟨hc, hc'⟩ hac
      rcases hconn a ha b hb c hc (.inr ⟨hc'.symm, hac⟩) with (h | h) | (h | h)
      · exact absurd h (by rw [hb']; exact lt_irrefl _)
      · exact .inl h.2
      · exact absurd h (by rw [hb', hc']; exact lt_irrefl _)
      · exact .inr h.2
  · intro h
    refine ⟨?_, ?_⟩
    · rintro a ha b hb (hab | ⟨hkey, hab⟩) (hba | ⟨hkey', hba⟩)
      · exact lt_asymm hab hba
      · exact absurd hab (by rw [hkey']; exact lt_irrefl _)
      · exact absurd hba (by rw [hkey]; exact lt_irrefl _)
      · exact (h (key b)).1 a ⟨ha, hkey⟩ b ⟨hb, rfl⟩ hab hba
    · intro a ha b hb c hc hac
      have hle : key a ≤ key c := hac.elim le_of_lt fun h => h.1.le
      rcases lt_trichotomy (key a) (key b) with hab | hab | hab
      · exact .inl (.inl hab)
      · rcases hac with hac | ⟨hkey, hac⟩
        · exact .inr (.inl (hab ▸ hac))
        · rcases (h (key a)).2 a ⟨ha, rfl⟩ b ⟨hb, hab.symm⟩ c ⟨hc, hkey.symm⟩ hac with h | h
          · exact .inl (.inr ⟨hab, h⟩)
          · exact .inr (.inr ⟨hab.symm.trans hkey, h⟩)
      · exact .inr (.inl (hab.trans_le hle))

/-- `r` compares elements of the same class only. -/
theorem strictWeakOn_within [LinearOrder κ] (key : α → κ) (hr : StrictWeakOn s r) :
    StrictWeakOn s (fun a b => key a = key b ∧ r a b) ↔
      ∀ a ∈ s, ∀ b ∈ s, ∀ c ∈ s, key a = key c → r a c → key b = key a := by
  rw [strictWeakOn_iff] at hr ⊢
  constructor
  · rintro ⟨-, hconn⟩ a ha b hb c hc hkey hac
    rcases hconn a ha b hb c hc ⟨hkey, hac⟩ with h | h
    · exact h.1.symm
    · exact h.1.trans hkey.symm
  · intro h
    refine ⟨fun a ha b hb hab hba => hr.1 a ha b hb hab.2 hba.2, ?_⟩
    rintro a ha b hb c hc ⟨hkey, hac⟩
    have hb' := h a ha b hb c hc hkey hac
    rcases hr.2 a ha b hb c hc hac with hab | hbc
    · exact .inl ⟨hb'.symm, hab⟩
    · exact .inr ⟨hb'.trans hkey, hbc⟩

end PPView.WeakOrders
