import Mathlib.Algebra.Order.Field.Rat
import Mathlib.Data.Prod.Lex
import Mathlib.Data.String.Basic
import PPView.Library.WeakOrders

/-!
# The order of variable places

`varPlaceCmp` puts the places to be recommended, those of priority `10`, in front of the others.
Places of one priority are ordered by hot level and id, but two places of different priorities
other than `10` are not ordered at all. It is an order for sorting only where that does not come
up (`varPlaceCmp_strictWeakOn_iff`).
-/

namespace PPView.DataList

open WeakOrders

structure VarPlace where
  rec_priority : Int
  hot_level : ℚ
  ID : String
  deriving DecidableEq

/-- The arguments are what `dynamic_cast` makes of the places. -/
def varPlaceCmp (vPlaceA vPlaceB : Option VarPlace) : Bool :=
  match vPlaceA, vPlaceB with
  | some vPlaceA, some vPlaceB =>
    if vPlaceA.rec_priority = vPlaceB.rec_priority then
      if vPlaceA.hot_level > vPlaceB.hot_level then true
      else if vPlaceA.hot_level < vPlaceB.hot_level then false
      else vPlaceA.ID < vPlaceB.ID
    else if vPlaceA.rec_priority = 10 then true
    else false
  | _, _ => true

namespace VarPlace

/-- What is compared among places of one priority, the hotter the less. -/
def key (place : VarPlace) : ℚ ×ₗ String := toLex (-place.hot_level, place.ID)

theorem key_inj {a b : VarPlace} : a.key = b.key ↔ a.hot_level = b.hot_level ∧ a.ID = b.ID := by
  simp only [key, toLex_inj, Prod.mk.injEq, neg_inj]

/-- The places of priority `10` come first. -/
def rank (place : VarPlace) : ℕ := if place.rec_priority = 10 then 0 else 1

end VarPlace

variable {a b : VarPlace}

theorem key_lt_key : a.key < b.key ↔
    b.hot_level < a.hot_level ∨ a.hot_level = b.hot_level ∧ a.ID < b.ID := by
  simp only [VarPlace.key, Prod.Lex.toLex_lt_toLex, neg_lt_neg_iff, neg_inj]

/-- The rank decides, and the key among places of one priority. -/
theorem varPlaceCmp_iff : varPlaceCmp (some a) (some b) ↔
    a.rank < b.rank ∨ a.rank = b.rank ∧ (a.rec_priority = b.rec_priority ∧ a.key < b.key) := by
  rw [key_lt_key]
  by_cases heq : a.rec_priority = b.rec_priority
  · have hrank : a.rank = b.rank := by rw [VarPlace.rank, VarPlace.rank, heq]
    simp only [varPlaceCmp, hrank, lt_irrefl, heq, false_or, true_and]
    rcases lt_trichotomy a.hot_level b.hot_level with h | h | h
    · simp [h, h.not_gt, h.ne]
    · simp [h]
    · simp [h]
  · simp only [varPlaceCmp, heq, false_and, and_false, or_false]
    by_cases ha : a.rec_priority = 10
    · have hb : b.rec_priority ≠ 10 := fun hb => heq (ha.trans hb.symm)
      simp [VarPlace.rank, ha, hb]
    · by_cases hb : b.rec_priority = 10 <;> simp [VarPlace.rank, ha, hb]

/-- It is a strict weak order just where no two different places of one priority other than `10`
meet a place of a third priority. -/
theorem varPlaceCmp_strictWeakOn_iff (s : Set VarPlace) :
    StrictWeakOn s (fun a b => varPlaceCmp (some a) (some b)) ↔
      ∀ a ∈ s, ∀ b ∈ s, ∀ c ∈ s, a.rec_priority = b.rec_priority →
        a.rec_priority ≠ 10 → c.rec_priority ≠ 10 → c.rec_priority ≠ a.rec_priority →
          a.hot_level = b.hot_level ∧ a.ID = b.ID := by
  have hkey (t : Set VarPlace) : StrictWeakOn t fun a b => a.key < b.key :=
    strictWeakOn_iff.mpr ⟨fun a _ b _ => lt_asymm, fun a _ b _ c _ hac =>
      (lt_or_ge a.key b.key).imp_right fun h => h.trans_lt hac⟩
  simp only [varPlaceCmp_iff, strictWeakOn_lex, strictWeakOn_within _ (hkey _)]
  constructor
  · intro h a ha b hb c hc hab h10 hc10 hca
    have hrank {p : VarPlace} (hp : p.rec_priority ≠ 10) : p.rank = 1 := if_neg hp
    rw [← VarPlace.key_inj]
    rcases lt_trichotomy a.key b.key with hlt | heq | hlt
    · exact absurd (h 1 a ⟨ha, hrank h10⟩ c ⟨hc, hrank hc10⟩ b ⟨hb, hrank (hab ▸ h10)⟩ hab hlt) hca
    · exact heq
    · have := h 1 b ⟨hb, hrank (hab ▸ h10)⟩ c ⟨hc, hrank hc10⟩ a ⟨ha, hrank h10⟩ hab.symm hlt
      exact absurd (this.trans hab.symm) hca
  · rintro h k a ⟨ha, rfl⟩ b ⟨hb, hrank⟩ c ⟨hc, -⟩ hac hlt
    by_contra hne
    have h10 : a.rec_priority ≠ 10 ∧ b.rec_priority ≠ 10 := by
      unfold VarPlace.rank at hrank
      split_ifs at hrank with h1 h2
      · exact absurd (h1.trans h2.symm) hne
      · exact ⟨by assumption, h1⟩
    exact hlt.ne (VarPlace.key_inj.mpr (h a ha c hc b hb hac h10.1 h10.2 hne))

/-- Two places of priority `1` that are ordered, and one of priority `2` that is beside both. -/
theorem varPlaceCmp_not_strictWeak :
    ¬ StrictWeakOn Set.univ fun a b : VarPlace => varPlaceCmp (some a) (some b) := by
  rw [strictWeakOn_iff]
  intro ⟨_, hconn⟩
  have := hconn ⟨1, 3, "v1"⟩ trivial ⟨2, 2, "v2"⟩ trivial ⟨1, 1, "v3"⟩ trivial
  revert this
  simp [varPlaceCmp]

end PPView.DataList
