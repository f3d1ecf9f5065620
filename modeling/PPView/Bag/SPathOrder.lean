import PPView.Bag.SPath
import PPView.Library.WeakOrders

/-!
# When the order of the paths is one

`SPathCmp` takes scores for equal that differ by no more than `1e-6`, and then the hash decides.
Being equal in that sense is not transitive: a path can be beside the better and the worse of two
paths whose scores are further apart. `SPathCmp` is a strict weak order just where the hashes of
such three paths do not contradict their scores (`SPathCmp_strictWeakOn_iff`).
-/

namespace PPView

namespace SPath

open WeakOrders

/-- The scores are taken for equal. -/
def Near (p q : SPath) : Prop := |p.score - q.score| ≤ 1 / 1000000

/-- The score of `p` is greater than that of `q` by more than the tolerance. -/
def Above (p q : SPath) : Prop := q.score + 1 / 1000000 < p.score

/-- What `SPathCmp` compares first. -/
def level (p : SPath) : ℤ ×ₗ ℤ := toLex (p.missLevel, p.clash)

/-- How `SPathCmp` compares paths of the same level. -/
def Before (p q : SPath) : Prop := p.Above q ∨ p.Near q ∧ p.hash.toNat < q.hash.toNat

variable {p q : SPath}

theorem near_iff : p.Near q ↔ ¬ p.Above q ∧ ¬ q.Above p := by
  rw [Near, Above, Above, abs_le, not_lt, not_lt]
  constructor
  · rintro ⟨hq, hp⟩
    exact ⟨by linarith, by linarith⟩
  · rintro ⟨hp, hq⟩
    exact ⟨by linarith, by linarith⟩

theorem Near.symm (h : p.Near q) : q.Near p := near_iff.mpr (near_iff.mp h).symm

theorem Above.trans {r : SPath} (h : p.Above q) (h' : q.Above r) : p.Above r := by
  unfold Above at *
  linarith

theorem Above.not_above (h : p.Above q) : ¬ q.Above p := by
  intro h'
  have := h.trans h'
  unfold Above at this
  linarith

theorem SPathCmp_iff_before :
    SPathCmp p q ↔ p.level < q.level ∨ p.level = q.level ∧ p.Before q := by
  simp only [level, Prod.Lex.toLex_lt_toLex, toLex_inj, Prod.mk.injEq, SPathCmp]
  -- one case for each of the four keys
  split_ifs with hmiss hclash hscore
  · simp [hmiss]
  · simp [not_not.mp hmiss, hclash]
  · have hnear : ¬ p.Near q := not_le.mpr hscore
    have hscores : q.score < p.score ↔ p.Above q := by
      refine ⟨fun hlt => ?_, fun habove => ?_⟩
      · by_contra habove
        refine hnear (near_iff.mpr ⟨habove, fun h => ?_⟩)
        unfold Above at h
        linarith
      · unfold Above at habove
        linarith
    simp [not_not.mp hmiss, not_not.mp hclash, Before, hnear, hscores]
  · have hnear : p.Near q := not_lt.mp hscore
    simp [not_not.mp hmiss, not_not.mp hclash, Before, hnear, (near_iff.mp hnear).1]

/-- Among paths of the same level: a path beside the better and the worse of two others is to be
between them by its hash. -/
theorem before_strictWeakOn_iff {s : Set SPath} :
    StrictWeakOn s Before ↔
      ∀ top ∈ s, ∀ mid ∈ s, ∀ bottom ∈ s, top.Above bottom → top.Near mid → mid.Near bottom →
        top.hash.toNat < mid.hash.toNat ∨ mid.hash.toNat < bottom.hash.toNat := by
  rw [strictWeakOn_iff]
  constructor
  · rintro ⟨-, hconn⟩ top htop mid hmid bottom hbottom habove htm hmb
    refine (hconn top htop mid hmid bottom hbottom (.inl habove)).imp ?_ ?_
    · exact fun h => (h.resolve_left (near_iff.mp htm).1).2
    · exact fun h => (h.resolve_left (near_iff.mp hmb).1).2
  · intro h
    refine ⟨?_, fun a ha b hb c hc hac => ?_⟩
    · rintro a - b - (hab | ⟨hnear, hlt⟩) (hba | ⟨hnear', hlt'⟩)
      · exact hab.not_above hba
      · exact (near_iff.mp hnear').2 hab
      · exact (near_iff.mp hnear).2 hba
      · exact lt_asymm hlt hlt'
    by_cases hab : a.Above b
    · exact .inl (.inl hab)
    by_cases hbc : b.Above c
    · exact .inr (.inl hbc)
    -- `b` is below `a` and above `c` by its hash only, if at all
    rcases hac with hac | ⟨hnear, hlt⟩
    · have hnearab : a.Near b := near_iff.mpr ⟨hab, fun hba => hbc (hba.trans hac)⟩
      have hnearbc : b.Near c := near_iff.mpr ⟨hbc, fun hcb => hab (hac.trans hcb)⟩
      exact (h a ha b hb c hc hac hnearab hnearbc).imp (fun h => .inr ⟨hnearab, h⟩)
        fun h => .inr ⟨hnearbc, h⟩
    · by_cases hba : b.Above a
      · have hnearbc : b.Near c :=
          near_iff.mpr ⟨hbc, fun hcb => (near_iff.mp hnear).2 (hcb.trans hba)⟩
        rcases h b hb c hc a ha hba hnearbc hnear.symm with h | h
        · exact .inr (.inr ⟨hnearbc, h⟩)
        · exact absurd h hlt.not_gt
      · have hnearab : a.Near b := near_iff.mpr ⟨hab, hba⟩
        by_cases hcb : c.Above b
        · rcases h c hc a ha b hb hcb hnear.symm hnearab with h | h
          · exact absurd h hlt.not_gt
          · exact .inl (.inr ⟨hnearab, h⟩)
        · rcases lt_or_ge a.hash.toNat b.hash.toNat with h | h
          · exact .inl (.inr ⟨hnearab, h⟩)
          · exact .inr (.inr ⟨near_iff.mpr ⟨hbc, hcb⟩, lt_of_le_of_lt h hlt⟩)

/-- `SPathCmp` is a strict weak order among the paths of `s` just where a path that is near to the
better and to the worse of two paths of its level is between them by its hash. -/
theorem SPathCmp_strictWeakOn_iff (s : Set SPath) :
    StrictWeakOn s (fun p q => SPathCmp p q) ↔
      ∀ top ∈ s, ∀ mid ∈ s, ∀ bottom ∈ s, top.level = mid.level → mid.level = bottom.level →
        top.Above bottom → top.Near mid → mid.Near bottom →
          top.hash.toNat < mid.hash.toNat ∨ mid.hash.toNat < bottom.hash.toNat := by
  simp only [SPathCmp_iff_before, strictWeakOn_lex, before_strictWeakOn_iff]
  constructor
  · intro h top htop mid hmid bottom hbottom htm hmb
    exact h mid.level top ⟨htop, htm⟩ mid ⟨hmid, rfl⟩ bottom ⟨hbottom, hmb.symm⟩
  · rintro h k top ⟨htop, htk⟩ mid ⟨hmid, hmk⟩ bottom ⟨hbottom, hbk⟩
    exact h top htop mid hmid bottom hbottom (htk.trans hmk.symm) (hmk.trans hbk.symm)

/-- The path of hash `2` is beside both others, which are ordered. -/
theorem SPathCmp_not_strictWeak :
    ¬ StrictWeakOn Set.univ fun p q : SPath => SPathCmp p q := by
  rw [strictWeakOn_iff]
  intro ⟨_, hconn⟩
  have := hconn { nodeNum := 1, blockNum := 1, score := 16 / 10000000, hash := 3 } trivial
    { nodeNum := 1, blockNum := 1, score := 8 / 10000000, hash := 2 } trivial
    { nodeNum := 1, blockNum := 1, score := 0, hash := 1 } trivial
  revert this
  norm_num [SPathCmp]
  decide

end SPath

end PPView
