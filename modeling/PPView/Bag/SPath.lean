import Mathlib.Algebra.Order.Field.Rat
import Mathlib.Data.Prod.Lex
import Mathlib.Tactic.Linarith
import Mathlib.Tactic.NormNum
import PPView.Bag.BagPlan

/-!
# Paths over positions

An `SPath` lists the positions that it visits and the block of each. `points` holds the calls of
`PushV` that had an effect: the arrays `m_vPos` and `m_bPos` are read from it.

`SPathCmp` orders the paths. It takes scores for equal that differ by no more than `1e-6`, and is
the order of `SPath.key` on paths with integer scores.
-/

namespace PPView

structure SPath where
  nodeNum : Nat
  blockNum : Nat
  points : List (Nat × Nat) := []
  hot : Int := 0
  dist : Int := 0
  cross : Int := 0
  clash : Int := 0
  firstL : Int := 0
  score : ℚ := 0
  missLevel : Int := 0
  hash : UInt32 := 0
  hashPointSet : UInt32 := 0
  hashFrom : UInt32 := 0
  deriving DecidableEq

namespace SPath

/-- `Init`. -/
def init (plan : BagPlan) : SPath where
  nodeNum := plan.nodeNum
  blockNum := plan.blockNum

variable (p : SPath)

def len : Nat := p.points.length

def getVPos (i : Nat) : Nat := (p.points.getD i (0, 0)).1

/-- `m_bPos[vPos]`, which the last `PushV` of the position has set. -/
def getBPos (vPos : Nat) : Nat :=
  if vPos ≥ p.nodeNum then 0 else (p.points.reverse.lookup vPos).getD 0

def vPosList : List Nat := p.points.map Prod.fst

def pushV (bPos vPos : Nat) : SPath :=
  if bPos ≥ p.blockNum ∨ vPos ≥ p.nodeNum then p
  else if p.len ≥ p.nodeNum then p
  else { p with points := p.points ++ [(vPos, bPos)] }

def setHot (hot : Int) : SPath := { p with hot := hot }
def setDist (dist : Int) : SPath := { p with dist := dist }
def setCross (cross : Int) : SPath := { p with cross := cross }
def setClash (clash : Int) : SPath := { p with clash := clash }
def setFirstL (firstL : Int) : SPath := { p with firstL := firstL }
def setScore (score : ℚ) : SPath := { p with score := score }
def setMissLevel (missLevel : Int) : SPath := { p with missLevel := missLevel }
def setHashFrom (hashFrom : UInt32) : SPath := { p with hashFrom := hashFrom }

/-! ## Hashes -/

/-- `Hash`, of the words with their indices. -/
def hashWords (tVec : List UInt32) : UInt32 :=
  let mix := fun (hash : UInt32) (ti : UInt32 × Nat) =>
    if ti.2 % 2 = 1 then hash ^^^ ~~~((hash <<< 11) ^^^ ti.1 ^^^ (hash >>> 5))
    else hash ^^^ ((hash <<< 7) ^^^ ti.1 ^^^ (hash >>> 3))
  tVec.zipIdx.foldl mix 0 &&& 0x7FFFFFFF

def hashBits (bits : Bit160) : UInt32 :=
  hashWords ((List.range 160).map fun i => if bits.getLsbD i then 1 else 0)

/-- The positions of the block in the order of the path. -/
def posList (bPos : Nat) : List Nat := p.vPosList.filter fun vPos => p.getBPos vPos = bPos

/-- The words of `CalHashPointOrder`: the blocks, each closed by a zero. -/
def pointOrder : List UInt32 :=
  (List.range p.blockNum).flatMap fun bPos =>
    (p.posList bPos).map UInt32.ofNat ++ [0]

def calHashPointOrder : SPath :=
  if p.hash ≠ 0 then p else { p with hash := hashWords p.pointOrder }

def calHashPointSet (plan : BagPlan) : SPath :=
  if p.hashPointSet ≠ 0 then p
  else
    let vPathBid := p.vPosList.foldl (fun bid vPos => bid ||| plan.getPosBid vPos) 0
    { p with hashPointSet := hashBits vPathBid }

end SPath

/-! ## The order of the paths -/

/-- `SPathCmp`: the first path is the better one. -/
def SPathCmp (spa spb : SPath) : Bool :=
  if spa.missLevel ≠ spb.missLevel then spa.missLevel < spb.missLevel
  else if spa.clash ≠ spb.clash then spa.clash < spb.clash
  else if |spa.score - spb.score| > 1 / 1000000 then spa.score > spb.score
  else spa.hash.toNat < spb.hash.toNat

/-- What `SPathCmp` compares, the better the less. -/
abbrev SPathKey := ℤ ×ₗ ℤ ×ₗ ℚ ×ₗ ℕ

namespace SPath

def key (p : SPath) : SPathKey :=
  toLex (p.missLevel, toLex (p.clash, toLex (-p.score, p.hash.toNat)))

/-- The score is an integer. -/
def IntScore (p : SPath) : Prop := ∃ n : ℤ, p.score = n

variable {p q : SPath}

theorem key_inj : p.key = q.key ↔
    p.missLevel = q.missLevel ∧ p.clash = q.clash ∧ p.score = q.score ∧ p.hash = q.hash := by
  simp only [key, toLex_inj, Prod.mk.injEq, neg_inj, UInt32.toNat_inj]

/-- Different integers differ by more than the tolerance. -/
theorem abs_score_sub (hp : p.IntScore) (hq : q.IntScore) :
    |p.score - q.score| > 1 / 1000000 ↔ p.score ≠ q.score := by
  obtain ⟨m, hm⟩ := hp
  obtain ⟨n, hn⟩ := hq
  rw [hm, hn]
  constructor
  · rintro h heq
    rw [heq, sub_self, abs_zero] at h
    norm_num at h
  · intro hne
    have hmn : m - n ≠ 0 := sub_ne_zero.mpr fun h => hne (congrArg _ h)
    have hone : (1 : ℚ) ≤ |(m : ℚ) - n| := by exact_mod_cast Int.one_le_abs hmn
    exact lt_of_lt_of_le (by norm_num) hone

/-- On integer scores `SPathCmp` is a linear order. -/
theorem SPathCmp_iff (hp : p.IntScore) (hq : q.IntScore) : SPathCmp p q ↔ p.key < q.key := by
  have habs := abs_score_sub hp hq
  simp only [SPathCmp, key, Prod.Lex.toLex_lt_toLex, habs]
  split_ifs with hmiss hclash hscore
  · simp [hmiss]
  · simp [not_not.mp hmiss, hclash]
  · simp [not_not.mp hmiss, not_not.mp hclash, hscore]
  · simp [not_not.mp hmiss, not_not.mp hclash, not_not.mp hscore]

end SPath

end PPView
