import Mathlib.Tactic.Common

/-!
# Parameters

The constants and settings that bound the searches, with the defaults of the source. The limits of
the heaps come from a file; they are positive.
-/

namespace PPView

/-- `BagParam::m_dayNodeLimit`. -/
def dayNodeLimit : Nat := 20

/-- The settings of `BagParam`, the weights of `PathEval` and the debug flags of the workers. A
flag of zero is the normal run, in which the searches prune. -/
structure BagParam where
  dfsDayHeapLimit : Nat := 1
  dfsSPSHashHeapLimit : Nat := 2
  dfsDayHeapLimit_pos : 0 < dfsDayHeapLimit := by decide
  dfsSPSHashHeapLimit_pos : 0 < dfsSPSHashHeapLimit := by decide
  nonWalkPenalty : Int := 2000
  maxWalkDay : Int := 3000
  firstLPenalty : Int := 3000
  dfsDbg : Nat := 0
  dwDbg : Nat := 0

end PPView
