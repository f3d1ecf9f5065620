import Mathlib.Data.Prod.Lex
import Mathlib.Data.String.Basic
import PPView.Library.Strings

/-!
# Items of traffic

The ways from one place to another, and the order in which `TrafDistCmp` prefers them: real time
data first, then the order that the traffic service gives, then the distance, and then the time.
-/

namespace PPView.TrafficData

def TRAF_MODE_TAXI : Int := 0
def TRAF_MODE_WALKING : Int := 1
def TRAF_MODE_BUS : Int := 2

def TRAF_STAT_STATIC : Int := 0
def TRAF_STAT_REAL_TIME : Int := 1

structure TrafficItem where
  _mode : Int := TRAF_MODE_WALKING
  _time : Int := 0
  _dist : Int := 0
  m_realDist : Int := 0
  m_stat : Int := TRAF_STAT_STATIC
  m_order : Int := -1
  m_custom : Bool := false
  m_startP : String := ""
  m_stopP : String := ""
  _mid : String := ""
  m_trafficItemList : List ℕ := []
  deriving DecidableEq

/-- The copy lists no other items. -/
def TrafficItem.copy (item : TrafficItem) : TrafficItem := { item with m_trafficItemList := [] }

/-! ## Keys -/

def sepString (input : String) (sep : Char) : List String :=
  if input = "" then [] else (input.toList.splitOn sep).map String.ofList

/-- The parts at `m_trafKeySplit`. -/
def keyParts (trafKey : String) : List String := sepString trafKey '_'

theorem sepString_eq {input : String} {sep : Char} {parts : List String} (hne : input ≠ "")
    (htext : input.toList = [sep].intercalate (parts.map String.toList))
    (hsep : ∀ part ∈ parts, sep ∉ part.toList) : sepString input sep = parts := by
  have hparts : parts.map String.toList ≠ [] := by
    intro hnil
    rw [hnil] at htext
    exact hne (String.toList_inj.mp htext)
  rw [sepString, if_neg hne, htext, List.splitOn_intercalate]
  · simp
  · simpa using hsep
  · exact hparts

theorem keyParts_pair {start stop : String} (hstart : '_' ∉ start.toList)
    (hstop : '_' ∉ stop.toList) : keyParts (start ++ "_" ++ stop) = [start, stop] := by
  apply sepString_eq
  · intro h
    simpa using congrArg String.toList h
  · simp [List.intercalate]
  · simp [hstart, hstop]

/-- A key begins with its first two parts, which do not have the separator in them. -/
theorem prefix_of_keyParts {trafKey start stop : String} {rest : List String}
    (h : keyParts trafKey = start :: stop :: rest) :
    '_' ∉ start.toList ∧ '_' ∉ stop.toList ∧
      (start ++ "_" ++ stop).toList <+: trafKey.toList := by
  unfold keyParts sepString at h
  split_ifs at h
  have hinverse : String.toList ∘ String.ofList = id := funext fun _ => String.toList_ofList
  have hsplit := congrArg (List.map String.toList) h
  rw [List.map_map, hinverse, List.map_id, List.map_cons, List.map_cons] at hsplit
  have hsep : ∀ part ∈ trafKey.toList.splitOn '_', '_' ∉ part :=
    fun part hpart => Strings.notMem_of_mem_splitOn hpart
  rw [hsplit] at hsep
  have htext : ['_'].intercalate (trafKey.toList.splitOn '_') = trafKey.toList :=
    List.intercalate_splitOn '_'
  rw [hsplit] at htext
  refine ⟨hsep _ (by simp), hsep _ (by simp), ?_⟩
  rw [← htext]
  cases rest with
  | nil => simp [List.intercalate]
  | cons part rest => simp [List.intercalate, List.intersperse]

/-! ## The comparator -/

def trafDistCmp (pa pb : TrafficItem) : Bool :=
  if pa.m_stat > pb.m_stat then true
  else if pa.m_stat < pb.m_stat then false
  else if pa.m_order ≠ pb.m_order then
    if pa.m_order > 0 ∧ pb.m_order > 0 then pa.m_order < pb.m_order
    else pa.m_order > pb.m_order
  else if pa._dist < pb._dist then true
  else if pa._dist > pb._dist then false
  else pa._time < pb._time

/-- Positive orders come first, from the least on, and the others follow downwards. -/
def orderKey (m_order : Int) : ℕ ×ₗ ℕ := toLex (if 0 < m_order then 0 else 1, m_order.natAbs)

/-- Where an item stands for the comparator. -/
def trafDistKey (item : TrafficItem) : Int ×ₗ (ℕ ×ₗ ℕ) ×ₗ Int ×ₗ Int :=
  toLex (-item.m_stat, toLex (orderKey item.m_order, toLex (item._dist, item._time)))

theorem orderKey_lt_iff {a b : Int} :
    orderKey a < orderKey b ↔ a ≠ b ∧ if a > 0 ∧ b > 0 then a < b else a > b := by
  unfold orderKey
  rw [Prod.Lex.toLex_lt_toLex]
  grind

theorem orderKey_inj {a b : Int} : orderKey a = orderKey b ↔ a = b := by
  unfold orderKey
  rw [toLex_inj, Prod.mk.injEq]
  grind

theorem trafDistCmp_iff {pa pb : TrafficItem} :
    trafDistCmp pa pb ↔ trafDistKey pa < trafDistKey pb := by
  unfold trafDistCmp trafDistKey
  simp only [Prod.Lex.toLex_lt_toLex, orderKey_lt_iff, orderKey_inj]
  grind

/-- Items of one mode, of which the comparator prefers neither. -/
def Tied (a b : TrafficItem) : Prop :=
  a._mode = b._mode ∧ ¬ trafDistCmp a b ∧ ¬ trafDistCmp b a

end PPView.TrafficData
