import Mathlib.Data.List.Induction
import PPView.TrafficData.TrafficItem

/-!
# The choice of traffic

`TrafficData::ChooseTraf` selects one of the ways between two places. It scans the map of the ways
for the best one of each mode, and then decides between the modes by the preference and by how far
the best ones go. The map is unordered, so that equal ones may be met in any order.
-/

namespace PPView.TrafficData

def TRAF_PREFER_TAXI : ℕ := 0x01
def TRAF_PREFER_WALKING : ℕ := 0x02
def TRAF_PREFER_BUS : ℕ := 0x04
def TRAF_PREFER_UBER : ℕ := 0x08
def TRAF_PREFER_DRIVING : ℕ := 0x10
def TRAF_PREFER_CAR : ℕ := TRAF_PREFER_TAXI ||| TRAF_PREFER_UBER ||| TRAF_PREFER_DRIVING
def TRAF_PREFER_AI : ℕ := TRAF_PREFER_CAR ||| TRAF_PREFER_WALKING ||| TRAF_PREFER_BUS

def kWalkDistLimit : Int := 2000
def kWalkTaxiDistLimit : Int := 1000
def kTaxiUseLimit : Int := 800
def kWalkBusTaxiDistLimit : Int := 1000
def kWalkBusTaxiDistUpperLimit : Int := 2000

/-! ## The best of each mode -/

structure Bests where
  bestWalk : Option TrafficItem := none
  bestBus : Option TrafficItem := none
  bestTaxi : Option TrafficItem := none

/-- There is no best item yet, or the comparator prefers this one. -/
def better (trafItem : TrafficItem) (best : Option TrafficItem) : Bool :=
  best.all (trafDistCmp trafItem)

def Bests.scan (bests : Bests) (trafItem : TrafficItem) : Bests :=
  if trafItem._mode = TRAF_MODE_TAXI then
    if better trafItem bests.bestTaxi then { bests with bestTaxi := some trafItem } else bests
  else if trafItem._mode = TRAF_MODE_WALKING then
    if better trafItem bests.bestWalk then
      -- three hours on foot are too long
      if trafItem._time < 3600 * 3 then { bests with bestWalk := some trafItem } else bests
    else bests
  else if trafItem._mode = TRAF_MODE_BUS then
    if better trafItem bests.bestBus then { bests with bestBus := some trafItem } else bests
  else bests

/-! ## The preferences -/

namespace Bests

variable (bests : Bests)

def preferWalking : Option TrafficItem :=
  bests.bestWalk.filter (·.m_realDist ≤ kWalkDistLimit) <|> bests.bestBus <|>
    bests.bestWalk.filter (·.m_realDist ≤ kWalkBusTaxiDistUpperLimit) <|> bests.bestTaxi <|>
    bests.bestWalk

def preferAI : Option TrafficItem :=
  bests.bestWalk.filter (·.m_realDist ≤ kWalkBusTaxiDistLimit) <|> bests.bestBus <|>
    bests.bestTaxi <|> bests.bestWalk

def preferTaxi : Option TrafficItem :=
  bests.bestWalk.filter (·.m_realDist ≤ kWalkTaxiDistLimit) <|>
    bests.bestTaxi.filter (kTaxiUseLimit ≤ ·.m_realDist) <|> bests.bestWalk <|> bests.bestTaxi

end Bests

/-- The item whose `_mid` becomes `selectMid`. The map is given in the order of its iteration. -/
def chooseTraf (midMap : List TrafficItem) (trafPrefer : ℕ) : Option TrafficItem :=
  let bests := midMap.foldl Bests.scan {}
  if trafPrefer = TRAF_PREFER_WALKING then bests.preferWalking
  else if trafPrefer = TRAF_PREFER_AI then bests.preferAI
  else if trafPrefer = TRAF_PREFER_TAXI then bests.preferTaxi
  else none

/-! ## The scan -/

/-- An item that the scan takes. -/
def Usable (item : TrafficItem) : Prop :=
  item._mode = TRAF_MODE_TAXI ∨ item._mode = TRAF_MODE_BUS ∨
    item._mode = TRAF_MODE_WALKING ∧ item._time < 3600 * 3

instance : DecidablePred Usable := fun _ => by unfold Usable; infer_instance

/-- The best item of a mode, the first of equal ones. -/
def bestOf (mode : Int) (midMap : List TrafficItem) : Option TrafficItem :=
  midMap.foldl (fun best item =>
    if item._mode = mode ∧ Usable item ∧ better item best then some item else best) none

variable {midMap midMap' : List TrafficItem} {mode : Int}

theorem bestOf_concat (mode : Int) (midMap : List TrafficItem) (item : TrafficItem) :
    bestOf mode (midMap ++ [item]) =
      if item._mode = mode ∧ Usable item ∧ better item (bestOf mode midMap) then some item
      else bestOf mode midMap := by
  rw [bestOf, List.foldl_append]
  rfl

/-- The single scan finds what a scan for each mode finds. -/
theorem foldl_scan (midMap : List TrafficItem) :
    midMap.foldl Bests.scan {} =
      ⟨bestOf TRAF_MODE_WALKING midMap, bestOf TRAF_MODE_BUS midMap,
        bestOf TRAF_MODE_TAXI midMap⟩ := by
  induction midMap using List.reverseRecOn with
  | nil => rfl
  | append_singleton midMap item ih =>
    rw [List.foldl_append, ih]
    simp only [List.foldl_cons, List.foldl_nil, bestOf_concat, Bests.scan, Usable]
    grind [TRAF_MODE_WALKING, TRAF_MODE_BUS, TRAF_MODE_TAXI]

theorem bestOf_eq_none :
    bestOf mode midMap = none ↔ ∀ item ∈ midMap, item._mode = mode → ¬ Usable item := by
  induction midMap using List.reverseRecOn with
  | nil => simp [bestOf]
  | append_singleton midMap item ih =>
    rw [bestOf_concat, List.forall_mem_append, List.forall_mem_singleton, ← ih]
    split_ifs with h
    · simp [h.1, h.2.1]
    · rw [iff_self_and]
      intro hnone hmode husable
      exact h ⟨hmode, husable, by rw [hnone]; rfl⟩

/-- A usable item to which the comparator prefers no usable one of its mode. -/
def IsBest (midMap : List TrafficItem) (a : TrafficItem) : Prop :=
  a ∈ midMap ∧ Usable a ∧ ∀ b ∈ midMap, b._mode = a._mode → Usable b → ¬ trafDistCmp b a

theorem isBest_of_mem_bestOf {a : TrafficItem} (h : a ∈ bestOf mode midMap) :
    a._mode = mode ∧ IsBest midMap a := by
  induction midMap using List.reverseRecOn generalizing a with
  | nil => contradiction
  | append_singleton midMap item ih =>
    rw [bestOf_concat] at h
    split_ifs at h with hitem
    · obtain rfl := Option.some.inj h
      obtain ⟨hmode, husable, hbetter⟩ := hitem
      refine ⟨hmode, by simp, husable, ?_⟩
      rw [List.forall_mem_append, List.forall_mem_singleton]
      constructor
      · intro b hb hbmode hbusable hcmp
        -- what is preferred to the new best is preferred to the old one
        cases hbest : bestOf mode midMap with
        | none => exact bestOf_eq_none.mp hbest b hb (hbmode.trans hmode) hbusable
        | some best =>
          obtain ⟨hbestMode, -, -, hleast⟩ := ih hbest
          rw [hbest] at hbetter
          apply hleast b hb (hbmode.trans (hmode.trans hbestMode.symm)) hbusable
          rw [trafDistCmp_iff] at hcmp ⊢
          exact hcmp.trans (trafDistCmp_iff.mp hbetter)
      · intro _ _ hcmp
        exact lt_irrefl _ (trafDistCmp_iff.mp hcmp)
    · obtain ⟨hmode, hmem, husable, hleast⟩ := ih h
      refine ⟨hmode, by simp [hmem], husable, ?_⟩
      rw [List.forall_mem_append, List.forall_mem_singleton]
      refine ⟨hleast, fun hitemMode hitemUsable hcmp => ?_⟩
      exact hitem ⟨hitemMode.trans hmode, hitemUsable, by rw [h]; exact hcmp⟩

theorem IsBest.tied {a b : TrafficItem} (ha : IsBest midMap a) (hb : IsBest midMap b)
    (hmode : a._mode = b._mode) : Tied a b :=
  ⟨hmode, hb.2.2 a ha.1 hmode ha.2.1, ha.2.2 b hb.1 hmode.symm hb.2.1⟩

theorem IsBest.perm {a : TrafficItem} (h : midMap.Perm midMap') (ha : IsBest midMap' a) :
    IsBest midMap a := by
  obtain ⟨hmem, husable, hbest⟩ := ha
  exact ⟨h.mem_iff.mpr hmem, husable, fun b hb => hbest b (h.mem_iff.mp hb)⟩

/-! ## The order of the map -/

theorem rel_orElse {α : Type*} {R : α → α → Prop} {a a' b b' : Option α} (ha : Option.Rel R a a')
    (hb : Option.Rel R b b') : Option.Rel R (a <|> b) (a' <|> b') := by
  cases ha with
  | some h => exact .some h
  | none => exact hb

theorem rel_filter {α : Type*} {R : α → α → Prop} {p : α → Bool} {a a' : Option α}
    (ha : Option.Rel R a a') (hp : ∀ x ∈ a, ∀ y ∈ a', p x = p y) :
    Option.Rel R (a.filter p) (a'.filter p) := by
  cases ha with
  | none => exact .none
  | @some x y h =>
    have hxy := hp x rfl y rfl
    rw [Option.filter_some, Option.filter_some, ← hxy]
    split_ifs
    · exact .some h
    · exact .none

/-- In any order of the map, the best items of a mode are equal ones. -/
theorem rel_bestOf (h : midMap.Perm midMap') (mode : Int) :
    Option.Rel Tied (bestOf mode midMap) (bestOf mode midMap') := by
  cases ha : bestOf mode midMap with
  | none =>
    have hnone : bestOf mode midMap' = none := by
      rw [bestOf_eq_none] at ha ⊢
      exact fun item hitem => ha item (h.mem_iff.mpr hitem)
    rw [hnone]
    exact .none
  | some a =>
    obtain ⟨hmode, hbest⟩ := isBest_of_mem_bestOf ha
    cases hb : bestOf mode midMap' with
    | none => exact absurd hbest.2.1 (bestOf_eq_none.mp hb a (h.mem_iff.mp hbest.1) hmode)
    | some b =>
      obtain ⟨hmode', hbest'⟩ := isBest_of_mem_bestOf hb
      exact .some (hbest.tied (hbest'.perm h) (hmode.trans hmode'.symm))

/-- How far a preference walks in any case. -/
def walkLimit (trafPrefer : ℕ) : Int :=
  if trafPrefer = TRAF_PREFER_WALKING then kWalkDistLimit
  else if trafPrefer = TRAF_PREFER_AI then kWalkBusTaxiDistLimit
  else kWalkTaxiDistLimit

/-- On which side of the limit for its mode the item is. -/
def withinLimit (trafPrefer : ℕ) (item : TrafficItem) : Bool :=
  if item._mode = TRAF_MODE_WALKING then item.m_realDist ≤ walkLimit trafPrefer
  else trafPrefer = TRAF_PREFER_TAXI ∧ item._mode = TRAF_MODE_TAXI ∧ kTaxiUseLimit ≤ item.m_realDist

/-- What is selected does not depend on the order of the map, up to equal items. -/
def OrderFree (trafPrefer : ℕ) (midMap : List TrafficItem) : Prop :=
  ∀ midMap', midMap.Perm midMap' →
    Option.Rel Tied (chooseTraf midMap trafPrefer) (chooseTraf midMap' trafPrefer)

/-- The best items of each mode are on the same side of the limit. -/
def SameSide (trafPrefer : ℕ) (midMap : List TrafficItem) : Prop :=
  ∀ a b, IsBest midMap a → IsBest midMap b → a._mode = b._mode →
    withinLimit trafPrefer a = withinLimit trafPrefer b

theorem SameSide.rel_filter {trafPrefer : ℕ} (hside : SameSide trafPrefer midMap)
    (h : midMap.Perm midMap') {p : TrafficItem → Bool}
    (hp : ∀ item, item._mode = mode → withinLimit trafPrefer item = p item) :
    Option.Rel Tied ((bestOf mode midMap).filter p) ((bestOf mode midMap').filter p) := by
  apply TrafficData.rel_filter (rel_bestOf h mode)
  intro a ha b hb
  obtain ⟨hmode, hbest⟩ := isBest_of_mem_bestOf ha
  obtain ⟨hmode', hbest'⟩ := isBest_of_mem_bestOf hb
  rw [← hp a hmode, ← hp b hmode']
  exact hside a b hbest (hbest'.perm h) (hmode.trans hmode'.symm)

theorem orderFree_of_sameSide {trafPrefer : ℕ} (hside : SameSide trafPrefer midMap) :
    OrderFree trafPrefer midMap := by
  intro midMap' h
  have hwalk := rel_bestOf h TRAF_MODE_WALKING
  have hbus := rel_bestOf h TRAF_MODE_BUS
  have htaxi := rel_bestOf h TRAF_MODE_TAXI
  have hnear : ∀ limit, walkLimit trafPrefer = limit →
      Option.Rel Tied ((bestOf TRAF_MODE_WALKING midMap).filter (·.m_realDist ≤ limit))
        ((bestOf TRAF_MODE_WALKING midMap').filter (·.m_realDist ≤ limit)) := by
    rintro limit rfl
    exact hside.rel_filter h fun item hmode => by rw [withinLimit, if_pos hmode]
  unfold chooseTraf
  rw [foldl_scan, foldl_scan]
  dsimp only
  split_ifs with hwalking hai htaxiPrefer
  · have hlimit : walkLimit trafPrefer = 2000 := if_pos hwalking
    exact rel_orElse (hnear _ hlimit) (rel_orElse hbus (rel_orElse (hnear _ hlimit)
      (rel_orElse htaxi hwalk)))
  · have hlimit : walkLimit trafPrefer = 1000 := by rw [walkLimit, if_neg hwalking, if_pos hai]; rfl
    exact rel_orElse (hnear _ hlimit) (rel_orElse hbus (rel_orElse htaxi hwalk))
  · have hlimit : walkLimit trafPrefer = 1000 := by rw [walkLimit, if_neg hwalking, if_neg hai]; rfl
    refine rel_orElse (hnear _ hlimit) (rel_orElse ?_ (rel_orElse hwalk htaxi))
    apply hside.rel_filter h
    intro item hmode
    simp [withinLimit, htaxiPrefer, hmode, TRAF_MODE_TAXI, TRAF_MODE_WALKING]
  · exact .none

/-! ## What is selected -/

/-- An item that the preference can select: for a taxi, no bus is taken instead. -/
def Offered (trafPrefer : ℕ) (item : TrafficItem) : Prop :=
  Usable item ∧ (trafPrefer = TRAF_PREFER_TAXI → item._mode ≠ TRAF_MODE_BUS)

/-- If an item is there, one is selected. -/
def SelectsSome (trafPrefer : ℕ) (midMap : List TrafficItem) : Prop :=
  (∃ item ∈ midMap, Usable item) → ∃ item ∈ midMap, chooseTraf midMap trafPrefer = some item

namespace Bests

variable {bests : Bests} {x : TrafficItem}

theorem mem_preferWalking (h : x ∈ bests.preferWalking) :
    x ∈ bests.bestWalk ∨ x ∈ bests.bestBus ∨ x ∈ bests.bestTaxi := by
  simp only [preferWalking, Option.orElse_eq_orElse, Option.orElse_eq_or, Option.mem_def,
    Option.or_eq_some_iff, Option.filter_eq_some_iff] at h
  tauto

theorem mem_preferAI (h : x ∈ bests.preferAI) :
    x ∈ bests.bestWalk ∨ x ∈ bests.bestBus ∨ x ∈ bests.bestTaxi := by
  simp only [preferAI, Option.orElse_eq_orElse, Option.orElse_eq_or, Option.mem_def,
    Option.or_eq_some_iff, Option.filter_eq_some_iff] at h
  tauto

theorem mem_preferTaxi (h : x ∈ bests.preferTaxi) : x ∈ bests.bestWalk ∨ x ∈ bests.bestTaxi := by
  simp only [preferTaxi, Option.orElse_eq_orElse, Option.orElse_eq_or, Option.mem_def,
    Option.or_eq_some_iff, Option.filter_eq_some_iff] at h
  tauto

theorem preferWalking_eq_none (h : bests.preferWalking = none) :
    bests.bestWalk = none ∧ bests.bestBus = none ∧ bests.bestTaxi = none := by
  simp only [preferWalking, Option.orElse_eq_orElse, Option.orElse_eq_or,
    Option.or_eq_none_iff] at h
  tauto

theorem preferAI_eq_none (h : bests.preferAI = none) :
    bests.bestWalk = none ∧ bests.bestBus = none ∧ bests.bestTaxi = none := by
  simp only [preferAI, Option.orElse_eq_orElse, Option.orElse_eq_or, Option.or_eq_none_iff] at h
  tauto

theorem preferTaxi_eq_none (h : bests.preferTaxi = none) :
    bests.bestWalk = none ∧ bests.bestTaxi = none := by
  simp only [preferTaxi, Option.orElse_eq_orElse, Option.orElse_eq_or, Option.or_eq_none_iff] at h
  tauto

end Bests

theorem offered_of_chooseTraf {trafPrefer : ℕ} {x : TrafficItem}
    (h : chooseTraf midMap trafPrefer = some x) : x ∈ midMap ∧ Offered trafPrefer x := by
  have hbest : ∀ mode, (trafPrefer = TRAF_PREFER_TAXI → mode ≠ TRAF_MODE_BUS) →
      x ∈ bestOf mode midMap → x ∈ midMap ∧ Offered trafPrefer x := by
    intro mode hmode hx
    obtain ⟨rfl, hmem, husable, -⟩ := isBest_of_mem_bestOf hx
    exact ⟨hmem, husable, hmode⟩
  unfold chooseTraf at h
  rw [foldl_scan] at h
  dsimp only at h
  split_ifs at h with hwalking hai htaxi
  · have hprefer : trafPrefer ≠ TRAF_PREFER_TAXI := by rw [hwalking]; decide
    rcases Bests.mem_preferWalking h with hx | hx | hx
    all_goals exact hbest _ (absurd · hprefer) hx
  · have hprefer : trafPrefer ≠ TRAF_PREFER_TAXI := by rw [hai]; decide
    rcases Bests.mem_preferAI h with hx | hx | hx
    all_goals exact hbest _ (absurd · hprefer) hx
  · rcases Bests.mem_preferTaxi h with hx | hx
    · exact hbest TRAF_MODE_WALKING (fun _ => by decide) hx
    · exact hbest TRAF_MODE_TAXI (fun _ => by decide) hx

theorem not_offered_of_chooseTraf {trafPrefer : ℕ}
    (hprefer : trafPrefer ∈ [TRAF_PREFER_AI, TRAF_PREFER_WALKING, TRAF_PREFER_TAXI])
    (h : chooseTraf midMap trafPrefer = none) : ∀ item ∈ midMap, ¬ Offered trafPrefer item := by
  rintro item hitem ⟨husable, hbus⟩
  have hbest : bestOf item._mode midMap ≠ none :=
    fun hnone => bestOf_eq_none.mp hnone item hitem rfl husable
  unfold chooseTraf at h
  rw [foldl_scan] at h
  dsimp only at h
  split_ifs at h with hwalking hai htaxi
  · obtain ⟨hwalk, hbus, htaxi⟩ := Bests.preferWalking_eq_none h
    rcases husable with hmode | hmode | ⟨hmode, -⟩ <;> rw [hmode] at hbest <;> contradiction
  · obtain ⟨hwalk, hbus, htaxi⟩ := Bests.preferAI_eq_none h
    rcases husable with hmode | hmode | ⟨hmode, -⟩ <;> rw [hmode] at hbest <;> contradiction
  · obtain ⟨hwalk, hcar⟩ := Bests.preferTaxi_eq_none h
    rcases husable with hmode | hmode | ⟨hmode, -⟩
    · rw [hmode] at hbest
      contradiction
    · exact hbus htaxi hmode
    · rw [hmode] at hbest
      contradiction
  · simp [hwalking, hai, htaxi] at hprefer

/-- An item is selected exactly if one is there that the preference can select, and it is the same
up to equal items in any order of the map if the best ones do not lie on both sides of a limit. -/
theorem chooseTraf_selects {trafPrefer : ℕ}
    (hprefer : trafPrefer ∈ [TRAF_PREFER_AI, TRAF_PREFER_WALKING, TRAF_PREFER_TAXI])
    (midMap : List TrafficItem) :
    ((∃ item ∈ midMap, Offered trafPrefer item) ↔
      ∃ item ∈ midMap, chooseTraf midMap trafPrefer = some item) ∧
    (SameSide trafPrefer midMap → OrderFree trafPrefer midMap) := by
  refine ⟨⟨?_, ?_⟩, orderFree_of_sameSide⟩
  · rintro ⟨item, hitem, hoffered⟩
    cases hchosen : chooseTraf midMap trafPrefer with
    | none => exact absurd hoffered (not_offered_of_chooseTraf hprefer hchosen item hitem)
    | some x => exact ⟨x, (offered_of_chooseTraf hchosen).1, rfl⟩
  · rintro ⟨item, hitem, hchosen⟩
    exact ⟨item, hitem, (offered_of_chooseTraf hchosen).2⟩

/-- A way of each mode, of which the walk is a kilometre and a half. -/
def oneOfEach : List TrafficItem :=
  [{ _time := 1200, m_realDist := 1500, _mid := "w" }, { _mode := TRAF_MODE_BUS, _mid := "b" },
    { _mode := TRAF_MODE_TAXI, m_realDist := 1600, _mid := "t" }]

theorem chooseTraf_selects_oneOfEach :
    (∃ item ∈ oneOfEach, chooseTraf oneOfEach TRAF_PREFER_TAXI = some item) ∧
      OrderFree TRAF_PREFER_TAXI oneOfEach := by
  obtain ⟨hselects, hfree⟩ := chooseTraf_selects (by decide : TRAF_PREFER_TAXI ∈ _)
    oneOfEach
  constructor
  · apply hselects.mp
    exact ⟨oneOfEach[0], by decide, by decide, fun _ => by decide⟩
  · apply hfree
    intro a b ha hb hmode
    have heq : ∀ a ∈ oneOfEach, ∀ b ∈ oneOfEach, a._mode = b._mode → a = b := by decide
    rw [heq a ha.1 b hb.1 hmode]

def busRide : TrafficItem := { _mode := TRAF_MODE_BUS, _mid := "b" }

/-- Two walks that the comparator takes for equal. -/
def nearWalk : TrafficItem := { _time := 900, m_realDist := 900, _mid := "w1" }
def farWalk : TrafficItem := { _time := 900, m_realDist := 1100, _mid := "w2" }

/-- For a taxi, a bus is not selected; and the walk that is met first decides if one walks. -/
theorem not_selectsSome_busRide :
    ¬ SelectsSome TRAF_PREFER_TAXI [busRide] ∧
      ¬ OrderFree TRAF_PREFER_AI [nearWalk, farWalk, busRide] := by
  constructor
  · intro h
    obtain ⟨item, -, hitem⟩ := h ⟨busRide, by decide, by decide⟩
    have hnone : chooseTraf [busRide] TRAF_PREFER_TAXI = none := by decide
    rw [hnone] at hitem
    contradiction
  · intro h
    have hrel := h [farWalk, nearWalk, busRide] (.swap _ _ _)
    have hwalk : chooseTraf [nearWalk, farWalk, busRide] TRAF_PREFER_AI = some nearWalk := by decide
    have hbus : chooseTraf [farWalk, nearWalk, busRide] TRAF_PREFER_AI = some busRide := by decide
    rw [hwalk, hbus] at hrel
    cases hrel with
    | some htied => exact absurd htied.1 (by decide)

end PPView.TrafficData
