import PPView.Plan.MergeKeyNode

/-!
# The tolerant merge of key nodes

`KeyNodeBuilder::MergeKeyNodeFaultToLerant` runs where `MergeKeyNode` has reported a conflict. It
keeps all nodes and, for each pair, repairs step by step: the arrival is shortened, then the
departure, then the traffic is dropped, then both stays are. After each repair the windows are
trimmed if they have enough room. `flagsLeft` counts the repairs that remain, which bounds the
rounds; the pair condition of earlier pairs survives because a later pair leaves the beginning of
its first node alone.
-/

namespace PPView

open KeyNode

/-! ## The source -/

/-- The types of places that the zip times tell apart. -/
inductive LYPlaceType where
  | airport
  | station
  | busStation
  | carStore
  | hotel
  | other
  deriving DecidableEq, Repr

/-- The members of `BasePlan` that only the tolerant merge reads. -/
structure ZipParam where
  type : String
  placeType : LYPlace → LYPlaceType
  entryZipAirportTimeCost : Int := 3600
  entryZipStationTimeCost : Int := 900
  entryZipBusStationTimeCost : Int := 900
  entryZipCarStoreTimeCost : Int := 900
  entryHotelTimeCost : Int := 0
  exitZipAirportTimeCost : Int := 3600
  exitZipStationTimeCost : Int := 900
  exitZipBusStationTimeCost : Int := 900
  exitZipCarStoreTimeCost : Int := 900
  exitHotelTimeCost : Int := 0

namespace ZipParam

def getEntryZipTime (param : ZipParam) (place : LYPlace) : Int :=
  match param.placeType place with
  | .airport => param.entryZipAirportTimeCost
  | .station => param.entryZipStationTimeCost
  | .busStation => param.entryZipBusStationTimeCost
  | .hotel => param.entryHotelTimeCost
  | _ => param.entryZipCarStoreTimeCost

def getExitZipTime (param : ZipParam) (place : LYPlace) : Int :=
  match param.placeType place with
  | .airport => param.exitZipAirportTimeCost
  | .station => param.exitZipStationTimeCost
  | .busStation => param.exitZipBusStationTimeCost
  | .hotel => param.exitHotelTimeCost
  | _ => param.exitZipCarStoreTimeCost

end ZipParam

namespace KeyNode

/-- The node has the function `f`. -/
def hasFunc (k : KeyNode) (f : KeyFunc) : Bool := k.type.bits &&& f.bits != 0

/-- All durations of an arrival become `dur`, and the window ends with it. -/
def zipArrive (dur : Int) (k : KeyNode) : KeyNode :=
  if k.hasFunc .arrive then (k.setDur ⟨dur, dur, dur, dur, dur⟩).setClose (k.openTime + dur) else k

/-- All durations of a departure become `dur`, and the window begins with it. -/
def zipDepart (dur : Int) (k : KeyNode) : KeyNode :=
  if k.hasFunc .depart then (k.setDur ⟨dur, dur, dur, dur, dur⟩).setOpen (k.closeTime - dur) else k

end KeyNode

/-- What the loop `while (!success)` changes. -/
structure PairState where
  curKeynode : KeyNode
  nextKeynode : KeyNode
  trafTime : Int
  zipArv : Bool := false
  zipDept : Bool := false
  zipTraffic : Bool := false
  zeroArvDept : Bool := false
  deriving DecidableEq

namespace PairState

def timeCover (s : PairState) : Int :=
  s.curKeynode.closeTime + s.trafTime - s.nextKeynode.openTime

/-- The next repair, if one is left. The departure is shortened to the time for the place of the
node before it. -/
def repair (param : ZipParam) (s : PairState) : Option PairState :=
  if !s.zipArv then
    let dur := param.getEntryZipTime s.curKeynode.place
    some { s with curKeynode := s.curKeynode.zipArrive dur, zipArv := true }
  else if !s.zipDept then
    let dur := param.getExitZipTime s.curKeynode.place
    some { s with nextKeynode := s.nextKeynode.zipDepart dur, zipDept := true }
  else if !s.zipTraffic then some { s with trafTime := 0, zipTraffic := true }
  else if !s.zeroArvDept then
    some { s with
      curKeynode := s.curKeynode.zipArrive 0
      nextKeynode := s.nextKeynode.zipDepart 0
      zeroArvDept := true }
  else none

/-- The loop `while (!success)`. The result `false` stands for `return 1`. -/
def adjust (param : ZipParam) : (fuel : Nat) → PairState → Res (Bool × KeyNode × KeyNode)
  | 0, _ => .error .outOfFuel
  | fuel + 1, s =>
    match if s.timeCover > 0 then repair param s else some s with
    | none => pure (false, s.curKeynode, s.nextKeynode)
    | some s =>
      if s.timeCover ≤ 0 then pure (true, s.curKeynode, s.nextKeynode)
      else if s.curKeynode.timeLeft + s.nextKeynode.timeLeft - s.timeCover > 0 then
        pure (true, s.curKeynode.moveApart s.timeCover s.nextKeynode)
      else adjust param fuel s

end PairState

namespace BasePlan

variable (plan : BasePlan)

/-- The gap between two cities must not overlap its neighbours. -/
def checkNotConfictPerCity : List KeyNode → Nat
  | curKeynode :: nextKeynode :: rest =>
    if curKeynode.isSegment || nextKeynode.isSegment then
      if curKeynode.closeTime > nextKeynode.openTime then 1
      else checkNotConfictPerCity (nextKeynode :: rest)
    else checkNotConfictPerCity (nextKeynode :: rest)
  | _ => 0

/-- A pair before its first round. -/
def pairState (param : ZipParam) (curKeynode nextKeynode : KeyNode) : PairState :=
  let skip := param.type == "s202" || param.type == "s125"
  { curKeynode := curKeynode, nextKeynode := nextKeynode
    trafTime := plan.keyTraffic curKeynode nextKeynode
    zipArv := skip, zipDept := skip, zeroArvDept := skip }

/-- The loop over neighbours from `curKeynode` on, with `fuel` rounds for each pair. -/
def tolerantLoop (param : ZipParam) (fuel : Nat) (curKeynode : KeyNode) :
    List KeyNode → Res (Nat × List KeyNode)
  | [] => pure (0, [curKeynode])
  | nextKeynode :: rest => do
    let (success, curKeynode, nextKeynode) ←
      (plan.pairState param curKeynode nextKeynode).adjust param fuel
    if !success then pure (1, curKeynode :: nextKeynode :: rest)
    else do
      let (ret, keyNode) ← tolerantLoop param fuel nextKeynode rest
      pure (ret, curKeynode :: keyNode)

/-- The result of `MergeKeyNodeFaultToLerant` and the plan it leaves. -/
def mergeKeyNodeFaultToLerant (param : ZipParam) (fuel : Nat) : Res (Nat × BasePlan) :=
  if checkNotConfictPerCity plan.keyNode ≠ 0 then pure (1, plan)
  else match plan.keyNode with
    -- the iterator never meets the end of an empty vector
    | [] => .error .arrayBound
    | curKeynode :: rest => do
      let (ret, keyNode) ← plan.tolerantLoop param fuel curKeynode rest
      pure (ret, { plan with keyNode := keyNode })

end BasePlan

/-! ## One pair -/

/-- The node `k'` is `k` in another window or with another stay. -/
structure KeyNode.Moved (k k' : KeyNode) : Prop where
  place : k'.place = k.place
  trafDate : k'.trafDate = k.trafDate

theorem KeyNode.Moved.trans {a b c : KeyNode} (h : Moved a b) (h' : Moved b c) : Moved a c :=
  ⟨h'.place.trans h.place, h'.trafDate.trans h.trafDate⟩

namespace PairState

variable {param : ZipParam} {s s' : PairState} {cur next : KeyNode} {traf : Int}

/-- What every round keeps of the pair `cur`, `next` with the traffic time `traf`: the first
node begins and the second one ends when it did, and the traffic takes its time or none. -/
structure Repairs (cur next : KeyNode) (traf : Int) (s : PairState) : Prop where
  curMoved : Moved cur s.curKeynode
  nextMoved : Moved next s.nextKeynode
  openTime : s.curKeynode.openTime = cur.openTime
  trafTime : s.trafTime = traf ∨ s.trafTime = 0

/-- The repairs that have not been made. -/
def flagsLeft (s : PairState) : Nat :=
  [s.zipArv, s.zipDept, s.zipTraffic, s.zeroArvDept].count false

theorem flagsLeft_le (s : PairState) : s.flagsLeft ≤ 4 := List.count_le_length

theorem moved_zipArrive (dur : Int) (k : KeyNode) :
    Moved k (k.zipArrive dur) ∧ (k.zipArrive dur).openTime = k.openTime := by
  unfold zipArrive
  split_ifs <;> exact ⟨⟨rfl, rfl⟩, rfl⟩

theorem moved_zipDepart (dur : Int) (k : KeyNode) : Moved k (k.zipDepart dur) := by
  unfold zipDepart
  split_ifs <;> exact ⟨rfl, rfl⟩

/-- A repair keeps the pair and uses up one flag. -/
theorem repair_spec (hs : Repairs cur next traf s) (h : repair param s = some s') :
    Repairs cur next traf s' ∧ s'.flagsLeft < s.flagsLeft := by
  obtain ⟨hcur, hnext, hopen, htraf⟩ := hs
  have harrive (dur : Int) := moved_zipArrive dur s.curKeynode
  simp only [repair, Bool.not_eq_true'] at h
  split_ifs at h with harv hdept htraffic hzero <;> cases h
  · exact ⟨⟨hcur.trans (harrive _).1, hnext, (harrive _).2.trans hopen, htraf⟩, by
      simp [flagsLeft, harv]⟩
  · exact ⟨⟨hcur, hnext.trans (moved_zipDepart _ _), hopen, htraf⟩, by
      simp_all [flagsLeft]⟩
  · exact ⟨⟨hcur, hnext, hopen, .inr rfl⟩, by simp_all [flagsLeft]⟩
  · exact ⟨⟨hcur.trans (harrive _).1, hnext.trans (moved_zipDepart _ _),
      (harrive _).2.trans hopen, htraf⟩, by simp_all [flagsLeft]⟩

/-- What the rounds come to: the pair is given up, or there is room for the traffic, or at least
for a traffic that takes no time. -/
structure Settled (cur next : KeyNode) (traf : Int) (success : Bool) (cur' next' : KeyNode) :
    Prop where
  curMoved : Moved cur cur'
  nextMoved : Moved next next'
  openTime : cur'.openTime = cur.openTime
  apart : success → cur'.closeTime + traf ≤ next'.openTime ∨ cur'.closeTime ≤ next'.openTime

theorem settled_of_timeCover (hs : Repairs cur next traf s) (h : s.timeCover ≤ 0) :
    Settled cur next traf true s.curKeynode s.nextKeynode := by
  refine ⟨hs.curMoved, hs.nextMoved, hs.openTime, fun _ => ?_⟩
  unfold timeCover at h
  rcases hs.trafTime with htraf | htraf <;> rw [htraf] at h
  · exact .inl (by omega)
  · exact .inr (by omega)

theorem settled_moveApart (hs : Repairs cur next traf s) (hcover : 0 < s.timeCover)
    (hleft : s.curKeynode.timeLeft + s.nextKeynode.timeLeft - s.timeCover > 0) :
    Settled cur next traf true (s.curKeynode.moveApart s.timeCover s.nextKeynode).1
      (s.curKeynode.moveApart s.timeCover s.nextKeynode).2 := by
  obtain ⟨hcur, hnext, hopen, hgap⟩ := moveApart_spec hcover hleft
  refine ⟨hs.curMoved.trans ⟨hcur.place, hcur.trafDate⟩,
    hs.nextMoved.trans ⟨hnext.place, hnext.trafDate⟩, hopen.trans hs.openTime, fun _ => ?_⟩
  have htime : s.timeCover = s.curKeynode.closeTime + s.trafTime - s.nextKeynode.openTime := rfl
  rcases hs.trafTime with htraf | htraf <;> rw [htraf] at htime
  · exact .inl (by omega)
  · exact .inr (by omega)

/-- The rounds end once no repair is left. -/
theorem adjust_spec (param : ZipParam) (hs : Repairs cur next traf s) :
    ∃ success cur' next', Settled cur next traf success cur' next' ∧
      ∀ fuel, s.flagsLeft < fuel → adjust param fuel s = .ok (success, cur', next') := by
  induction hflags : s.flagsLeft using Nat.strong_induction_on generalizing s with
  | _ flags ih =>
    subst hflags
    by_cases hcover : s.timeCover > 0
    · cases hrepair : repair param s with
      | none =>
        refine ⟨false, s.curKeynode, s.nextKeynode,
          ⟨hs.curMoved, hs.nextMoved, hs.openTime, by simp⟩, fun fuel hfuel => ?_⟩
        obtain ⟨fuel, rfl⟩ := Nat.exists_eq_add_one.mpr (Nat.zero_lt_of_lt hfuel)
        simp [adjust, hcover, hrepair, pure, Except.pure]
      | some s' =>
        obtain ⟨hs', hless⟩ := repair_spec hs hrepair
        by_cases hcover' : s'.timeCover ≤ 0
        · refine ⟨true, _, _, settled_of_timeCover hs' hcover', fun fuel hfuel => ?_⟩
          obtain ⟨fuel, rfl⟩ := Nat.exists_eq_add_one.mpr (Nat.zero_lt_of_lt hfuel)
          simp [adjust, hcover, hrepair, hcover', pure, Except.pure]
        · by_cases hleft : s'.curKeynode.timeLeft + s'.nextKeynode.timeLeft - s'.timeCover > 0
          · refine ⟨true, _, _, settled_moveApart hs' (by omega) hleft, fun fuel hfuel => ?_⟩
            obtain ⟨fuel, rfl⟩ := Nat.exists_eq_add_one.mpr (Nat.zero_lt_of_lt hfuel)
            simp only [adjust, hcover, if_true, hrepair, hcover', if_false, hleft]
            rfl
          · obtain ⟨success, cur', next', hsettled, hend⟩ := ih _ hless hs' rfl
            refine ⟨success, cur', next', hsettled, fun fuel hfuel => ?_⟩
            obtain ⟨fuel, rfl⟩ := Nat.exists_eq_add_one.mpr (Nat.zero_lt_of_lt hfuel)
            simp only [adjust, hcover, if_true, hrepair, hcover', if_false, hleft]
            exact hend fuel (by omega)
    · refine ⟨true, _, _, settled_of_timeCover hs (by omega), fun fuel hfuel => ?_⟩
      obtain ⟨fuel, rfl⟩ := Nat.exists_eq_add_one.mpr (Nat.zero_lt_of_lt hfuel)
      simp [adjust, hcover, not_lt.mp hcover, pure, Except.pure]

end PairState

/-! ## The whole merge -/

namespace BasePlan

variable {plan : BasePlan}

/-- Where the traffic time between two neighbours is not negative, their windows do not overlap. -/
def Apart (plan : BasePlan) (a b : KeyNode) : Prop :=
  0 ≤ plan.keyTraffic a b → a.closeTime ≤ b.openTime

theorem keyTraffic_moved {a a' b b' : KeyNode} (ha : Moved a a') (hb : Moved b b') :
    plan.keyTraffic a' b' = plan.keyTraffic a b := by
  rw [keyTraffic, ha.place, ha.trafDate, hb.place, keyTraffic]

variable (plan) in
/-- Later pairs leave the beginning of the first node alone, so what was reached for the pair
before it stays. -/
theorem tolerantLoop_spec (param : ZipParam) (cur : KeyNode) (ks : List KeyNode) :
    ∃ ret cur' tail, (∀ fuel, 4 < fuel →
        plan.tolerantLoop param fuel cur ks = .ok (ret, cur' :: tail)) ∧
      cur'.openTime = cur.openTime ∧ List.Forall₂ Moved (cur :: ks) (cur' :: tail) ∧
      (ret = 0 → (cur' :: tail).IsChain plan.Apart) := by
  induction ks generalizing cur with
  | nil =>
    refine ⟨0, cur, [], fun fuel _ => by rw [tolerantLoop]; rfl, rfl,
      .cons ⟨rfl, rfl⟩ .nil, by simp⟩
  | cons next rest ih =>
    have hstart : PairState.Repairs cur next (plan.keyTraffic cur next)
        (plan.pairState param cur next) := ⟨⟨rfl, rfl⟩, ⟨rfl, rfl⟩, rfl, .inl rfl⟩
    obtain ⟨success, cur', next', hsettled, hend⟩ := PairState.adjust_spec param hstart
    have hrounds := (plan.pairState param cur next).flagsLeft_le
    cases success with
    | false =>
      refine ⟨1, cur', next' :: rest, fun fuel hfuel => ?_, hsettled.openTime,
        .cons hsettled.curMoved (.cons hsettled.nextMoved
          (List.forall₂_same.mpr fun _ _ => ⟨rfl, rfl⟩)), by simp⟩
      rw [tolerantLoop, hend fuel (by omega)]
      rfl
    | true =>
      obtain ⟨ret, next'', tail, hloop, hopen, hmoved, hchain⟩ := ih next'
      obtain ⟨hnext, htail⟩ := List.forall₂_cons.mp hmoved
      refine ⟨ret, cur', next'' :: tail, fun fuel hfuel => ?_, hsettled.openTime,
        .cons hsettled.curMoved (.cons (hsettled.nextMoved.trans hnext) htail), fun hret => ?_⟩
      · rw [tolerantLoop, hend fuel (by omega)]
        simp only [bind, Except.bind, hloop fuel hfuel]
        rfl
      · refine List.isChain_cons_cons.mpr ⟨fun htraf => ?_, hchain hret⟩
        rw [keyTraffic_moved hsettled.curMoved (hsettled.nextMoved.trans hnext)] at htraf
        rw [hopen]
        rcases hsettled.apart rfl with hfit | hfit
        · omega
        · exact hfit

/-- Five rounds for each pair are enough on every list that is not empty. If the result is 0,
neighbours do not overlap unless the traffic between them takes less than no time. -/
theorem mergeKeyNodeFaultToLerant_spec (plan : BasePlan) (param : ZipParam)
    (h2 : 2 ≤ plan.keyNode.length) :
    ∃ ret plan', (∀ fuel, 4 < fuel → plan.mergeKeyNodeFaultToLerant param fuel = .ok (ret, plan')) ∧
      (ret = 0 → plan'.keyNode.length = plan.keyNode.length ∧
        plan'.keyNode.IsChain plan.Apart) := by
  by_cases hcity : checkNotConfictPerCity plan.keyNode = 0
  · obtain ⟨cur, ks, hks⟩ := List.exists_cons_of_length_pos (Nat.lt_of_lt_of_le Nat.zero_lt_two h2)
    obtain ⟨ret, cur', tail, hloop, -, hmoved, hchain⟩ := plan.tolerantLoop_spec param cur ks
    refine ⟨ret, { plan with keyNode := cur' :: tail }, fun fuel hfuel => ?_, fun hret => ?_⟩
    · simp only [mergeKeyNodeFaultToLerant, hcity, ne_eq, not_true_eq_false, if_false]
      rw [hks]
      simp only [bind, Except.bind, hloop fuel hfuel]
      rfl
    · exact ⟨by rw [hks]; exact hmoved.length_eq.symm, hchain hret⟩
  · exact ⟨1, plan, fun fuel _ => by simp [mergeKeyNodeFaultToLerant, hcity, pure, Except.pure],
      by simp⟩

theorem mergeKeyNodeFaultToLerant_spec_stationPlan :
    ∃ ret plan', (∀ fuel, 4 < fuel → (stationPlan .min 60).mergeKeyNodeFaultToLerant
        { type := "s201", placeType := fun _ => .airport } fuel = .ok (ret, plan')) ∧
      (ret = 0 → plan'.keyNode.length = (stationPlan .min 60).keyNode.length ∧
        plan'.keyNode.IsChain (stationPlan .min 60).Apart) :=
  mergeKeyNodeFaultToLerant_spec _ _ (by decide)

/-- With a traffic that takes less than no time a window may end after the next one begins. -/
theorem mergeKeyNodeFaultToLerant_overlap :
    ¬ ∀ (plan : BasePlan) (param : ZipParam), 2 ≤ plan.keyNode.length →
      ∃ ret plan', (∀ fuel, 4 < fuel →
          plan.mergeKeyNodeFaultToLerant param fuel = .ok (ret, plan')) ∧
        (ret = 0 → plan'.keyNode.IsChain fun a b => a.closeTime ≤ b.openTime) := by
  intro h
  let plan : BasePlan := { stationPlan .min 60 with traffic := fun _ _ _ => some (-100) }
  obtain ⟨ret, plan', hend, hchain⟩ :=
    h plan { type := "s201", placeType := fun _ => .airport } (by decide)
  have hrun : plan.mergeKeyNodeFaultToLerant
      { type := "s201", placeType := fun _ => .airport } 5 = .ok (0, plan) := by rfl
  obtain ⟨rfl, rfl⟩ : 0 = ret ∧ plan = plan' := by simpa [hrun] using hend 5 (by decide)
  have := hchain rfl
  simp [plan, stationPlan, KeyNode.create] at this

end BasePlan

end PPView
