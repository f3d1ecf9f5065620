import PPView.TrafficData.ChooseTraf
import PPView.TrafficData.TourTraffic

/-!
# Fetching traffic

`TrafficData::GetTrafPair` fills `m_TrafficMap` for keys of a start, a stop and a date. The pairs
with custom traffic are put in first. If the map then has as many entries as there are keys, nothing
is fetched. Of the ways that are fetched for a pair, one is chosen, and stored under the key with
the date if it is real time data and under the key without it otherwise. Keys that the map already
has are left alone.
-/

namespace PPView.TrafficData

/-! ## Keys -/

/-- `substr` up to the last `_`. -/
def beforeLast (key : String) : String :=
  match (keyParts key).dropLast with
  | [] => key
  | parts => "_".intercalate parts

/-- The key without the date if there is none. -/
def trafKeyOf (jKey : String) : String :=
  match keyParts jKey with
  | [startP, stopP] => startP ++ "_" ++ stopP
  | startP :: stopP :: date :: _ => if date = "" then startP ++ "_" ++ stopP else jKey
  | _ => jKey

/-- The parts of the key are appended to those of `jKey`. -/
def noDateOf (jKey : String) : String :=
  match keyParts jKey ++ keyParts (trafKeyOf jKey) with
  | startP :: stopP :: _ :: _ => startP ++ "_" ++ stopP
  | _ => trafKeyOf jKey

/-! ## Choosing for a key -/

/-- The number that a text begins with. -/
def atoi (s : String) : Int :=
  let digits := fun cs : List Char =>
    ((cs.takeWhile Char.isDigit).foldl (fun n c => 10 * n + (c.toNat - '0'.toNat)) 0 : ℕ)
  match s.toList.dropWhile (· ∈ [' ', '\t', '\n', '\x0b', '\x0c', '\r']) with
  | '-' :: rest => -digits rest
  | '+' :: rest => digits rest
  | rest => digits rest

/-- A way as the service writes it: its mode, mid, distance and time, and what may follow. -/
structure TrafInfo where
  text : String
  complete : 4 ≤ (sepString text '|').length

/-- A plan. `midOrder` is the order in which a map of ways is iterated. -/
structure TrafPlan extends TransWorld where
  m_trafPrefer : ℕ
  m_date2trafPrefer : String → Option ℕ
  m_whitePreferMap : String → Option ℕ
  m_useRealTraf : Bool
  m_customTrafMap : List (String × TrafficItem)
  midOrder : List TrafficItem → List TrafficItem
  midOrder_perm : ∀ l, (midOrder l).Perm l
  getLYPlace_ID : ∀ id place, getLYPlace id = some place → place.ID = id
  hotel_ID : ∀ hotel, ((∃ city, getCoreHotel city = some hotel) ∨
    ∃ didx, getHotelByDidx didx = some hotel) →
    ∀ place, getLYPlace hotel.ID = some place → place = hotel

namespace TrafPlan

variable (plan : TrafPlan)

def getCustomTraffic (trafKey : String) : Option TrafficItem := plan.m_customTrafMap.lookup trafKey

def makeItem (startP stopP : String) (placeA placeB : TransPlace) (info : TrafInfo) :
    TrafficItem :=
  let attrList := sepString info.text '|'
  let dist := plan.caluateSphereDist placeA placeB
  { _mode := atoi (attrList.getD 0 "")
    _mid := attrList.getD 1 ""
    m_realDist := atoi (attrList.getD 2 "")
    _dist := dist.num.tdiv dist.den
    _time := (atoi (attrList.getD 3 "")).tdiv 60 * 60
    m_startP := startP
    m_stopP := stopP
    m_stat := if plan.m_useRealTraf then TRAF_STAT_REAL_TIME else TRAF_STAT_STATIC
    m_order := if 6 ≤ attrList.length then atoi (attrList.getD 5 "") else -1 }

/-- The first way of a mid counts, and none if a place is unknown. -/
def addTrafInfo (startP stopP : String) (midMap : List TrafficItem) (info : TrafInfo) :
    List TrafficItem :=
  if (midMap.map TrafficItem._mid).contains ((sepString info.text '|').getD 1 "") then midMap
  else
    match plan.getLYPlace startP, plan.getLYPlace stopP with
    | some placeA, some placeB => midMap ++ [plan.makeItem startP stopP placeA placeB info]
    | _, _ => midMap

def datePrefer (date : String) : ℕ :=
  if date = "" then plan.m_trafPrefer else (plan.m_date2trafPrefer date).getD TRAF_PREFER_AI

/-- The way that is chosen for the key. -/
def chooseTrafKey (trafKey : String) (jItemList : List TrafInfo) : Option TrafficItem :=
  match keyParts trafKey with
  | startP :: stopP :: rest =>
    let trafPrefer := plan.datePrefer (match rest with | [date] => date | _ => "")
    let midMap := plan.midOrder (jItemList.foldl (plan.addTrafInfo startP stopP) [])
    let whitePrefer := plan.m_whitePreferMap (startP ++ "_" ++ stopP)
    -- only a preference that leaves a choice gives way to the list
    let prefer := if trafPrefer &&& (trafPrefer - 1) ≠ 0 then whitePrefer.getD trafPrefer
      else trafPrefer
    let selectMid := ((chooseTraf midMap prefer).map TrafficItem._mid).getD ""
    midMap.find? (·._mid = selectMid)
  | _ => none

end TrafPlan

/-! ## Filling the map -/

def putItem (trafMap : TrafficMap) (key : String) (item : TrafficItem) : TrafficMap :=
  if key ∈ trafMap.keys then trafMap else trafMap.alloc key item.copy rfl

/-- No way takes more than six hours. -/
def limitTimes (trafMap : TrafficMap) : TrafficMap :=
  trafMap.modifyAll (fun item => { item with _time := min item._time (3600 * 6) }) fun _ => rfl

namespace TrafPlan

variable (plan : TrafPlan)

def putCustom (trafMap : TrafficMap) (pairKey : String) : TrafficMap :=
  let key := beforeLast pairKey
  match plan.getCustomTraffic key with
  | some customTrafItem => putItem trafMap key customTrafItem
  | none => trafMap

def putTraf (trafMap : TrafficMap) (jTraf : String × List TrafInfo) : TrafficMap :=
  let trafKey := trafKeyOf jTraf.1
  let trafKeyNoDate := noDateOf jTraf.1
  if trafKey ∈ trafMap.keys ∨
      plan.m_customTrafMap ≠ [] ∧ (plan.getCustomTraffic trafKeyNoDate).isSome then trafMap
  else
    match plan.chooseTrafKey trafKey jTraf.2 with
    | none => trafMap
    | some hitTrafItem =>
      if hitTrafItem.m_stat = TRAF_STAT_REAL_TIME then putItem trafMap trafKey hitTrafItem
      else putItem trafMap trafKeyNoDate hitTrafItem

/-- What the call returns, and the map it leaves. `source` is what is fetched for the keys, if that
does not fail, in the order of iteration. -/
def getTrafPair (source : Option (List (String × List TrafInfo))) (pairSet : List String)
    (trafMap : TrafficMap) : Int × TrafficMap :=
  if pairSet = [] then (0, trafMap)
  else
    let customized :=
      if plan.m_customTrafMap = [] then trafMap else pairSet.foldl plan.putCustom trafMap
    if plan.m_customTrafMap ≠ [] ∧ pairSet.length = customized.size then (0, customized)
    else
      match source with
      | none => (1, customized)
      | some jTrafMap =>
        let filled := jTrafMap.foldl plan.putTraf customized
        (0, limitTimes (pairSet.foldl plan.selectTourTraffic filled))

end TrafPlan

/-! ## Keys of pairs -/

/-- A key `start_stop_date`. -/
structure PairKey where
  start : String
  stop : String
  date : String
  start_sep : '_' ∉ start.toList
  stop_sep : '_' ∉ stop.toList
  date_sep : '_' ∉ date.toList
  date_ne : date ≠ ""

namespace PairKey

variable (key : PairKey)

def undated : String := key.start ++ "_" ++ key.stop

def text : String := key.undated ++ "_" ++ key.date

theorem keyParts_undated : keyParts key.undated = [key.start, key.stop] :=
  keyParts_pair key.start_sep key.stop_sep

theorem keyParts_append (part : String) (hpart : '_' ∉ part.toList) :
    keyParts (key.undated ++ "_" ++ part) = [key.start, key.stop, part] := by
  apply sepString_eq
  · intro h
    simpa using congrArg String.toList h
  · simp [undated, List.intercalate]
  · simp [key.start_sep, key.stop_sep, hpart]

theorem keyParts_text : keyParts key.text = [key.start, key.stop, key.date] :=
  key.keyParts_append key.date key.date_sep

theorem beforeLast_text : beforeLast key.text = key.undated := by
  unfold beforeLast
  rw [keyParts_text]
  rfl

theorem trafKeyOf_text : trafKeyOf key.text = key.text := by
  unfold trafKeyOf
  rw [keyParts_text]
  exact if_neg key.date_ne

theorem noDateOf_text : noDateOf key.text = key.undated := by
  unfold noDateOf
  rw [trafKeyOf_text, keyParts_text]
  rfl

theorem trafKeyOf_undated : trafKeyOf key.undated = key.undated := by
  unfold trafKeyOf
  rw [keyParts_undated]
  rfl

theorem noDateOf_undated : noDateOf key.undated = key.undated := by
  unfold noDateOf
  rw [trafKeyOf_undated, keyParts_undated]
  rfl

theorem trafKeyOf_emptyDate : trafKeyOf (key.undated ++ "_") = key.undated := by
  have hparts := key.keyParts_append "" (by simp)
  rw [String.append_empty] at hparts
  unfold trafKeyOf
  rw [hparts]
  rfl

theorem noDateOf_emptyDate : noDateOf (key.undated ++ "_") = key.undated := by
  have hparts := key.keyParts_append "" (by simp)
  rw [String.append_empty] at hparts
  unfold noDateOf
  rw [hparts]
  rfl

end PairKey

/-! ## Custom traffic -/

theorem keys_putItem (trafMap : TrafficMap) (key : String) (item : TrafficItem) :
    (putItem trafMap key item).keys = insert key trafMap.keys := by
  unfold putItem
  split_ifs with h
  · exact (Finset.insert_eq_of_mem h).symm
  · rfl

theorem mem_keys_putItem {trafMap : TrafficMap} {key : String} (item : TrafficItem) :
    trafMap.keys ⊆ (putItem trafMap key item).keys ∧ key ∈ (putItem trafMap key item).keys := by
  rw [keys_putItem]
  exact ⟨Finset.subset_insert key trafMap.keys, Finset.mem_insert_self key trafMap.keys⟩

namespace TrafPlan

variable (plan : TrafPlan) {pairSet : List PairKey} {trafMap : TrafficMap}

/-- The pairs whose custom traffic is not in the map. -/
def newCustom (pairSet : List PairKey) (trafMap : TrafficMap) : Finset String :=
  (pairSet.map PairKey.undated).toFinset.filter fun key =>
    key ∉ trafMap.keys ∧ (plan.getCustomTraffic key).isSome

theorem keys_putCustom (key : PairKey) : (plan.putCustom trafMap key.text).keys =
    if (plan.getCustomTraffic key.undated).isSome then insert key.undated trafMap.keys
    else trafMap.keys := by
  unfold putCustom
  rw [key.beforeLast_text]
  dsimp only
  cases plan.getCustomTraffic key.undated with
  | none => rfl
  | some item => exact keys_putItem trafMap key.undated item

theorem mem_keys_foldl_putCustom (k : String) :
    k ∈ ((pairSet.map PairKey.text).foldl plan.putCustom trafMap).keys ↔
      k ∈ trafMap.keys ∨ k ∈ pairSet.map PairKey.undated ∧ (plan.getCustomTraffic k).isSome := by
  induction pairSet generalizing trafMap with
  | nil => simp
  | cons key pairSet ih =>
    rw [List.map_cons, List.foldl_cons, ih, keys_putCustom]
    grind

theorem keys_foldl_putCustom :
    ((pairSet.map PairKey.text).foldl plan.putCustom trafMap).keys =
      trafMap.keys ∪ plan.newCustom pairSet trafMap := by
  ext k
  rw [mem_keys_foldl_putCustom, Finset.mem_union, newCustom, Finset.mem_filter, List.mem_toFinset]
  tauto

theorem size_foldl_putCustom :
    ((pairSet.map PairKey.text).foldl plan.putCustom trafMap).size =
      trafMap.size + (plan.newCustom pairSet trafMap).card := by
  have hdisjoint : Disjoint trafMap.keys (plan.newCustom pairSet trafMap) := by
    rw [Finset.disjoint_right]
    intro k hk
    exact (Finset.mem_filter.mp hk).2.1
  unfold OwnedHeap.size
  rw [keys_foldl_putCustom, Finset.card_union_of_disjoint hdisjoint]

/-! ## Fetched traffic -/

theorem keys_putTraf_subset (jTraf : String × List TrafInfo) :
    trafMap.keys ⊆ (plan.putTraf trafMap jTraf).keys := by
  unfold putTraf
  dsimp only
  split_ifs
  · exact Finset.Subset.refl _
  · split
    · exact Finset.Subset.refl _
    next item _ =>
      split_ifs
      · exact (mem_keys_putItem item).1
      · exact (mem_keys_putItem item).1

/-- After its turn, an entry is in the map if a way is chosen and there is no custom traffic. -/
theorem mem_keys_putTraf {jTraf : String × List TrafInfo}
    (hchosen : (plan.chooseTrafKey (trafKeyOf jTraf.1) jTraf.2).isSome)
    (hcustom : plan.getCustomTraffic (noDateOf jTraf.1) = none) :
    trafKeyOf jTraf.1 ∈ (plan.putTraf trafMap jTraf).keys ∨
      noDateOf jTraf.1 ∈ (plan.putTraf trafMap jTraf).keys := by
  obtain ⟨item, hitem⟩ := Option.isSome_iff_exists.mp hchosen
  unfold putTraf
  simp only [hcustom, hitem, Option.isSome_none, Bool.false_eq_true, and_false, or_false]
  split_ifs with hmem hreal
  · exact .inl hmem
  · exact .inl (mem_keys_putItem item).2
  · exact .inr (mem_keys_putItem item).2

theorem keys_foldl_putTraf_subset (trafMap : TrafficMap)
    (jTrafMap : List (String × List TrafInfo)) :
    trafMap.keys ⊆ (jTrafMap.foldl plan.putTraf trafMap).keys :=
  OwnedHeap.keys_subset_foldl (fun _ jTraf _ => plan.keys_putTraf_subset jTraf) trafMap

theorem mem_keys_foldl_putTraf (trafMap : TrafficMap) {jTrafMap : List (String × List TrafInfo)}
    {jTraf : String × List TrafInfo} (hmem : jTraf ∈ jTrafMap)
    (hchosen : (plan.chooseTrafKey (trafKeyOf jTraf.1) jTraf.2).isSome)
    (hcustom : plan.getCustomTraffic (noDateOf jTraf.1) = none) :
    trafKeyOf jTraf.1 ∈ (jTrafMap.foldl plan.putTraf trafMap).keys ∨
      noDateOf jTraf.1 ∈ (jTrafMap.foldl plan.putTraf trafMap).keys := by
  obtain ⟨trafMap', -, hsubset⟩ := OwnedHeap.exists_step_subset_foldl
    (fun _ jTraf _ => plan.keys_putTraf_subset jTraf) hmem trafMap
  exact (plan.mem_keys_putTraf hchosen hcustom).imp (hsubset ·) (hsubset ·)

end TrafPlan

/-! ## Tours -/

theorem keys_pushItem (trafficMap : TrafficMap) (trafKey : String) (addItem : ℕ) :
    (pushItem trafficMap trafKey addItem).keys = trafficMap.keys := by
  unfold pushItem
  split
  · rfl
  · rw [OwnedHeap.keys_modify]

theorem keys_addTrafficItem_subset (trafficMap : TrafficMap) (trafKey leg : String) :
    trafficMap.keys ⊆ (addTrafficItem trafficMap trafKey leg).keys := by
  unfold addTrafficItem
  split
  · exact Finset.Subset.refl _
  · split_ifs
    · rw [keys_pushItem]
    · split
      · rw [keys_pushItem, OwnedHeap.keys_alloc]
        exact Finset.subset_insert ..
      · exact Finset.Subset.refl _

theorem mem_keys_addTrafficItem {trafficMap : TrafficMap} {trafKey leg : String}
    (hparts : 2 ≤ (keyParts trafKey).length) (hleg : leg ∈ trafficMap.keys) :
    trafKey ∈ (addTrafficItem trafficMap trafKey leg).keys := by
  obtain ⟨p, hp⟩ := Option.isSome_iff_exists.mp ((trafficMap.mem_keys leg).mp hleg)
  simp only [addTrafficItem, hp]
  split_ifs with hkey
  · rw [keys_pushItem, trafficMap.mem_keys, hkey]
  · rcases hlist : keyParts trafKey with _ | ⟨startP, _ | ⟨stopP, rest⟩⟩
    · simp [hlist] at hparts
    · simp [hlist] at hparts
    · dsimp only
      rw [keys_pushItem, OwnedHeap.keys_alloc]
      exact Finset.mem_insert_self ..

theorem keys_foldl_addTrafficItem_subset (trafficMap : TrafficMap) (trafKey : String)
    (legs : List String) :
    trafficMap.keys ⊆ (legs.foldl (addTrafficItem · trafKey) trafficMap).keys :=
  OwnedHeap.keys_subset_foldl (fun trafficMap leg _ => keys_addTrafficItem_subset trafficMap _ leg)
    trafficMap

theorem mem_keys_foldl_addTrafficItem {trafficMap : TrafficMap} {trafKey leg : String}
    {legs : List String} (hparts : 2 ≤ (keyParts trafKey).length) (hmem : leg ∈ legs)
    (hleg : leg ∈ trafficMap.keys) :
    trafKey ∈ (legs.foldl (addTrafficItem · trafKey) trafficMap).keys := by
  obtain ⟨trafficMap', hkeys, hsubset⟩ := OwnedHeap.exists_step_subset_foldl
    (fun trafficMap leg _ => keys_addTrafficItem_subset trafficMap trafKey leg) hmem trafficMap
  apply hsubset
  exact mem_keys_addTrafficItem hparts (hkeys hleg)

theorem keys_dropEntry (trafficMap : TrafficMap) (trafKey : String) :
    (dropEntry trafficMap trafKey).keys = trafficMap.keys.erase trafKey := by
  unfold dropEntry
  split_ifs with h
  · rw [OwnedHeap.keys_delete]
  · exact (Finset.erase_eq_of_notMem fun hmem => h ((trafficMap.mem_keys trafKey).mp hmem)).symm

/-- No key is lost if some leg is another key. -/
theorem keys_selectTourTraffic_subset {w : TransWorld} {trafKey : String}
    (hlegs : ∀ legs ∈ w.legKeys trafKey, ∃ leg ∈ legs, leg ≠ trafKey) (trafficMap : TrafficMap) :
    trafficMap.keys ⊆ (w.selectTourTraffic trafficMap trafKey).keys := by
  unfold TransWorld.selectTourTraffic
  cases hneeded : w.neededLegs trafficMap trafKey with
  | none => exact Finset.Subset.refl _
  | some legs =>
    obtain ⟨hkeys, hall⟩ := Option.filter_eq_some_iff.mp hneeded
    rw [decide_eq_true_eq] at hall
    obtain ⟨leg, hleg, hne⟩ := hlegs legs hkeys
    intro k hk
    dsimp only
    by_cases hkey : k = trafKey
    · rw [hkey]
      apply mem_keys_foldl_addTrafficItem (legKeys_ne_nil hkeys).2 hleg
      rw [keys_dropEntry, Finset.mem_erase, OwnedHeap.mem_keys]
      exact ⟨hne, hall leg hleg⟩
    · apply keys_foldl_addTrafficItem_subset
      rw [keys_dropEntry, Finset.mem_erase]
      exact ⟨hkey, hk⟩

theorem mem_foldl_insert {poiSet places : List TransPlace} {p : TransPlace}
    (hp : p ∈ places.foldl (fun poiSet place => poiSet.insert place) poiSet) :
    p ∈ poiSet ∨ p ∈ places := by
  induction places generalizing poiSet with
  | nil => exact .inl hp
  | cons place places ih =>
    rcases ih hp with hmem | hmem
    · rcases List.mem_insert_iff.mp hmem with rfl | hmem
      · exact .inr List.mem_cons_self
      · exact .inl hmem
    · exact .inr (List.mem_cons_of_mem _ hmem)

theorem foldl_nearer_mem (w : TransWorld) (pairs : List (TransPlace × TransPlace))
    (best : ℚ × TransPlace × TransPlace) :
    (pairs.foldl w.nearer best).2 = best.2 ∨ (pairs.foldl w.nearer best).2 ∈ pairs := by
  induction pairs generalizing best with
  | nil => exact .inl rfl
  | cons pair pairs ih =>
    rw [List.foldl_cons]
    rcases ih (w.nearer best pair) with heq | hmem
    · unfold TransWorld.nearer at heq ⊢
      dsimp only at heq ⊢
      split_ifs at heq ⊢ with hlt
      · exact .inr (heq ▸ List.mem_cons_self)
      · exact .inl heq
    · exact .inr (List.mem_cons_of_mem _ hmem)

namespace TrafPlan

variable (plan : TrafPlan) {placeA placeB p : TransPlace}

/-- No other place is found under the ID of the place. -/
def Known (place : TransPlace) : Prop :=
  ∀ other, plan.getLYPlace place.ID = some other → other = place

variable {plan}

theorem known_of_getLYPlace {id : String} (h : plan.getLYPlace id = some p) : plan.Known p := by
  intro other hother
  rw [plan.getLYPlace_ID id p h, h] at hother
  exact (Option.some.inj hother).symm

theorem known_of_mem_jieSongHotel (hp : p ∈ plan.addTourJieSongHotel []) : plan.Known p := by
  unfold TransWorld.addTourJieSongHotel at hp
  split at hp
  · simp at hp
  next city hcity =>
    split at hp
    next place hplace =>
      obtain rfl : p = place := by simpa using hp
      apply plan.hotel_ID
      rw [Option.orElse_eq_orElse, Option.orElse_eq_or, Option.or_eq_some_iff] at hplace
      rcases hplace with h | ⟨-, h⟩
      · exact .inr ⟨0, h⟩
      · exact .inl ⟨city, h⟩
    · simp at hp

theorem known_of_mem_gatherOrLeft {tour : TourPoints} {isDismiss : Bool}
    (hp : p ∈ plan.addTourGatherOrLeftPoi tour [] isDismiss) : plan.Known p := by
  unfold TransWorld.addTourGatherOrLeftPoi at hp
  split at hp
  · exact known_of_mem_jieSongHotel hp
  · split at hp
    · obtain hnil | hmem := mem_foldl_insert hp
      · simp at hnil
      · obtain ⟨id, -, hid⟩ := List.mem_filterMap.mp hmem
        exact known_of_getLYPlace hid
    · simp at hp

theorem known_of_mem_points {isDismiss : Bool} (hA : plan.Known placeA)
    (hp : p ∈ plan.points placeA isDismiss) : plan.Known p := by
  unfold TransWorld.points at hp
  extract_lets poiSet at hp
  have hset : ∀ q ∈ poiSet, plan.Known q := by
    intro q hq
    unfold poiSet at hq
    split at hq
    · split_ifs at hq
      · exact known_of_mem_gatherOrLeft hq
      · simp at hq
    · simp at hq
  by_cases hempty : poiSet = []
  · rw [if_pos hempty] at hp
    rwa [List.mem_singleton.mp hp]
  · rw [if_neg hempty] at hp
    exact hset p hp

/-- The points that are selected are known, and differ from the places whose points they are. -/
theorem selectTransPois_known (hA : plan.Known placeA) (hB : plan.Known placeB) :
    ∃ dismiss gather, plan.Known dismiss ∧ plan.Known gather ∧
      plan.selectTransPois placeA placeB = (if dismiss ≠ placeA then [dismiss] else []) ++
        if gather ≠ placeB ∧ gather ≠ dismiss then [gather] else [] := by
  set pairs := plan.walk (plan.points placeA true) ×ˢ plan.walk (plan.points placeB false)
    with hpairs
  set best := pairs.foldl plan.nearer (earthRadius, placeA, placeB) with hbest
  refine ⟨best.2.1, best.2.2, ?_, ?_, rfl⟩
  all_goals
    rcases foldl_nearer_mem plan.toTransWorld pairs (earthRadius, placeA, placeB) with heq | hmem
  · rw [hbest, heq]
    exact hA
  · have hleft := (List.pair_mem_product.mp hmem).1
    exact known_of_mem_points hA ((plan.walk_perm _).mem_iff.mp hleft)
  · rw [hbest, heq]
    exact hB
  · have hright := (List.pair_mem_product.mp hmem).2
    exact known_of_mem_points hB ((plan.walk_perm _).mem_iff.mp hright)

theorem legKey_eq_text {key : PairKey} (h : TransWorld.legKey key.date placeA p = key.text) :
    (placeA.ID = key.start → p.ID = key.stop) ∧ (p.ID = key.stop → placeA.ID = key.start) := by
  have hlist := congrArg String.toList h
  simp only [TransWorld.legKey, PairKey.text, PairKey.undated, if_pos key.date_ne,
    String.toList_append, List.append_assoc] at hlist
  constructor
  · intro hstart
    rw [hstart, List.append_cancel_left_eq, List.append_cancel_left_eq,
      List.append_cancel_right_eq] at hlist
    exact String.toList_inj.mp hlist
  · intro hstop
    rw [hstop, List.append_cancel_right_eq] at hlist
    exact String.toList_inj.mp hlist

theorem start_eq_stop_of_legKey {key : PairKey}
    (h : TransWorld.legKey key.date placeA p = key.text) (hA : placeA.ID = key.stop)
    (hp : p.ID = key.start) : key.start = key.stop := by
  let back : PairKey := ⟨key.stop, key.start, key.date, key.stop_sep, key.start_sep, key.date_sep,
    key.date_ne⟩
  have hback : back.text = key.text := by
    rw [← h, TransWorld.legKey, if_pos key.date_ne, hA, hp]
    simp only [PairKey.text, PairKey.undated, back, String.append_assoc]
  have hparts := congrArg keyParts hback
  rw [back.keyParts_text, key.keyParts_text] at hparts
  exact (List.cons.inj hparts).1.symm

/-- Some leg is another key than the one it is for. -/
theorem exists_leg_ne {key : PairKey} {legs : List String} (h : plan.legKeys key.text = some legs) :
    ∃ leg ∈ legs, leg ≠ key.text := by
  by_contra! hall
  unfold TransWorld.legKeys at h
  rw [key.keyParts_text] at h
  dsimp only [List.headD_cons] at h
  split at h
  next startPlace endPlace hstart hend =>
    have hstartID := plan.getLYPlace_ID _ _ hstart
    have hendID := plan.getLYPlace_ID _ _ hend
    obtain ⟨dismiss, gather, hdismiss, hgather, hpois⟩ :=
      selectTransPois_known (known_of_getLYPlace hstart) (known_of_getLYPlace hend)
    -- a point with the ID of a place of the pair is this place
    have hpoi : ∀ poi, plan.Known poi → (poi.ID = key.stop → poi = endPlace) ∧
        (poi.ID = key.start → poi = startPlace) := by
      intro poi hknown
      constructor
      · intro hID
        exact (hknown endPlace (hID ▸ hend)).symm
      · intro hID
        exact (hknown startPlace (hID ▸ hstart)).symm
    split at h
    · have hleft : ∀ poi, plan.Known poi →
          TransWorld.legKey key.date startPlace poi = key.text → poi = endPlace := by
        intro poi hknown hleg
        exact (hpoi poi hknown).1 ((legKey_eq_text hleg).1 hstartID)
      have hright : ∀ poi, plan.Known poi →
          TransWorld.legKey key.date poi endPlace = key.text → poi = startPlace := by
        intro poi hknown hleg
        exact (hpoi poi hknown).2 ((legKey_eq_text hleg).2 hendID)
      rw [hpois] at h
      split_ifs at h with hleave hmeet hmeet
      · obtain rfl := Option.some.inj h
        simp only [List.mem_cons, List.not_mem_nil, or_false, forall_eq_or_imp, forall_eq] at hall
        obtain ⟨hfirst, hmiddle, hlast⟩ := hall
        obtain rfl := hleft dismiss hdismiss hfirst
        obtain rfl := hright gather hgather hlast
        have hsame := start_eq_stop_of_legKey hmiddle hendID hstartID
        rw [hsame, hend] at hstart
        exact hleave (Option.some.inj hstart)
      · obtain rfl := Option.some.inj h
        simp only [List.mem_cons, List.not_mem_nil, or_false, forall_eq_or_imp, forall_eq] at hall
        exact hleave (hright dismiss hdismiss hall.2)
      · obtain rfl := Option.some.inj h
        simp only [List.mem_cons, List.not_mem_nil, or_false, forall_eq_or_imp, forall_eq] at hall
        exact hmeet.1 (hleft gather hgather hall.1)
      · contradiction
    · contradiction
  · contradiction

theorem keys_foldl_selectTourTraffic_subset (pairSet : List PairKey) (trafMap : TrafficMap) :
    trafMap.keys ⊆ ((pairSet.map PairKey.text).foldl plan.selectTourTraffic trafMap).keys := by
  apply OwnedHeap.keys_subset_foldl
  intro trafMap trafKey hmem
  obtain ⟨key, -, rfl⟩ := List.mem_map.mp hmem
  apply keys_selectTourTraffic_subset
  intro legs hlegs
  exact exists_leg_ne hlegs

end TrafPlan

/-! ## What is covered -/

/-- The map has traffic for the key, with its date or without it. -/
def Covered (trafMap : TrafficMap) (key : PairKey) : Prop :=
  key.text ∈ trafMap.keys ∨ key.undated ∈ trafMap.keys

theorem Covered.mono {trafMap trafMap' : TrafficMap} {key : PairKey} (h : Covered trafMap key)
    (hsubset : trafMap.keys ⊆ trafMap'.keys) : Covered trafMap' key :=
  h.imp (hsubset ·) (hsubset ·)

namespace TrafPlan

variable (plan : TrafPlan) (source : Option (List (String × List TrafInfo)))
  (pairSet : List PairKey) (trafMap : TrafficMap)

/-- What is fetched has ways for the key, of which one is chosen. -/
def Offers (key : PairKey) : Prop :=
  ∃ jTrafMap ∈ source, ∃ jTraf ∈ jTrafMap,
    jTraf.1 ∈ [key.text, key.undated, key.undated ++ "_"] ∧
      (plan.chooseTrafKey (trafKeyOf jTraf.1) jTraf.2).isSome

/-- What `GetTrafPair` is there for. -/
def Covers : Prop :=
  (plan.getTrafPair source (pairSet.map PairKey.text) trafMap).1 = 0 →
    ∀ key ∈ pairSet, (plan.getCustomTraffic key.undated).isSome ∨ plan.Offers source key →
      Covered (plan.getTrafPair source (pairSet.map PairKey.text) trafMap).2 key

variable {plan source pairSet trafMap}

/-- What is fetched is put in for every key that it has ways for. -/
theorem covered_of_offers {jTrafMap : List (String × List TrafInfo)} {key : PairKey}
    (hoffers : plan.Offers (some jTrafMap) key)
    (hcustom : plan.getCustomTraffic key.undated = none) :
    Covered (jTrafMap.foldl plan.putTraf trafMap) key := by
  obtain ⟨_, hsource, jTraf, hmem, hkey, hchosen⟩ := hoffers
  obtain rfl := Option.some.inj hsource
  have hkeys : noDateOf jTraf.1 = key.undated ∧
      (trafKeyOf jTraf.1 = key.text ∨ trafKeyOf jTraf.1 = key.undated) := by
    simp only [List.mem_cons, List.not_mem_nil, or_false] at hkey
    rcases hkey with heq | heq | heq <;> rw [heq]
    · exact ⟨key.noDateOf_text, .inl key.trafKeyOf_text⟩
    · exact ⟨key.noDateOf_undated, .inr key.trafKeyOf_undated⟩
    · exact ⟨key.noDateOf_emptyDate, .inr key.trafKeyOf_emptyDate⟩
  obtain ⟨hnoDate, htrafKey⟩ := hkeys
  rcases plan.mem_keys_foldl_putTraf trafMap hmem hchosen
    (hnoDate ▸ hcustom) with hput | hput
  · rcases htrafKey with heq | heq
    · exact .inl (heq ▸ hput)
    · exact .inr (heq ▸ hput)
  · exact .inr (hnoDate ▸ hput)

/-- The map after the pairs with custom traffic. -/
theorem covered_customized {key : PairKey} (hkey : key ∈ pairSet) :
    Covered ((pairSet.map PairKey.text).foldl plan.putCustom trafMap) key ↔
      Covered trafMap key ∨ (plan.getCustomTraffic key.undated).isSome := by
  have htext : key.text ∉ pairSet.map PairKey.undated := by
    intro hmem
    obtain ⟨other, -, hother⟩ := List.mem_map.mp hmem
    have hparts := congrArg keyParts hother
    rw [other.keyParts_undated, key.keyParts_text] at hparts
    simp at hparts
  have hundated : key.undated ∈ pairSet.map PairKey.undated := List.mem_map_of_mem hkey
  unfold Covered
  rw [mem_keys_foldl_putCustom, mem_keys_foldl_putCustom]
  tauto

theorem getCustomTraffic_eq_none (h : plan.m_customTrafMap = []) (key : String) :
    plan.getCustomTraffic key = none := by
  rw [getCustomTraffic, h]
  rfl

/-- What is fetched covers the keys that are left. -/
theorem covered_fetched {jTrafMap : List (String × List TrafInfo)}
    (hcustom : ∀ key ∈ pairSet, (plan.getCustomTraffic key.undated).isSome → Covered trafMap key)
    {key : PairKey} (hkey : key ∈ pairSet) (h : (plan.getCustomTraffic key.undated).isSome ∨
      plan.Offers (some jTrafMap) key) :
    Covered (limitTimes ((pairSet.map PairKey.text).foldl plan.selectTourTraffic
      (jTrafMap.foldl plan.putTraf trafMap))) key := by
  have hput : Covered (jTrafMap.foldl plan.putTraf trafMap) key := by
    cases hitem : plan.getCustomTraffic key.undated with
    | none =>
      rw [hitem] at h
      exact covered_of_offers (h.resolve_left (by simp)) hitem
    | some item =>
      apply (hcustom key hkey (by rw [hitem]; rfl)).mono
      exact plan.keys_foldl_putTraf_subset trafMap jTrafMap
  apply hput.mono
  rw [limitTimes, OwnedHeap.keys_modifyAll]
  exact keys_foldl_selectTourTraffic_subset pairSet _

/-- The keys are covered exactly if there is no custom traffic, or the numbers of entries and keys
differ when the custom traffic has been put in, or nothing needs to be fetched. -/
theorem getTrafPair_covers_iff (plan : TrafPlan)
    (source : Option (List (String × List TrafInfo))) (pairSet : List PairKey)
    (trafMap : TrafficMap) :
    plan.Covers source pairSet trafMap ↔
      plan.m_customTrafMap = [] ∨
      trafMap.size + (plan.newCustom pairSet trafMap).card ≠ pairSet.length ∨
      ∀ key ∈ pairSet, plan.Offers source key →
        Covered trafMap key ∨ (plan.getCustomTraffic key.undated).isSome := by
  rcases eq_or_ne pairSet [] with rfl | hne
  · simp [Covers]
  have hpairs : pairSet.map PairKey.text ≠ [] := by simpa using hne
  unfold Covers getTrafPair
  rw [if_neg hpairs]
  dsimp only
  by_cases hcustom : plan.m_customTrafMap = []
  · simp only [hcustom, ne_eq, not_true_eq_false, false_and, if_false, if_true, true_or, iff_true]
    cases source with
    | none => simp
    | some jTrafMap =>
      intro _ key hkey h
      apply covered_fetched _ hkey h
      intro other _ hother
      rw [getCustomTraffic_eq_none hcustom] at hother
      contradiction
  · rw [if_neg hcustom, List.length_map, size_foldl_putCustom]
    by_cases hsize : pairSet.length = trafMap.size + (plan.newCustom pairSet trafMap).card
    · -- nothing is fetched
      rw [if_pos ⟨hcustom, hsize⟩]
      simp only [hcustom, hsize, ne_eq, not_true_eq_false, false_or, forall_const]
      apply forall₂_congr
      intro key hkey
      rw [covered_customized hkey]
      tauto
    · rw [if_neg fun h => hsize h.2]
      simp only [hcustom, Ne.symm hsize, ne_eq, not_false_eq_true, true_or, or_true, iff_true]
      cases source with
      | none => simp
      | some jTrafMap =>
        intro _ key hkey h
        apply covered_fetched _ hkey h
        intro other hmem hother
        exact (covered_customized hmem).mpr (.inr hother)

/-- Two places, and custom traffic between two others. -/
def twoPlaces : TrafPlan where
  getLYPlace id := if id = "a" ∨ id = "b" then some ⟨0, id, 1, none⟩ else none
  m_City := none
  getCoreHotel _ := none
  getHotelByDidx _ := none
  caluateSphereDist _ _ := 500
  walk l := l
  walk_perm _ := .refl _
  m_trafPrefer := TRAF_PREFER_AI
  m_date2trafPrefer _ := none
  m_whitePreferMap _ := none
  m_useRealTraf := false
  m_customTrafMap := [("c_d", {})]
  midOrder l := l
  midOrder_perm _ := .refl _
  getLYPlace_ID id place h := by
    split_ifs at h
    exact Option.some.inj h ▸ rfl
  hotel_ID _ h := by simp at h

def aToB : PairKey := ⟨"a", "b", "20260101", by decide, by decide, by decide, by decide⟩

def walkInfo : TrafInfo := ⟨"1|m|500|420", by decide +kernel⟩

/-- An entry of an earlier call, and as many keys: the walk is not fetched. -/
theorem not_covers_twoPlaces :
    ¬ twoPlaces.Covers (some [(aToB.text, [walkInfo])]) [aToB]
      ((∅ : TrafficMap).alloc "x_y" {} rfl) := by
  intro h
  have hoffers : twoPlaces.Offers (some [(aToB.text, [walkInfo])]) aToB :=
    ⟨_, rfl, _, List.mem_singleton_self _, by decide, by decide +kernel⟩
  have hcovered := h (by decide +kernel) aToB List.mem_cons_self (.inr hoffers)
  revert hcovered
  unfold Covered
  decide +kernel

end TrafPlan

end PPView.TrafficData
