import Mathlib.Algebra.BigOperators.Group.List.Basic
import Mathlib.Algebra.Order.Ring.Rat
import PPView.Define
import PPView.Library.OwnedHeap
import PPView.TrafficData.TrafficItem

/-!
# Traffic to and from tours

A tour may begin and end at points of its own. `TrafficData::SelectTourTraffic` replaces the traffic
between two places by the legs over such points: the old item is deleted, and a new one lists the
items of the legs. `m_TrafficMap` is the map of the plan; an item lists pointers to other items.
-/

namespace PPView.TrafficData

/-! ## Items -/

/-- The item becomes longer by another one, to which `ptr` points. -/
def TrafficItem.add (item : TrafficItem) (ptr : ℕ) (addItem : TrafficItem) : TrafficItem :=
  { item with
    m_trafficItemList := item.m_trafficItemList ++ [ptr]
    _time := item._time + addItem._time
    _dist := item._dist + addItem._dist
    m_realDist := item.m_realDist + addItem.m_realDist }

/-- `m_TrafficMap`, with the items that it points to. -/
abbrev TrafficMap := OwnedHeap String TrafficItem TrafficItem.m_trafficItemList

/-- The item of the key gets the item at `addItem`. -/
def pushItem (trafficMap : TrafficMap) (trafKey : String) (addItem : ℕ) : TrafficMap :=
  match hadd : trafficMap.cell addItem with
  | none => trafficMap
  | some added =>
    trafficMap.modify trafKey (·.add addItem added) fun item q hq => by
      have hlt : addItem < trafficMap.next := trafficMap.lt_next (by rw [hadd]; rfl)
      refine (List.mem_append.mp hq).imp_right fun hq => ?_
      rwa [List.mem_singleton.mp hq]

def addTrafficItem (trafficMap : TrafficMap) (trafKey addTrafKey : String) : TrafficMap :=
  match trafficMap.ptr addTrafKey with
  | none => trafficMap
  | some addItem =>
    if (trafficMap.ptr trafKey).isSome then pushItem trafficMap trafKey addItem
    else
      match keyParts trafKey with
      | startP :: stopP :: _ =>
        let traffic : TrafficItem := { m_startP := startP, m_stopP := stopP }
        pushItem (trafficMap.alloc trafKey traffic rfl) trafKey addItem
      | _ => trafficMap

/-- The old traffic is deleted. -/
def dropEntry (trafficMap : TrafficMap) (trafKey : String) : TrafficMap :=
  if (trafficMap.ptr trafKey).isSome then trafficMap.delete trafKey else trafficMap

/-! ## Points of tours -/

/-- What a place is, when its class is `Tour`. -/
structure TourPoints where
  m_jiesongType : Int
  m_gatherLocal : List String
  m_dismissLocal : List String
  deriving DecidableEq

/-- Places are compared by their addresses. -/
structure TransPlace where
  address : ℕ
  ID : String
  t : ℕ
  tour : Option TourPoints
  deriving DecidableEq

/-- The places of a plan. `walk` is the order in which a set of places is walked through. -/
structure TransWorld where
  getLYPlace : String → Option TransPlace
  m_City : Option String
  getCoreHotel : String → Option TransPlace
  getHotelByDidx : Int → Option TransPlace
  caluateSphereDist : TransPlace → TransPlace → ℚ
  walk : List TransPlace → List TransPlace
  walk_perm : ∀ l, (walk l).Perm l

def earthRadius : ℚ := 6378137

namespace TransWorld

variable (w : TransWorld)

/-- The hotel of the first day, or else the one that is made for the city. -/
def addTourJieSongHotel (poiSet : List TransPlace) : List TransPlace :=
  match w.m_City with
  | none => poiSet
  | some city =>
    match w.getHotelByDidx 0 <|> w.getCoreHotel city with
    | some place => poiSet.insert place
    | none => poiSet

def addTourGatherOrLeftPoi (tour : TourPoints) (poiSet : List TransPlace) (isDismiss : Bool) :
    List TransPlace :=
  if tour.m_jiesongType = 2 then w.addTourJieSongHotel poiSet
  else if tour.m_jiesongType = 1 then
    let poiLocal := if isDismiss then tour.m_dismissLocal else tour.m_gatherLocal
    (poiLocal.filterMap w.getLYPlace).foldl (fun poiSet place => poiSet.insert place) poiSet
  else poiSet

/-- The points of a place, or the place itself if it has none. -/
def points (place : TransPlace) (isDismiss : Bool) : List TransPlace :=
  let poiSet :=
    match place.tour with
    | some tour =>
      if place.t &&& LY_PLACE_TYPE_TOURALL ≠ 0 then w.addTourGatherOrLeftPoi tour [] isDismiss
      else []
    | none => []
  if poiSet = [] then [place] else poiSet

/-- A turn of the loops over the pairs of points. -/
def nearer (best : ℚ × TransPlace × TransPlace) (pair : TransPlace × TransPlace) :
    ℚ × TransPlace × TransPlace :=
  let temp := w.caluateSphereDist pair.2 pair.1
  if temp < best.1 then (temp, pair) else best

/-- The points of the nearest pair that are not the places themselves. -/
def selectTransPois (placeA placeB : TransPlace) : List TransPlace :=
  let dismissPoiSet := w.walk (w.points placeA true)
  let gatherPoiSet := w.walk (w.points placeB false)
  let (_, selectDismiss, selectGather) :=
    (dismissPoiSet ×ˢ gatherPoiSet).foldl w.nearer (earthRadius, placeA, placeB)
  (if selectDismiss ≠ placeA then [selectDismiss] else []) ++
    if selectGather ≠ placeB ∧ selectGather ≠ selectDismiss then [selectGather] else []

def legKey (time : String) (placeA placeB : TransPlace) : String :=
  placeA.ID ++ "_" ++ placeB.ID ++ if time ≠ "" then "_" ++ time else ""

/-- The keys of the legs in the order in which they are travelled, if there are points. -/
def legKeys (start2endTrafKey : String) : Option (List String) :=
  match keyParts start2endTrafKey with
  | startId :: endId :: rest =>
    let time := rest.headD ""
    match w.getLYPlace startId, w.getLYPlace endId with
    | some startPlace, some endPlace =>
      if startPlace.t &&& LY_PLACE_TYPE_TOURALL ≠ 0 ∨ endPlace.t &&& LY_PLACE_TYPE_TOURALL ≠ 0 then
        match w.selectTransPois startPlace endPlace with
        | [] => none
        | [poi] => some [legKey time startPlace poi, legKey time poi endPlace]
        | left :: gather :: _ =>
          some [legKey time startPlace left, legKey time left gather, legKey time gather endPlace]
      else none
    | _, _ => none
  | _ => none

/-- The legs, if there is an item for each of them. -/
def neededLegs (trafficMap : TrafficMap) (start2endTrafKey : String) : Option (List String) :=
  (w.legKeys start2endTrafKey).filter fun legs => ∀ leg ∈ legs, (trafficMap.ptr leg).isSome

def selectTourTraffic (trafficMap : TrafficMap) (start2endTrafKey : String) : TrafficMap :=
  match w.neededLegs trafficMap start2endTrafKey with
  | none => trafficMap
  | some legs =>
    legs.foldl (addTrafficItem · start2endTrafKey) (dropEntry trafficMap start2endTrafKey)

end TransWorld

/-! ## Adding a leg -/

variable {trafficMap base : TrafficMap} {trafKey leg : String} {legs : List String}

/-- The item lists the items of the legs, and has their sums. -/
structure Sums (base : TrafficMap) (legs : List String) (item : TrafficItem) : Prop where
  list : item.m_trafficItemList.map some = legs.map base.ptr
  time : item._time = ((legs.filterMap base.item).map TrafficItem._time).sum
  dist : item._dist = ((legs.filterMap base.item).map TrafficItem._dist).sum
  realDist : item.m_realDist = ((legs.filterMap base.item).map TrafficItem.m_realDist).sum

theorem Sums.add {item : TrafficItem} (h : Sums base legs item) {ptr : ℕ} {addItem : TrafficItem}
    (hptr : base.ptr leg = some ptr) (hitem : base.item leg = some addItem) :
    Sums base (legs ++ [leg]) (item.add ptr addItem) := by
  constructor
  · simp [TrafficItem.add, h.list, hptr]
  · simp [TrafficItem.add, h.time, hitem]
  · simp [TrafficItem.add, h.dist, hitem]
  · simp [TrafficItem.add, h.realDist, hitem]

/-- The legs up to here are added to a map that had no item for the key. -/
structure Adding (base : TrafficMap) (trafKey : String) (legs : List String)
    (trafficMap : TrafficMap) : Prop where
  ptr : ∀ key, key ≠ trafKey → trafficMap.ptr key = base.ptr key
  cell : ∀ p < base.next, trafficMap.cell p = base.cell p
  entry : (legs = [] ∧ trafficMap.ptr trafKey = none ∧ trafficMap.next = base.next) ∨
    ∃ item, trafficMap.ptr trafKey = some base.next ∧ trafficMap.cell base.next = some item ∧
      Sums base legs item

theorem ptr_pushItem (addItem : ℕ) :
    (pushItem trafficMap trafKey addItem).ptr = trafficMap.ptr := by
  unfold pushItem
  split
  · rfl
  · rw [OwnedHeap.ptr_modify]

theorem next_pushItem (addItem : ℕ) :
    (pushItem trafficMap trafKey addItem).next = trafficMap.next := by
  unfold pushItem
  split
  · rfl
  · rw [OwnedHeap.next_modify]

theorem cell_pushItem {addItem : ℕ} {added : TrafficItem}
    (hadd : trafficMap.cell addItem = some added) (p : ℕ) :
    (pushItem trafficMap trafKey addItem).cell p =
      if trafficMap.ptr trafKey = some p then (trafficMap.cell p).map (·.add addItem added)
      else trafficMap.cell p := by
  unfold pushItem
  split
  next hnone => exact absurd (hadd.symm.trans hnone) (by simp)
  next added' hsome =>
    obtain rfl := Option.some.inj (hadd.symm.trans hsome)
    rw [OwnedHeap.cell_modify]

theorem cell_pushItem_eq_none {addItem p : ℕ} (hp : trafficMap.cell p = none) :
    (pushItem trafficMap trafKey addItem).cell p = none := by
  cases hadd : trafficMap.cell addItem with
  | none =>
    unfold pushItem
    split
    · exact hp
    next hsome => exact absurd (hadd.symm.trans hsome) (by simp)
  | some added => rw [cell_pushItem hadd, hp, Option.map_none, ite_self]

theorem Adding.push {item added : TrafficItem} {p : ℕ}
    (hptr : ∀ key, key ≠ trafKey → trafficMap.ptr key = base.ptr key)
    (hcell : ∀ q < base.next, trafficMap.cell q = base.cell q)
    (hentry : trafficMap.ptr trafKey = some base.next)
    (hfound : trafficMap.cell base.next = some item) (hsums : Sums base legs item)
    (hp : base.ptr leg = some p) (hadded : base.cell p = some added) :
    Adding base trafKey (legs ++ [leg]) (pushItem trafficMap trafKey p) := by
  have hitem : base.item leg = some added := by rw [OwnedHeap.item, hp, Option.bind_some, hadded]
  have hadd : trafficMap.cell p = some added := (hcell p (base.ptr_lt_next hp)).trans hadded
  refine ⟨fun key hkey => ?_, fun q hq => ?_, .inr ⟨item.add p added, ?_, ?_, hsums.add hp hitem⟩⟩
  · rw [ptr_pushItem, hptr key hkey]
  · have hother : trafficMap.ptr trafKey ≠ some q := by
      rw [hentry]
      exact fun heq => hq.ne (Option.some.inj heq).symm
    rw [cell_pushItem hadd, if_neg hother, hcell q hq]
  · rw [ptr_pushItem, hentry]
  · rw [cell_pushItem hadd, if_pos hentry, hfound, Option.map_some]

theorem Adding.add (h : Adding base trafKey legs trafficMap) (hne : leg ≠ trafKey)
    (hleg : (base.ptr leg).isSome) (hparts : 2 ≤ (keyParts trafKey).length) :
    Adding base trafKey (legs ++ [leg]) (addTrafficItem trafficMap trafKey leg) := by
  obtain ⟨p, added, hp, hadded, -⟩ := base.exists_item hleg
  have hptr : trafficMap.ptr leg = some p := (h.ptr leg hne).trans hp
  simp only [addTrafficItem, hptr]
  rcases h.entry with ⟨rfl, hnone, hnext⟩ | ⟨item, hentry, hfound, hsums⟩
  · simp only [hnone, Option.isSome_none, Bool.false_eq_true, if_false]
    match hkey : keyParts trafKey, hparts with
    | startP :: stopP :: rest, _ =>
      have hsums : Sums base [] { m_startP := startP, m_stopP := stopP } := ⟨rfl, rfl, rfl, rfl⟩
      refine Adding.push (fun key hkey => ?_) (fun q hq => ?_) ?_ ?_ hsums hp hadded
      · rw [OwnedHeap.ptr_alloc_of_ne hkey, h.ptr key hkey]
      · rw [OwnedHeap.cell_alloc_of_lt (hnext ▸ hq), h.cell q hq]
      · rw [OwnedHeap.ptr_alloc_self, hnext]
      · rw [← hnext, OwnedHeap.cell_alloc_next]
  · simp only [hentry, Option.isSome_some, if_true]
    exact Adding.push h.ptr h.cell hentry hfound hsums hp hadded

theorem Adding.foldl (h : Adding base trafKey legs trafficMap)
    (hparts : 2 ≤ (keyParts trafKey).length) (more : List String)
    (hmore : ∀ leg ∈ more, leg ≠ trafKey ∧ (base.ptr leg).isSome) :
    Adding base trafKey (legs ++ more) (more.foldl (addTrafficItem · trafKey) trafficMap) := by
  induction more generalizing legs trafficMap with
  | nil => rwa [List.append_nil]
  | cons leg more ih =>
    obtain ⟨⟨hne, hleg⟩, hmore⟩ := List.forall_mem_cons.mp hmore
    rw [List.append_cons, List.foldl_cons]
    exact ih (h.add hne hleg hparts) hmore

/-- An item that is gone never comes back. -/
theorem cell_addTrafficItem_eq_none (trafKey leg : String) {p : ℕ} (hp : trafficMap.cell p = none)
    (hlt : p < trafficMap.next) : (addTrafficItem trafficMap trafKey leg).cell p = none ∧
      p < (addTrafficItem trafficMap trafKey leg).next := by
  unfold addTrafficItem
  cases trafficMap.ptr leg with
  | none => exact ⟨hp, hlt⟩
  | some addItem =>
    dsimp only
    split_ifs
    · exact ⟨cell_pushItem_eq_none hp, by rwa [next_pushItem]⟩
    · split
      · refine ⟨cell_pushItem_eq_none ?_, ?_⟩
        · rw [OwnedHeap.cell_alloc_of_lt hlt, hp]
        · rw [next_pushItem]
          exact Nat.lt_succ_of_lt hlt
      · exact ⟨hp, hlt⟩

theorem cell_foldl_addTrafficItem_eq_none (trafKey : String) (legs : List String) {p : ℕ}
    (hp : trafficMap.cell p = none) (hlt : p < trafficMap.next) :
    (legs.foldl (addTrafficItem · trafKey) trafficMap).cell p = none := by
  induction legs generalizing trafficMap with
  | nil => exact hp
  | cons leg legs ih =>
    obtain ⟨hp, hlt⟩ := cell_addTrafficItem_eq_none trafKey leg hp hlt
    exact ih hp hlt

/-! ## The entry of the key -/

theorem ptr_dropEntry_self : (dropEntry trafficMap trafKey).ptr trafKey = none := by
  unfold dropEntry
  split_ifs with hold
  · exact OwnedHeap.ptr_delete_self
  · simpa using hold

theorem ptr_dropEntry_of_ne {key : String} (hne : key ≠ trafKey) :
    (dropEntry trafficMap trafKey).ptr key = trafficMap.ptr key := by
  unfold dropEntry
  split_ifs
  · exact OwnedHeap.ptr_delete_of_ne hne
  · rfl

theorem cell_dropEntry_of_ne {p : ℕ} (hp : trafficMap.ptr trafKey ≠ some p) :
    (dropEntry trafficMap trafKey).cell p = trafficMap.cell p := by
  unfold dropEntry
  split_ifs
  · exact OwnedHeap.cell_delete_of_ne hp
  · rfl

theorem cell_dropEntry_of_ptr {p : ℕ} (hp : trafficMap.ptr trafKey = some p) :
    (dropEntry trafficMap trafKey).cell p = none := by
  unfold dropEntry
  rw [if_pos (by rw [hp]; rfl)]
  exact OwnedHeap.cell_delete_of_ptr hp

theorem next_dropEntry : (dropEntry trafficMap trafKey).next = trafficMap.next := by
  unfold dropEntry
  split_ifs <;> rfl

/-- Another key has another item. -/
theorem item_dropEntry_of_ne {key : String} (hne : key ≠ trafKey) :
    (dropEntry trafficMap trafKey).item key = trafficMap.item key := by
  unfold OwnedHeap.item
  rw [ptr_dropEntry_of_ne hne]
  cases hp : trafficMap.ptr key with
  | none => rfl
  | some p =>
    rw [Option.bind_some, Option.bind_some]
    exact cell_dropEntry_of_ne fun hold => hne (trafficMap.owner key trafKey p hp hold)

/-- The entry of the key lists the items of the legs, which are as they were, and has their sums. -/
def Combined (trafficMap trafficMap' : TrafficMap) (trafKey : String) (legs : List String) : Prop :=
  ∃ item, trafficMap'.item trafKey = some item ∧ Sums trafficMap legs item ∧
    ∀ p ∈ item.m_trafficItemList, trafficMap'.cell p = trafficMap.cell p

/-- The other entries are as they were, with what they list. -/
def OthersKept (trafficMap trafficMap' : TrafficMap) (trafKey : String) : Prop :=
  ∀ key, key ≠ trafKey → trafficMap'.ptr key = trafficMap.ptr key ∧
    trafficMap'.item key = trafficMap.item key ∧
    ∀ item ∈ trafficMap.item key, ∀ p ∈ item.m_trafficItemList,
      trafficMap'.cell p = trafficMap.cell p

/-- What `SelectTourTraffic` is there for. -/
def Selects (w : TransWorld) (trafficMap : TrafficMap) (trafKey : String)
    (trafficMap' : TrafficMap) : Prop :=
  match w.neededLegs trafficMap trafKey with
  | some legs => Combined trafficMap trafficMap' trafKey legs ∧
      OthersKept trafficMap trafficMap' trafKey
  | none => trafficMap' = trafficMap

/-- The legs can be put in the place of the old item: it is no leg, and no other entry lists it. -/
def Replaceable (trafficMap : TrafficMap) (trafKey : String) (legs : List String) : Prop :=
  trafKey ∉ legs ∧ ∀ key, key ≠ trafKey → ∀ item ∈ trafficMap.item key,
    ∀ p ∈ trafficMap.ptr trafKey, p ∉ item.m_trafficItemList

namespace Adding

variable {trafficMap' : TrafficMap}
  (h : Adding (dropEntry trafficMap trafKey) trafKey legs trafficMap')

include h

/-- What is there already and is not the old item stays. -/
theorem cell_eq {p : ℕ} (hlt : p < trafficMap.next) (hp : trafficMap.ptr trafKey ≠ some p) :
    trafficMap'.cell p = trafficMap.cell p := by
  rw [h.cell p (by rwa [next_dropEntry]), cell_dropEntry_of_ne hp]

theorem cell_eq_of_ptr {key : String} {p : ℕ} (hne : key ≠ trafKey)
    (hp : trafficMap.ptr key = some p) : trafficMap'.cell p = trafficMap.cell p := by
  apply h.cell_eq (trafficMap.ptr_lt_next hp)
  exact fun hold => hne (trafficMap.owner key trafKey p hp hold)

theorem combined (hlegs : legs ≠ []) (hne : ∀ leg ∈ legs, leg ≠ trafKey) :
    Combined trafficMap trafficMap' trafKey legs := by
  obtain ⟨rfl, -⟩ | ⟨item, hptr, hitem, hlist, htime, hdist, hreal⟩ := h.entry
  · exact absurd rfl hlegs
  · have hptrs : legs.map (dropEntry trafficMap trafKey).ptr = legs.map trafficMap.ptr :=
      List.map_congr_left fun leg hleg => ptr_dropEntry_of_ne (hne leg hleg)
    have hitems : legs.filterMap (dropEntry trafficMap trafKey).item =
        legs.filterMap trafficMap.item :=
      List.filterMap_congr fun leg hleg => item_dropEntry_of_ne (hne leg hleg)
    rw [hptrs] at hlist
    rw [hitems] at htime hdist hreal
    refine ⟨item, ?_, ⟨hlist, htime, hdist, hreal⟩, fun p hp => ?_⟩
    · rw [OwnedHeap.item, hptr, Option.bind_some, hitem]
    · have hmem : some p ∈ legs.map trafficMap.ptr := hlist ▸ List.mem_map_of_mem hp
      obtain ⟨leg, hleg, hpleg⟩ := List.mem_map.mp hmem
      exact h.cell_eq_of_ptr (hne leg hleg) hpleg

theorem othersKept (hlisted : ∀ key, key ≠ trafKey → ∀ item ∈ trafficMap.item key,
    ∀ p ∈ trafficMap.ptr trafKey, p ∉ item.m_trafficItemList) :
    OthersKept trafficMap trafficMap' trafKey := by
  intro key hne
  have hptr : trafficMap'.ptr key = trafficMap.ptr key := by
    rw [h.ptr key hne, ptr_dropEntry_of_ne hne]
  refine ⟨hptr, ?_, fun item hitem p hmem => ?_⟩
  · unfold OwnedHeap.item
    rw [hptr]
    cases hp : trafficMap.ptr key with
    | none => rfl
    | some p => exact h.cell_eq_of_ptr hne hp
  · obtain ⟨q, hq, hcellq⟩ := Option.bind_eq_some_iff.mp hitem
    apply h.cell_eq (trafficMap.refs_lt q item hcellq p hmem)
    exact fun hold => hlisted key hne item hitem p hold hmem

end Adding

theorem combined_of_replaceable (hlegs : legs ≠ []) (hparts : 2 ≤ (keyParts trafKey).length)
    (hall : ∀ leg ∈ legs, (trafficMap.ptr leg).isSome)
    (hreplace : Replaceable trafficMap trafKey legs) :
    let trafficMap' := legs.foldl (addTrafficItem · trafKey) (dropEntry trafficMap trafKey)
    Combined trafficMap trafficMap' trafKey legs ∧ OthersKept trafficMap trafficMap' trafKey := by
  intro trafficMap'
  obtain ⟨hkey, hlisted⟩ := hreplace
  have hne : ∀ leg ∈ legs, leg ≠ trafKey := fun leg hleg heq => hkey (heq ▸ hleg)
  have hstart : Adding (dropEntry trafficMap trafKey) trafKey [] (dropEntry trafficMap trafKey) :=
    ⟨fun _ _ => rfl, fun _ _ => rfl, .inl ⟨rfl, ptr_dropEntry_self, rfl⟩⟩
  have hadding : Adding (dropEntry trafficMap trafKey) trafKey legs trafficMap' := by
    refine hstart.foldl hparts legs fun leg hleg => ⟨hne leg hleg, ?_⟩
    rw [ptr_dropEntry_of_ne (hne leg hleg)]
    exact hall leg hleg
  exact ⟨hadding.combined hlegs hne, hadding.othersKept hlisted⟩

theorem replaceable_of_combined (hall : ∀ leg ∈ legs, (trafficMap.ptr leg).isSome)
    (hcombined : Combined trafficMap (legs.foldl (addTrafficItem · trafKey)
      (dropEntry trafficMap trafKey)) trafKey legs)
    (hothers : OthersKept trafficMap (legs.foldl (addTrafficItem · trafKey)
      (dropEntry trafficMap trafKey)) trafKey) :
    Replaceable trafficMap trafKey legs := by
  have hgone : ∀ p, trafficMap.ptr trafKey = some p →
      (legs.foldl (addTrafficItem · trafKey) (dropEntry trafficMap trafKey)).cell p ≠
        trafficMap.cell p := by
    intro p hp heq
    have hlt : p < (dropEntry trafficMap trafKey).next := by
      rw [next_dropEntry]
      exact trafficMap.ptr_lt_next hp
    have hnone := cell_foldl_addTrafficItem_eq_none trafKey legs (cell_dropEntry_of_ptr hp) hlt
    have hlive := trafficMap.live trafKey p hp
    rw [← heq, hnone] at hlive
    contradiction
  constructor
  · intro hmem
    obtain ⟨p, hp⟩ := Option.isSome_iff_exists.mp (hall trafKey hmem)
    obtain ⟨item, -, hsums, hlisted⟩ := hcombined
    have hin : some p ∈ item.m_trafficItemList.map some := by
      rw [hsums.list, ← hp]
      exact List.mem_map_of_mem hmem
    exact hgone p hp (hlisted p (by simpa using hin))
  · intro key hne item hitem p hp hmem
    exact hgone p hp ((hothers key hne).2.2 item hitem p hmem)

theorem legKeys_ne_nil {w : TransWorld} (h : w.legKeys trafKey = some legs) :
    legs ≠ [] ∧ 2 ≤ (keyParts trafKey).length := by
  unfold TransWorld.legKeys at h
  split at h
  next startId endId rest hparts =>
    refine ⟨?_, by rw [hparts]; simp⟩
    dsimp only at h
    split at h
    · split_ifs at h
      split at h
      · contradiction
      · exact Option.some.inj h ▸ List.cons_ne_nil _ _
      · exact Option.some.inj h ▸ List.cons_ne_nil _ _
    · contradiction
  · contradiction

/-- The combined entry is right, and no other entry changes, exactly if the legs can be put in the
place of the old item whenever there are any. -/
theorem selectTourTraffic_selects_iff (w : TransWorld) (trafficMap : TrafficMap)
    (trafKey : String) :
    Selects w trafficMap trafKey (w.selectTourTraffic trafficMap trafKey) ↔
      ∀ legs ∈ w.neededLegs trafficMap trafKey, Replaceable trafficMap trafKey legs := by
  unfold Selects TransWorld.selectTourTraffic
  cases hneeded : w.neededLegs trafficMap trafKey with
  | none => simp
  | some legs =>
    obtain ⟨hkeys, hall⟩ := Option.filter_eq_some_iff.mp hneeded
    rw [decide_eq_true_eq] at hall
    obtain ⟨hlegs, hparts⟩ := legKeys_ne_nil hkeys
    simp only [Option.mem_some_iff, forall_eq']
    constructor
    · rintro ⟨hcombined, hothers⟩
      exact replaceable_of_combined hall hcombined hothers
    · exact combined_of_replaceable hlegs hparts hall

/-- A tour that ends at the hotel `H`. -/
def hotelTour : TransPlace := ⟨0, "T", LY_PLACE_TYPE_TOURALL, some ⟨2, [], []⟩⟩

def tourHotel : TransPlace := ⟨1, "H", 4, none⟩

def hotelWorld : TransWorld where
  getLYPlace id := if id = "T" then some hotelTour else if id = "H" then some tourHotel else none
  m_City := some "10001"
  getCoreHotel _ := none
  getHotelByDidx _ := some tourHotel
  caluateSphereDist _ _ := 0
  walk l := l
  walk_perm _ := .refl _

/-- From the tour to the hotel, and from the hotel to itself. -/
def hotelTraffic : TrafficMap :=
  ((∅ : TrafficMap).alloc "T_H" { _time := 600 } rfl).alloc "H_H" {} rfl

/-- The way from the tour to its last point is the key itself. -/
theorem neededLegs_hotelTraffic :
    hotelWorld.neededLegs hotelTraffic "T_H" = some ["T_H", "H_H"] := by
  decide +kernel

/-- The item of the first leg is deleted before it is listed. -/
theorem not_selects_hotelTraffic :
    ¬ Selects hotelWorld hotelTraffic "T_H" (hotelWorld.selectTourTraffic hotelTraffic "T_H") := by
  unfold Selects TransWorld.selectTourTraffic
  rw [neededLegs_hotelTraffic]
  rintro ⟨hcombined, hothers⟩
  have hall : ∀ leg ∈ ["T_H", "H_H"], (hotelTraffic.ptr leg).isSome := by decide
  exact (replaceable_of_combined hall hcombined hothers).1 List.mem_cons_self

end PPView.TrafficData
