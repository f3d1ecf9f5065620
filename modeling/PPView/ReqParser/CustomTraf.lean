import PPView.Library.Json
import PPView.TrafficData.TrafficItem

/-!
# Custom traffic

A request brings custom traffic of its own, and its views may bring more.
`ReqParser::ParseCustomTraf` merges the three by the names of their entries, and then puts the
entries into `m_customTrafMap` in the order of the names, under the pair of places that a name
begins with. The first one stays.
-/

namespace PPView.ReqParser

open TrafficData

/-! ## Entries -/

structure ErrorInfo where
  m_errID : Int := 0
  m_errReason : String := ""

def TRAF_MODE_UBER : Int := 3
def TRAF_MODE_DRIVING : Int := 4

/-- The mode of a user is one more than that of the program. -/
def userTrafMode2InnerDefine (userMode : Int) : Int :=
  if userMode = TRAF_MODE_TAXI + 1 then TRAF_MODE_TAXI
  else if userMode = TRAF_MODE_WALKING + 1 then TRAF_MODE_WALKING
  else if userMode = TRAF_MODE_BUS + 1 then TRAF_MODE_BUS
  else if userMode = TRAF_MODE_UBER + 1 then TRAF_MODE_UBER
  else if userMode = TRAF_MODE_DRIVING + 1 then TRAF_MODE_DRIVING
  else -1

def isBadTraf (trafItem : TrafficData.TrafficItem) : Bool :=
  trafItem._time > 6 * 3600 ∨ trafItem._time < 0

/-- A type of requests in which traffic has the modes of the program. -/
def hasInnerModes (type : String) : Bool := type = "s205" ∨ type = "s128"

/-- The item of an entry, but for its mode. -/
def newTrafItem (trafKey startP stopP : String) (jTraffic : Json) (dur dist : Int) :
    TrafficData.TrafficItem :=
  let custom := jTraffic.get "custom"
  { m_custom := ! (jTraffic.isMember "custom" && custom.isInt && custom.asInt = some 0)
    m_startP := startP
    m_stopP := stopP
    m_order := 0
    _mid := match jTraffic.get "id" with | .str id => id | _ => trafKey
    _time := dur
    _dist := dist
    m_realDist := dist }

/-- The item of an entry, if it has one, and the error that is set. -/
def parseTraffic2TrafItem (type : String) (isPlace : String → Bool) (trafKey : String)
    (jTraffic : Json) : Option (Option TrafficData.TrafficItem × Option ErrorInfo) :=
  match keyParts trafKey with
  | startP :: stopP :: _ => do
    let dur ← (← jTraffic.field "dur").asInt
    let dist ← (← jTraffic.field "dist").asInt
    let trafItem := newTrafItem trafKey startP stopP jTraffic dur dist
    if !isPlace startP || !isPlace stopP then
      return (none, none)
    if isBadTraf trafItem then
      return (none, some ⟨50000, "请求格式异常: parseTraffic error, trafKey: " ++ trafKey ++ " "⟩)
    let jType ← (← jTraffic.field "type").asInt
    let mode := if hasInnerModes type then jType else userTrafMode2InnerDefine jType
    return (some { trafItem with _mode := mode }, none)
  | _ => some (none, none)

/-! ## Traffic of views -/

abbrev Members := List (String × Json)

/-- The custom traffic and the other traffic, after one more view of a day. -/
def addViewTraf (lists : Members × Members) (jNowView : Json) : Members × Members :=
  let jTraffic := jNowView.get "traffic"
  match jTraffic.get "id", (jTraffic.get "custom").isInt with
  | .str id, true =>
    match keyParts id with
    | start :: stop :: _ =>
      let trafKey := start ++ "_" ++ stop
      if (jTraffic.get "custom").asInt ≠ some 0 then
        (Json.insertMember trafKey jTraffic lists.1, lists.2)
      else (lists.1, Json.insertMember trafKey jTraffic lists.2)
    | _ => lists
  | _, _ => lists

/-- The items of an array. -/
def arrayItems : Json → List Json
  | .arr items => items
  | _ => []

/-- The last view of a day has no way to a next one. -/
def parseTrafFromView (jView : Json) : Members × Members :=
  (arrayItems (jView.get "day")).foldl (fun lists jDay =>
    (arrayItems (jDay.get "view")).dropLast.foldl addViewTraf lists) ([], [])

/-- The traffic of a view of the city, if the request has it. -/
def cityViewTraf (req : Json) (key : String) : Members × Members :=
  let jView := (req.get "city").get key
  if jView.isObject then parseTrafFromView jView else ([], [])

/-! ## The merge -/

/-- The members that are not there yet. -/
def mergeMissing (jTrafList : Json) (members : Members) : Option Json :=
  members.foldlM (fun j m => if j.isMember m.1 then some j else j.put m.1 m.2) jTrafList

def insertTraf (type : String) (isPlace : String → Bool) (jTrafList : Json)
    (state : List (String × TrafficData.TrafficItem) × ErrorInfo) (trafKey : String) :
    Option (List (String × TrafficData.TrafficItem) × ErrorInfo) := do
  let (trafItem, error) ← parseTraffic2TrafItem type isPlace trafKey (jTrafList.get trafKey)
  let m_error := error.getD state.2
  match trafItem with
  | none => return (state.1, m_error)
  | some trafItem =>
    return (addFirst state.1 (trafItem.m_startP ++ "_" ++ trafItem.m_stopP, trafItem), m_error)

def insertAll (type : String) (isPlace : String → Bool) (jTrafList : Json) (m_error : ErrorInfo) :
    Option (List (String × TrafficData.TrafficItem) × ErrorInfo) := do
  let jMemList ← jTrafList.memberNames
  jMemList.foldlM (insertTraf type isPlace jTrafList) ([], m_error)

/-- The custom traffic that the request itself brings. -/
def customTraffic (type : String) (req : Json) : Option Json := do
  let jCustomTraffic ← req.field "customTraffic"
  if hasInnerModes type then (← req.field "city").field "customTraffic" else return jCustomTraffic

structure TrafMaps where
  m_customTrafMap : List (String × TrafficData.TrafficItem)
  m_lastTripTrafMap : List (String × TrafficData.TrafficItem)
  m_error : ErrorInfo

/-- The maps of a plan that has none yet. `none` is a failed assertion. -/
def parseCustomTraf (type : String) (isPlace : String → Bool) (req : Json) : Option TrafMaps := do
  let (jCustomTrafficFromOriView, jLastTripTrafficFromOriView) := cityViewTraf req "originView"
  let (jCustomTrafficFromView, jLastTripTrafficFromView) := cityViewTraf req "view"
  let jCustomTraffic ← customTraffic type req
  let jCustomTraffic ← mergeMissing jCustomTraffic jCustomTrafficFromView
  let jCustomTraffic ← mergeMissing jCustomTraffic jCustomTrafficFromOriView
  let (m_customTrafMap, m_error) ← insertAll type isPlace jCustomTraffic {}
  let jLastTripTrafList ← mergeMissing .null jLastTripTrafficFromOriView
  let jLastTripTrafList ← mergeMissing jLastTripTrafList jLastTripTrafficFromView
  let (m_lastTripTrafMap, m_error) ← insertAll type isPlace jLastTripTrafList m_error
  return ⟨m_customTrafMap, m_lastTripTrafMap, m_error⟩

/-! ## Usable entries -/

section

variable (type : String) (isPlace : String → Bool)

def usableItem (trafKey : String) (jTraffic : Json) : Option TrafficData.TrafficItem :=
  (parseTraffic2TrafItem type isPlace trafKey jTraffic).bind Prod.fst

/-- The traffic has a usable entry whose key begins with the pair, and which gives the item. -/
def Gives (jTrafList : Json) (start stop : String) (item : TrafficData.TrafficItem) : Prop :=
  ∃ trafKey, jTrafList.isMember trafKey ∧ (keyParts trafKey).take 2 = [start, stop] ∧
    usableItem type isPlace trafKey (jTrafList.get trafKey) = some item

end

variable {type : String} {isPlace : String → Bool} {trafKey start stop : String} {jTraffic : Json}

/-- An item is for the pair that its key begins with. -/
theorem keyParts_of_usableItem {item : TrafficData.TrafficItem}
    (h : usableItem type isPlace trafKey jTraffic = some item) :
    (keyParts trafKey).take 2 = [item.m_startP, item.m_stopP] := by
  unfold usableItem parseTraffic2TrafItem at h
  split at h
  next startP stopP rest hparts =>
    simp only [Option.bind_eq_bind, Option.bind_eq_some_iff] at h
    obtain ⟨_, ⟨jDur, -, dur, -, jDist, -, dist, -, h⟩, hitem⟩ := h
    split at h
    · obtain rfl := Option.some.inj h
      contradiction
    · split at h
      · obtain rfl := Option.some.inj h
        contradiction
      · simp only [Option.bind_eq_some_iff] at h
        obtain ⟨jType, -, mode, -, h⟩ := h
        obtain rfl := Option.some.inj h
        obtain rfl := Option.some.inj hitem
        rw [hparts]
        rfl
  · simp at h

theorem pair_inj {start stop start' stop' : String} (hstart : '_' ∉ start.toList)
    (hstop : '_' ∉ stop.toList) (hstart' : '_' ∉ start'.toList) (hstop' : '_' ∉ stop'.toList) :
    start ++ "_" ++ stop = start' ++ "_" ++ stop' ↔ [start, stop] = [start', stop'] := by
  constructor
  · intro h
    rw [← keyParts_pair hstart hstop, h, keyParts_pair hstart' hstop']
  · intro h
    obtain ⟨rfl, rfl⟩ : start = start' ∧ stop = stop' := by simpa using h
    rfl

theorem exists_parts (h : (keyParts trafKey).take 2 = [start, stop]) :
    ∃ rest, keyParts trafKey = start :: stop :: rest := by
  refine ⟨(keyParts trafKey).drop 2, ?_⟩
  calc keyParts trafKey = (keyParts trafKey).take 2 ++ (keyParts trafKey).drop 2 :=
        (List.take_append_drop 2 _).symm
    _ = start :: stop :: (keyParts trafKey).drop 2 := by
        rw [h]
        rfl

/-- Every key that begins with a pair comes behind the pair itself. -/
theorem pair_le (h : (keyParts trafKey).take 2 = [start, stop]) :
    start ++ "_" ++ stop ≤ trafKey := by
  obtain ⟨rest, hparts⟩ := exists_parts h
  rw [String.le_iff_toList_le, ← not_lt]
  exact (prefix_of_keyParts hparts).2.2.le

theorem notMem_of_usableItem {item : TrafficData.TrafficItem}
    (h : usableItem type isPlace trafKey jTraffic = some item) :
    '_' ∉ item.m_startP.toList ∧ '_' ∉ item.m_stopP.toList := by
  obtain ⟨rest, hparts⟩ := exists_parts (keyParts_of_usableItem h)
  obtain ⟨hstart, hstop, -⟩ := prefix_of_keyParts hparts
  exact ⟨hstart, hstop⟩

/-! ## The table -/

variable {jTrafList : Json} {m_error m_error' : ErrorInfo}
  {table : List (String × TrafficData.TrafficItem)}

/-- The entry that a key brings. -/
def tableEntry (type : String) (isPlace : String → Bool) (jTrafList : Json) (trafKey : String) :
    Option (String × TrafficData.TrafficItem) :=
  (usableItem type isPlace trafKey (jTrafList.get trafKey)).map fun trafItem =>
    (trafItem.m_startP ++ "_" ++ trafItem.m_stopP, trafItem)

theorem foldlM_insertTraf {jMemList : List String} {old : List (String × TrafficData.TrafficItem)}
    (h : jMemList.foldlM (insertTraf type isPlace jTrafList) (old, m_error) =
      some (table, m_error')) :
    table = addAll (tableEntry type isPlace jTrafList) old jMemList := by
  induction jMemList generalizing old m_error with
  | nil =>
    rw [List.foldlM_nil] at h
    exact (congrArg Prod.fst (Option.some.inj h)).symm
  | cons trafKey jMemList ih =>
    rw [List.foldlM_cons] at h
    obtain ⟨⟨next, error⟩, hinsert, hrest⟩ := Option.bind_eq_some_iff.mp h
    rw [ih hrest, addAll, addAll, List.foldl_cons]
    congr 1
    obtain ⟨⟨trafItem, error⟩, hparse, hnext⟩ := Option.bind_eq_some_iff.mp hinsert
    have husable : usableItem type isPlace trafKey (jTrafList.get trafKey) = trafItem := by
      rw [usableItem, hparse, Option.bind_some]
    rw [tableEntry, husable]
    cases trafItem with
    | none => exact (congrArg Prod.fst (Option.some.inj hnext)).symm
    | some trafItem => exact (congrArg Prod.fst (Option.some.inj hnext)).symm

/-- What a key gives for a pair. -/
def pairItem (type : String) (isPlace : String → Bool) (jTrafList : Json) (start stop : String)
    (trafKey : String) : Option TrafficData.TrafficItem :=
  if (keyParts trafKey).take 2 = [start, stop] then
    usableItem type isPlace trafKey (jTrafList.get trafKey)
  else none

/-- The first key that gives something decides. -/
theorem lookup_insertAll (h : insertAll type isPlace jTrafList m_error = some (table, m_error'))
    (hstart : '_' ∉ start.toList) (hstop : '_' ∉ stop.toList) :
    ∃ jMemList, jTrafList.memberNames = some jMemList ∧
      table.lookup (start ++ "_" ++ stop) =
        jMemList.findSome? (pairItem type isPlace jTrafList start stop) := by
  obtain ⟨jMemList, hnames, hfold⟩ := Option.bind_eq_some_iff.mp h
  refine ⟨jMemList, hnames, ?_⟩
  rw [foldlM_insertTraf hfold, lookup_addAll, List.lookup_nil, Option.none_or]
  congr 1
  funext trafKey
  rw [tableEntry, pairItem]
  cases husable : usableItem type isPlace trafKey (jTrafList.get trafKey) with
  | none => rw [ite_self]; rfl
  | some trafItem =>
    obtain ⟨hstart', hstop'⟩ := notMem_of_usableItem husable
    rw [Option.map_some, Option.bind_some, keyParts_of_usableItem husable]
    simp only [pair_inj hstart hstop hstart' hstop', eq_comm]

theorem nodup_insertAll (h : insertAll type isPlace jTrafList m_error = some (table, m_error')) :
    (table.map Prod.fst).Nodup := by
  obtain ⟨jMemList, -, hfold⟩ := Option.bind_eq_some_iff.mp h
  rw [foldlM_insertTraf hfold]
  apply nodup_addAll
  exact List.nodup_nil

section

variable (h : insertAll type isPlace jTrafList m_error = some (table, m_error'))
  (hstart : '_' ∉ start.toList) (hstop : '_' ∉ stop.toList) {item : TrafficData.TrafficItem}

include h hstart hstop

theorem gives_of_lookup (hitem : table.lookup (start ++ "_" ++ stop) = some item) :
    Gives type isPlace jTrafList start stop item := by
  obtain ⟨jMemList, hnames, hlookup⟩ := lookup_insertAll h hstart hstop
  rw [hlookup] at hitem
  obtain ⟨trafKey, hmem, hgiven⟩ := List.exists_of_findSome?_eq_some hitem
  unfold pairItem at hgiven
  split_ifs at hgiven with hpair
  exact ⟨trafKey, (Json.mem_memberNames hnames).mp hmem, hpair, hgiven⟩

theorem exists_lookup_of_gives (hgives : Gives type isPlace jTrafList start stop item) :
    ∃ stored, table.lookup (start ++ "_" ++ stop) = some stored := by
  obtain ⟨trafKey, hmember, hpair, husable⟩ := hgives
  obtain ⟨jMemList, hnames, hlookup⟩ := lookup_insertAll h hstart hstop
  rw [hlookup, ← Option.isSome_iff_exists, List.findSome?_isSome_iff]
  refine ⟨trafKey, (Json.mem_memberNames hnames).mpr hmember, ?_⟩
  rw [pairItem, if_pos hpair, husable]
  rfl

/-- The entry of the pair itself comes first. -/
theorem lookup_of_pair (hmember : jTrafList.isMember (start ++ "_" ++ stop))
    (husable : usableItem type isPlace (start ++ "_" ++ stop)
      (jTrafList.get (start ++ "_" ++ stop)) = some item) :
    table.lookup (start ++ "_" ++ stop) = some item := by
  obtain ⟨jMemList, hnames, hlookup⟩ := lookup_insertAll h hstart hstop
  rw [hlookup]
  apply findSome?_of_least (Json.pairwise_memberNames hnames)
    ((Json.mem_memberNames hnames).mpr hmember)
  · rw [pairItem, if_pos (by rw [keyParts_pair hstart hstop]; rfl), husable]
  · intro trafKey _ hgiven
    unfold pairItem at hgiven
    split_ifs at hgiven with hpair
    · exact pair_le hpair
    · contradiction

end

/-! ## The merge of the three -/

theorem mergeMissing_eq {j j' : Json} {members : Members} (h : mergeMissing j members = some j')
    (key : String) : (j'.isMember key ↔ j.isMember key ∨ (Json.obj members).isMember key) ∧
      j'.get key = if j.isMember key then j.get key else (Json.obj members).get key := by
  induction members generalizing j with
  | nil =>
    obtain rfl := Option.some.inj h
    constructor
    · simp [Json.isMember]
    · split_ifs with hkey
      · rfl
      · exact Json.get_of_not_isMember hkey
  | cons m members ih =>
    unfold mergeMissing at h ih
    rw [List.foldlM_cons] at h
    obtain ⟨next, hnext, hrest⟩ := Option.bind_eq_some_iff.mp h
    obtain ⟨hmember, hget⟩ := ih hrest
    rw [hmember, hget, Json.isMember_obj, Json.isMember_obj, List.map_cons, List.mem_cons]
    have hhead : (Json.obj (m :: members)).get key =
        if key = m.1 then m.2 else (Json.obj members).get key := by
      rw [Json.get, lookup_cons_ite, Json.get]
      split_ifs <;> rfl
    rw [hhead]
    split_ifs at hnext with hthere
    · obtain rfl := Option.some.inj hnext
      grind
    · have hput := Json.isMember_put hnext key
      have hgetPut := Json.get_put hnext key
      grind

/-- The names are pairs without a further part. -/
def PairNames (members : Members) : Prop :=
  ∀ m ∈ members, ∃ start stop, '_' ∉ start.toList ∧ '_' ∉ stop.toList ∧ m.1 = start ++ "_" ++ stop

theorem PairNames.insertMember {members : Members} (h : PairNames members)
    (hstart : '_' ∉ start.toList) (hstop : '_' ∉ stop.toList) (v : Json) :
    PairNames (Json.insertMember (start ++ "_" ++ stop) v members) := by
  intro m hm
  rcases Json.mem_insertMember hm with rfl | hm
  · exact ⟨start, stop, hstart, hstop, rfl⟩
  · exact h m hm

theorem pairNames_addViewTraf {lists : Members × Members} (h : PairNames lists.1)
    (jNowView : Json) : PairNames (addViewTraf lists jNowView).1 := by
  unfold addViewTraf
  dsimp only
  split
  · split
    next start stop rest hparts =>
      obtain ⟨hstart, hstop, -⟩ := prefix_of_keyParts hparts
      split_ifs
      · exact h.insertMember hstart hstop _
      · exact h
    · exact h
  · exact h

theorem pairNames_foldl {views : List Json} {lists : Members × Members} (h : PairNames lists.1) :
    PairNames (views.foldl addViewTraf lists).1 :=
  List.foldlRecOn (motive := fun lists : Members × Members => PairNames lists.1) views _ h
    fun _ h jNowView _ => pairNames_addViewTraf h jNowView

theorem pairNames_cityViewTraf (req : Json) (key : String) :
    PairNames (cityViewTraf req key).1 := by
  have hnil : PairNames [] := fun m hm => absurd hm List.not_mem_nil
  unfold cityViewTraf parseTrafFromView
  dsimp only
  split_ifs
  · apply List.foldlRecOn (motive := fun lists : Members × Members => PairNames lists.1) _ _ hnil
    intro lists h jDay _
    exact pairNames_foldl h
  · exact hnil

theorem PairNames.eq_pair {members : Members} (h : PairNames members)
    (hmember : (Json.obj members).isMember trafKey)
    (hpair : (keyParts trafKey).take 2 = [start, stop]) : trafKey = start ++ "_" ++ stop := by
  obtain ⟨m, hm, rfl⟩ := List.mem_map.mp (Json.isMember_obj.mp hmember)
  obtain ⟨start', stop', hstart, hstop, hname⟩ := h m hm
  rw [hname, keyParts_pair hstart hstop] at hpair
  obtain ⟨rfl, rfl⟩ : start' = start ∧ stop' = stop := by simpa using hpair
  exact hname

theorem gives_pair_iff {members : Members} (h : PairNames members) (hstart : '_' ∉ start.toList)
    (hstop : '_' ∉ stop.toList) {item : TrafficData.TrafficItem} :
    Gives type isPlace (.obj members) start stop item ↔
      (Json.obj members).isMember (start ++ "_" ++ stop) ∧
        usableItem type isPlace (start ++ "_" ++ stop)
          ((Json.obj members).get (start ++ "_" ++ stop)) = some item := by
  constructor
  · rintro ⟨trafKey, hmember, hpair, husable⟩
    obtain rfl := h.eq_pair hmember hpair
    exact ⟨hmember, husable⟩
  · rintro ⟨hmember, husable⟩
    exact ⟨_, hmember, by rw [keyParts_pair hstart hstop]; rfl, husable⟩

/-- The three sources in one list, of which the first that has a name counts. -/
structure Merged (own : Json) (view ori : Members) (merged : Json) : Prop where
  isMember : ∀ key, merged.isMember key ↔
    own.isMember key ∨ (Json.obj view).isMember key ∨ (Json.obj ori).isMember key
  get : ∀ key, merged.get key = if own.isMember key then own.get key
    else if (Json.obj view).isMember key then (Json.obj view).get key else (Json.obj ori).get key

theorem merged_mergeMissing {own viewed merged : Json} {view ori : Members}
    (hview : mergeMissing own view = some viewed) (hori : mergeMissing viewed ori = some merged) :
    Merged own view ori merged := by
  constructor
  · intro key
    rw [(mergeMissing_eq hori key).1, (mergeMissing_eq hview key).1, or_assoc]
  · intro key
    obtain ⟨hmember, hget⟩ := mergeMissing_eq hview key
    rw [(mergeMissing_eq hori key).2, hget]
    grind

/-- What the pair itself has in the views. -/
def Inherits (type : String) (isPlace : String → Bool) (view ori : Json) (start stop : String)
    (item : TrafficData.TrafficItem) : Prop :=
  Gives type isPlace view start stop item ∨
    ¬ view.isMember (start ++ "_" ++ stop) ∧ Gives type isPlace ori start stop item

section

variable {own merged : Json} {view ori : Members} (hmerged : Merged own view ori merged)
  (hview : PairNames view) (hori : PairNames ori) (hstart : '_' ∉ start.toList)
  (hstop : '_' ∉ stop.toList) {item : TrafficData.TrafficItem}

include hmerged hview hori hstart hstop

theorem merged_pair (hown : ¬ own.isMember (start ++ "_" ++ stop)) :
    Inherits type isPlace (.obj view) (.obj ori) start stop item ↔
      merged.isMember (start ++ "_" ++ stop) ∧
        usableItem type isPlace (start ++ "_" ++ stop) (merged.get (start ++ "_" ++ stop)) =
          some item := by
  rw [Inherits, gives_pair_iff hview hstart hstop, gives_pair_iff hori hstart hstop,
    hmerged.isMember, hmerged.get, if_neg hown]
  grind

theorem gives_merged_iff :
    Gives type isPlace merged start stop item ↔ Gives type isPlace own start stop item ∨
      ¬ own.isMember (start ++ "_" ++ stop) ∧
        Inherits type isPlace (.obj view) (.obj ori) start stop item := by
  constructor
  · rintro ⟨trafKey, hmember, hpair, husable⟩
    by_cases hown : own.isMember trafKey
    · rw [hmerged.get, if_pos hown] at husable
      exact .inl ⟨trafKey, hown, hpair, husable⟩
    · obtain rfl : trafKey = start ++ "_" ++ stop := by
        rcases ((hmerged.isMember trafKey).mp hmember).resolve_left hown with h | h
        · exact hview.eq_pair h hpair
        · exact hori.eq_pair h hpair
      exact .inr ⟨hown, (merged_pair hmerged hview hori hstart hstop hown).mpr
        ⟨hmember, husable⟩⟩
  · rintro (⟨trafKey, hown, hpair, husable⟩ | ⟨hown, hinherits⟩)
    · refine ⟨trafKey, (hmerged.isMember trafKey).mpr (.inl hown), hpair, ?_⟩
      rw [hmerged.get, if_pos hown, husable]
    · obtain ⟨hmember, husable⟩ := (merged_pair hmerged hview hori hstart hstop hown).mp hinherits
      exact ⟨_, hmember, by rw [keyParts_pair hstart hstop]; rfl, husable⟩

end

/-! ## Priorities -/

/-- What is stored for the pair comes from the first source that gives something. -/
def TakenFrom (type : String) (isPlace : String → Bool) (start stop : String)
    (stored : Option TrafficData.TrafficItem) : List Json → Prop
  | [] => stored = none
  | jTrafList :: rest =>
    ((∃ item, Gives type isPlace jTrafList start stop item) →
      ∃ item, stored = some item ∧ Gives type isPlace jTrafList start stop item) ∧
    ((¬ ∃ item, Gives type isPlace jTrafList start stop item) →
      TakenFrom type isPlace start stop stored rest)

/-- No entry of the pair is in the way of one that should count. -/
structure NoneHidden (type : String) (isPlace : String → Bool) (own view ori : Json)
    (start stop : String) : Prop where
  longer : (∃ item, Gives type isPlace own start stop item) →
    ¬ own.isMember (start ++ "_" ++ stop) →
    ∀ item, Inherits type isPlace view ori start stop item →
      Gives type isPlace own start stop item
  ownEntry : (¬ ∃ item, Gives type isPlace own start stop item) →
    own.isMember (start ++ "_" ++ stop) →
    (¬ ∃ item, Gives type isPlace view start stop item) ∧
      ¬ ∃ item, Gives type isPlace ori start stop item
  viewEntry : (¬ ∃ item, Gives type isPlace own start stop item) →
    view.isMember (start ++ "_" ++ stop) →
    (¬ ∃ item, Gives type isPlace view start stop item) →
    ¬ ∃ item, Gives type isPlace ori start stop item

section

variable {own view ori : Json} {item : TrafficData.TrafficItem}
  {stored : Option TrafficData.TrafficItem}

/-- What the views have for the pair itself is stored in any case. -/
theorem takenFrom_of_inherits (hlacks : ¬ own.isMember (start ++ "_" ++ stop))
    (hitem : Inherits type isPlace view ori start stop item)
    (hunique : ∀ other, Inherits type isPlace view ori start stop other → other = item) :
    TakenFrom type isPlace start stop (some item) [own, view, ori] ↔
      NoneHidden type isPlace own view ori start stop := by
  constructor
  · rintro ⟨hown, -⟩
    refine ⟨?_, fun _ hmember => absurd hmember hlacks, ?_⟩
    · intro hgiven _ other hother
      obtain ⟨_, heq, hgives⟩ := hown hgiven
      rwa [hunique other hother, Option.some.inj heq]
    · intro _ hmember hnoView
      rcases hitem with hitem | ⟨hviewLacks, -⟩
      · exact absurd ⟨item, hitem⟩ hnoView
      · exact absurd hmember hviewLacks
  · rintro ⟨hlonger, -, hviewEntry⟩
    refine ⟨fun hgiven => ⟨item, rfl, hlonger hgiven hlacks item hitem⟩, fun hnoOwn => ⟨?_, ?_⟩⟩
    · rintro ⟨other, hother⟩
      obtain rfl := hunique other (.inl hother)
      exact ⟨other, rfl, hother⟩
    · intro hnoView
      have hori : Gives type isPlace ori start stop item :=
        (hitem.resolve_left fun hview => hnoView ⟨item, hview⟩).2
      exact ⟨fun _ => ⟨item, rfl, hori⟩, (absurd ⟨item, hori⟩ ·)⟩

/-- What is stored is the request's own if the views have nothing for the pair itself. -/
theorem takenFrom_of_own (hstored : TakenFrom type isPlace start stop stored [own])
    (hnone : own.isMember (start ++ "_" ++ stop) ∨
      ∀ item, ¬ Inherits type isPlace view ori start stop item) :
    TakenFrom type isPlace start stop stored [own, view, ori] ↔
      NoneHidden type isPlace own view ori start stop := by
  obtain ⟨hown, hnoOwn⟩ := hstored
  constructor
  · rintro ⟨-, htaken⟩
    refine ⟨?_, ?_, ?_⟩
    · intro _ hlacks other hother
      exact absurd hother (hnone.resolve_left hlacks other)
    · intro hgiven _
      obtain ⟨hview, hrest⟩ := htaken hgiven
      obtain rfl := hnoOwn hgiven
      have hnoView : ¬ ∃ item, Gives type isPlace view start stop item := by
        intro h
        obtain ⟨_, heq, -⟩ := hview h
        contradiction
      refine ⟨hnoView, fun h => ?_⟩
      obtain ⟨_, heq, -⟩ := (hrest hnoView).1 h
      contradiction
    · intro hgiven _ hnoView h
      obtain rfl := hnoOwn hgiven
      obtain ⟨_, heq, -⟩ := ((htaken hgiven).2 hnoView).1 h
      contradiction
  · rintro ⟨-, hownEntry, hviewEntry⟩
    refine ⟨hown, fun hgiven => ⟨?_, fun hnoView => ⟨?_, fun _ => hnoOwn hgiven⟩⟩⟩
    · rintro ⟨item, hitem⟩
      rcases hnone with hmember | hnone
      · exact absurd ⟨item, hitem⟩ (hownEntry hgiven hmember).1
      · exact absurd (.inl hitem) (hnone item)
    · rintro ⟨item, hitem⟩
      rcases hnone with hmember | hnone
      · exact absurd ⟨item, hitem⟩ (hownEntry hgiven hmember).2
      · by_cases hmember : view.isMember (start ++ "_" ++ stop)
        · exact absurd ⟨item, hitem⟩ (hviewEntry hgiven hmember hnoView)
        · exact absurd (.inr ⟨hmember, hitem⟩) (hnone item)

end

theorem takenFrom_iff {own merged : Json} {view ori : Members}
    (hmerged : Merged own view ori merged) (hview : PairNames view) (hori : PairNames ori)
    (h : insertAll type isPlace merged m_error = some (table, m_error'))
    (hstart : '_' ∉ start.toList) (hstop : '_' ∉ stop.toList) :
    TakenFrom type isPlace start stop (table.lookup (start ++ "_" ++ stop))
        [own, .obj view, .obj ori] ↔
      NoneHidden type isPlace own (.obj view) (.obj ori) start stop := by
  by_cases hinherits : ¬ own.isMember (start ++ "_" ++ stop) ∧
      ∃ item, Inherits type isPlace (.obj view) (.obj ori) start stop item
  · obtain ⟨hlacks, item, hitem⟩ := hinherits
    have hpair : ∀ other, Inherits type isPlace (.obj view) (.obj ori) start stop other →
        table.lookup (start ++ "_" ++ stop) = some other := by
      intro other hother
      obtain ⟨hmember, husable⟩ := (merged_pair hmerged hview hori hstart hstop hlacks).mp hother
      exact lookup_of_pair h hstart hstop hmember husable
    rw [hpair item hitem]
    apply takenFrom_of_inherits hlacks hitem
    intro other hother
    exact Option.some.inj ((hpair other hother).symm.trans (hpair item hitem))
  · have hgives : ∀ item, Gives type isPlace merged start stop item ↔
        Gives type isPlace own start stop item := by
      intro item
      rw [gives_merged_iff hmerged hview hori hstart hstop]
      exact or_iff_left fun hitem => hinherits ⟨hitem.1, item, hitem.2⟩
    apply takenFrom_of_own
    · constructor
      · rintro ⟨item, hitem⟩
        obtain ⟨other, hother⟩ := exists_lookup_of_gives h hstart hstop ((hgives item).mpr hitem)
        exact ⟨other, hother, (hgives other).mp (gives_of_lookup h hstart hstop hother)⟩
      · intro hnoOwn
        rw [TakenFrom, Option.eq_none_iff_forall_ne_some]
        intro item hitem
        exact hnoOwn ⟨item, (hgives item).mp (gives_of_lookup h hstart hstop hitem)⟩
    · by_cases hmember : own.isMember (start ++ "_" ++ stop)
      · exact .inl hmember
      · exact .inr fun item hitem => hinherits ⟨hmember, item, hitem⟩

/-- The custom traffic of the request itself. -/
def ownTraf (type : String) (req : Json) : Json :=
  if hasInnerModes type then (req.get "city").get "customTraffic" else req.get "customTraffic"

/-- The custom traffic of a view. -/
def viewTraf (req : Json) (key : String) : Json := .obj (cityViewTraf req key).1

theorem customTraffic_eq {req own : Json} (h : customTraffic type req = some own) :
    own = ownTraf type req := by
  obtain ⟨jCustomTraffic, hfield, h⟩ := Option.bind_eq_some_iff.mp h
  unfold ownTraf
  split_ifs at h ⊢
  · obtain ⟨city, hcity, hown⟩ := Option.bind_eq_some_iff.mp h
    rw [← Json.get_of_field hcity, Json.get_of_field hown]
  · rw [← Option.some.inj h, Json.get_of_field hfield]

/-- There is one item for each pair, and it comes from the first source that gives one. -/
def Prioritized (type : String) (isPlace : String → Bool) (req : Json)
    (m_customTrafMap : List (String × TrafficData.TrafficItem)) : Prop :=
  (m_customTrafMap.map Prod.fst).Nodup ∧
    ∀ start stop, '_' ∉ start.toList → '_' ∉ stop.toList →
      TakenFrom type isPlace start stop (m_customTrafMap.lookup (start ++ "_" ++ stop))
        [ownTraf type req, viewTraf req "view", viewTraf req "originView"]

/-- The map has the right items exactly if no entry is in the way of one that should count. -/
theorem parseCustomTraf_prioritized_iff (type : String) (isPlace : String → Bool) (req : Json)
    (maps : TrafMaps) (h : parseCustomTraf type isPlace req = some maps) :
    Prioritized type isPlace req maps.m_customTrafMap ↔
      ∀ start stop, '_' ∉ start.toList → '_' ∉ stop.toList →
        NoneHidden type isPlace (ownTraf type req) (viewTraf req "view")
          (viewTraf req "originView") start stop := by
  obtain ⟨own, hown, h⟩ := Option.bind_eq_some_iff.mp h
  obtain ⟨viewed, hviewed, h⟩ := Option.bind_eq_some_iff.mp h
  obtain ⟨merged, hmerge, h⟩ := Option.bind_eq_some_iff.mp h
  obtain ⟨⟨table, m_error⟩, htable, h⟩ := Option.bind_eq_some_iff.mp h
  obtain ⟨_, -, h⟩ := Option.bind_eq_some_iff.mp h
  obtain ⟨_, -, h⟩ := Option.bind_eq_some_iff.mp h
  obtain ⟨⟨lastTrip, m_error'⟩, -, h⟩ := Option.bind_eq_some_iff.mp h
  obtain rfl := Option.some.inj h
  have hmerged := merged_mergeMissing hviewed hmerge
  obtain rfl := customTraffic_eq hown
  unfold Prioritized
  rw [and_iff_right (nodup_insertAll htable)]
  apply forall₂_congr
  intro start stop
  apply forall₂_congr
  intro hstart hstop
  exact takenFrom_iff hmerged (pairNames_cityViewTraf req "view")
    (pairNames_cityViewTraf req "originView") htable hstart hstop

def trafEntry (dur : Int) : List (String × Json) :=
  [("dist", .int 500), ("dur", .int dur), ("type", .int 2)]

def viewWith (id : String) (dur : Int) : Json :=
  .obj [("traffic", .obj (("custom", .int 1) :: ("id", .str id) :: trafEntry dur))]

/-- Custom traffic of the request itself, and of the views of a day. -/
def ownAndView : Json :=
  .obj [("city", .obj [("view", .obj [("day", .arr [.obj [("view", .arr [
      viewWith "a_b" 900, viewWith "b_c" 700, .null])]])])]),
    ("customTraffic", .obj [("a_b", .obj (trafEntry 600))])]

/-- The request's own traffic counts where both have some. -/
theorem parseCustomTraf_prioritized_iff_ownAndView :
    ∃ maps, parseCustomTraf "s125" (fun _ => true) ownAndView = some maps ∧
      Prioritized "s125" (fun _ => true) ownAndView maps.m_customTrafMap ∧
      maps.m_customTrafMap.map (fun entry => (entry.1, entry.2._time)) =
        [("a_b", 600), ("b_c", 700)] := by
  have hrun : (parseCustomTraf "s125" (fun _ => true) ownAndView).map (fun maps =>
      maps.m_customTrafMap.map fun entry => (entry.1, entry.2._time)) =
        some [("a_b", 600), ("b_c", 700)] := by decide +kernel
  obtain ⟨maps, hmaps, htimes⟩ := Option.map_eq_some_iff.mp hrun
  refine ⟨maps, hmaps, ?_, htimes⟩
  rw [parseCustomTraf_prioritized_iff _ _ _ maps hmaps]
  intro start stop hstart hstop
  have hown : PairNames [("a_b", .obj (trafEntry 600))] := by
    intro m hm
    obtain rfl := List.mem_singleton.mp hm
    exact ⟨"a", "b", by decide, by decide, rfl⟩
  have hgives : ∀ item, Gives "s125" (fun _ => true) (ownTraf "s125" ownAndView) start stop item ↔
      _ := fun item => gives_pair_iff hown hstart hstop
  have hview : ∀ item, Gives "s125" (fun _ => true) (viewTraf ownAndView "view") start stop item ↔
      _ := fun item => gives_pair_iff (pairNames_cityViewTraf ownAndView "view") hstart hstop
  refine ⟨fun ⟨item, hitem⟩ hlacks => ?_, fun hnone hmember => ?_, fun _ hmember hnone => ?_⟩
  · exact absurd ((hgives item).mp hitem).1 hlacks
  · obtain hkey : start ++ "_" ++ stop = "a_b" := by simpa using Json.isMember_obj.mp hmember
    have husable : (usableItem "s125" (fun _ => true) "a_b" (.obj (trafEntry 600))).isSome := by
      decide +kernel
    obtain ⟨item, hitem⟩ := Option.isSome_iff_exists.mp husable
    exact absurd ⟨item, (hgives item).mpr ⟨hmember, by rw [hkey]; exact hitem⟩⟩ hnone
  · have husable : ∀ key ∈ ["a_b", "b_c"], (usableItem "s125" (fun _ => true) key
        ((viewTraf ownAndView "view").get key)).isSome := by decide +kernel
    have hnames : (cityViewTraf ownAndView "view").1.map Prod.fst = ["a_b", "b_c"] := by
      decide +kernel
    have hkey := Json.isMember_obj.mp hmember
    rw [hnames] at hkey
    obtain ⟨item, hitem⟩ := Option.isSome_iff_exists.mp (husable _ hkey)
    exact absurd ⟨item, (hview item).mpr ⟨hmember, hitem⟩⟩ hnone

/-- The traffic of the request has a date in its name, and that of the view has none. -/
def datedKey : Json :=
  .obj [("city", .obj [("view", .obj [("day", .arr [.obj [("view", .arr [
      .obj [("traffic", .obj (("custom", .int 1) :: ("id", .str "a_b") :: trafEntry 900))],
      .null])]])])]),
    ("customTraffic", .obj [("a_b_20260101", .obj (trafEntry 600))])]

/-- The traffic of the view is stored, and not that of the request. -/
theorem not_prioritized_datedKey :
    ∃ maps, parseCustomTraf "s125" (fun _ => true) datedKey = some maps ∧
      ¬ Prioritized "s125" (fun _ => true) datedKey maps.m_customTrafMap := by
  obtain ⟨maps, hmaps⟩ :=
    Option.isSome_iff_exists.mp (by decide +kernel :
      (parseCustomTraf "s125" (fun _ => true) datedKey).isSome)
  refine ⟨maps, hmaps, ?_⟩
  rintro ⟨-, htaken⟩
  have hown : ownTraf "s125" datedKey = .obj [("a_b_20260101", .obj (trafEntry 600))] := rfl
  have husable : (usableItem "s125" (fun _ => true) "a_b_20260101"
      (.obj (trafEntry 600))).map TrafficData.TrafficItem._time = some 600 := by decide +kernel
  have hstored : (parseCustomTraf "s125" (fun _ => true) datedKey).map (fun maps =>
      (maps.m_customTrafMap.lookup ("a" ++ "_" ++ "b")).map TrafficData.TrafficItem._time) =
        some (some 900) := by decide +kernel
  obtain ⟨given, hgiven, -⟩ := Option.map_eq_some_iff.mp husable
  obtain ⟨item, hitem, trafKey, hmember, -, hkey⟩ :=
    (htaken "a" "b" (by decide) (by decide)).1
      ⟨given, "a_b_20260101", by rw [hown]; decide +kernel, by decide +kernel, hgiven⟩
  rw [hown] at hmember hkey
  obtain rfl : trafKey = "a_b_20260101" := by simpa using Json.isMember_obj.mp hmember
  rw [hmaps, Option.map_some, hitem, Option.map_some] at hstored
  have htime : usableItem "s125" (fun _ => true) "a_b_20260101" (.obj (trafEntry 600)) =
    some item := hkey
  rw [htime, Option.map_some] at husable
  have : (600 : Int) = 900 := by
    rw [← Option.some.inj husable, Option.some.inj (Option.some.inj hstored)]
  contradiction

end PPView.ReqParser
