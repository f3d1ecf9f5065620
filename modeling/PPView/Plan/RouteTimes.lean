import Mathlib.Data.List.Chain
import Mathlib.Order.Lattice
import PPView.Library.Runs
import PPView.Plan.TrafRoute

/-!
# The times along a route

`Inv` is what holds of a route between two steps. It carries `InTime`: the next key node is
reached before its window leaves too little time, either because the windows of neighbouring key
nodes leave room for the traffic or because a place was only laid where it leaves enough.
-/

namespace PPView

/-! ## Durations -/

namespace KeyNode

/-- The durations of `k` are in order and fill its window at most. -/
structure Fixed (k : KeyNode) : Prop where
  min_le_zip : k.durS.min ≤ k.durS.zip
  zip_le_rcmd : k.durS.zip ≤ k.durS.rcmd
  rcmd_le_max : k.durS.rcmd ≤ k.durS.max
  max_eq : k.durS.max = k.closeTime - k.openTime
  latestArv_eq : k.latestArv = k.closeTime - k.durS.min

theorem fixDurS_fixed (k : KeyNode) : k.fixDurS.Fixed := by
  refine ⟨?_, ?_, ?_, rfl, rfl⟩
  all_goals
    simp only [fixDurS, setDur, DurS.setMax, DurS.fix]
    omega

theorem Fixed.open_le_close {k : KeyNode} (h : k.Fixed) (hzip : 0 ≤ k.durS.zip) :
    k.openTime ≤ k.closeTime := by
  have := h.zip_le_rcmd
  have := h.rcmd_le_max
  have := h.max_eq
  omega

end KeyNode

namespace TrafRoute

/-! ## Paths -/

def isKey (p : PlanItem) : Bool := p.type &&& NODE_FUNC_KEY != 0

/-- How many key nodes a path visits. -/
def numKeys (path : PathView) : Nat := path.countP isKey

/-- The item is the key node number `k` of the plan, with its window. -/
def IsKeyNode (plan : BasePlan) (k : Nat) (item : PlanItem) : Prop :=
  ∃ key, plan.keyNode[k]? = some key ∧ item.place = key.place ∧ item.arvID = key.place.ID ∧
    item.deptID = key.place.ID ∧ item.openTime = key.openTime ∧ item.closeTime = key.closeTime

/-- The item is a place of the block behind key node number `k`, with one of its windows there. -/
def IsPlaceOf (plan : BasePlan) (k : Nat) (item : PlanItem) : Prop :=
  ∃ block pInfo oc, plan.blockList[k]? = some block ∧
    block.getPlaceInfo item.place.ID = some pInfo ∧ some oc ∈ pInfo.availOpenCloseList ∧
    item.arvID = pInfo.arvID ∧ item.deptID = pInfo.deptID ∧
    item.openTime = oc.openTime ∧ item.closeTime = oc.closeTime

/-- In the block behind key node number `k` the traffic of the plan leads from `a` to `b` in
time. -/
def Reaches (plan : BasePlan) (k : Nat) (a b : PlanItem) : Prop :=
  ∃ key traf, plan.keyNode[k]? = some key ∧
    plan.traffic a.deptID b.arvID key.trafDate = some traf ∧ b.arriveTraffic = some traf ∧
    a.departTime + traf ≤ b.arriveTime

/-- The stay lies in the window. -/
def InWindow (p : PlanItem) : Prop :=
  p.openTime ≤ p.arriveTime ∧ p.arriveTime ≤ p.departTime ∧ p.departTime ≤ p.closeTime

/-- The item behind the path `before` is the next key node or a place of the block that the path
has come to, in its window, and is reached from the item before it. -/
structure Placed (plan : BasePlan) (before : PathView) (item : PlanItem) : Prop where
  key : isKey item → IsKeyNode plan (numKeys before) item
  place : isKey item = false → ∃ k, numKeys before = k + 1 ∧ IsPlaceOf plan k item
  reaches : ∀ prev, before.getLast? = some prev →
    ∃ k, numKeys before = k + 1 ∧ Reaches plan k prev item
  inWindow : InWindow item

/-- Every item is in its place and in time. -/
def Timed (plan : BasePlan) (path : PathView) : Prop :=
  ∀ before item behind, path = before ++ item :: behind → Placed plan before item

/-- The key nodes of a path with their windows. -/
def keysOf (path : PathView) : List (LYPlace × Int × Int) :=
  (path.filter isKey).map fun p => (p.place, p.openTime, p.closeTime)

/-- The other nodes of a path. -/
def placesOf (path : PathView) : List LYPlace :=
  (path.filter fun p => !isKey p).map PlanItem.place

variable {plan : BasePlan} {path init : PathView} {lastItem item : PlanItem} {traf : Option Int}

theorem length_keysOf (path : PathView) : (keysOf path).length = numKeys path := by
  rw [keysOf, List.length_map, numKeys, List.countP_eq_length_filter]

theorem appendItem_eq (item : PlanItem) (h : path.getLast? = some lastItem) :
    ∃ init, path = init ++ [lastItem] ∧
    appendItem path lastItem item =
      init ++ [{ lastItem with departTraffic := item.arriveTraffic }, item] := by
  obtain ⟨init, rfl⟩ := List.getLast?_eq_some_iff.mp h
  exact ⟨init, rfl, by rw [appendItem, List.dropLast_concat]⟩

@[simp] theorem getLast?_appendItem : (appendItem path lastItem item).getLast? = some item := by
  simp [appendItem]

theorem timed_nil : Timed plan [] := by
  intro before item behind h
  simp at h

theorem timed_concat : Timed plan (path ++ [item]) ↔ Timed plan path ∧ Placed plan path item :=
  forall_split_concat

/-- Nothing depends on the traffic on departure: not where the last item stands, -/
theorem timed_departTraffic (h : Timed plan (init ++ [lastItem])) :
    Timed plan (init ++ [{ lastItem with departTraffic := traf }]) := by
  obtain ⟨hinit, hkey, hplace, hreaches, hwindow⟩ := timed_concat.mp h
  exact timed_concat.mpr ⟨hinit, hkey, hplace, hreaches, hwindow⟩

/-- nor what comes behind it. -/
theorem placed_departTraffic (h : Placed plan (init ++ [lastItem]) item) :
    Placed plan (init ++ [{ lastItem with departTraffic := traf }]) item := by
  have hnum : numKeys (init ++ [{ lastItem with departTraffic := traf }]) =
      numKeys (init ++ [lastItem]) := by
    simp [numKeys, List.countP_append, List.countP_singleton, isKey]
  refine ⟨hnum ▸ h.key, hnum ▸ h.place, fun prev hprev => ?_, h.inWindow⟩
  rw [List.getLast?_concat] at hprev
  obtain rfl := Option.some.inj hprev
  rw [hnum]
  exact h.reaches lastItem List.getLast?_concat

theorem Timed.appendItem (hp : Timed plan path) (h : path.getLast? = some lastItem)
    (hitem : Placed plan path item) : Timed plan (appendItem path lastItem item) := by
  obtain ⟨init, rfl, heq⟩ := appendItem_eq item h
  rw [heq, List.append_cons]
  exact timed_concat.mpr ⟨timed_departTraffic hp, placed_departTraffic hitem⟩

/-- What does not look at the traffic on departure sees one more item. -/
theorem map_filter_appendItem {α : Type} {p : PlanItem → Bool} {f : PlanItem → α}
    (hp : ∀ q traf, p { q with departTraffic := traf } = p q)
    (hf : ∀ q traf, f { q with departTraffic := traf } = f q) (h : path.getLast? = some lastItem) :
    ((appendItem path lastItem item).filter p).map f =
      (path.filter p).map f ++ ([item].filter p).map f := by
  obtain ⟨init, rfl, heq⟩ := appendItem_eq item h
  have hsplit : init ++ [{ lastItem with departTraffic := item.arriveTraffic }, item] =
      init ++ [{ lastItem with departTraffic := item.arriveTraffic }] ++ [item] := by simp
  rw [heq, hsplit, List.filter_append, List.map_append, List.filter_append, List.filter_append,
    List.map_append, List.map_append]
  congr 2
  rw [List.filter_singleton, List.filter_singleton, hp]
  cases p lastItem with
  | true => exact congrArg (fun x => [x]) (hf lastItem _)
  | false => rfl

theorem keysOf_appendItem (h : path.getLast? = some lastItem) :
    keysOf (appendItem path lastItem item) = keysOf path ++ keysOf [item] :=
  map_filter_appendItem (fun _ _ => rfl) (fun _ _ => rfl) h

theorem placesOf_appendItem (h : path.getLast? = some lastItem) :
    placesOf (appendItem path lastItem item) = placesOf path ++ placesOf [item] :=
  map_filter_appendItem (fun _ _ => rfl) (fun _ _ => rfl) h

theorem keysOf_singleton (h : isKey item) :
    keysOf [item] = [(item.place, item.openTime, item.closeTime)] := by
  rw [keysOf, List.filter_cons_of_pos h]
  rfl

theorem placesOf_singleton_key (h : isKey item) : placesOf [item] = [] := by simp [placesOf, h]

theorem keysOf_singleton_place (h : isKey item = false) : keysOf [item] = [] := by
  simp [keysOf, h]

theorem placesOf_singleton (h : isKey item = false) : placesOf [item] = [item.place] := by
  simp [placesOf, h]

/-! ## Slots -/

theorem firstSlot_eq_some {durS : DurS} {nodeType : Nat} {latestDept arv : Int}
    {ocs : List (Option OpenClose)} {oc : OpenClose} {slot : Int × Int}
    (h : firstSlot durS nodeType latestDept arv ocs = some (oc, slot)) :
    some oc ∈ ocs ∧ slotIn durS nodeType latestDept arv oc = some slot := by
  induction ocs with
  | nil => simp [firstSlot] at h
  | cons o ocs ih =>
    cases o with
    | none => exact (ih h).imp_left (List.mem_cons_of_mem _)
    | some oc' =>
      rw [firstSlot] at h
      cases hslot : slotIn durS nodeType latestDept arv oc' with
      | none =>
        rw [hslot] at h
        exact (ih h).imp_left (List.mem_cons_of_mem _)
      | some slot' =>
        obtain ⟨rfl, rfl⟩ : oc' = oc ∧ slot' = slot := by simpa [hslot] using h
        exact ⟨by simp, hslot⟩

/-- The slot of a place lies behind its arrival, in its window and before `latestDept`. -/
theorem slotIn_place {durS : DurS} {latestDept arv : Int} {oc : OpenClose} {slot : Int × Int}
    (hmin : 0 ≤ durS.min) (hzip : durS.min ≤ durS.zip)
    (hlatest : oc.latestArv = oc.closeTime - durS.min)
    (h : slotIn durS NODE_FUNC_PLACE latestDept arv oc = some slot) :
    arv ≤ slot.1 ∧ oc.openTime ≤ slot.1 ∧ slot.1 ≤ slot.2 ∧ slot.2 ≤ oc.closeTime ∧
      slot.2 ≤ latestDept := by
  have hkey : NODE_FUNC_PLACE &&& NODE_FUNC_KEY = 0 := by decide
  have hplace : NODE_FUNC_PLACE &&& NODE_FUNC_PLACE ≠ 0 := by decide
  simp only [slotIn, hkey, hplace, and_true, if_false] at h
  split_ifs at h <;> obtain rfl := Option.some.inj h <;> simp only <;> omega

/-- A key node that is reached in time stays in its window. -/
theorem slotIn_key {k : KeyNode} (hfix : k.Fixed) (hzip : 0 ≤ k.durS.zip) {arv : Int}
    {slot : Int × Int} (harv : arv ≤ max k.openTime (k.closeTime - k.durS.zip))
    (h : slotIn k.durS k.type.bits k.closeTime arv ⟨k.openTime, k.closeTime, k.latestArv⟩ =
      some slot) :
    arv ≤ slot.1 ∧ k.openTime ≤ slot.1 ∧ slot.1 ≤ slot.2 ∧ slot.2 ≤ k.closeTime := by
  have hle := hfix.open_le_close hzip
  obtain ⟨hmin, hrcmd, hmax, hmaxeq, hlatest⟩ := hfix
  simp only [slotIn, k.type.bits_and_key, k.type.bits_and_place, and_false, if_false, if_true] at h
  obtain rfl := Option.some.inj h
  simp only
  split_ifs <;> omega

/-! ## One node -/

variable {r r' : TrafRoute}

/-- The traffic from one key node to the next, where it is known, fits between their windows. -/
def KeysFit (plan : BasePlan) (a b : KeyNode) : Prop :=
  ∀ traf, plan.traffic a.place.ID b.place.ID a.trafDate = some traf →
    a.closeTime + traf ≤ b.openTime

/-- The last item is left early enough for the next key node. -/
def InTime (plan : BasePlan) (r : TrafRoute) : Prop :=
  ∀ fromKey toKey lastItem traf, plan.keyNode[r.keyIdx - 1]? = some fromKey →
    plan.keyNode[r.keyIdx]? = some toKey → r.path.getLast? = some lastItem →
    plan.traffic lastItem.deptID toKey.place.ID fromKey.trafDate = some traf →
    lastItem.departTime + traf ≤ max toKey.openTime (toKey.closeTime - toKey.durS.zip)

/-- What `ExpandNode` does when it succeeds behind the first key node. -/
theorem expandNode_spec {place : LYPlace} {durS : DurS} {nodeType : Nat} {arvID deptID : String}
    {ocs : List (Option OpenClose)} (hk : r.keyIdx ≠ 0)
    (h : expandNode plan place durS nodeType arvID deptID ocs r = .ok (0, r')) :
    ∃ fromKey toKey lastItem latest arvTraf oc newArv newDept,
      plan.keyNode[r.keyIdx - 1]? = some fromKey ∧ plan.keyNode[r.keyIdx]? = some toKey ∧
      r.path.getLast? = some lastItem ∧
      latestDept plan fromKey toKey nodeType deptID = some latest ∧
      plan.traffic lastItem.deptID arvID fromKey.trafDate = some arvTraf ∧ some oc ∈ ocs ∧
      slotIn durS nodeType latest (lastItem.departTime + arvTraf) oc = some (newArv, newDept) ∧
      r' = { r with path := appendItem r.path lastItem ⟨place, arvID, deptID, some arvTraf, none,
        newArv, newDept, durS, fromKey.trafDate, oc.openTime, oc.closeTime, 0, nodeType⟩ } := by
  unfold expandNode at h
  split_ifs at h with hnil
  · simp [pure, Except.pure] at h
  split at h
  · split at h
    · split at h
      · simp [pure, Except.pure] at h
      · obtain ⟨hmem, hslot⟩ := firstSlot_eq_some ‹_›
        obtain rfl := by simpa [pure, Except.pure] using h
        exact ⟨_, _, _, _, _, _, _, _, ‹_›, ‹_›, ‹_›, ‹_›, ‹_›, hmem, hslot, rfl⟩
    · simp [pure, Except.pure] at h
  · simp at h

/-! ## The invariant -/

/-- The places of an order list that are visited. -/
def varsOf (orders : List PlaceOrder) : List LYPlace :=
  (orders.filter PlaceOrder.isVar).map PlaceOrder.place

def keyWindow (k : KeyNode) : LYPlace × Int × Int := (k.place, k.openTime, k.closeTime)

/-- Key nodes that have been through `FixDurS` and fit together, and places whose windows end
where the least duration has no room. -/
structure Prepared (plan : BasePlan) : Prop where
  fixed : ∀ k ∈ plan.keyNode, ∃ k', k = KeyNode.fixDurS k'
  fit : plan.keyNode.IsChain (KeysFit plan)
  places : ∀ block ∈ plan.blockList, ∀ id pInfo durS, block.getPlaceInfo id = some pInfo →
    plan.durSMap.lookup id = some durS → 0 ≤ durS.min ∧ durS.min ≤ durS.zip ∧
      ∀ oc, some oc ∈ pInfo.availOpenCloseList → oc.latestArv = oc.closeTime - durS.min

/-- Besides, every key node has room for the duration it keeps. -/
structure Routable (plan : BasePlan) : Prop extends Prepared plan where
  zip : ∀ k ∈ plan.keyNode, 0 ≤ k.durS.zip

/-- What holds of a route for the order list `orders` between two steps. -/
structure Inv (plan : BasePlan) (orders : List PlaceOrder) (r : TrafRoute) : Prop where
  timed : Timed plan r.path
  keys : keysOf r.path = (plan.keyNode.take r.keyIdx).map keyWindow
  places : placesOf r.path ++ varsOf r.orderList = varsOf orders
  inTime : InTime plan r
  start : r.keyIdx = 0 → r.path = []

variable {orders : List PlaceOrder}

theorem Routable.fixed_of_getElem? (hp : Routable plan) {i : Nat} {k : KeyNode}
    (h : plan.keyNode[i]? = some k) : k.Fixed ∧ 0 ≤ k.durS.zip := by
  have hk := List.mem_of_getElem? h
  obtain ⟨k', rfl⟩ := hp.fixed k hk
  exact ⟨k'.fixDurS_fixed, hp.zip _ hk⟩

theorem Routable.keysFit (hp : Routable plan) {i : Nat} {a b : KeyNode}
    (ha : plan.keyNode[i]? = some a) (hb : plan.keyNode[i + 1]? = some b) : KeysFit plan a b := by
  obtain ⟨hi, rfl⟩ := List.getElem?_eq_some_iff.mp hb
  obtain ⟨hi', rfl⟩ := List.getElem?_eq_some_iff.mp ha
  exact hp.fit.getElem i hi

/-- After a key node that is left within its window the next one is reached in time. -/
theorem inTime_of_key (hp : Routable plan) {key : KeyNode} {item : PlanItem}
    (hkey : plan.keyNode[r.keyIdx]? = some key) (hlast : r'.path.getLast? = some item)
    (hidx : r'.keyIdx = r.keyIdx + 1) (hdeptID : item.deptID = key.place.ID)
    (hdept : item.departTime ≤ key.closeTime) : InTime plan r' := by
  intro fromKey toKey lastItem traf hfrom hto hl htraf
  rw [hidx] at hfrom hto
  obtain rfl : key = fromKey := by simpa [hkey] using hfrom
  obtain rfl : item = lastItem := by simpa [hlast] using hl
  have := hp.keysFit hkey hto traf (hdeptID ▸ htraf)
  omega

/-- The path has visited the key nodes in front of `keyIdx`. -/
theorem Inv.numKeys_eq (hr : Inv plan orders r) {k : Nat} {key : KeyNode}
    (hk : r.keyIdx = k + 1) (hkey : plan.keyNode[k]? = some key) : numKeys r.path = k + 1 := by
  obtain ⟨hlt, -⟩ := List.getElem?_eq_some_iff.mp hkey
  rw [← length_keysOf, hr.keys, List.length_map, List.length_take, hk]
  omega

theorem take_succ_of_getElem? {α : Type} {l : List α} {i : Nat} {x : α} (h : l[i]? = some x) :
    l.take (i + 1) = l.take i ++ [x] := by
  rw [List.take_add_one, h]
  rfl

theorem isKey_of_key {p : PlanItem} {f : KeyFunc} (h : p.type = f.bits) : isKey p := by
  simpa [isKey, h] using f.bits_and_key

theorem expandNode_key_spec (hp : Routable plan) (hr : Inv plan orders r) {key : KeyNode}
    (hkey : plan.keyNode[r.keyIdx]? = some key)
    (h : expandNode plan key.place key.durS key.type.bits key.place.ID key.place.ID
      key.openCloseList r = .ok (0, r')) :
    Inv plan orders { r' with keyIdx := r.keyIdx + 1 } ∧ r'.keyIdx = r.keyIdx := by
  obtain ⟨hfix, hzip⟩ := hp.fixed_of_getElem? hkey
  have htake := congrArg (List.map keyWindow) (take_succ_of_getElem? hkey)
  rw [List.map_append, List.map_singleton] at htake
  by_cases hk : r.keyIdx = 0
  · -- the first key node fills its window
    have hpath := hr.start hk
    rw [hk] at hkey
    simp only [expandNode, KeyNode.openCloseList, List.cons_ne_nil, if_false, hk, if_true, hkey,
      hpath] at h
    obtain rfl := by simpa [pure, Except.pure] using h
    refine ⟨⟨?_, ?_, ?_, ?_, by simp⟩, hk.symm⟩
    · refine timed_concat.mpr ⟨timed_nil, fun _ => ⟨key, hkey, rfl, rfl, rfl, rfl, rfl⟩, ?_, ?_, ?_⟩
      · intro hplace
        rw [isKey_of_key rfl] at hplace
        contradiction
      · simp
      · simpa [InWindow] using hfix.open_le_close hzip
    · have hkeys := hr.keys
      rw [hpath] at hkeys
      rw [htake, ← hkeys]
      exact keysOf_singleton (isKey_of_key rfl)
    · have hplaces := hr.places
      rw [hpath] at hplaces
      rw [← hplaces, placesOf_singleton_key (isKey_of_key rfl)]
      rfl
    · rw [← hk] at hkey
      exact inTime_of_key hp hkey rfl rfl rfl le_rfl
  · obtain ⟨fromKey, toKey, lastItem, latest, arvTraf, oc, newArv, newDept, hfrom, hto, hlast,
      hlatest, htraf, hoc, hslot, rfl⟩ := expandNode_spec hk h
    obtain rfl : key = toKey := by simpa [hkey] using hto
    obtain rfl : key.closeTime = latest := by
      simpa [latestDept, key.type.bits_and_place] using hlatest
    obtain rfl : oc = ⟨key.openTime, key.closeTime, key.latestArv⟩ := by
      simpa [KeyNode.openCloseList] using hoc
    obtain ⟨harv, hwindow⟩ := slotIn_key hfix hzip
      (hr.inTime fromKey key lastItem arvTraf hfrom hkey hlast htraf) hslot
    obtain ⟨k, hidx⟩ := Nat.exists_eq_succ_of_ne_zero hk
    rw [hidx] at hfrom
    have hnum := hr.numKeys_eq hidx hfrom
    refine ⟨⟨hr.timed.appendItem hlast ⟨fun _ => ?_, fun hplace => ?_, fun prev hprev => ?_,
      hwindow⟩, ?_, ?_, ?_, by simp⟩, rfl⟩
    · exact ⟨key, by rwa [hnum, ← Nat.succ_eq_add_one, ← hidx], rfl, rfl, rfl, rfl, rfl⟩
    · rw [isKey_of_key rfl] at hplace
      contradiction
    · obtain rfl : lastItem = prev := Option.some.inj (hlast.symm.trans hprev)
      exact ⟨k, hnum, fromKey, arvTraf, hfrom, htraf, rfl, harv⟩
    · rw [htake, ← hr.keys, keysOf_appendItem hlast, keysOf_singleton (isKey_of_key rfl)]
      rfl
    · rw [← hr.places, placesOf_appendItem hlast, placesOf_singleton_key (isKey_of_key rfl),
        List.append_nil]
    · exact inTime_of_key hp hkey getLast?_appendItem rfl rfl hwindow.2.2

/-- A place is only laid where the next key node is still reached in time. -/
theorem expandNode_place_spec {place : LYPlace} {durS : DurS} {block : TimeBlock}
    {pInfo : PlaceInfo} (hr : Inv plan orders r) (hk : r.keyIdx ≠ 0)
    (hblock : plan.blockList[r.keyIdx - 1]? = some block)
    (hinfo : block.getPlaceInfo place.ID = some pInfo)
    (hmin : 0 ≤ durS.min) (hzip : durS.min ≤ durS.zip)
    (hocs : ∀ oc, some oc ∈ pInfo.availOpenCloseList → oc.latestArv = oc.closeTime - durS.min)
    (h : expandNode plan place durS NODE_FUNC_PLACE pInfo.arvID pInfo.deptID
      pInfo.availOpenCloseList r = .ok (0, r')) :
    Timed plan r'.path ∧ keysOf r'.path = keysOf r.path ∧
      placesOf r'.path = placesOf r.path ++ [place] ∧ InTime plan r' ∧ r'.keyIdx = r.keyIdx := by
  obtain ⟨fromKey, toKey, lastItem, latest, arvTraf, oc, newArv, newDept, hfrom, hto, hlast,
    hlatest, htraf, hoc, hslot, rfl⟩ := expandNode_spec hk h
  obtain ⟨deptTraf, hdeptTraf, hlatest⟩ :
      ∃ traf, plan.traffic pInfo.deptID toKey.place.ID fromKey.trafDate = some traf ∧
        toKey.closeTime - toKey.durS.zip - traf = latest := by
    rw [latestDept, if_pos (by decide)] at hlatest
    exact Option.map_eq_some_iff.mp hlatest
  obtain ⟨harv, hopen, hle, hclose, hdept⟩ := slotIn_place hmin hzip (hocs oc hoc) hslot
  have hplace : NODE_FUNC_PLACE &&& NODE_FUNC_KEY = 0 := by decide
  have hisKey {p : PlanItem} (hp : p.type = NODE_FUNC_PLACE) : isKey p = false := by
    simp [isKey, hp, hplace]
  obtain ⟨k, hidx⟩ := Nat.exists_eq_succ_of_ne_zero hk
  rw [hidx, Nat.succ_sub_one] at hfrom hblock
  have hnum := hr.numKeys_eq hidx hfrom
  refine ⟨hr.timed.appendItem hlast ⟨fun hkey => ?_, fun _ => ?_, fun prev hprev => ?_,
    hopen, hle, hclose⟩, ?_, ?_, ?_, rfl⟩
  · rw [hisKey rfl] at hkey
    contradiction
  · exact ⟨k, hnum, block, pInfo, oc, hblock, hinfo, hoc, rfl, rfl, rfl, rfl⟩
  · obtain rfl : lastItem = prev := Option.some.inj (hlast.symm.trans hprev)
    exact ⟨k, hnum, fromKey, arvTraf, hfrom, htraf, rfl, harv⟩
  · rw [keysOf_appendItem hlast, keysOf_singleton_place (hisKey rfl), List.append_nil]
  · rw [placesOf_appendItem hlast, placesOf_singleton (hisKey rfl)]
  · intro fromKey' toKey' lastItem' traf hfrom' hto' hlast' htraf'
    obtain rfl : fromKey = fromKey' := by simpa [hidx, hfrom] using hfrom'
    obtain rfl : toKey = toKey' := by simpa [hto] using hto'
    rw [getLast?_appendItem] at hlast'
    obtain rfl := Option.some.inj hlast'
    obtain rfl : deptTraf = traf := by simpa [hdeptTraf] using htraf'
    simp only
    omega

/-! ## The loops -/

theorem expandPlaces_spec (hp : Routable plan) {lastKey : KeyNode} {block : TimeBlock}
    (hblock : plan.blockList[r.keyIdx - 1]? = some block) {left : List PlaceOrder} (hr : Inv plan orders r)
    (hleft : r.orderList = left) (hk : r.keyIdx ≠ 0)
    (h : expandPlaces plan lastKey block left r = .ok (0, r')) :
    Inv plan orders r' ∧ r'.keyIdx = r.keyIdx := by
  induction left generalizing r with
  | nil =>
    obtain rfl : r = r' := by simpa [expandPlaces, pure, Except.pure] using h
    exact ⟨hr, rfl⟩
  | cons order left ih =>
    rw [expandPlaces] at h
    split_ifs at h with hdate hvar
    · obtain rfl : r = r' := by simpa [pure, Except.pure] using h
      exact ⟨hr, rfl⟩
    · have hplaces := hr.places
      rw [hleft, varsOf, List.filter_cons_of_neg (by simpa using hvar)] at hplaces
      exact @ih { r with orderList := left } hblock
        ⟨hr.timed, hr.keys, hplaces, hr.inTime, hr.start⟩ rfl hk h
    · split at h
      · rename_i pInfo durSP hinfo hdurS
        obtain ⟨hmin, hzip, hocs⟩ := hp.places block (List.mem_of_getElem? hblock) _ pInfo durSP hinfo
          hdurS
        obtain ⟨⟨ret, r₁⟩, hnode, h⟩ := bind_ok.mp h
        by_cases hret : ret = 0
        · subst hret
          obtain ⟨htimed, hkeys, hplaces, hinTime, hidx⟩ :=
            expandNode_place_spec hr hk hblock hinfo hmin hzip hocs hnode
          have hplaces' : placesOf r₁.path ++ varsOf left = varsOf orders := by
            rw [hplaces, ← hr.places, hleft, varsOf, varsOf,
              List.filter_cons_of_pos (by simpa using hvar), List.map_cons, List.append_assoc]
            rfl
          have hinv : Inv plan orders { r₁ with orderList := left } :=
            ⟨htimed, by rw [hkeys, hidx, hr.keys], hplaces', hinTime,
              fun h0 => absurd (hidx ▸ h0) hk⟩
          obtain ⟨hinv', hidx'⟩ := ih (by rwa [hidx]) hinv rfl (hidx ▸ hk) (by simpa using h)
          exact ⟨hinv', hidx'.trans hidx⟩
        · simp [hret, pure, Except.pure] at h
      · simp [pure, Except.pure] at h

theorem expandBlock_spec (hp : Routable plan) (hr : Inv plan orders r) (hk : r.keyIdx ≠ 0)
    (h : expandBlock plan r = .ok (0, r')) : Inv plan orders r' ∧ r'.keyIdx = r.keyIdx := by
  unfold expandBlock at h
  split at h
  · rename_i lastKey block _ hblock
    split_ifs at h with hnil
    · obtain rfl : r = r' := by simpa [pure, Except.pure] using h
      exact ⟨hr, rfl⟩
    · exact expandPlaces_spec hp hblock hr rfl hk h
  · simp [pure, Except.pure] at h

theorem expandKeynode_spec (hp : Routable plan) (hr : Inv plan orders r) {key : KeyNode}
    (hkey : plan.keyNode[r.keyIdx]? = some key)
    (h : expandKeynode plan key r = .ok (0, r')) :
    Inv plan orders r' ∧ r'.keyIdx = r.keyIdx + 1 := by
  obtain ⟨missed, -, h⟩ := bind_ok.mp h
  split_ifs at h with hmissed
  · simp [pure, Except.pure] at h
  obtain ⟨⟨ret, r₁⟩, hnode, h⟩ := bind_ok.mp h
  by_cases hret : ret = 0
  · subst hret
    obtain ⟨hinv, hidx⟩ := expandNode_key_spec hp hr hkey hnode
    obtain rfl : { r₁ with keyIdx := r₁.keyIdx + 1 } = r' := by
      simpa [pure, Except.pure] using h
    rw [hidx]
    exact ⟨hinv, rfl⟩
  · simp [hret, pure, Except.pure] at h

theorem expandKeys_spec (hp : Routable plan) {keys : List KeyNode} (hr : Inv plan orders r)
    (hkeys : plan.keyNode.drop r.keyIdx = keys) (h : expandKeys plan keys r = .ok (0, r')) :
    Inv plan orders r' := by
  induction keys generalizing r with
  | nil =>
    obtain rfl : r = r' := by simpa [expandKeys, pure, Except.pure] using h
    exact hr
  | cons key keys ih =>
    have hkey : plan.keyNode[r.keyIdx]? = some key := by
      rw [← List.head?_drop, hkeys]
      rfl
    rw [expandKeys] at h
    obtain ⟨⟨ret, r₁⟩, hnode, h⟩ := bind_ok.mp h
    by_cases hret : ret = 0
    · subst hret
      obtain ⟨hinv, hidx⟩ := expandKeynode_spec hp hr hkey hnode
      simp only [ne_eq, not_true_eq_false, if_false] at h
      split_ifs at h with hnil
      · obtain rfl : r₁ = r' := by simpa [pure, Except.pure] using h
        exact hinv
      · obtain ⟨⟨ret, r₂⟩, hblock, h⟩ := bind_ok.mp h
        by_cases hret : ret = 0
        · subst hret
          obtain ⟨hinv', hidx'⟩ := expandBlock_spec hp hinv (by omega) hblock
          refine ih hinv' ?_ (by simpa using h)
          rw [hidx', hidx, ← List.tail_drop, hkeys, List.tail_cons]
        · simp [hret, pure, Except.pure] at h
    · simp [hret, pure, Except.pure] at h

/-! ## The whole route -/

/-- The path visits the key nodes and the places of the order list, and every stay lies in the
window that the plan has for it and behind the plan's traffic from the one before. -/
structure Routes (plan : BasePlan) (orders : List PlaceOrder) (path : PathView) : Prop where
  timed : Timed plan path
  keys : keysOf path = plan.keyNode.map keyWindow
  places : placesOf path = varsOf orders

theorem doRoute_spec (hp : Routable plan) {path : PathView}
    (h : doRoute plan orders = .ok (0, path)) : Routes plan orders path := by
  have hstart : Inv plan orders { orderList := orders } := by
    refine ⟨timed_nil, by simp [keysOf], by simp [placesOf], ?_, fun _ => rfl⟩
    intro _ _ _ _ _ _ hlast
    simp at hlast
  obtain ⟨⟨ret, r⟩, hkeys, h⟩ := bind_ok.mp h
  simp only at h
  split_ifs at h with hend
  · simp [pure, Except.pure] at h
  · simp only [not_or, not_not, not_lt] at hend
    obtain ⟨rfl, hleft, hlen⟩ := hend
    obtain rfl : r.path = path := by simpa [pure, Except.pure] using h
    obtain ⟨htimed, hkeys, hplaces, -, -⟩ := expandKeys_spec hp hstart rfl hkeys
    refine ⟨htimed, ?_, ?_⟩
    · rw [hkeys, List.take_of_length_le hlen]
    · rw [← hplaces, hleft]
      simp [varsOf]

/-- From an airport to a museum and on to a station. -/
def museumPlan : BasePlan where
  keyNode := [
    (KeyNode.create (.place "airport") 0 3600 "20180101" ⟨3600, 3600, 3600, 3600, 3600⟩ 0 .arrive
      .min false).fixDurS,
    (KeyNode.create (.place "station") 28800 36000 "20180101" ⟨3600, 3600, 7200, 7200, 7200⟩ 0
      .depart .min false).fixDurS]
  traffic := fun _ _ _ => some 900
  blockList := [⟨[⟨"museum", "museum", [some ⟨3600, 30000, 26400⟩]⟩],
    [("museum", ⟨"museum", "museum", [some ⟨3600, 30000, 26400⟩]⟩)]⟩]
  durSMap := [("museum", ⟨3600, 5400, 7200, 7200, 7200⟩)]

theorem museumPlan_routable : Routable museumPlan := by
  refine ⟨⟨?_, ?_, ?_⟩, by decide⟩
  · simp [museumPlan]
  · refine List.isChain_cons_cons.mpr ⟨fun traf htraf => ?_, by simp⟩
    obtain rfl : 900 = traf := Option.some.inj htraf
    decide
  · intro block hblock id pInfo durS hinfo hdurS
    obtain rfl : block = _ := List.mem_singleton.mp hblock
    simp only [TimeBlock.getPlaceInfo, museumPlan, List.lookup_cons] at hinfo hdurS
    split at hinfo
    · simp_all only
      obtain rfl := Option.some.inj hinfo
      obtain rfl := Option.some.inj hdurS
      simp
    · simp at hinfo

def museumOrder : PlaceOrder := ⟨.place "museum", true, "20180101", 0, 0x30⟩

theorem doRoute_spec_museumPlan :
    ∃ path, doRoute museumPlan [museumOrder] = .ok (0, path) ∧
      Routes museumPlan [museumOrder] path := by
  have hret : (doRoute museumPlan [museumOrder]).toOption.map Prod.fst =
      some 0 := by decide +kernel
  cases h : doRoute museumPlan [museumOrder] with
  | error e => simp [h, Except.toOption] at hret
  | ok res =>
    obtain ⟨ret, path⟩ := res
    obtain rfl : ret = 0 := by simpa [h, Except.toOption] using hret
    exact ⟨path, rfl, doRoute_spec museumPlan_routable h⟩

/-! ## A window that ends before it begins -/

/-- The only key node opens at 10 and closes at 0. -/
def reversedPlan : BasePlan where
  keyNode := [(KeyNode.create (.place "airport") 10 0 "20180101" ⟨0, 0, 0, 0, 0⟩ 0 .arrive .min
    false).fixDurS]
  traffic := fun _ _ _ => none

theorem doRoute_keeps_reversed :
    ¬ ∀ (plan : BasePlan) (orders : List PlaceOrder) (path : PathView), Prepared plan →
      doRoute plan orders = .ok (0, path) → Routes plan orders path := by
  intro h
  have hprep : Prepared reversedPlan := by
    refine ⟨by simp [reversedPlan], by simp [reversedPlan], ?_⟩
    intro block hblock
    simp [reversedPlan] at hblock
  obtain ⟨htimed, -, -⟩ := h reversedPlan [] _ hprep rfl
  have hwindow := (htimed [] _ [] rfl).inWindow
  simp [InWindow] at hwindow
  revert hwindow
  decide

end TrafRoute

end PPView
