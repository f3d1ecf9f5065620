import PPView.RealTime.PathUtil

/-!
# Feasible paths

Squeezing the stays of a feasible path and stretching them again keeps it feasible: an item that is
moved stays between the departure before it and the arrival behind it.
-/

namespace PPView.RealTime

theorem trafTime_nonneg (traffic : Option TrafficItem) : 0 ≤ trafTime traffic := by
  cases traffic with
  | none => exact Int.le_refl 0
  | some item => exact Int.natCast_nonneg item.time

/-- The leg is recorded alike on both ends, and there is time for it. -/
def Leg (a b : Item) : Prop :=
  a.departTraffic = b.arriveTraffic ∧ a.departTime + trafTime a.departTraffic ≤ b.arriveTime

/-- The stay is inside the opening times. -/
def InWindow (p : Item) : Prop :=
  p.openTime ≤ p.arriveTime ∧ p.arriveTime ≤ p.departTime ∧ p.departTime ≤ p.closeTime

structure Feasible (path : List Item) : Prop where
  legs : path.IsChain Leg
  stays : ∀ p ∈ path, InWindow p

/-- An item without its times. -/
def Item.untimed (p : Item) : Item := p.setTimes 0 0

@[simp] theorem untimed_setTimes (p : Item) (arriveTime departTime : Int) :
    (p.setTimes arriveTime departTime).untimed = p.untimed := rfl

@[simp] theorem getDur_setTimes (p : Item) (arriveTime departTime : Int) :
    (p.setTimes arriveTime departTime).getDur = departTime - arriveTime := rfl

/-- What holds of the items whatever their times holds when these have changed. -/
theorem forall_mem_of_untimed {path path' : List Item} {P : Item → Prop}
    (h : path'.map Item.untimed = path.map Item.untimed) (hP : ∀ p ∈ path, P p.untimed) :
    ∀ p ∈ path', P p.untimed := by
  intro p hp
  have hmem : p.untimed ∈ path.map Item.untimed := h ▸ List.mem_map_of_mem hp
  obtain ⟨q, hq, heq⟩ := List.mem_map.mp hmem
  exact heq ▸ hP q hq

theorem Leg.of_setTimes {a b : Item} {arriveTime departTime : Int}
    (h : a.departTraffic = b.arriveTraffic)
    (htime : a.departTime + trafTime b.arriveTraffic ≤ arriveTime) :
    Leg a (b.setTimes arriveTime departTime) :=
  ⟨h, by rw [h]; exact htime⟩

/-- An earlier departure. -/
theorem Leg.of_le {a a' b : Item} (h : Leg a b) (htraf : a'.departTraffic = a.departTraffic)
    (hdept : a'.departTime ≤ a.departTime) : Leg a' b := by
  obtain ⟨hlike, htime⟩ := h
  refine ⟨htraf.trans hlike, ?_⟩
  rw [htraf]
  omega

theorem Leg.time_le {a b : Item} (h : Leg a b) :
    a.departTime + trafTime b.arriveTraffic ≤ b.arriveTime := by
  rw [← h.1]
  exact h.2

/-- Only items that are no key items have changed. -/
def KeysStay (path path' : List Item) : Prop :=
  List.Forall₂ (fun p p' => p.isKey = true → p' = p) path path'

theorem KeysStay.trans {path path' path'' : List Item} (h : KeysStay path path')
    (h' : KeysStay path' path'') : KeysStay path path'' := by
  unfold KeysStay at *
  induction h generalizing path'' with
  | nil => exact h'
  | cons hp _ ih =>
    cases h' with
    | cons hp' hrest =>
      refine .cons (fun hkey => ?_) (ih hrest)
      obtain rfl := hp hkey
      exact hp' hkey

theorem keysStay_of_untimed {path path' : List Item}
    (h : path'.map Item.untimed = path.map Item.untimed) (hkey : ∀ p ∈ path, p.isKey = false) :
    KeysStay path path' := by
  induction path generalizing path' with
  | nil =>
    obtain rfl := List.map_eq_nil_iff.mp h
    exact .nil
  | cons p path ih =>
    obtain ⟨p', rest, rfl, -, hrest⟩ := List.map_eq_cons_iff.mp h
    obtain ⟨hp, hkey⟩ := List.forall_mem_cons.mp hkey
    refine .cons (fun hno => ?_) (ih hrest hkey)
    rw [hp] at hno
    contradiction

/-! ## Squeezing -/

/-- No stay is shorter than its least duration but those at key items. -/
def Squeezable (p : Item) : Prop := p.isKey = false → p.durS.zip ≤ p.getDur

/-- A path that starts earlier can be squeezed, and is feasible then. -/
theorem zipFrom_feasible {last last' : Item} {items : List Item}
    (h : (last :: items).IsChain Leg) (hstays : ∀ p ∈ items, InWindow p)
    (hzip : ∀ p ∈ items, p.isKey = false → 0 ≤ p.durS.zip) (hsqueeze : ∀ p ∈ items, Squeezable p)
    (htraf : last'.departTraffic = last.departTraffic)
    (hdept : last'.departTime ≤ last.departTime) :
    ∃ items', zipFrom last' items = some items' ∧ (last' :: items').IsChain Leg ∧
      ∀ p ∈ items', InWindow p := by
  induction items generalizing last last' with
  | nil => exact ⟨[], rfl, .singleton _, List.forall_mem_nil _⟩
  | cons p items ih =>
    obtain ⟨hleg, hchain⟩ := List.isChain_cons_cons.mp h
    obtain ⟨hp, hstays⟩ := List.forall_mem_cons.mp hstays
    obtain ⟨hpzip, hzip⟩ := List.forall_mem_cons.mp hzip
    obtain ⟨hpsq, hsqueeze⟩ := List.forall_mem_cons.mp hsqueeze
    have hleg' := hleg.of_le htraf hdept
    rw [zipFrom]
    cases hkey : p.isKey with
    | true =>
      obtain ⟨items', hrun, hchain', hstays'⟩ := ih hchain hstays hzip hsqueeze rfl (Int.le_refl _)
      rw [if_pos rfl, hrun]
      exact ⟨_, rfl, List.isChain_cons_cons.mpr ⟨hleg', hchain'⟩,
        List.forall_mem_cons.mpr ⟨hp, hstays'⟩⟩
    | false =>
      have hdur := hpsq hkey
      have hpzip := hpzip hkey
      have htime := hleg'.time_le
      rw [Item.getDur] at hdur
      obtain ⟨hopen, -, hclose⟩ := hp
      dsimp only
      rw [if_neg Bool.false_ne_true, if_neg (by omega)]
      have hsame : (p.setTimes (max (last'.departTime + trafTime p.arriveTraffic) p.openTime)
          (max (last'.departTime + trafTime p.arriveTraffic) p.openTime +
            p.durS.zip)).departTraffic = p.departTraffic := rfl
      obtain ⟨items', hrun, hchain', hstays'⟩ := ih hchain hstays hzip hsqueeze hsame
        (by dsimp only [Item.setTimes]; omega)
      rw [hrun]
      refine ⟨_, rfl, List.isChain_cons_cons.mpr ⟨?_, hchain'⟩,
        List.forall_mem_cons.mpr ⟨?_, hstays'⟩⟩
      · exact .of_setTimes hleg'.1 (Int.le_max_left _ _)
      · dsimp only [InWindow, Item.setTimes]
        omega

/-- Squeezing moves the items that are no key items, inside of their opening times. -/
theorem zipFrom_spec {last : Item} {items items' : List Item}
    (hrun : zipFrom last items = some items') (hstays : ∀ p ∈ items, InWindow p)
    (hzip : ∀ p ∈ items, p.isKey = false → 0 ≤ p.durS.zip) :
    items'.map Item.untimed = items.map Item.untimed ∧ (∀ p ∈ items', InWindow p) ∧
      (∀ p ∈ items', Squeezable p) ∧
        KeysStay items items' := by
  induction items generalizing last items' with
  | nil =>
    obtain rfl : [] = items' := Option.some.inj hrun
    exact ⟨rfl, List.forall_mem_nil _, List.forall_mem_nil _, .nil⟩
  | cons p items ih =>
    obtain ⟨hp, hstays⟩ := List.forall_mem_cons.mp hstays
    obtain ⟨hpzip, hzip⟩ := List.forall_mem_cons.mp hzip
    rw [zipFrom] at hrun
    cases hkey : p.isKey with
    | true =>
      rw [if_pos hkey] at hrun
      obtain ⟨rest, hrest, rfl⟩ := Option.map_eq_some_iff.mp hrun
      obtain ⟨hmap, hstays', hsqueeze, hsame⟩ := ih hrest hstays hzip
      refine ⟨by rw [List.map_cons, List.map_cons, hmap], List.forall_mem_cons.mpr ⟨hp, hstays'⟩,
        List.forall_mem_cons.mpr ⟨fun hno => ?_, hsqueeze⟩, .cons (fun _ => rfl) hsame⟩
      rw [hkey] at hno
      contradiction
    | false =>
      rw [if_neg (by rw [hkey]; exact Bool.false_ne_true)] at hrun
      dsimp only at hrun
      split_ifs at hrun with hclose
      have hpzip := hpzip hkey
      obtain ⟨rest, hrest, rfl⟩ := Option.map_eq_some_iff.mp hrun
      obtain ⟨hmap, hstays', hsqueeze, hsame⟩ := ih hrest hstays hzip
      refine ⟨by rw [List.map_cons, List.map_cons, hmap, untimed_setTimes],
        List.forall_mem_cons.mpr ⟨?_, hstays'⟩, List.forall_mem_cons.mpr ⟨fun _ => ?_, hsqueeze⟩,
        .cons (fun h => ?_) hsame⟩
      · dsimp only [InWindow, Item.setTimes]
        omega
      · rw [getDur_setTimes]
        dsimp only [Item.setTimes]
        omega
      · rw [hkey] at h
        contradiction

/-! ## Stretching -/

variable {s x e : Item} {items items' : List Item}

/-- The items between two others are moved to the front, and any arrival behind them that leaves
time for the leg fits. -/
theorem getEarliestDept_spec {s' : Item} (h : (s :: (items ++ [x])).IsChain Leg)
    (hstays : ∀ p ∈ items, InWindow p) (htraf : s'.departTraffic = s.departTraffic)
    (hdept : s'.departTime ≤ s.departTime) {earliest : Int}
    (hrun : getEarliestDept s'.departTime items = some (earliest, items')) :
    items'.map Item.untimed = items.map Item.untimed ∧ (∀ p ∈ items', InWindow p) ∧
      earliest + trafTime x.arriveTraffic ≤ x.arriveTime ∧
        ∀ y : Item, y.arriveTraffic = x.arriveTraffic →
          earliest + trafTime y.arriveTraffic ≤ y.arriveTime →
            (s' :: (items' ++ [y])).IsChain Leg := by
  induction items generalizing s s' items' with
  | nil =>
    obtain ⟨rfl, rfl⟩ : s'.departTime = earliest ∧ [] = items' := by
      simpa [getEarliestDept] using hrun
    have hleg := (List.isChain_pair.mp h).of_le htraf hdept
    refine ⟨rfl, List.forall_mem_nil _, hleg.time_le, fun y hy htime =>
      List.isChain_pair.mpr ⟨?_, ?_⟩⟩
    · exact hleg.1.trans hy.symm
    · rwa [hleg.1, ← hy]
  | cons p items ih =>
    obtain ⟨hleg, hchain⟩ := List.isChain_cons_cons.mp h
    obtain ⟨hp, hstays⟩ := List.forall_mem_cons.mp hstays
    have hleg' := hleg.of_le htraf hdept
    have htime := hleg'.time_le
    obtain ⟨hopen, hdur, hclose⟩ := hp
    rw [getEarliestDept] at hrun
    dsimp only at hrun
    split_ifs at hrun with hfit
    obtain ⟨⟨d, rest⟩, hrest, heq⟩ := Option.bind_eq_some_iff.mp hrun
    obtain ⟨rfl, rfl⟩ : d = earliest ∧ _ = items' := by simpa using heq
    rw [Item.getDur] at hrest hfit
    have hsame : (p.setTimes (max (s'.departTime + trafTime p.arriveTraffic) p.openTime)
        (max (s'.departTime + trafTime p.arriveTraffic) p.openTime + p.getDur)).departTraffic =
        p.departTraffic := rfl
    obtain ⟨hmap, hstays', hx, hy⟩ := ih hchain hstays hsame
      (by dsimp only [Item.setTimes, Item.getDur]; omega) hrest
    refine ⟨by rw [List.map_cons, List.map_cons, hmap, untimed_setTimes],
      List.forall_mem_cons.mpr ⟨?_, hstays'⟩, hx, fun y htraf' htime' => ?_⟩
    · dsimp only [InWindow, Item.setTimes, Item.getDur]
      omega
    · exact List.isChain_cons_cons.mpr ⟨.of_setTimes hleg'.1 (Int.le_max_left _ _),
        hy y htraf' htime'⟩

/-- The items are moved to the back, and any departure before them that leaves time fits. -/
theorem getLatestArv_spec (h : (x :: (items ++ [e])).IsChain Leg)
    (hstays : ∀ p ∈ items, InWindow p) {latest : Int}
    (hrun : getLatestArv e.arriveTime items = some (latest, items')) :
    items'.map Item.untimed = items.map Item.untimed ∧ (∀ p ∈ items', InWindow p) ∧
      x.departTime + trafTime x.departTraffic ≤ latest ∧
        ∀ y : Item, y.departTraffic = x.departTraffic →
          y.departTime + trafTime y.departTraffic ≤ latest →
            (y :: (items' ++ [e])).IsChain Leg := by
  induction items generalizing x items' latest with
  | nil =>
    obtain ⟨rfl, rfl⟩ : e.arriveTime = latest ∧ [] = items' := by
      simpa [getLatestArv] using hrun
    obtain ⟨hlike, htime⟩ := List.isChain_pair.mp h
    exact ⟨rfl, List.forall_mem_nil _, htime, fun y hy htime =>
      List.isChain_pair.mpr ⟨hy.trans hlike, htime⟩⟩
  | cons p items ih =>
    obtain ⟨⟨hlike, htime⟩, hchain⟩ := List.isChain_cons_cons.mp h
    obtain ⟨hp, hstays⟩ := List.forall_mem_cons.mp hstays
    obtain ⟨hopen, hdur, hclose⟩ := hp
    rw [getLatestArv] at hrun
    obtain ⟨⟨a, rest⟩, hrest, hrun⟩ := Option.bind_eq_some_iff.mp hrun
    dsimp only at hrun
    split_ifs at hrun with hfit
    obtain ⟨hmap, hstays', hx, hy⟩ := ih hchain hstays hrest
    obtain ⟨rfl, rfl⟩ := Prod.mk.inj (Option.some.inj hrun)
    rw [Item.getDur] at hfit ⊢
    refine ⟨by rw [List.map_cons, List.map_cons, hmap, untimed_setTimes],
      List.forall_mem_cons.mpr ⟨?_, hstays'⟩, ?_, fun y htraf htime' => ?_⟩
    · dsimp only [InWindow, Item.setTimes]
      omega
    · omega
    · refine List.isChain_cons_cons.mpr ⟨⟨htraf.trans hlike, htime'⟩, hy _ rfl ?_⟩
      dsimp only [Item.setTimes]
      omega

/-- The items fit between two others. -/
structure Fits (s e : Item) (items : List Item) : Prop where
  legs : (s :: (items ++ [e])).IsChain Leg
  stays : ∀ p ∈ items, InWindow p

/-- The legs up to an item, and those behind it. -/
theorem Fits.split (h : Fits s e items) {index : ℕ} (hindex : index < items.length) :
    (s :: (items.take index ++ [items[index]])).IsChain Leg ∧
      (items[index] :: (items.drop (index + 1) ++ [e])).IsChain Leg := by
  have hlegs := h.legs
  rw [← List.take_append_drop index items, List.drop_eq_getElem_cons hindex, List.append_assoc,
    List.cons_append] at hlegs
  exact List.isChain_cons_split.mp hlegs

theorem zip_of_untimed (h : items'.map Item.untimed = items.map Item.untimed)
    (hzip : ∀ p ∈ items, 0 ≤ p.durS.zip) : ∀ p ∈ items', 0 ≤ p.durS.zip :=
  forall_mem_of_untimed (P := fun p => 0 ≤ p.durS.zip) h hzip

theorem stretchAt_fits (h : Fits s e items) (hzip : ∀ p ∈ items, 0 ≤ p.durS.zip) {index : ℕ}
    {again : Bool} (hrun : stretchAt s e items index = some (items', again)) :
    items'.map Item.untimed = items.map Item.untimed ∧ Fits s e items' := by
  have hstays := h.stays
  obtain ⟨item, hitem, hrun⟩ := Option.bind_eq_some_iff.mp hrun
  obtain ⟨⟨earliestT, before⟩, hbefore, hrun⟩ := Option.bind_eq_some_iff.mp hrun
  obtain ⟨⟨latestT, behind⟩, hbehind, hrun⟩ := Option.bind_eq_some_iff.mp hrun
  obtain ⟨hindex, rfl⟩ := List.getElem?_eq_some_iff.mp hitem
  have hsplit : items.take index ++ items[index] :: items.drop (index + 1) = items := by
    rw [← List.drop_eq_getElem_cons hindex, List.take_append_drop]
  have hmem : items[index] ∈ items := List.getElem_mem hindex
  obtain ⟨hfront, hback⟩ := h.split hindex
  obtain ⟨hmap, hstays', hearly, hfit⟩ := getEarliestDept_spec hfront
    (fun p hp => hstays p (List.mem_of_mem_take hp)) rfl (Int.le_refl _) hbefore
  obtain ⟨hmap', hstays'', hlate, hfit'⟩ := getLatestArv_spec hback
    (fun p hp => hstays p (List.mem_of_mem_drop hp)) hbehind
  -- whatever its new times are, the item fits between the departure and the arrival
  have hresult {arriveTime departTime : Int} (hwindow : items[index].openTime ≤ arriveTime ∧
      arriveTime ≤ departTime ∧ departTime ≤ items[index].closeTime)
      (hearly : earliestT + trafTime items[index].arriveTraffic ≤ arriveTime)
      (hlate : departTime + trafTime items[index].departTraffic ≤ latestT) :
      (before ++ items[index].setTimes arriveTime departTime :: behind).map Item.untimed =
        items.map Item.untimed ∧
      Fits s e (before ++ items[index].setTimes arriveTime departTime :: behind) := by
    refine ⟨?_, ?_, List.forall_mem_append.mpr ⟨hstays', List.forall_mem_cons.mpr
      ⟨hwindow, hstays''⟩⟩⟩
    · conv_rhs => rw [← hsplit]
      simp only [List.map_append, List.map_cons, hmap, hmap', untimed_setTimes]
    · rw [List.append_assoc, List.cons_append]
      exact List.isChain_cons_split.mpr ⟨hfit (items[index].setTimes arriveTime departTime) rfl
        hearly, hfit' (items[index].setTimes arriveTime departTime) rfl hlate⟩
  have hdur := hzip _ hmem
  dsimp only at hrun
  split_ifs at hrun with hfail hroom hlong
  · obtain ⟨rfl, -⟩ := Prod.mk.inj (Option.some.inj hrun)
    refine hresult ?_ ?_ ?_ <;> omega
  · obtain ⟨rfl, -⟩ := Prod.mk.inj (Option.some.inj hrun)
    refine hresult ?_ ?_ ?_ <;> omega

section

variable {sort : (ℕ → ℕ → Bool) → List ℕ → List ℕ}

theorem stretchLoop_fits {fuel : ℕ} {sItemList sItemQueue : List ℕ} (h : Fits s e items)
    (hzip : ∀ p ∈ items, 0 ≤ p.durS.zip)
    (hrun : stretchLoop sort s e fuel items sItemList sItemQueue = .ok (some items')) :
    items'.map Item.untimed = items.map Item.untimed ∧ Fits s e items' := by
  induction fuel generalizing items sItemList sItemQueue with
  | zero =>
    cases sItemQueue with
    | nil =>
      obtain rfl : items = items' := by simpa [stretchLoop, pure, Except.pure] using hrun
      exact ⟨rfl, h⟩
    | cons sItem sItemQueue => simp [stretchLoop] at hrun
  | succ fuel ih =>
    cases sItemQueue with
    | nil =>
      obtain rfl : items = items' := by simpa [stretchLoop, pure, Except.pure] using hrun
      exact ⟨rfl, h⟩
    | cons sItem sItemQueue =>
      rw [stretchLoop] at hrun
      split_ifs at hrun with hwait
      · exact ih h hzip hrun
      · split at hrun
        · simp [pure, Except.pure] at hrun
        · next hat =>
          obtain ⟨hmap, hfits⟩ := stretchAt_fits h hzip hat
          obtain ⟨hmap', hfits'⟩ := ih hfits (zip_of_untimed hmap hzip) hrun
          exact ⟨hmap'.trans hmap, hfits'⟩
        · next hat =>
          obtain ⟨hmap, hfits⟩ := stretchAt_fits h hzip hat
          obtain ⟨hmap', hfits'⟩ := ih hfits (zip_of_untimed hmap hzip) hrun
          exact ⟨hmap'.trans hmap, hfits'⟩

theorem timeStretch_fits {fuel : ℕ} (h : Fits s e items) (hzip : ∀ p ∈ items, 0 ≤ p.durS.zip)
    (hrun : timeStretch sort fuel s e items = .ok (some items')) :
    items'.map Item.untimed = items.map Item.untimed ∧ Fits s e items' :=
  stretchLoop_fits h hzip hrun

/-- Stretching between the key items changes only what is between them. -/
theorem enrichFrom_spec {fuel : ℕ} {rest out : List Item}
    (h : (s :: (items ++ rest)).IsChain Leg) (hstays : ∀ p ∈ items ++ rest, InWindow p)
    (hzip : ∀ p ∈ items ++ rest, p.isKey = false → 0 ≤ p.durS.zip)
    (hkey : ∀ p ∈ items, p.isKey = false)
    (hrun : enrichFrom sort fuel s items rest = .ok (some out)) :
    out.map Item.untimed = (items ++ rest).map Item.untimed ∧ (s :: out).IsChain Leg ∧
      (∀ p ∈ out, InWindow p) ∧ KeysStay (items ++ rest) out := by
  induction rest generalizing s items out with
  | nil =>
    obtain rfl : items = out := by simpa [enrichFrom, pure, Except.pure] using hrun
    rw [List.append_nil] at *
    exact ⟨rfl, h, hstays, keysStay_of_untimed rfl hkey⟩
  | cons p rest ih =>
    rw [enrichFrom] at hrun
    cases hp : p.isKey with
    | true =>
      rw [if_pos hp] at hrun
      obtain ⟨stretched, hstretched, hrun⟩ := bind_ok.mp hrun
      cases stretched with
      | none => simp [pure, Except.pure] at hrun
      | some stretched =>
        obtain ⟨enriched, henriched, hrun⟩ := bind_ok.mp hrun
        obtain ⟨enriched, rfl, rfl⟩ : ∃ rest', enriched = some rest' ∧
            stretched ++ p :: rest' = out := by
          simpa [pure, Except.pure, Option.map_eq_some_iff] using hrun
        obtain ⟨hitems, hrest⟩ := List.forall_mem_append.mp hstays
        obtain ⟨hpstay, hrest⟩ := List.forall_mem_cons.mp hrest
        obtain ⟨hzipitems, hziprest⟩ := List.forall_mem_append.mp hzip
        obtain ⟨-, hziprest⟩ := List.forall_mem_cons.mp hziprest
        obtain ⟨hfront, hback⟩ := List.isChain_cons_split.mp h
        have hfits : stretched.map Item.untimed = items.map Item.untimed ∧ Fits s p stretched := by
          rw [stretchBetween] at hstretched
          split_ifs at hstretched with hempty
          · obtain rfl : [] = stretched := by simpa [pure, Except.pure] using hstretched
            subst hempty
            exact ⟨rfl, hfront, hitems⟩
          · exact timeStretch_fits ⟨hfront, hitems⟩ (fun p hp =>
              hzipitems p hp (hkey p hp)) hstretched
        obtain ⟨hmap, hlegs, hstays'⟩ := hfits
        obtain ⟨hmap', hlegs', hstays'', hsame⟩ := ih hback hrest hziprest
          (List.forall_mem_nil _) henriched
        rw [List.nil_append] at hmap' hsame
        refine ⟨?_, List.isChain_cons_split.mpr ⟨hlegs, hlegs'⟩, ?_, ?_⟩
        · rw [List.map_append, List.map_append, List.map_cons, List.map_cons, hmap, hmap']
        · exact List.forall_mem_append.mpr ⟨hstays', List.forall_mem_cons.mpr ⟨hpstay, hstays''⟩⟩
        · exact List.rel_append (keysStay_of_untimed hmap hkey) (.cons (fun _ => rfl) hsame)
    | false =>
      rw [if_neg (by rw [hp]; exact Bool.false_ne_true)] at hrun
      have hassoc : items ++ p :: rest = items ++ [p] ++ rest := by
        rw [List.append_assoc, List.singleton_append]
      rw [hassoc] at h hstays hzip ⊢
      refine ih h hstays hzip ?_ hrun
      exact List.forall_mem_append.mpr ⟨hkey, List.forall_mem_singleton.mpr hp⟩

/-- Enriching keeps a path feasible, with its key items as they are. -/
theorem timeEnrich_feasible {fuel : ℕ} {rest out : List Item} (h : Feasible (s :: rest))
    (hzip : ∀ p ∈ rest, p.isKey = false → 0 ≤ p.durS.zip) (hsqueeze : ∀ p ∈ rest, Squeezable p)
    (hrun : timeEnrich sort fuel (s :: rest) = .ok (some out)) :
    ∃ rest', out = s :: rest' ∧ Feasible out ∧
      rest'.map Item.untimed = rest.map Item.untimed ∧ KeysStay rest rest' := by
  obtain ⟨hstay, hstays⟩ := List.forall_mem_cons.mp h.stays
  obtain ⟨items, hitems, hchain, hwindows⟩ :=
    zipFrom_feasible h.legs hstays hzip hsqueeze rfl (Int.le_refl _)
  obtain ⟨hmap, -, -, hsame⟩ := zipFrom_spec hitems hstays hzip
  rw [timeEnrich, doZipDur, hitems] at hrun
  obtain ⟨enriched, henriched, hrun⟩ := bind_ok.mp hrun
  obtain ⟨rest', rfl, rfl⟩ : ∃ rest', enriched = some rest' ∧ s :: rest' = out := by
    simpa [pure, Except.pure, Option.map_eq_some_iff] using hrun
  obtain ⟨hmap', hlegs, hstays', hsame'⟩ := enrichFrom_spec hchain hwindows
    (fun p hp => forall_mem_of_untimed (P := fun p => p.isKey = false → 0 ≤ p.durS.zip) hmap hzip p
      hp) (List.forall_mem_nil _) henriched
  exact ⟨rest', rfl, ⟨hlegs, List.forall_mem_cons.mpr ⟨hstay, hstays'⟩⟩, hmap'.trans hmap,
    hsame.trans hsame'⟩

end

end PPView.RealTime
