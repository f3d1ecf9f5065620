import PPView.LightPlan.DayFrame

/-!
# Removed and inserted car stores

The removal only changes the durations of the car stores of the product. The insertion takes each
car store that it puts into a day out of the map.
-/

namespace PPView.LightPlan

open Json PostProcessor

/-- The view is made of a car store of the product, up to the members that the old plan decides. -/
def OfStore (info : CarStoreInfo) (v : Reading) : Prop :=
  ∀ key ∉ ["dur", "product", "needAdjustHotel"], v.1 key = (obj info.dayView).get key

theorem get_obj_insertMember (key : String) (v : Json) (members : List (String × Json))
    (key' : String) : (obj (insertMember key v members)).get key' =
      if key' = key then v else (obj members).get key' := by
  rw [Json.get, lookup_insertMember, Json.get]
  split_ifs <;> rfl

theorem OfStore.isCarStore {info : CarStoreInfo} {v : Reading} (h : OfStore info v) :
    isCarStore v := by
  rw [LightPlan.isCarStore, h "type" (by decide), Json.get, info.isCarStore]
  decide +kernel

/-! ## Maps -/

variable {infos infos' : CarStoreInfos}

theorem lookup_set {zucheKey idKey : String} {info : CarStoreInfo} (key : String × String) :
    (infos.set zucheKey idKey info).lookup key =
      if key = (zucheKey, idKey) then some info else infos.lookup key := by
  obtain ⟨z, i⟩ := key
  rw [CarStoreInfos.lookup, CarStoreInfos.set, CarStoreInfos.lookup, Function.update_apply]
  by_cases hz : z = zucheKey
  · subst hz
    rw [if_pos rfl, Option.bind_some]
    by_cases hi : i = idKey
    · subst hi
      rw [AList.lookup_insert, if_pos rfl]
    · rw [AList.lookup_insert_ne hi, if_neg fun heq => hi (Prod.ext_iff.mp heq).2]
      cases infos z <;> rfl
  · rw [if_neg hz, if_neg fun heq => hz (Prod.ext_iff.mp heq).1]

/-- The same car stores, with other durations. -/
structure Renews (infos infos' : CarStoreInfos) : Prop where
  isSome : ∀ zucheKey, (infos' zucheKey).isSome = (infos zucheKey).isSome
  lookup : ∀ ⦃key info'⦄, infos'.lookup key = some info' →
    ∃ info, infos.lookup key = some info ∧ OfStore info (obj info'.dayView).reading

theorem Renews.refl (infos : CarStoreInfos) : Renews infos infos :=
  ⟨fun _ => rfl, fun _ info h => ⟨info, h, fun _ _ => rfl⟩⟩

theorem Renews.setDur (h : Renews infos infos') {zucheKey idKey : String} {info : CarStoreInfo}
    (hlookup : infos'.lookup (zucheKey, idKey) = some info) (dur : Json) :
    Renews infos (infos'.set zucheKey idKey (info.setDur dur)) where
  isSome z := by
    rw [← h.isSome, CarStoreInfos.set, Function.update_apply]
    split_ifs with hz
    · obtain ⟨stores, hstores, -⟩ := Option.bind_eq_some_iff.mp hlookup
      rw [hz, show infos' zucheKey = some stores from hstores]
      rfl
    · rfl
  lookup key info' hinfo := by
    rw [lookup_set] at hinfo
    split_ifs at hinfo with hkey
    · obtain ⟨info₀, hinfo₀, hof⟩ := h.lookup hlookup
      cases hinfo
      refine ⟨info₀, hkey ▸ hinfo₀, fun key hne => ?_⟩
      rw [← hof key hne]
      exact (get_obj_insertMember _ _ _ _).trans
        (if_neg fun heq : key = "dur" => hne (heq ▸ List.mem_cons_self))
    · exact h.lookup hinfo

/-! ## Removal -/

theorem removeStore_renews {zucheKey : String} {st st' : Removal} {v : Json}
    (h : removeStore zucheKey st v = some st') (hst : Renews infos st.carStoreInfos) :
    Renews infos st'.carStoreInfos := by
  rw [removeStore] at h
  cases hid : v.get "id" with
  | str id =>
    simp only [hid] at h
    split_ifs at h
    · obtain ⟨_, -, h⟩ := Option.bind_eq_some_iff.mp h
      obtain ⟨⟨unionkey, _⟩, -, h⟩ := Option.bind_eq_some_iff.mp h
      dsimp only at h
      cases hlookup : st.carStoreInfos.lookup (zucheKey, id ++ "|" ++ unionkey) with
      | some info =>
        simp only [hlookup] at h
        cases h
        exact hst.setDur hlookup _
      | none =>
        simp only [hlookup] at h
        cases h
        exact hst
    · cases h
      exact hst
  | _ =>
    simp only [hid] at h
    cases h
    exact hst

theorem removeStores_spec {zucheKey : String} {pois : Json} {k : ℕ} {st st' : Removal}
    {vs vs' ps : List Json} (h : removeStores zucheKey pois k st vs = some (st', vs', ps))
    (hst : Renews infos st.carStoreInfos) :
    Renews infos st'.carStoreInfos ∧
      vs'.map reading = (vs.map reading).filter fun v => !isCarStore v := by
  induction vs generalizing k st st' vs' ps with
  | nil =>
    cases h
    exact ⟨hst, rfl⟩
  | cons v vs ih =>
    obtain ⟨⟨type, v₁⟩, h₁, h⟩ := Option.bind_eq_some_iff.mp h
    obtain ⟨htype, hread⟩ := readInt_eq_some h₁
    have hcar : isCarStore v.reading = hasType type LY_PLACE_TYPE_CAR_STORE := by
      rw [isCarStore, reading, htype]
      rfl
    rw [List.map_cons, List.filter_cons, hcar]
    dsimp only at h
    split_ifs at h with hstore
    · obtain ⟨st₁, h₂, h⟩ := Option.bind_eq_some_iff.mp h
      rw [hstore, if_neg (by decide)]
      exact ih h (removeStore_renews h₂ hst)
    · obtain ⟨poi, -, h⟩ := Option.bind_eq_some_iff.mp h
      obtain ⟨⟨st₁, vs₁, ps₁⟩, hrest, h⟩ := Option.bind_eq_some_iff.mp h
      cases h
      obtain ⟨hst', hmap⟩ := ih hrest hst
      rw [if_pos (by simpa using hstore), List.map_cons, hread, hmap]
      exact ⟨hst', rfl⟩

/-- Car stores are only removed. -/
def Removes (x y : Removal × Multiset Reading) : Prop := y.2 ≤ x.2

theorem moves_removes : Moves Removes where
  refl x := le_refl x.2
  trans x y z hxy hyz := le_trans hyz hxy
  add s a s' b k h := by
    rw [Removes] at h ⊢
    exact add_le_add_right h k

theorem keeps_removeDay (ridx : String) (infos : CarStoreInfos) :
    Keeps (fun _ _ => false) (removeDay ridx) (fun st => Renews infos st.carStoreInfos)
      (fun _ => true) Removes where
  moves := moves_removes
  skips _ _ _ := rfl
  step date j st view pois st' view' pois' hst h := by
    obtain ⟨vs, hvs, h⟩ := Option.bind_eq_some_iff.mp h
    obtain ⟨⟨st₁, vs', ps'⟩, hrun, h⟩ := Option.bind_eq_some_iff.mp h
    cases h
    obtain ⟨hst', hmap⟩ := removeStores_spec hrun hst
    have hold : readings view = vs.map reading := by rw [readings, project, hvs]; rfl
    have hnew : readings (arr vs') = (vs.map reading).filter fun v => !isCarStore v := hmap
    refine ⟨hst', ?_, ?_⟩
    · rw [stayViews, stayViews, hold, hnew, List.filter_filter]
      simp
    · rw [Removes, carViews, hnew, List.filter_filter]
      simp only [Bool.and_not_self, List.filter_false, Multiset.coe_nil]
      exact Multiset.zero_le _

theorem removeCity_spec {st st' : Removal} {city city' : Json}
    (h : removeCity st city = some (st', city')) (hst : Renews infos st.carStoreInfos) :
    Renews infos st'.carStoreInfos ∧
      Removes (st, (oldDays city).total carStores) (st', (oldDays city').total carStores) ∧
      shape city' = (shape city).pad
        (if (shape city).ridx.isInt then (shape city).need fun _ => true else 0) := by
  rw [removeCity] at h
  rw [show (shape city).ridx = city.get "ridx" from rfl]
  split_ifs at h ⊢ with hint
  · obtain ⟨llridx, -, h⟩ := Option.bind_eq_some_iff.mp h
    refine Reaches.visitSummary (I := fun st =>
      Renews infos st.carStoreInfos) ?_ moves_removes hst h
    intro st day summary st' day' summary' dates hst hcall hdates
    exact (keeps_removeDay (toString llridx) infos).visitDays hst hcall hdates
  · cases h
    exact ⟨hst, moves_removes.refl _, (Shape.pad_zero _).symm⟩

/-! ## Insertion -/

/-- The views are the same as they can be read. -/
structure SameViews (view view' : Json) : Prop where
  project : view'.project reading = view.project reading
  size : view'.size = view.size

theorem SameViews.refl (view : Json) : SameViews view view := ⟨rfl, rfl⟩

variable {view view' : Json}

theorem SameViews.trans {view'' : Json} (h : SameViews view view') (h' : SameViews view' view'') :
    SameViews view view'' :=
  ⟨h'.project.trans h.project, h'.size.trans h.size⟩

theorem SameViews.readings (h : SameViews view view') : readings view' = readings view := by
  rw [LightPlan.readings, LightPlan.readings, h.project]

theorem sameViews_visitItem {α : Type} {f : Json → Option (α × Json)} {i : ℕ} {a : α}
    (hi : i < view.size) (h : view.visitItem i f = some (a, view'))
    (hf : ∀ ⦃v a v'⦄, f v = some (a, v') → v'.reading = v.reading) : SameViews view view' := by
  obtain ⟨items, v, hitems, -, rfl⟩ := visitItem_eq_some h
  refine ⟨project_visitItem_of_lt hi h hf, ?_⟩
  rw [size_eq_length hitems] at hi ⊢
  rw [Json.size, List.length_set, length_rightpad]
  omega

theorem isStation_reading {key time : String} {v v' : Json} {b : Bool}
    (h : isStation key time v = some (b, v')) : v'.reading = v.reading := by
  obtain ⟨⟨t, v₁⟩, h₁, h⟩ := Option.bind_eq_some_iff.mp h
  have hread := (readString_eq_some h₁).2
  dsimp only at h
  split_ifs at h
  · obtain ⟨⟨type, v₂⟩, h₂, h⟩ := Option.bind_eq_some_iff.mp h
    cases h
    exact (readInt_eq_some h₂).2.trans hread
  · cases h
    exact hread

variable {c : DayContext} {ends : Bool × Bool}

theorem stationEnds_same (h : stationEnds c view = some (ends, view')) : SameViews view view' := by
  rw [stationEnds] at h
  split_ifs at h with hsize
  · obtain ⟨⟨isFirst, view₁⟩, h₁, h⟩ := Option.bind_eq_some_iff.mp h
    obtain ⟨⟨isLast, view₂⟩, h₂, h⟩ := Option.bind_eq_some_iff.mp h
    cases h
    have hsame := sameViews_visitItem hsize h₁ fun v b v' hv => isStation_reading hv
    have hlast : view₁.size - 1 < view₁.size := by
      rw [hsame.size]
      omega
    exact hsame.trans (sameViews_visitItem hlast h₂ fun v b v' hv => isStation_reading hv)
  · cases h
    exact .refl _

theorem startPlace_same {stime : String} {k n vPlace : ℕ} (hk : k + n ≤ view.size)
    (h : startPlace stime k view n = some (vPlace, view')) : SameViews view view' := by
  induction n generalizing k view with
  | zero =>
    cases h
    exact .refl _
  | succ n ih =>
    obtain ⟨⟨t, view₁⟩, h₁, h⟩ := Option.bind_eq_some_iff.mp h
    have hsame := sameViews_visitItem (by omega) h₁ fun v t v' hv => (readString_eq_some hv).2
    dsimp only at h
    split_ifs at h
    · refine hsame.trans (ih ?_ h)
      rw [hsame.size]
      omega
    · cases h
      exact hsame

theorem adjustPlace_same {vPlace vPlace' : ℕ}
    (h : adjustPlace c ends vPlace view = some (vPlace', view')) : SameViews view view' := by
  rw [adjustPlace] at h
  split_ifs at h with hfirst hlast
  · obtain ⟨⟨type, view₁⟩, h₁, h⟩ := Option.bind_eq_some_iff.mp h
    cases h
    exact sameViews_visitItem (by omega) h₁ fun v type v' hv => (readInt_eq_some hv).2
  · obtain ⟨⟨type, view₁⟩, h₁, h⟩ := Option.bind_eq_some_iff.mp h
    cases h
    exact sameViews_visitItem (by omega) h₁ fun v type v' hv => (readInt_eq_some hv).2
  · cases h
    exact .refl _

/-- One car store is put between the views. -/
structure Inserts (v : Reading) (view view' : Json) : Prop where
  stayViews : stayViews view' = stayViews view
  carViews : carViews view' = carViews view + {v}

theorem insertItem_inserts {k : ℕ} {v : Json} (hv : isCarStore v.reading)
    (h : insertItem k v view = some view') : Inserts v.reading view view' := by
  obtain ⟨items, hitems, h⟩ := Option.bind_eq_some_iff.mp h
  cases h
  have hold : readings view = (items.map reading).take k ++ (items.map reading).drop k := by
    rw [readings, project, hitems, List.take_append_drop]
    rfl
  have hnew : readings (arr (items.take k ++ v :: items.drop k)) =
      (items.map reading).take k ++ v.reading :: (items.map reading).drop k := by
    rw [readings, project, Json.items, Option.map_some, Option.getD_some, List.map_append,
      List.map_cons, List.map_take, List.map_drop]
  constructor
  · rw [LightPlan.stayViews, LightPlan.stayViews, hold, hnew, List.filter_append,
      List.filter_append, List.filter_cons_of_neg (by simp [hv])]
  · rw [LightPlan.carViews, LightPlan.carViews, hold, hnew, List.filter_append,
      List.filter_append, List.filter_cons_of_pos hv, ← Multiset.coe_singleton, Multiset.coe_add,
      Multiset.coe_eq_coe]
    exact List.perm_middle.trans (List.perm_append_singleton _ _).symm

theorem addStore_inserts {info : CarStoreInfo} {stime : String} {pois pois' : Json}
    (h : addStore c ends info stime view pois = some (view', pois')) :
    ∃ v, OfStore info v ∧ Inserts v view view' := by
  obtain ⟨⟨vPlace, view₁⟩, h₁, h⟩ := Option.bind_eq_some_iff.mp h
  obtain ⟨⟨vPlace', view₂⟩, h₂, h⟩ := Option.bind_eq_some_iff.mp h
  obtain ⟨_, -, h⟩ := Option.bind_eq_some_iff.mp h
  obtain ⟨id, -, h⟩ := Option.bind_eq_some_iff.mp h
  obtain ⟨⟨unionkey, product⟩, -, h⟩ := Option.bind_eq_some_iff.mp h
  obtain ⟨view₃, h₃, h⟩ := Option.bind_eq_some_iff.mp h
  obtain ⟨pois₁, -, h⟩ := Option.bind_eq_some_iff.mp h
  cases h
  have hsame := (startPlace_same (by omega) h₁).trans (adjustPlace_same h₂)
  have hof : OfStore info (obj (if c.zucheKey ++ "|" ++ id ++ "|" ++ unionkey ∉ c.originZucheKey ∧
      c.j ≠ 0 ∧ vPlace' = 1 then
        insertMember "needAdjustHotel" (int 1) (insertMember "product" product info.dayView)
      else insertMember "product" product info.dayView)).reading := by
    intro key hkey
    simp only [List.mem_cons, List.not_mem_nil, or_false, not_or] at hkey
    dsimp only [reading]
    split_ifs
    · rw [get_obj_insertMember, if_neg hkey.2.2, get_obj_insertMember, if_neg hkey.2.1]
    · rw [get_obj_insertMember, if_neg hkey.2.1]
  obtain ⟨hstay, hcar⟩ := insertItem_inserts hof.isCarStore h₃
  refine ⟨_, hof, ?_, ?_⟩
  · rw [hstay, stayViews, stayViews, hsame.readings]
  · rw [hcar, carViews, carViews, hsame.readings]

theorem addStores_spec {its : List (Σ _ : String, CarStoreInfo)} {stores stores' : DayStores}
    {pois pois' : Json}
    (h : addStores c ends its stores view pois = some (stores', view', pois')) :
    ∃ ins : List (String × Reading), (stayViews view' = stayViews view ∧
        carViews view' = carViews view + (ins.map Prod.snd : List Reading)) ∧
      (ins.map Prod.fst).Sublist (its.map Sigma.fst) ∧
      (∀ x ∈ ins, ∃ info, ⟨x.1, info⟩ ∈ its ∧ OfStore info x.2) ∧
      ∀ i, stores'.lookup i = if i ∈ ins.map Prod.fst then none else stores.lookup i := by
  induction its generalizing stores view pois with
  | nil =>
    cases h
    exact ⟨[], ⟨rfl, by simp⟩, .slnil, by simp, fun i => rfl⟩
  | cons it its ih =>
    obtain ⟨stime, -, h⟩ := Option.bind_eq_some_iff.mp h
    dsimp only at h
    split_ifs at h
    · obtain ⟨ins, hviews, hsub, hof, hlookup⟩ := ih h
      refine ⟨ins, hviews, hsub.cons _, fun x hx => ?_, hlookup⟩
      obtain ⟨info, hinfo, hx⟩ := hof x hx
      exact ⟨info, List.mem_cons_of_mem _ hinfo, hx⟩
    · obtain ⟨⟨view₁, pois₁⟩, hadd, h⟩ := Option.bind_eq_some_iff.mp h
      obtain ⟨v, hv, hinserts⟩ := addStore_inserts hadd
      obtain ⟨ins, ⟨hstay, hcar⟩, hsub, hof, hlookup⟩ := ih h
      refine ⟨(it.1, v) :: ins, ⟨hstay.trans hinserts.stayViews, ?_⟩, hsub.cons_cons _, ?_, ?_⟩
      · rw [hcar, hinserts.carViews, List.map_cons, ← Multiset.cons_coe, ← Multiset.singleton_add,
          add_assoc]
      · rintro x (_ | ⟨_, hx⟩)
        · exact ⟨it.2, List.mem_cons_self, hv⟩
        · obtain ⟨info, hinfo, hx⟩ := hof x hx
          exact ⟨info, List.mem_cons_of_mem _ hinfo, hx⟩
      · intro i
        rw [hlookup, List.map_cons]
        by_cases hi : i = it.1
        · rw [hi, AList.lookup_erase, ite_self, if_pos List.mem_cons_self]
        · rw [AList.lookup_erase_ne hi]
          exact if_congr (by simp [hi]) rfl rfl

/-- The keys of a car store and the view that is made of it. -/
abbrev Insertion := (String × String) × Reading

/-- Car stores are taken out of the map, each one once. -/
structure Takes (infos : CarStoreInfos) (ins : List Insertion) (infos' : CarStoreInfos) : Prop where
  nodup : (ins.map Prod.fst).Nodup
  gone : ∀ x ∈ ins, infos'.lookup x.1 = none
  rest : ∀ ⦃key info⦄, infos'.lookup key = some info → infos.lookup key = some info
  mem : ∀ x ∈ ins, ∃ info, infos.lookup x.1 = some info ∧ OfStore info x.2

theorem Takes.refl (infos : CarStoreInfos) : Takes infos [] infos :=
  ⟨.nil, by simp, fun _ _ h => h, by simp⟩

theorem Takes.trans {infos'' : CarStoreInfos} {ins ins' : List Insertion}
    (h : Takes infos ins infos') (h' : Takes infos' ins' infos'') :
    Takes infos (ins ++ ins') infos'' where
  nodup := by
    rw [List.map_append, List.nodup_append']
    refine ⟨h.nodup, h'.nodup, fun key hkey hkey' => ?_⟩
    obtain ⟨x, hx, rfl⟩ := List.mem_map.mp hkey
    obtain ⟨x', hx', heq⟩ := List.mem_map.mp hkey'
    obtain ⟨info, hinfo, -⟩ := h'.mem x' hx'
    rw [heq, h.gone x hx] at hinfo
    cases hinfo
  gone x hx := by
    rcases List.mem_append.mp hx with hx | hx
    · rw [Option.eq_none_iff_forall_ne_some]
      intro info hinfo
      have hold := h'.rest hinfo
      rw [h.gone x hx] at hold
      cases hold
    · exact h'.gone x hx
  rest key info hinfo := h.rest (h'.rest hinfo)
  mem x hx := by
    rcases List.mem_append.mp hx with hx | hx
    · exact h.mem x hx
    · obtain ⟨info, hinfo, hof⟩ := h'.mem x hx
      exact ⟨info, h.rest hinfo, hof⟩

/-- The car stores of one day are taken. -/
theorem takes_update {zucheKey : String} {stores stores' : DayStores}
    {ins : List (String × Reading)} (hstores : infos zucheKey = some stores)
    (hnodup : (ins.map Prod.fst).Nodup)
    (hof : ∀ x ∈ ins, ∃ info, stores.lookup x.1 = some info ∧ OfStore info x.2)
    (hlookup : ∀ i, stores'.lookup i = if i ∈ ins.map Prod.fst then none else stores.lookup i) :
    Takes infos (ins.map fun x => ((zucheKey, x.1), x.2))
      (Function.update infos zucheKey (some stores')) where
  nodup := by
    rw [List.map_map]
    rw [show (Prod.fst ∘ fun x : String × Reading => ((zucheKey, x.1), x.2)) =
      (fun i => (zucheKey, i)) ∘ Prod.fst from rfl, ← List.map_map]
    exact hnodup.map fun i i' heq => (Prod.ext_iff.mp heq).2
  gone x hx := by
    obtain ⟨y, hy, rfl⟩ := List.mem_map.mp hx
    rw [CarStoreInfos.lookup, Function.update_self, Option.bind_some, hlookup,
      if_pos (List.mem_map_of_mem hy)]
  rest key info hinfo := by
    rw [CarStoreInfos.lookup, Function.update_apply] at hinfo
    rw [CarStoreInfos.lookup]
    split_ifs at hinfo with hz
    · rw [Option.bind_some, hlookup] at hinfo
      rw [hz, hstores, Option.bind_some]
      split_ifs at hinfo
      exact hinfo
    · exact hinfo
  mem x hx := by
    obtain ⟨y, hy, rfl⟩ := List.mem_map.mp hx
    obtain ⟨info, hinfo, hof⟩ := hof y hy
    exact ⟨info, by rw [CarStoreInfos.lookup, hstores, Option.bind_some, hinfo], hof⟩

/-- The car stores that are new in the days were taken out of the map. -/
def Adds (x y : CarStoreInfos × Multiset Reading) : Prop :=
  ∃ ins : List Insertion, y.2 = x.2 + (ins.map Prod.snd : List Reading) ∧ Takes x.1 ins y.1

theorem moves_adds : Moves Adds where
  refl x := ⟨[], by simp, .refl _⟩
  trans x y z := by
    rintro ⟨ins, hadd, htakes⟩ ⟨ins', hadd', htakes'⟩
    refine ⟨ins ++ ins', ?_, htakes.trans htakes'⟩
    rw [hadd', hadd, List.map_append, ← Multiset.coe_add, add_assoc]
  add s a s' b k := by
    rintro ⟨ins, hadd, htakes⟩
    refine ⟨ins, ?_, htakes⟩
    dsimp only at hadd ⊢
    rw [hadd, add_assoc]

/-- The days that have car stores stay the same. -/
def SameDays (infos infos' : CarStoreInfos) : Prop := ∀ z, (infos' z).isSome = (infos z).isSome

variable {order : IterationOrder}

theorem addDay_spec {infos'' : CarStoreInfos} {pois pois' : Json} (hdays : SameDays infos infos')
    (h : addDay order c infos' view pois = some (infos'', view', pois')) :
    SameDays infos infos'' ∧ stayViews view' = stayViews view ∧
      Adds (infos', carViews view) (infos'', carViews view') := by
  rw [addDay] at h
  cases hstores : infos' c.zucheKey with
  | none =>
    simp only [hstores] at h
    cases h
    exact ⟨hdays, rfl, moves_adds.refl _⟩
  | some stores =>
    simp only [hstores] at h
    split_ifs at h
    · obtain ⟨⟨ends, view₁⟩, h₁, h⟩ := Option.bind_eq_some_iff.mp h
      obtain ⟨⟨stores', view₂, pois₂⟩, h₂, h⟩ := Option.bind_eq_some_iff.mp h
      cases h
      have hsame := (stationEnds_same h₁).readings
      obtain ⟨ins, ⟨hstay, hcar⟩, hsub, hof, hlookup⟩ := addStores_spec h₂
      have hperm := order.perm stores
      have hnodup : ((order.entries stores).map Sigma.fst).Nodup :=
        (hperm.map Sigma.fst).nodup_iff.mpr stores.nodupKeys
      refine ⟨fun z => ?_, ?_, _, ?_, takes_update hstores (hnodup.sublist hsub) (fun x hx => ?_)
        hlookup⟩
      · rw [← hdays z, Function.update_apply]
        split_ifs with hz
        · rw [hz, hstores]
          rfl
        · rfl
      · rw [hstay, stayViews, stayViews, hsame]
      · rw [hcar, carViews, carViews, hsame, List.map_map]
        rfl
      · obtain ⟨info, hinfo, hx⟩ := hof x hx
        exact ⟨info, AList.mem_lookup_iff.mpr (hperm.mem_iff.mp hinfo), hx⟩
    · cases h
      exact ⟨hdays, rfl, moves_adds.refl _⟩

/-- The days of a city that have car stores. -/
def hasStores (infos : CarStoreInfos) (ridx : Json) (date : String) : Bool :=
  match ridx.asInt with
  | some llridx => (infos (toString llridx ++ "|" ++ date)).isSome
  | none => false

theorem addCity_spec {originZucheKey : List String} {infos'' : CarStoreInfos} {city city' : Json}
    (h : addCity order originZucheKey infos' city = some (infos'', city'))
    (hdays : SameDays infos infos') :
    SameDays infos infos'' ∧
      Adds (infos', (oldDays city).total carStores) (infos'', (oldDays city').total carStores) ∧
      shape city' = (shape city).pad ((shape city).need (hasStores infos (shape city).ridx)) := by
  refine Reaches.visitSummary (I := SameDays infos) ?_ moves_adds hdays h
  intro infos' day summary infos'' day' summary' dates hdays hcall hdates
  obtain ⟨llridx, hridx, hcall⟩ := Option.bind_eq_some_iff.mp hcall
  obtain ⟨⟨arvTime, summary₁⟩, h₁, hcall⟩ := Option.bind_eq_some_iff.mp hcall
  obtain ⟨⟨deptTime, summary₂⟩, h₂, hcall⟩ := Option.bind_eq_some_iff.mp hcall
  have hget : summary₂.get "days" = summary.get "days" :=
    (get_of_reading (readString_eq_some h₂).2 _).trans (get_of_reading (readString_eq_some h₁).2 _)
  refine Keeps.visitDays ⟨moves_adds, fun infos' hdays date => ?_, ?_⟩ hdays hcall
    (hget.symm ▸ hdates)
  · rw [← Option.not_isSome, hdays, hasStores, show (shape city).ridx = city.get "ridx" from rfl,
      hridx]
  · intro date j infos' view pois infos'' view' pois' hdays hstep
    exact addDay_spec hdays hstep

end PPView.LightPlan
