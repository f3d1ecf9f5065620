import PPView.PrivateData.PrivateConstData

/-!
# The live places

Where no key of one id is a key of another, the data set is a set of places by their ids: `Rep`
says what the maps and the lists of the cities hold for it.
-/

namespace PPView.PrivateData

/-! ## Keys -/

theorem coreHotelId_injective {a b : String} (h : coreHotelId a = coreHotelId b) : a = b := by
  unfold coreHotelId at h
  exact (String.append_right_inj _).mp h

theorem exists_append_of_append_underscore {pre id ptid cid : String} (hpre : '_' ∉ pre.toList)
    (h : id ++ "_" ++ ptid = pre ++ cid) : ∃ cid', id = pre ++ cid' := by
  have hlist := congrArg String.toList h
  simp only [String.toList_append, List.append_assoc] at hlist
  rcases List.append_eq_append_iff.mp hlist with ⟨rest, hsplit, htail⟩ | ⟨rest, hid, -⟩
  · -- the id ends in the prefix, where there is no underscore
    cases rest with
    | nil => exact ⟨"", String.toList_injective (by simpa using hsplit.symm)⟩
    | cons c rest =>
      obtain rfl : '_' = c := (List.cons.inj htail).1
      exact absurd (by simp [hsplit]) hpre
  · exact ⟨String.ofList rest, String.toList_injective (by simpa using hid)⟩

theorem exists_coreHotelId_of_qualified {id ptid cid : String}
    (h : qualified id ptid = coreHotelId cid) : ∃ cid', id = coreHotelId cid' :=
  exists_append_of_append_underscore (by decide) h

theorem Place.getUniqId_eq (p : Place) :
    p.getUniqId = p.id ∨ p.getUniqId = qualified p.id p.ptid ∧
      p.cls ≠ .city ∧ p.cls ≠ .tour := by
  rw [getUniqId]
  cases p.cls with
  | city => exact .inl rfl
  | tour => exact .inl rfl
  | _ =>
    split_ifs
    · exact .inr ⟨rfl, by decide, by decide⟩
    · exact .inl rfl

/-- Only cities and tours are stored as such. -/
theorem Place.cls_of_placeMapOf {p : Place} (h : placeMapOf p.t = some .citys ∨
    placeMapOf p.t = some .tours) : p.cls = .city ∨ p.cls = .tour := by
  have htype := p.type_eq
  cases hcls : p.cls with
  | city => exact .inl rfl
  | tour => exact .inr rfl
  | _ =>
    rw [htype _ (by rw [hcls]; rfl)] at h
    revert h
    decide

theorem Place.getUniqId_of_placeMapOf {p : Place} (h : placeMapOf p.t = some .citys ∨
    placeMapOf p.t = some .tours) : p.getUniqId = p.id := by
  rw [getUniqId]
  rcases p.cls_of_placeMapOf h with hcls | hcls <;> rw [hcls]

/-- The ids in use, with their tenants, have different keys. -/
structure Apart (used : String → String → Prop) : Prop where
  tenant : ∀ {id ptid ptid'}, used id ptid → used id ptid' → ptid = ptid'
  bare : ∀ {id ptid id' ptid'}, used id ptid → used id' ptid' → id ≠ qualified id' ptid'
  qualified : ∀ {id ptid id' ptid'}, used id ptid → used id' ptid' →
    qualified id ptid = qualified id' ptid' → id = id'
  core : ∀ {id ptid}, used id ptid → ∀ cid, id ≠ coreHotelId cid

/-- Some key of an id in use. -/
def IsKey (id ptid key : String) : Prop := key = id ∨ key = qualified id ptid

theorem Place.isKey (p : Place) : IsKey p.id p.ptid p.getUniqId :=
  p.getUniqId_eq.imp (fun h => h) And.left

variable {used : String → String → Prop}

theorem Apart.id_eq (h : Apart used) {id ptid id' ptid' key : String} (hid : used id ptid)
    (hid' : used id' ptid') (hkey : IsKey id ptid key) (hkey' : IsKey id' ptid' key) :
    id = id' := by
  rcases hkey with rfl | rfl
  · rcases hkey' with rfl | hkey'
    · rfl
    · exact absurd hkey' (h.bare hid hid')
  · rcases hkey' with hkey' | hkey'
    · exact absurd hkey'.symm (h.bare hid' hid)
    · exact h.qualified hid hid' hkey'

theorem Apart.ne_core (h : Apart used) {id ptid key : String} (hid : used id ptid)
    (hkey : IsKey id ptid key) (cid : String) : key ≠ coreHotelId cid := by
  rcases hkey with rfl | rfl
  · exact h.core hid cid
  · intro heq
    obtain ⟨cid', rfl⟩ := exists_coreHotelId_of_qualified heq
    exact h.core hid cid' rfl

/-! ## Representation -/

/-- Places by their ids. -/
structure IsLive (used : String → String → Prop) (live : String → Option Place) : Prop where
  id_eq : ∀ {id p}, live id = some p → p.id = id
  used : ∀ {id p}, live id = some p → used p.id p.ptid
  stored : ∀ {id p}, live id = some p → ∃ m, placeMapOf p.t = some m

variable {live : String → Option Place} {d : PrivateConstData}

/-- The map `m` has the live place `p`, or the hotel that was made for a live city. -/
def Stored (live : String → Option Place) (m : PlaceMap) (key : String) (p : Place) : Prop :=
  (live p.id = some p ∧ placeMapOf p.t = some m ∧ key = p.getUniqId) ∨
    m = .hotels ∧ ∃ c, live c.id = some c ∧ placeMapOf c.t = some .citys ∧
      key = coreHotelId c.id ∧ p = coreHotel c

/-- The city `cid` lists the live place with the id `id`. -/
def Listed (live : String → Option Place) (m : CityMap) (ptid cid id : String) : Prop :=
  ∃ p, live id = some p ∧ p.ptid = ptid ∧ cityMapOf p.t = some m ∧ cid ∈ p.cidList

def RepPlaces (d : PrivateConstData) (live : String → Option Place) : Prop :=
  ∀ m key p, d.places m key = some p ↔ Stored live m key p

def RepCities (d : PrivateConstData) (live : String → Option Place) : Prop :=
  ∀ m ptid cid id, id ∈ d.cityPlaces m ptid cid ↔ Listed live m ptid cid id

theorem isLive_empty : IsLive used fun _ => none := ⟨nofun, nofun, nofun⟩

theorem repPlaces_empty : RepPlaces {} fun _ => none := by
  refine fun m key p => ⟨nofun, ?_⟩
  rintro (⟨h, -⟩ | ⟨-, c, hc, -⟩) <;> contradiction

theorem repCities_empty : RepCities {} fun _ => none := by
  refine fun m ptid cid id => ⟨fun h => absurd h (Finset.notMem_empty id), ?_⟩
  rintro ⟨p, hp, -⟩
  contradiction

/-- Under a key of an id in use there is the live place of that id or nothing. -/
theorem Stored.of_isKey (hused : Apart used) (hlive : IsLive used live) {m : PlaceMap}
    {id ptid key : String} {p : Place} (h : Stored live m key p) (hid : used id ptid)
    (hkey : IsKey id ptid key) : live id = some p ∧ placeMapOf p.t = some m ∧
      key = p.getUniqId := by
  rcases h with ⟨hp, hm, hpkey⟩ | ⟨-, c, -, -, hcore, -⟩
  · have hkey' : IsKey p.id p.ptid key := hpkey ▸ p.isKey
    have heq := hused.id_eq hid (hlive.used hp) hkey hkey'
    exact ⟨heq ▸ hp, hm, hpkey⟩
  · exact absurd hcore (hused.ne_core hid hkey c.id)

/-! ## Looking up -/

namespace PrivateConstData

theorem lookup_eq_some {maps : List PlaceMap} {m : PlaceMap} {key : String} {p : Place}
    (hm : m ∈ maps) (hp : d.places m key = some p)
    (honly : ∀ m q, d.places m key = some q → q = p) : d.lookup maps key = some p := by
  cases hlook : d.lookup maps key with
  | none => exact absurd hp (by simp [List.findSome?_eq_none_iff.mp hlook m hm])
  | some q =>
    obtain ⟨m', -, hq⟩ := List.exists_of_findSome?_eq_some hlook
    rw [honly m' q hq]

theorem lookup_eq_none {maps : List PlaceMap} {key : String} (h : ∀ m, d.places m key = none) :
    d.lookup maps key = none :=
  List.findSome?_eq_none_iff.mpr fun m _ => h m

/-- The lookup finds the live place of an id in use. -/
theorem getLYPlace_eq (hused : Apart used) (hlive : IsLive used live) (hrep : RepPlaces d live)
    {id ptid : String} (hid : used id ptid) : d.getLYPlace id ptid = live id := by
  have hstored {m : PlaceMap} {key : String} {q : Place} (hkey : IsKey id ptid key)
      (hq : d.places m key = some q) :=
    ((hrep m key q).mp hq).of_isKey hused hlive hid hkey
  rw [getLYPlace]
  cases hp : live id with
  | none =>
    have hnone (key : String) (hkey : IsKey id ptid key) (m : PlaceMap) :
        d.places m key = none := by
      cases hq : d.places m key with
      | none => rfl
      | some q => rw [(hstored hkey hq).1] at hp; contradiction
    rw [lookup_eq_none (hnone _ (.inl rfl)), lookup_eq_none (hnone _ (.inr rfl))]
    rfl
  | some p =>
    obtain rfl := hlive.id_eq hp
    obtain rfl := hused.tenant (hlive.used hp) hid
    obtain ⟨m, hm⟩ := hlive.stored hp
    have hplace : d.places m p.getUniqId = some p := (hrep _ _ _).mpr (.inl ⟨hp, hm, rfl⟩)
    have honly (key : String) (hkey : IsKey p.id p.ptid key) (m' : PlaceMap) (q : Place)
        (hq : d.places m' key = some q) : q = p :=
      Option.some.inj ((hstored hkey hq).1.symm.trans hp)
    rcases p.getUniqId_eq with hkey | ⟨hkey, hcity, htour⟩
    · rw [lookup_eq_some (m := m) (by cases m <;> decide) (hkey ▸ hplace)
        (honly _ (.inl rfl))]
      rfl
    · have hnone (m' : PlaceMap) : d.places m' p.id = none := by
        cases hq : d.places m' p.id with
        | none => rfl
        | some q =>
          obtain ⟨hq', -, hqkey⟩ := hstored (.inl rfl) hq
          obtain rfl := Option.some.inj (hp.symm.trans hq')
          exact absurd (hqkey.trans hkey) (hused.bare hid hid)
      have hm' : m ∈ [PlaceMap.hotels, .views, .shops, .restaurants] := by
        cases m with
        | citys => exact absurd (p.cls_of_placeMapOf (.inl hm)) (not_or.mpr ⟨hcity, htour⟩)
        | tours => exact absurd (p.cls_of_placeMapOf (.inr hm)) (not_or.mpr ⟨hcity, htour⟩)
        | _ => decide
      rw [lookup_eq_none hnone, lookup_eq_some hm' (hkey ▸ hplace) (honly _ (.inr rfl))]
      rfl

end PrivateConstData

/-! ## Inserting -/

theorem update_some_eq {p q : Place} {id : String} :
    Function.update live p.id (some p) id = some q ↔
      (id = p.id ∧ q = p) ∨ (id ≠ p.id ∧ live id = some q) := by
  rw [Function.update_apply]
  split_ifs with h
  · simp [h, eq_comm]
  · simp [h]

theorem update_none_eq {id' id : String} {q : Place} :
    Function.update live id' none id = some q ↔ id ≠ id' ∧ live id = some q := by
  rw [Function.update_apply]
  split_ifs with h <;> simp [h]

/-- The entries that the maps have for a live place. -/
def Owns (p : Place) (m : PlaceMap) (key : String) : Prop :=
  (placeMapOf p.t = some m ∧ key = p.getUniqId) ∨
    (placeMapOf p.t = some .citys ∧ m = .hotels ∧ key = coreHotelId p.id)

theorem stored_insert {p : Place} (hnone : live p.id = none) {m : PlaceMap} {key : String}
    {q : Place} : Stored (Function.update live p.id (some p)) m key q ↔
      Stored live m key q ∨ (placeMapOf p.t = some m ∧ key = p.getUniqId ∧ q = p) ∨
        (placeMapOf p.t = some .citys ∧ m = .hotels ∧ key = coreHotelId p.id ∧
          q = coreHotel p) := by
  constructor
  · rintro (⟨hq, hm, hkey⟩ | ⟨rfl, c, hc, hm, hkey, hq⟩)
    · rcases update_some_eq.mp hq with ⟨-, rfl⟩ | ⟨-, hq⟩
      · exact .inr (.inl ⟨hm, hkey, rfl⟩)
      · exact .inl (.inl ⟨hq, hm, hkey⟩)
    · rcases update_some_eq.mp hc with ⟨-, rfl⟩ | ⟨-, hc⟩
      · exact .inr (.inr ⟨hm, rfl, hkey, hq⟩)
      · exact .inl (.inr ⟨rfl, c, hc, hm, hkey, hq⟩)
  · have hne {c : Place} (hc : live c.id = some c) : c.id ≠ p.id := by
      intro heq
      rw [heq, hnone] at hc
      contradiction
    rintro ((⟨hq, hm, hkey⟩ | ⟨rfl, c, hc, hm, hkey, hq⟩) | ⟨hm, hkey, rfl⟩ | ⟨hm, rfl, hkey, hq⟩)
    · exact .inl ⟨update_some_eq.mpr (.inr ⟨hne hq, hq⟩), hm, hkey⟩
    · exact .inr ⟨rfl, c, update_some_eq.mpr (.inr ⟨hne hc, hc⟩), hm, hkey, hq⟩
    · exact .inl ⟨update_some_eq.mpr (.inl ⟨rfl, rfl⟩), hm, hkey⟩
    · exact .inr ⟨rfl, p, update_some_eq.mpr (.inl ⟨rfl, rfl⟩), hm, hkey, hq⟩

/-- The hotel of a city that is not live is not there. -/
theorem Stored.ne_coreHotelId (hused : Apart used) (hlive : IsLive used live) {m : PlaceMap}
    {cid : String} {q : Place} (h : Stored live m (coreHotelId cid) q) :
    m = .hotels ∧ ∃ c, live cid = some c ∧ placeMapOf c.t = some .citys := by
  rcases h with ⟨hq, -, hkey⟩ | ⟨rfl, c, hc, hm, hkey, -⟩
  · exact absurd hkey.symm (hused.ne_core (hlive.used hq) q.isKey cid)
  · exact ⟨rfl, c, coreHotelId_injective hkey ▸ hc, hm⟩

namespace PrivateConstData

variable {p : Place}

theorem doInsert_of_insertLYPlace (h : d.insertLYPlace p = (1, d)) : d.doInsert p = (1, d) := by
  rw [doInsert, h]
  by_cases hid : p.id = ""
  · rw [if_pos hid]
  · rw [if_neg hid]
    exact if_pos Nat.one_ne_zero

theorem doInsert_of_placeMapOf (hm : placeMapOf p.t = none) : d.doInsert p = (1, d) :=
  doInsert_of_insertLYPlace (by rw [insertLYPlace, hm])

theorem doInsert_of_stored {m : PlaceMap} (hm : placeMapOf p.t = some m)
    (hstored : (d.places m p.getUniqId).isSome) : d.doInsert p = (1, d) := by
  refine doInsert_of_insertLYPlace ?_
  rw [insertLYPlace, hm]
  exact if_pos hstored

/-- A call that does not return 0 changes nothing. -/
theorem doInsert_of_ne_zero (h : (d.doInsert p).1 ≠ 0) : (d.doInsert p).2 = d := by
  cases hm : placeMapOf p.t with
  | none => rw [doInsert_of_placeMapOf hm]
  | some m =>
    by_cases hstored : (d.places m p.getUniqId).isSome
    · rw [doInsert_of_stored hm hstored]
    · by_cases hid : p.id = ""
      · rw [doInsert, if_pos hid]
      · rw [doInsert, if_neg hid, insertLYPlace, hm] at h
        simp [hstored] at h

theorem places_doInsert (hid : p.id ≠ "") {m : PlaceMap} (hm : placeMapOf p.t = some m)
    (hfree : d.places m p.getUniqId = none) (m' : PlaceMap) (key : String) :
    (d.doInsert p).2.places m' key =
      if m = .citys ∧ m' = .hotels ∧ key = coreHotelId p.id then some (coreHotel p)
      else if m' = m ∧ key = p.getUniqId then some p
      else d.places m' key := by
  rw [doInsert, if_neg hid, insertLYPlace, hm]
  simp only [hfree, Option.isSome_none, Bool.false_eq_true, if_false, ne_eq, not_true_eq_false,
    places_insertCityPlaceList]
  by_cases hcity : m = .citys
  · rw [if_pos hcity, insertCoreHotel, places_setPlace, places_setPlace]
    simp [hcity]
  · rw [if_neg hcity, places_setPlace]
    simp [hcity]

theorem mem_doInsert (hid : p.id ≠ "") {m : PlaceMap} (hm : placeMapOf p.t = some m)
    (hfree : d.places m p.getUniqId = none) {m' : CityMap} {ptid cid id : String} :
    id ∈ (d.doInsert p).2.cityPlaces m' ptid cid ↔
      id ∈ d.cityPlaces m' ptid cid ∨ IsEntry p m' ptid cid id := by
  rw [doInsert, if_neg hid, insertLYPlace, hm]
  simp only [hfree, Option.isSome_none, Bool.false_eq_true, if_false, ne_eq, not_true_eq_false,
    mem_insertCityPlaceList]
  split_ifs <;> rfl

/-- What there is after a new place has been inserted. -/
theorem places_doInsert_iff (hid : p.id ≠ "") {m : PlaceMap} (hm : placeMapOf p.t = some m)
    (hfree : d.places m p.getUniqId = none)
    (hcore : m = .citys → d.places .hotels (coreHotelId p.id) = none) {m' : PlaceMap}
    {key : String} {q : Place} : (d.doInsert p).2.places m' key = some q ↔
      d.places m' key = some q ∨ (placeMapOf p.t = some m' ∧ key = p.getUniqId ∧ q = p) ∨
        (placeMapOf p.t = some .citys ∧ m' = .hotels ∧ key = coreHotelId p.id ∧
          q = coreHotel p) := by
  rw [places_doInsert hid hm hfree, hm]
  split_ifs with hhotel hown
  · obtain ⟨rfl, rfl, rfl⟩ := hhotel
    simp [hcore rfl, eq_comm]
  · obtain ⟨rfl, rfl⟩ := hown
    rw [hfree]
    constructor
    · rintro ⟨⟩
      exact .inr (.inl ⟨rfl, rfl, rfl⟩)
    · rintro (hq | ⟨-, -, rfl⟩ | ⟨hcity, hhotels, -⟩)
      · cases hq
      · rfl
      · cases hcity
        cases hhotels
  · constructor
    · exact .inl
    · rintro (hq | ⟨heq, hkey, -⟩ | ⟨heq, hhotels, hkey, -⟩)
      · exact hq
      · exact absurd ⟨(Option.some.inj heq).symm, hkey⟩ hown
      · exact absurd ⟨Option.some.inj heq, hhotels, hkey⟩ hhotel

theorem doInsert_spec (hused : Apart used) (hlive : IsLive used live) (hplaces : RepPlaces d live)
    (hcities : RepCities d live) (hid : p.id ≠ "") (hp : used p.id p.ptid)
    (hnone : live p.id = none) {m : PlaceMap} (hm : placeMapOf p.t = some m) :
    ∃ d', d.doInsert p = (0, d') ∧ RepPlaces d' (Function.update live p.id (some p)) ∧
      RepCities d' (Function.update live p.id (some p)) := by
  have hfree (m' : PlaceMap) : d.places m' p.getUniqId = none := by
    cases hq : d.places m' p.getUniqId with
    | none => rfl
    | some q =>
      rw [(((hplaces _ _ _).mp hq).of_isKey hused hlive hp p.isKey).1] at hnone
      contradiction
  have hfree' (m' : PlaceMap) : d.places m' (coreHotelId p.id) = none := by
    cases hq : d.places m' (coreHotelId p.id) with
    | none => rfl
    | some q =>
      obtain ⟨-, c, hc, -⟩ := ((hplaces _ _ _).mp hq).ne_coreHotelId hused hlive
      rw [hc] at hnone
      contradiction
  have hcall : (d.doInsert p).1 = 0 := by
    rw [doInsert, if_neg hid, insertLYPlace, hm]
    simp [hfree]
  refine ⟨_, Prod.ext hcall rfl, fun m' key q => ?_, fun m' ptid cid id => ?_⟩
  · rw [stored_insert hnone, ← hplaces]
    exact places_doInsert_iff hid hm (hfree m) fun _ => hfree' .hotels
  · rw [mem_doInsert hid hm (hfree m), hcities]
    constructor
    · rintro (⟨q, hq, hrest⟩ | ⟨hcm, rfl, hcid, rfl⟩)
      · refine ⟨q, update_some_eq.mpr (.inr ⟨?_, hq⟩), hrest⟩
        rintro rfl
        rw [hnone] at hq
        contradiction
      · exact ⟨p, update_some_eq.mpr (.inl ⟨rfl, rfl⟩), rfl, hcm, hcid⟩
    · rintro ⟨q, hq, rfl, hcm, hcid⟩
      rcases update_some_eq.mp hq with ⟨rfl, rfl⟩ | ⟨-, hq⟩
      · exact .inr ⟨hcm, rfl, hcid, rfl⟩
      · exact .inl ⟨q, hq, rfl, hcm, hcid⟩

end PrivateConstData

theorem IsLive.insert (h : IsLive used live) {p : Place} (hp : used p.id p.ptid) {m : PlaceMap}
    (hm : placeMapOf p.t = some m) : IsLive used (Function.update live p.id (some p)) := by
  refine ⟨fun hq => ?_, fun hq => ?_, fun hq => ?_⟩
  · rcases update_some_eq.mp hq with ⟨rfl, rfl⟩ | ⟨-, hq⟩
    · rfl
    · exact h.id_eq hq
  · rcases update_some_eq.mp hq with ⟨rfl, rfl⟩ | ⟨-, hq⟩
    · exact hp
    · exact h.used hq
  · rcases update_some_eq.mp hq with ⟨rfl, rfl⟩ | ⟨-, hq⟩
    · exact ⟨m, hm⟩
    · exact h.stored hq

/-! ## Deleting -/

theorem IsLive.erase (h : IsLive used live) (id : String) :
    IsLive used (Function.update live id none) :=
  ⟨fun hq => h.id_eq (update_none_eq.mp hq).2, fun hq => h.used (update_none_eq.mp hq).2,
    fun hq => h.stored (update_none_eq.mp hq).2⟩

theorem stored_erase (hused : Apart used) (hlive : IsLive used live) {p : Place}
    (hp : live p.id = some p) {m : PlaceMap} {key : String} {q : Place} :
    Stored (Function.update live p.id none) m key q ↔ Stored live m key q ∧ ¬ Owns p m key := by
  constructor
  · rintro (⟨hq, hm, hkey⟩ | ⟨rfl, c, hc, hm, hkey, hq⟩)
    · obtain ⟨hne, hq⟩ := update_none_eq.mp hq
      refine ⟨.inl ⟨hq, hm, hkey⟩, ?_⟩
      rintro (⟨-, hkey'⟩ | ⟨-, -, hkey'⟩)
      · exact hne (hused.id_eq (hlive.used hq) (hlive.used hp) (hkey ▸ q.isKey)
          (hkey' ▸ p.isKey))
      · exact hused.ne_core (hlive.used hq) (hkey ▸ q.isKey) p.id hkey'
    · obtain ⟨hne, hc⟩ := update_none_eq.mp hc
      refine ⟨.inr ⟨rfl, c, hc, hm, hkey, hq⟩, ?_⟩
      rintro (⟨-, hkey'⟩ | ⟨-, -, hkey'⟩)
      · exact hused.ne_core (hlive.used hp) p.isKey c.id (hkey'.symm.trans hkey)
      · exact hne (coreHotelId_injective (hkey.symm.trans hkey'))
  · rintro ⟨⟨hq, hm, hkey⟩ | ⟨rfl, c, hc, hm, hkey, hq⟩, howns⟩
    · refine .inl ⟨update_none_eq.mpr ⟨fun heq => howns (.inl ?_), hq⟩, hm, hkey⟩
      obtain rfl := Option.some.inj ((heq ▸ hq).symm.trans hp)
      exact ⟨hm, hkey⟩
    · refine .inr ⟨rfl, c, update_none_eq.mpr ⟨fun heq => howns (.inr ?_), hc⟩, hm, hkey, hq⟩
      obtain rfl := Option.some.inj ((heq ▸ hc).symm.trans hp)
      exact ⟨hm, rfl, hkey⟩

namespace PrivateConstData

variable {p : Place}

theorem eraseFirst_of_forall_none {maps : List PlaceMap} {key : String}
    (h : ∀ m ∈ maps, d.places m key = none) : d.eraseFirst maps key = d := by
  have hfind : maps.find? (fun m => (d.places m key).isSome) = none :=
    List.find?_eq_none.mpr fun m hm => by simp [h m hm]
  rw [eraseFirst, hfind]

theorem eraseFirst_of_only {maps : List PlaceMap} {key : String} {m : PlaceMap} (hm : m ∈ maps)
    (hsome : (d.places m key).isSome) (honly : ∀ m', (d.places m' key).isSome → m' = m) :
    d.eraseFirst maps key = d.setPlace m key none := by
  cases hfind : maps.find? fun m => (d.places m key).isSome with
  | none => exact absurd hsome (by simpa using List.find?_eq_none.mp hfind m hm)
  | some m' =>
    have hsome' : (d.places m' key).isSome := by simpa using List.find?_some hfind
    rw [eraseFirst, hfind, honly m' hsome']

theorem places_setPlace_none {m m' : PlaceMap} {key key' : String} {q : Place} :
    (d.setPlace m key none).places m' key' = some q ↔
      d.places m' key' = some q ∧ ¬ (m' = m ∧ key' = key) := by
  rw [places_setPlace]
  split_ifs with h
  · simp [h]
  · simp [h]

section Erase

variable {m : PlaceMap} (hm : placeMapOf p.t = some m) (hown : d.places m p.getUniqId = some p)
  (honly : ∀ m' key, IsKey p.id p.ptid key → (d.places m' key).isSome → m' = m)

include hm hown honly

theorem delFromPlaceMap_tour (htour : m = .tours) :
    d.delFromPlaceMap p = d.setPlace .tours p.id none := by
  subst htour
  rw [p.getUniqId_of_placeMapOf (.inr hm)] at hown
  rw [delFromPlaceMap, if_pos (by rw [hown]; rfl)]
  refine eraseFirst_of_forall_none fun m' hm' => ?_
  have hne : m' ≠ .tours := by
    rintro rfl
    revert hm'
    decide
  rw [places_setPlace, if_neg fun h => hne h.1]
  exact Option.not_isSome_iff_eq_none.mp fun h => hne (honly m' _ p.isKey h)

theorem delFromPlaceMap_city (hcity : m = .citys) (hcore : p.getUniqId ≠ coreHotelId p.id) :
    d.delFromPlaceMap p =
      (d.setPlace .citys p.id none).setPlace .hotels (coreHotelId p.id) none := by
  subst hcity
  have hnotour : ¬ (d.places .tours p.id).isSome := fun h =>
    absurd (honly .tours p.id (.inl rfl) h) (by decide)
  rw [p.getUniqId_of_placeMapOf (.inl hm)] at hown
  rw [delFromPlaceMap, if_neg hnotour, if_pos (by rw [hown]; rfl)]
  refine eraseFirst_of_forall_none fun m' hm' => ?_
  have hne : m' ≠ .citys := by
    rintro rfl
    revert hm'
    decide
  rw [places_setPlace, if_neg fun h => hcore h.2, places_setPlace, if_neg fun h => hne h.1]
  exact Option.not_isSome_iff_eq_none.mp fun h => hne (honly m' _ p.isKey h)

omit hm in
theorem delFromPlaceMap_other (htour : m ≠ .tours) (hcity : m ≠ .citys) :
    d.delFromPlaceMap p = d.setPlace m p.getUniqId none := by
  have hnotour : ¬ (d.places .tours p.id).isSome := fun h =>
    htour (honly .tours p.id (.inl rfl) h).symm
  have hnocity : ¬ (d.places .citys p.id).isSome := fun h =>
    hcity (honly .citys p.id (.inl rfl) h).symm
  rw [delFromPlaceMap, if_neg hnotour, if_neg hnocity]
  refine eraseFirst_of_only ?_ (by rw [hown]; rfl) fun m' hsome => honly m' _ p.isKey hsome
  cases m with
  | citys => contradiction
  | tours => contradiction
  | _ => decide

/-- The entries of the place are erased, and no others. -/
theorem places_delFromPlaceMap_iff (hcore : p.getUniqId ≠ coreHotelId p.id) :
    (d.delFromPlaceMap p).cityPlaces = d.cityPlaces ∧ ∀ m' key q,
      (d.delFromPlaceMap p).places m' key = some q ↔
        d.places m' key = some q ∧ ¬ Owns p m' key := by
  by_cases htour : m = .tours
  · rw [delFromPlaceMap_tour hm hown honly htour]
    subst htour
    refine ⟨rfl, fun m' key q => ?_⟩
    rw [places_setPlace_none, Owns, hm, p.getUniqId_of_placeMapOf (.inr hm)]
    simp [eq_comm]
  by_cases hcity : m = .citys
  · rw [delFromPlaceMap_city hm hown honly hcity hcore]
    subst hcity
    refine ⟨rfl, fun m' key q => ?_⟩
    rw [places_setPlace_none, places_setPlace_none, Owns, hm, p.getUniqId_of_placeMapOf (.inl hm)]
    simp only [Option.some.injEq, true_and, eq_comm (a := PlaceMap.citys), not_or]
    tauto
  · rw [delFromPlaceMap_other hown honly htour hcity]
    refine ⟨rfl, fun m' key q => ?_⟩
    rw [places_setPlace_none, Owns, hm]
    simp [hcity, eq_comm]

end Erase

theorem delFromPlaceMap_spec (hused : Apart used) (hlive : IsLive used live)
    (hplaces : RepPlaces d live) (hp : live p.id = some p) :
    RepPlaces (d.delFromPlaceMap p) (Function.update live p.id none) ∧
      (d.delFromPlaceMap p).cityPlaces = d.cityPlaces := by
  obtain ⟨m, hm⟩ := hlive.stored hp
  have hown : d.places m p.getUniqId = some p := (hplaces _ _ _).mpr (.inl ⟨hp, hm, rfl⟩)
  have honly (m' : PlaceMap) (key : String) (hkey : IsKey p.id p.ptid key)
      (hsome : (d.places m' key).isSome) : m' = m := by
    obtain ⟨q, hq⟩ := Option.isSome_iff_exists.mp hsome
    obtain ⟨hq', hm', -⟩ :=
      ((hplaces _ _ _).mp hq).of_isKey hused hlive (hlive.used hp) hkey
    obtain rfl := Option.some.inj (hq'.symm.trans hp)
    exact Option.some.inj (hm'.symm.trans hm)
  obtain ⟨hcities, hiff⟩ :=
    places_delFromPlaceMap_iff hm hown honly (hused.ne_core (hlive.used hp) p.isKey p.id)
  exact ⟨fun m' key q => by rw [hiff, hplaces, stored_erase hused hlive hp], hcities⟩

end PrivateConstData

/-- The live places without those with the given ids. -/
def without (live : String → Option Place) (ids : List String) (id : String) : Option Place :=
  if id ∈ ids then none else live id

theorem without_eq_some {ids : List String} {id : String} {p : Place} :
    without live ids id = some p ↔ id ∉ ids ∧ live id = some p := by
  rw [without]
  split_ifs with h <;> simp [h]

theorem without_cons (p : Place) (ids : List String) :
    without (Function.update live p.id none) ids = without live (p.id :: ids) := by
  funext id
  simp only [without, Function.update_apply, List.mem_cons]
  split_ifs <;> tauto

theorem IsLive.without (h : IsLive used live) (ids : List String) :
    IsLive used (without live ids) :=
  ⟨fun hq => h.id_eq (without_eq_some.mp hq).2, fun hq => h.used (without_eq_some.mp hq).2,
    fun hq => h.stored (without_eq_some.mp hq).2⟩

/-- The points that are deleted with a tour. -/
def Place.points (p : Place) : List String :=
  if p.t &&& LY_PLACE_TYPE_TOURALL ≠ 0 ∧ p.cls = .tour then p.gatherLocal ++ p.dismissLocal else []

/-- The live places after the one with the id `id` has been deleted. -/
def afterDel (live : String → Option Place) (id : String) : String → Option Place :=
  without live ((live id).elim [] fun p => id :: p.points)

theorem without_nil : without live [] = live := rfl

theorem afterDel_eq_some {id id' : String} {p : Place} (h : afterDel live id id' = some p) :
    live id' = some p :=
  (without_eq_some.mp h).2

theorem IsLive.afterDel (h : IsLive used live) (id : String) : IsLive used (afterDel live id) :=
  h.without _

/-- A point of a tour has no tenant and is in no city. -/
def PointsOk (used : String → String → Prop) (live : String → Option Place) : Prop :=
  ∀ {id p}, live id = some p → ∀ g ∈ p.points, used g "" ∧
    ∀ q, live g = some q → q.cidList = []

namespace PrivateConstData

theorem foldl_delFromPlaceMap (hused : Apart used) {ps : List Place} (hlive : IsLive used live)
    (hplaces : RepPlaces d live) (hnodup : ps.Nodup) (hps : ∀ p ∈ ps, live p.id = some p) :
    RepPlaces (ps.foldl delFromPlaceMap d) (without live (ps.map Place.id)) ∧
      (ps.foldl delFromPlaceMap d).cityPlaces = d.cityPlaces := by
  induction ps generalizing d live with
  | nil => exact ⟨hplaces, rfl⟩
  | cons p ps ih =>
    have hp := hps p List.mem_cons_self
    obtain ⟨hp', hnodup⟩ := List.nodup_cons.mp hnodup
    obtain ⟨hplaces', hcities⟩ := delFromPlaceMap_spec hused hlive hplaces hp
    have hps' : ∀ q ∈ ps, Function.update live p.id none q.id = some q := by
      intro q hq
      have hq' := hps q (List.mem_cons_of_mem _ hq)
      refine update_none_eq.mpr ⟨fun heq => hp' ?_, hq'⟩
      obtain rfl := Option.some.inj ((heq ▸ hq').symm.trans hp)
      exact hq
    obtain ⟨hrest, hcities'⟩ := ih (hlive.erase p.id) hplaces' hnodup hps'
    rw [without_cons] at hrest
    exact ⟨hrest, hcities'.trans hcities⟩

theorem placeList_eq (p : Place) : d.placeList p = p ::
    ((p.points.filterMap (d.getLYPlace · "")).filter (· ≠ p)).dedup := by
  rw [placeList, Place.points]
  split_ifs <;> rfl

theorem nodup_placeList (p : Place) : (d.placeList p).Nodup := by
  rw [placeList_eq]
  refine List.nodup_cons.mpr ⟨fun h => ?_, List.nodup_dedup _⟩
  simpa using (List.mem_filter.mp (List.mem_dedup.mp h)).2

section Points

variable (hused : Apart used) (hlive : IsLive used live) (hplaces : RepPlaces d live)
  (hpoints : PointsOk used live) {p : Place} (hp : live p.id = some p)

include hused hlive hplaces hpoints hp

theorem mem_placeList {q : Place} :
    q ∈ d.placeList p ↔ q = p ∨ q.id ∈ p.points ∧ live q.id = some q := by
  have hget {g : String} (hg : g ∈ p.points) : d.getLYPlace g "" = live g :=
    getLYPlace_eq hused hlive hplaces (hpoints hp g hg).1
  rw [placeList_eq, List.mem_cons, List.mem_dedup, List.mem_filter, List.mem_filterMap]
  constructor
  · rintro (rfl | ⟨⟨g, hg, hq⟩, -⟩)
    · exact .inl rfl
    · rw [hget hg] at hq
      obtain rfl := hlive.id_eq hq
      exact .inr ⟨hg, hq⟩
  · rintro (rfl | ⟨hg, hq⟩)
    · exact .inl rfl
    · by_cases heq : q = p
      · exact .inl heq
      · exact .inr ⟨⟨q.id, hg, (hget hg).trans hq⟩, by simpa using heq⟩

theorem without_placeList :
    without live ((d.placeList p).map Place.id) = without live (p.id :: p.points) := by
  have hmem {q : Place} := mem_placeList hused hlive hplaces hpoints hp (q := q)
  funext i
  rw [without, without]
  by_cases hi : i ∈ p.id :: p.points
  · rw [if_pos hi]
    split_ifs with hin
    · rfl
    · cases hq : live i with
      | none => rfl
      | some q =>
        obtain rfl := hlive.id_eq hq
        refine absurd (List.mem_map.mpr ⟨q, hmem.mpr ?_, rfl⟩) hin
        rcases List.mem_cons.mp hi with heq | hg
        · exact .inl (Option.some.inj ((heq ▸ hq).symm.trans hp))
        · exact .inr ⟨hg, hq⟩
  · rw [if_neg hi, if_neg]
    intro hin
    obtain ⟨q, hq, rfl⟩ := List.mem_map.mp hin
    rcases hmem.mp hq with rfl | hq
    · exact hi List.mem_cons_self
    · exact hi (List.mem_cons_of_mem _ hq.1)

omit hused hplaces in
/-- The lists of the cities lose the place; its points are in none. -/
theorem repCities_delCityLYPlace (hcities : RepCities d live) :
    RepCities (d.delCityLYPlace p) (without live (p.id :: p.points)) := by
  intro m ptid cid i
  rw [mem_delCityLYPlace, hcities]
  constructor
  · rintro ⟨⟨q, hq, rfl, hcm, hcid⟩, hentry⟩
    refine ⟨q, without_eq_some.mpr ⟨?_, hq⟩, rfl, hcm, hcid⟩
    rintro hi
    obtain rfl := hlive.id_eq hq
    rcases List.mem_cons.mp hi with heq | hg
    · obtain rfl := Option.some.inj ((heq ▸ hq).symm.trans hp)
      exact hentry ⟨hcm, rfl, hcid, rfl⟩
    · rw [(hpoints hp _ hg).2 q hq] at hcid
      contradiction
  · rintro ⟨q, hq, rfl, hcm, hcid⟩
    obtain ⟨hi, hq⟩ := without_eq_some.mp hq
    refine ⟨⟨q, hq, rfl, hcm, hcid⟩, ?_⟩
    rintro ⟨-, -, -, rfl⟩
    exact hi List.mem_cons_self

end Points

/-- Deleting takes the live place of the id away, and the points of a tour with it. -/
theorem delLYPlace_spec (hused : Apart used) (hlive : IsLive used live) (hplaces : RepPlaces d live)
    (hcities : RepCities d live) (hpoints : PointsOk used live) {id ptid : String}
    (hid : used id ptid) : RepPlaces (d.delLYPlace id ptid) (afterDel live id) ∧
      RepCities (d.delLYPlace id ptid) (afterDel live id) := by
  rw [delLYPlace, getLYPlace_eq hused hlive hplaces hid, afterDel]
  cases hp : live id with
  | none => exact ⟨hplaces, hcities⟩
  | some p =>
    rw [Option.elim_some]
    dsimp only
    obtain rfl := hlive.id_eq hp
    have hall : ∀ q ∈ d.placeList p, live q.id = some q := by
      intro q hq
      rcases (mem_placeList hused hlive hplaces hpoints hp).mp hq with rfl | hq
      · exact hp
      · exact hq.2
    have hplaces' : RepPlaces (d.delCityLYPlace p) live := by
      rwa [RepPlaces, places_delCityLYPlace]
    obtain ⟨hrep, hkeep⟩ := foldl_delFromPlaceMap hused hlive hplaces' (nodup_placeList p) hall
    rw [without_placeList hused hlive hplaces hpoints hp] at hrep
    refine ⟨hrep, fun m ptid' cid i => ?_⟩
    rw [hkeep]
    exact repCities_delCityLYPlace hlive hpoints hp hcities m ptid' cid i

end PrivateConstData

end PPView.PrivateData
