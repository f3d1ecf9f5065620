import PPView.PrivateData.Index

/-!
# Tenants

A lookup tries the bare id before the one with the tenant, so a call for one tenant can meet the
place of another. As long as each call meets places of its own tenant only, it takes no other place
away, and what a city lists for a tenant is found as a place of this tenant.
-/

namespace PPView.PrivateData

/-- The keys under which a place is looked for and erased. -/
def Place.Claims (p : Place) (key : String) : Prop :=
  key = p.id ∨ key = p.getUniqId ∨ placeMapOf p.t = some .citys ∧ key = coreHotelId p.id

def Call.ptid : Call → String
  | .doInsert place => place.ptid
  | .delLYPlace _ ptid => ptid

namespace PrivateConstData

/-- No place of another tenant is removed or replaced. Points of tours belong to no tenant. -/
def Spares (d d' : PrivateConstData) (ptid : String) : Prop :=
  ∀ ⦃m key q⦄, d.places m key = some q → q.ptid ≠ ptid → q.ptid ≠ "" → d'.places m key = some q

/-- Every id that a city lists for a tenant is found as a place of this tenant. -/
def Resolves (d : PrivateConstData) : Prop :=
  ∀ ⦃m ptid cid id⦄, id ∈ d.cityPlaces m ptid cid →
    ∃ p, d.getLYPlace id ptid = some p ∧ p.ptid = ptid

/-- A place is inserted where no other one has a key in common with it. A place is deleted where
the keys of the id have places of this tenant or of none, and so have those of the points of a
tour, which are in no city. -/
def Admits (d : PrivateConstData) : Call → Prop
  | .doInsert p => p.id ≠ "" → ∀ m, placeMapOf p.t = some m → d.places m p.getUniqId = none →
      ∀ ⦃m' key q⦄, d.places m' key = some q → ¬ p.Claims key ∧ ¬ q.Claims p.getUniqId ∧
        (m = .citys → ¬ q.Claims (coreHotelId p.id))
  | .delLYPlace id ptid => ∀ ⦃m key p⦄, d.places m key = some p → IsKey id ptid key →
      (p.ptid = ptid ∨ p.ptid = "") ∧
        ∀ g ∈ p.points, ∀ ⦃m' key' q⦄, d.places m' key' = some q → IsKey g "" key' →
          (q.ptid = ptid ∨ q.ptid = "") ∧ q.cidList = []

end PrivateConstData

/-- Each call of the run is admitted in the state before it. -/
def Admitted (d : PrivateConstData) : List Call → Prop
  | [] => True
  | c :: calls => d.Admits c ∧ Admitted (d.call c) calls

namespace PrivateConstData

variable {d : PrivateConstData} {p r : Place}

/-! ## Keys -/

/-- Places are stored under their keys, no place has a key of another one but of the city that it
was made for, and the lists of the cities are those of places. -/
structure Tenants (d : PrivateConstData) : Prop where
  key : ∀ {m key p}, d.places m key = some p → placeMapOf p.t = some m ∧ key = p.getUniqId
  apart : ∀ {m key p m' key' q}, d.places m key = some p → d.places m' key' = some q →
    p.Claims key' → q = p ∨ placeMapOf p.t = some .citys ∧ q = coreHotel p
  listed : ∀ {m ptid cid id}, id ∈ d.cityPlaces m ptid cid → ∃ m' key p,
    d.places m' key = some p ∧ p.id = id ∧ p.ptid = ptid ∧ cityMapOf p.t = some m ∧
      cid ∈ p.cidList

theorem tenants_empty : Tenants {} :=
  ⟨nofun, nofun, fun h => absurd h (Finset.notMem_empty _)⟩

theorem exists_of_lookup {maps : List PlaceMap} {key : String}
    (h : d.lookup maps key = some p) : ∃ m, d.places m key = some p := by
  obtain ⟨m, -, hm⟩ := List.exists_of_findSome?_eq_some h
  exact ⟨m, hm⟩

theorem lookup_ne_none {maps : List PlaceMap} {m : PlaceMap} {key : String} (hm : m ∈ maps)
    (h : d.places m key = some p) : d.lookup maps key ≠ none := by
  intro hnone
  have := List.findSome?_eq_none_iff.mp hnone m hm
  rw [h] at this
  contradiction

/-- What is found is stored under a key of the id. -/
theorem exists_of_getLYPlace {id ptid : String} (h : d.getLYPlace id ptid = some p) :
    ∃ m key, IsKey id ptid key ∧ d.places m key = some p := by
  rw [getLYPlace, Option.orElse_eq_orElse, Option.orElse_eq_or] at h
  rcases Option.or_eq_some_iff.mp h with h | ⟨-, h⟩
  · obtain ⟨m, hm⟩ := exists_of_lookup h
    exact ⟨m, id, .inl rfl, hm⟩
  · obtain ⟨m, hm⟩ := exists_of_lookup h
    exact ⟨m, qualified id ptid, .inr rfl, hm⟩

theorem Tenants.resolves (h : d.Tenants) : d.Resolves := by
  intro m ptid cid id hid
  obtain ⟨m', key, p, hp, rfl, rfl, -, -⟩ := h.listed hid
  obtain ⟨hm, rfl⟩ := h.key hp
  -- whatever is found under a key of the place has its tenant
  have hfound {maps : List PlaceMap} {key : String} {q : Place} (hclaims : p.Claims key)
      (hq : d.lookup maps key = some q) : q.ptid = p.ptid := by
    obtain ⟨m'', hq⟩ := exists_of_lookup hq
    rcases h.apart hp hq hclaims with rfl | ⟨-, rfl⟩ <;> rfl
  rw [getLYPlace]
  cases hbare : d.lookup [.citys, .tours, .hotels, .views, .shops, .restaurants] p.id with
  | some q => exact ⟨q, rfl, hfound (.inl rfl) hbare⟩
  | none =>
    rcases p.getUniqId_eq with hkey | ⟨hkey, hcity, htour⟩
    · exact absurd hbare (lookup_ne_none (by cases m' <;> decide) (hkey ▸ hp))
    · have hmem : m' ∈ [PlaceMap.hotels, .views, .shops, .restaurants] := by
        cases m' with
        | citys => exact absurd (p.cls_of_placeMapOf (.inl hm)) (not_or.mpr ⟨hcity, htour⟩)
        | tours => exact absurd (p.cls_of_placeMapOf (.inr hm)) (not_or.mpr ⟨hcity, htour⟩)
        | _ => decide
      rw [hkey] at hp
      cases hqual : d.lookup [.hotels, .views, .shops, .restaurants] (qualified p.id p.ptid) with
      | none => exact absurd hqual (lookup_ne_none hmem hp)
      | some q => exact ⟨q, rfl, hfound (.inr (.inl hkey.symm)) hqual⟩

theorem placeMapOf_coreHotel {c : Place} : placeMapOf (coreHotel c).t ≠ some .citys :=
  show placeMapOf LY_PLACE_TYPE_HOTEL ≠ some .citys by decide

theorem claims_coreHotel {c : Place} {key : String} :
    (coreHotel c).Claims key ↔ key = coreHotelId c.id := by
  constructor
  · rintro (hkey | hkey | ⟨hmap, -⟩)
    · exact hkey
    · exact hkey
    · exact absurd hmap placeMapOf_coreHotel
  · exact .inl

theorem ne_append_self {pre : String} (hpre : pre.toList ≠ []) (s : String) : s ≠ pre ++ s := by
  intro h
  have hlist := congrArg String.toList h
  rw [String.toList_append] at hlist
  exact hpre (List.self_eq_append_left.mp hlist)

theorem ne_coreHotelId_self (id : String) : id ≠ coreHotelId id :=
  ne_append_self (by decide) id

/-! ## Inserting -/

/-- A place that is inserted shares no key with those that are there, nor does its hotel. -/
theorem Tenants.doInsert (h : d.Tenants) (hadmits : d.Admits (.doInsert p)) :
    (d.doInsert p).2.Tenants ∧ d.Spares (d.doInsert p).2 p.ptid := by
  have hsame (heq : (d.doInsert p).2 = d) :
      (d.doInsert p).2.Tenants ∧ d.Spares (d.doInsert p).2 p.ptid := by
    rw [heq]
    exact ⟨h, fun _ _ _ hq _ _ => hq⟩
  by_cases hid : p.id = ""
  · exact hsame (by rw [PrivateConstData.doInsert, if_pos hid])
  cases hm : placeMapOf p.t with
  | none => exact hsame (by rw [doInsert_of_placeMapOf hm])
  | some m =>
    cases hfree : d.places m p.getUniqId with
    | some q => exact hsame (by rw [doInsert_of_stored hm (by rw [hfree]; rfl)])
    | none =>
      have hno {m' : PlaceMap} {key : String} {q : Place} (hq : d.places m' key = some q) :=
        hadmits hid m hm hfree hq
      have hcore (_ : m = .citys) : d.places .hotels (coreHotelId p.id) = none := by
        cases hq : d.places .hotels (coreHotelId p.id) with
        | none => rfl
        | some q =>
          subst m
          exact absurd (.inr (.inr ⟨hm, rfl⟩)) (hno hq).1
      have hcases := @places_doInsert_iff d p hid m hm hfree hcore
      have hkeep {m' : PlaceMap} {key : String} {q : Place} (hq : d.places m' key = some q) :
          (d.doInsert p).2.places m' key = some q := hcases.mpr (.inl hq)
      refine ⟨⟨fun hq => ?_, fun hq hq' hclaims => ?_, fun hentry => ?_⟩,
        fun _ _ _ hq _ _ => hkeep hq⟩
      · rcases hcases.mp hq with hq | ⟨hmap, rfl, rfl⟩ | ⟨-, rfl, rfl, rfl⟩
        · exact h.key hq
        · exact ⟨hmap, rfl⟩
        · exact ⟨show placeMapOf LY_PLACE_TYPE_HOTEL = _ by decide, rfl⟩
      · rcases hcases.mp hq with hold | ⟨-, rfl, rfl⟩ | ⟨hcity, rfl, rfl, rfl⟩
        · rcases hcases.mp hq' with hold' | ⟨-, rfl, rfl⟩ | ⟨hcity, rfl, rfl, rfl⟩
          · exact h.apart hold hold' hclaims
          · exact absurd hclaims (hno hold).2.1
          · exact absurd hclaims ((hno hold).2.2 (Option.some.inj (hm.symm.trans hcity)))
        · rcases hcases.mp hq' with hold' | ⟨-, rfl, rfl⟩ | ⟨hcity, rfl, rfl, rfl⟩
          · exact absurd hclaims (hno hold').1
          · exact .inl rfl
          · exact .inr ⟨hcity, rfl⟩
        · rw [claims_coreHotel] at hclaims
          subst hclaims
          rcases hcases.mp hq' with hold' | ⟨-, hkey, -⟩ | ⟨-, -, -, rfl⟩
          · exact absurd (.inr (.inr ⟨hcity, rfl⟩)) (hno hold').1
          · rw [Place.getUniqId_of_placeMapOf (.inl hcity)] at hkey
            exact absurd hkey.symm (ne_coreHotelId_self _)
          · exact .inl rfl
      · rcases (mem_doInsert hid hm hfree).mp hentry with hentry | ⟨hcm, rfl, hcid, rfl⟩
        · obtain ⟨m', key, q, hq, hrest⟩ := h.listed hentry
          exact ⟨m', key, q, hkeep hq, hrest⟩
        · exact ⟨m, p.getUniqId, p, hcases.mpr (.inr (.inl ⟨hm, rfl, rfl⟩)), rfl, rfl, hcm, hcid⟩

/-! ## Deleting -/

theorem places_of_setPlace_none {m m' : PlaceMap} {key key' : String} {q : Place}
    (h : (d.setPlace m key none).places m' key' = some q) : d.places m' key' = some q :=
  (places_setPlace_none.mp h).1

theorem places_of_eraseFirst {maps : List PlaceMap} {m : PlaceMap} {key key' : String} {q : Place}
    (h : (d.eraseFirst maps key).places m key' = some q) : d.places m key' = some q := by
  rw [eraseFirst] at h
  split at h
  · exact places_of_setPlace_none h
  · exact h

theorem places_eraseFirst_of_ne {maps : List PlaceMap} {m : PlaceMap} {key key' : String}
    (h : key' ≠ key) : (d.eraseFirst maps key).places m key' = d.places m key' := by
  rw [eraseFirst]
  split
  · rw [places_setPlace, if_neg fun hand => h hand.2]
  · rfl

theorem places_of_delFromPlaceMap {m : PlaceMap} {key : String} {q : Place}
    (h : (d.delFromPlaceMap r).places m key = some q) : d.places m key = some q := by
  have h' := places_of_eraseFirst h
  split_ifs at h'
  · exact places_of_setPlace_none h'
  · exact places_of_setPlace_none (places_of_setPlace_none h')
  · exact h'

/-- What has none of the keys of a place stays. -/
theorem places_delFromPlaceMap (hcity : ∀ {key c}, d.places .citys key = some c → r.Claims key →
    placeMapOf r.t = some .citys) {m : PlaceMap} {key : String} {q : Place}
    (hq : d.places m key = some q) (hclaims : ¬ r.Claims key) :
    (d.delFromPlaceMap r).places m key = some q := by
  have hid : key ≠ r.id := fun heq => hclaims (.inl heq)
  rw [delFromPlaceMap, places_eraseFirst_of_ne fun heq => hclaims (.inr (.inl heq))]
  split_ifs with htour hc
  · rwa [places_setPlace, if_neg fun hand => hid hand.2]
  · obtain ⟨c, hc⟩ := Option.isSome_iff_exists.mp hc
    rwa [places_setPlace, if_neg, places_setPlace, if_neg fun hand => hid hand.2]
    rintro ⟨-, hkey⟩
    exact hclaims (.inr (.inr ⟨hcity hc (.inl rfl), hkey⟩))
  · exact hq


/-- Places are erased with the hotels that were made for them, and nothing else is. -/
theorem foldl_delFromPlaceMap_keep {ps : List Place} (hkey : ∀ {m key p},
    d.places m key = some p → placeMapOf p.t = some m) (hps : ∀ r ∈ ps, ∀ {m key q},
      d.places m key = some q → r.Claims key → q = r ∨ placeMapOf r.t = some .citys ∧
        q = coreHotel r) {m : PlaceMap} {key : String} {q : Place} :
    ((ps.foldl delFromPlaceMap d).places m key = some q → d.places m key = some q) ∧
      (d.places m key = some q → (∀ r ∈ ps, q ≠ r ∧ q ≠ coreHotel r) →
        (ps.foldl delFromPlaceMap d).places m key = some q) := by
  induction ps generalizing d with
  | nil => exact ⟨id, fun h _ => h⟩
  | cons r ps ih =>
    obtain ⟨hr, hps⟩ := List.forall_mem_cons.mp hps
    have hsub {m : PlaceMap} {key : String} {q : Place}
        (h : (d.delFromPlaceMap r).places m key = some q) : d.places m key = some q :=
      places_of_delFromPlaceMap h
    obtain ⟨hof, hkeep⟩ := ih (fun hp => hkey (hsub hp)) fun r hr _ _ _ hq => hps r hr (hsub hq)
    refine ⟨fun hq => hsub (hof hq), fun hq hne => ?_⟩
    obtain ⟨hne, hne'⟩ := List.forall_mem_cons.mp hne
    refine hkeep (places_delFromPlaceMap (fun hc hclaims => ?_) hq fun hclaims => ?_) hne'
    · rcases hr hc hclaims with rfl | ⟨hcity, -⟩
      · exact hkey hc
      · exact hcity
    · rcases hr hq hclaims with heq | ⟨-, heq⟩
      · exact hne.1 heq
      · exact hne.2 heq

/-- The places that are deleted belong to the tenant or to none, and those behind the first one
are in no city. -/
theorem Admits.of_mem_placeList {id ptid : String} (h : d.Admits (.delLYPlace id ptid))
    (hp : d.getLYPlace id ptid = some p) (hr : r ∈ d.placeList p) :
    (∃ m key, d.places m key = some r) ∧ (r.ptid = ptid ∨ r.ptid = "") ∧
      (r = p ∨ r.cidList = []) := by
  obtain ⟨m, key, hkey, hplace⟩ := exists_of_getLYPlace hp
  obtain ⟨hptid, hpoints⟩ := h hplace hkey
  rw [placeList_eq, List.mem_cons, List.mem_dedup, List.mem_filter, List.mem_filterMap] at hr
  rcases hr with rfl | ⟨⟨g, hg, hr⟩, -⟩
  · exact ⟨⟨m, key, hplace⟩, hptid, .inl rfl⟩
  · obtain ⟨m', key', hkey', hr⟩ := exists_of_getLYPlace hr
    obtain ⟨hptid', hcids⟩ := hpoints g hg hr hkey'
    exact ⟨⟨m', key', hr⟩, hptid', .inr hcids⟩

theorem cityPlaces_delFromPlaceMap : (d.delFromPlaceMap r).cityPlaces = d.cityPlaces := by
  have herase (d : PrivateConstData) (maps : List PlaceMap) (key : String) :
      (d.eraseFirst maps key).cityPlaces = d.cityPlaces := by
    rw [eraseFirst]
    split <;> rfl
  rw [delFromPlaceMap, herase]
  split_ifs <;> rfl

theorem cityPlaces_foldl_delFromPlaceMap (ps : List Place) :
    (ps.foldl delFromPlaceMap d).cityPlaces = d.cityPlaces := by
  induction ps generalizing d with
  | nil => rfl
  | cons r ps ih => exact ih.trans cityPlaces_delFromPlaceMap

/-- Only places of the tenant and of none are deleted, and those that are listed are unlisted. -/
theorem Tenants.delLYPlace (h : d.Tenants) {id ptid : String}
    (hadmits : d.Admits (.delLYPlace id ptid)) :
    (d.delLYPlace id ptid).Tenants ∧ d.Spares (d.delLYPlace id ptid) ptid := by
  rw [PrivateConstData.delLYPlace]
  cases hp : d.getLYPlace id ptid with
  | none => exact ⟨h, fun _ _ _ hq _ _ => hq⟩
  | some p =>
    dsimp only
    have hmem {r : Place} (hr : r ∈ d.placeList p) := hadmits.of_mem_placeList hp hr
    have hfold {m : PlaceMap} {key : String} {q : Place} :
        (((d.placeList p).foldl delFromPlaceMap (d.delCityLYPlace p)).places m key = some q →
            d.places m key = some q) ∧
          (d.places m key = some q → (∀ r ∈ d.placeList p, q ≠ r ∧ q ≠ coreHotel r) →
            ((d.placeList p).foldl delFromPlaceMap (d.delCityLYPlace p)).places m key = some q) := by
      have hplaces := places_delCityLYPlace (d := d) (p := p)
      rw [← hplaces]
      refine foldl_delFromPlaceMap_keep (fun hq => (h.key (hplaces ▸ hq)).1) ?_
      intro r hr m key q hq hclaims
      obtain ⟨⟨m', key', hr'⟩, -⟩ := hmem hr
      exact h.apart hr' (hplaces ▸ hq) hclaims
    refine ⟨⟨fun hq => h.key (hfold.1 hq), fun hq hq' => h.apart (hfold.1 hq) (hfold.1 hq'),
      fun hentry => ?_⟩, fun m key q hq hptid hempty => hfold.2 hq fun r hr => ?_⟩
    · rw [cityPlaces_foldl_delFromPlaceMap, mem_delCityLYPlace] at hentry
      obtain ⟨hentry, hno⟩ := hentry
      obtain ⟨m', key, q, hq, rfl, rfl, hcm, hcid⟩ := h.listed hentry
      refine ⟨m', key, q, hfold.2 hq fun r hr => ⟨?_, ?_⟩, rfl, rfl, hcm, hcid⟩
      · rintro rfl
        rcases (hmem hr).2.2 with rfl | hcids
        · exact hno ⟨hcm, rfl, hcid, rfl⟩
        · rw [hcids] at hcid
          contradiction
      · rintro rfl
        contradiction
    · have hnot {q' : Place} (hq' : q'.ptid = r.ptid) : q ≠ q' := by
        rintro rfl
        rcases (hmem hr).2.1 with heq | heq
        · exact hptid (hq'.trans heq)
        · exact hempty (hq'.trans heq)
      exact ⟨hnot rfl, hnot rfl⟩

/-! ## Runs -/

theorem Tenants.call (h : d.Tenants) {c : Call} (hadmits : d.Admits c) :
    (d.call c).Tenants ∧ d.Spares (d.call c) c.ptid := by
  cases c with
  | doInsert p => exact h.doInsert hadmits
  | delLYPlace id ptid => exact h.delLYPlace hadmits

theorem Tenants.run (h : d.Tenants) {calls : List Call} (rest : List Call)
    (hadmitted : Admitted d (calls ++ rest)) : (d.run calls).Tenants ∧
      Admitted (d.run calls) rest := by
  induction calls generalizing d with
  | nil => exact ⟨h, hadmitted⟩
  | cons c calls ih => exact ih (h.call hadmitted.1).1 hadmitted.2

/-- In every state of a run of admitted calls, and at every call. -/
theorem isolated_run {calls : List Call} (hadmitted : Admitted {} calls) :
    (∀ done rest, calls = done ++ rest → (run {} done).Resolves) ∧
      ∀ done c rest, calls = done ++ c :: rest →
        (run {} done).Spares (run {} (done ++ [c])) c.ptid := by
  refine ⟨fun done rest hsplit => ?_, fun done c rest hsplit => ?_⟩
  · exact (tenants_empty.run rest (hsplit ▸ hadmitted)).1.resolves
  · obtain ⟨htenants, hrest⟩ := tenants_empty.run (c :: rest) (hsplit ▸ hadmitted)
    have hrun : run {} (done ++ [c]) = (run {} done).call c := by
      rw [run, List.foldl_append]
      rfl
    rw [hrun]
    exact (htenants.call hrest.1).2

end PrivateConstData

/-! ## Two tenants -/

/-- A view that several tenants have. -/
def bridge (ptid refer : String) : Place where
  id := "bridge"
  ptid := ptid
  refer := refer
  cls := .view
  t := LY_PLACE_TYPE_VIEW
  cidList := ["paris"]
  type_eq := fun _ h => Option.some.inj h

/-- A row with the view for each of two tenants. -/
def bridgeRows (refer refer' : String) : List Call :=
  [.delLYPlace "bridge" "agency", .doInsert (bridge "agency" refer),
    .delLYPlace "bridge" "bureau", .doInsert (bridge "bureau" refer')]

theorem placeMapOf_bridge (ptid refer : String) :
    placeMapOf (bridge ptid refer).t = some .views :=
  show placeMapOf LY_PLACE_TYPE_VIEW = _ by decide

/-- The data set after the row of the first tenant. -/
def bridgeOnce : PrivateConstData :=
  (PrivateConstData.doInsert {} (bridge "agency" "base")).2

theorem places_bridgeOnce {m : PlaceMap} {key : String} {q : Place}
    (hq : bridgeOnce.places m key = some q) :
    key = "bridge_agency" ∧ q = bridge "agency" "base" := by
  rw [bridgeOnce, PrivateConstData.places_doInsert (by decide) (placeMapOf_bridge _ _) rfl,
    if_neg fun h => nomatch h.1] at hq
  split_ifs at hq with hkey
  exact ⟨hkey.2, (Option.some.inj hq).symm⟩

theorem delLYPlace_bridgeOnce : bridgeOnce.delLYPlace "bridge" "bureau" = bridgeOnce := by
  have hnone : bridgeOnce.getLYPlace "bridge" "bureau" = none := by decide +kernel
  rw [PrivateConstData.delLYPlace, hnone]

theorem admitted_bridgeRows : Admitted {} (bridgeRows "base" "base") := by
  have hdel : bridgeOnce.Admits (.delLYPlace "bridge" "bureau") := by
    intro m key p hp hkey
    obtain ⟨rfl, rfl⟩ := places_bridgeOnce hp
    exact absurd hkey (by unfold IsKey; decide)
  have hinsert : bridgeOnce.Admits (.doInsert (bridge "bureau" "base")) := by
    intro _ m hm _ m' key q hq
    obtain ⟨rfl, rfl⟩ := places_bridgeOnce hq
    rw [placeMapOf_bridge] at hm
    simp only [Place.Claims, placeMapOf_bridge]
    refine ⟨by decide, by decide, fun hcity => ?_⟩
    rw [← Option.some.inj hm] at hcity
    contradiction
  have hrest : Admitted bridgeOnce
      [.delLYPlace "bridge" "bureau", .doInsert (bridge "bureau" "base")] :=
    ⟨hdel, show (bridgeOnce.delLYPlace "bridge" "bureau").Admits _ from
      delLYPlace_bridgeOnce.symm ▸ hinsert, trivial⟩
  exact ⟨fun _ _ _ hq => (nomatch hq), fun _ _ _ _ _ _ _ hq => (nomatch hq), hrest⟩

theorem isolated_bridgeRows : (PrivateConstData.run {} (bridgeRows "base" "base")).Resolves :=
  (PrivateConstData.isolated_run admitted_bridgeRows).1 _ [] (List.append_nil _).symm

/-- Without a public place the row of one tenant removes the place of the other. With one for the
first tenant only, the first tenant's id is found as the place of the second. -/
theorem not_isolated :
    ¬ (PrivateConstData.run {} ((bridgeRows "" "").take 2)).Spares
        (PrivateConstData.run {} ((bridgeRows "" "").take 3)) "bureau" ∧
      ¬ (PrivateConstData.run {} (bridgeRows "base" "")).Resolves := by
  constructor
  · intro h
    have hview : (PrivateConstData.run {} ((bridgeRows "" "").take 2)).places .views "bridge" =
        some (bridge "agency" "") := by
      decide +kernel
    have hkept := h hview (by decide) (by decide)
    revert hkept
    decide +kernel
  · intro h
    have hlisted : "bridge" ∈ (PrivateConstData.run {} (bridgeRows "base" "")).cityPlaces
        .cityViews "agency" "paris" := by decide +kernel
    obtain ⟨p, hp, hptid⟩ := h hlisted
    obtain rfl : bridge "bureau" "" = p := Option.some.inj hp
    revert hptid
    decide

end PPView.PrivateData
