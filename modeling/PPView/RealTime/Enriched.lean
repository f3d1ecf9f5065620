import PPView.RealTime.StretchEnds

/-!
# Enriched paths

`TimeEnrich` works on a copy of the path. On a feasible path it does not give up, and no stay leaves
its bounds: squeezing makes it the least one, and a stretched item gets no less than it had.
-/

namespace PPView.RealTime

section

variable (sort : (ℕ → ℕ → Bool) → List ℕ → List ℕ) (fuel : ℕ)

/-- `TimeEnrich`: its result, and the path behind it. -/
def enrichPath (path : List Item) : Res (ℕ × List Item) := do
  let tmpPath ← timeEnrich sort fuel path
  match tmpPath with
  | none => pure (1, path)
  | some tmpPath => pure (0, tmpPath)

end

/-- The stay is inside its bounds. -/
def Within (stay : Int × DurS) : Prop := stay.2.zip ≤ stay.1 ∧ stay.1 ≤ stay.2.extend

variable {s e : Item} {items items' rest : List Item} {sItemList sItemQueue : List ℕ} {fuel : ℕ}
variable {sort : (ℕ → ℕ → Bool) → List ℕ → List ℕ}

theorem zipFrom_dur {last : Item} (hrun : zipFrom last items = some items') :
    ∀ p ∈ items', p.isKey = false → p.getDur = p.durS.zip := by
  induction items generalizing last items' with
  | nil =>
    obtain rfl : [] = items' := Option.some.inj hrun
    exact List.forall_mem_nil _
  | cons p items ih =>
    rw [zipFrom] at hrun
    split at hrun
    · next hkey =>
      obtain ⟨out, hout, rfl⟩ := Option.map_eq_some_iff.mp hrun
      refine List.forall_mem_cons.mpr ⟨fun hno => ?_, ih hout⟩
      rw [hkey] at hno
      contradiction
    · dsimp only at hrun
      split_ifs at hrun
      obtain ⟨out, hout, rfl⟩ := Option.map_eq_some_iff.mp hrun
      refine List.forall_mem_cons.mpr ⟨fun _ => ?_, ih hout⟩
      rw [getDur_setTimes, add_sub_cancel_left]
      rfl

/-! ## Stretching -/

/-- A stretched stay is not below what it was, and not above its longest one. -/
theorem stretchAt_within {index : ℕ} {again : Bool} (h : Fits s e items)
    (hwithin : ∀ stay ∈ items.map Item.stay, Within stay)
    (hrun : stretchAt s e items index = some (items', again)) :
    ∀ stay ∈ items'.map Item.stay, Within stay := by
  obtain ⟨item, freeTime, hitem, hstays, -, hroom⟩ := stretchAt_stays hrun
  have hroom := hroom h
  obtain ⟨hzip, hextend⟩ := hwithin item.stay
    (List.mem_map_of_mem (List.mem_of_getElem? hitem))
  rw [Item.stay] at hzip hextend
  dsimp only at hzip hextend
  rw [hstays]
  intro stay hstay
  rcases List.mem_or_eq_of_mem_set hstay with hold | rfl
  · exact hwithin stay hold
  · rw [Within, Item.stretched]
    dsimp only
    omega

theorem stretchLoop_within {out : Option (List Item)} (h : Fits s e items)
    (hstart : 0 ≤ s.departTime) (hzip : ∀ p ∈ items, 0 ≤ p.durS.zip)
    (hwithin : ∀ stay ∈ items.map Item.stay, Within stay)
    (hqueue : ∀ q ∈ sItemQueue, q < items.length)
    (hrun : stretchLoop sort s e fuel items sItemList sItemQueue = .ok out) :
    ∃ items', out = some items' ∧ ∀ stay ∈ items'.map Item.stay, Within stay := by
  induction fuel generalizing items sItemList sItemQueue with
  | zero =>
    cases sItemQueue with
    | nil =>
      rw [stretchLoop] at hrun
      cases hrun
      exact ⟨items, rfl, hwithin⟩
    | cons q qs => simp [stretchLoop] at hrun
  | succ fuel ih =>
    cases sItemQueue with
    | nil =>
      rw [stretchLoop] at hrun
      cases hrun
      exact ⟨items, rfl, hwithin⟩
    | cons q qs =>
      obtain ⟨hq, hqs⟩ := List.forall_mem_cons.mp hqueue
      have hrotate : ∀ i ∈ qs ++ [q], i < items.length :=
        List.forall_mem_append.mpr ⟨hqs, List.forall_mem_singleton.mpr hq⟩
      rw [stretchLoop] at hrun
      split_ifs at hrun with hwait
      · exact ih h hzip hwithin hrotate hrun
      · obtain ⟨items', again, hat⟩ := stretchAt_some h hstart hq
        obtain ⟨hmap, hfits⟩ := stretchAt_fits h hzip hat
        have hlength : items'.length = items.length := by simpa using congrArg List.length hmap
        rw [← hlength] at hrotate hqs
        rw [hat] at hrun
        cases again with
        | true =>
          exact ih hfits (zip_of_untimed hmap hzip) (stretchAt_within h hwithin hat) hrotate hrun
        | false =>
          exact ih hfits (zip_of_untimed hmap hzip) (stretchAt_within h hwithin hat) hqs hrun

theorem stretchBetween_within {out : Option (List Item)} (h : Fits s e items)
    (hstart : 0 ≤ s.departTime) (hzip : ∀ p ∈ items, 0 ≤ p.durS.zip)
    (hwithin : ∀ stay ∈ items.map Item.stay, Within stay)
    (hsort : ∀ lt l, (sort lt l).Perm l)
    (hrun : stretchBetween sort fuel s e items = .ok out) :
    ∃ items', out = some items' ∧ ∀ stay ∈ items'.map Item.stay, Within stay := by
  rw [stretchBetween] at hrun
  split_ifs at hrun with hempty
  · cases hrun
    exact ⟨[], rfl, by simp⟩
  · exact stretchLoop_within h hstart hzip hwithin
      (fun q hq => List.mem_range.mp ((hsort _ _).subset hq)) hrun

/-! ## The whole path -/

/-- No item is left before the first one is. -/
theorem departTime_le (h : (s :: items).IsChain Leg) (hstays : ∀ p ∈ items, InWindow p) :
    ∀ p ∈ items, s.departTime ≤ p.departTime := by
  induction items generalizing s with
  | nil => exact List.forall_mem_nil _
  | cons p items ih =>
    obtain ⟨hleg, hchain⟩ := List.isChain_cons_cons.mp h
    obtain ⟨⟨-, hdur, -⟩, hstays⟩ := List.forall_mem_cons.mp hstays
    have htime := hleg.time_le
    have htraf := trafTime_nonneg p.arriveTraffic
    refine List.forall_mem_cons.mpr ⟨by omega, fun q hq => ?_⟩
    have := ih hchain hstays q hq
    omega

theorem enrichFrom_within {out : Option (List Item)} (h : (s :: (items ++ rest)).IsChain Leg)
    (hstays : ∀ p ∈ items ++ rest, InWindow p) (hstart : 0 ≤ s.departTime)
    (hplace : ∀ p ∈ items ++ rest, p.isKey = false → 0 ≤ p.durS.zip ∧ Within p.stay)
    (hkey : ∀ p ∈ items, p.isKey = false) (hsort : ∀ lt l, (sort lt l).Perm l)
    (hrun : enrichFrom sort fuel s items rest = .ok out) :
    ∃ path, out = some path ∧ ∀ p ∈ path, p.isKey = false → Within p.stay := by
  induction rest generalizing s items out with
  | nil =>
    rw [enrichFrom] at hrun
    cases hrun
    rw [List.append_nil] at hplace
    exact ⟨items, rfl, fun p hp hno => (hplace p hp hno).2⟩
  | cons p rest ih =>
    rw [enrichFrom] at hrun
    split at hrun
    · next hp =>
      obtain ⟨stretched, hstretched, hrun⟩ := bind_ok.mp hrun
      obtain ⟨hfront, hback⟩ := List.isChain_cons_split.mp h
      obtain ⟨hitems, hrest⟩ := List.forall_mem_append.mp hstays
      obtain ⟨hplaces, hplacerest⟩ := List.forall_mem_append.mp hplace
      have hle := departTime_le h hstays p (by simp)
      obtain ⟨items', rfl, hwithin⟩ := stretchBetween_within ⟨hfront, hitems⟩ hstart
        (fun q hq => (hplaces q hq (hkey q hq)).1)
        (List.forall_mem_map.mpr fun q hq => (hplaces q hq (hkey q hq)).2) hsort hstretched
      obtain ⟨enriched, henriched, hrun⟩ := bind_ok.mp hrun
      obtain ⟨path, rfl, hpath⟩ := ih hback (List.forall_mem_cons.mp hrest).2
        (hstart.trans hle) (List.forall_mem_cons.mp hplacerest).2 (List.forall_mem_nil _) henriched
      cases hrun
      refine ⟨_, rfl, List.forall_mem_append.mpr ⟨fun q hq _ => ?_, List.forall_mem_cons.mpr
        ⟨fun hno => ?_, hpath⟩⟩⟩
      · exact hwithin _ (List.mem_map_of_mem hq)
      · rw [hp] at hno
        contradiction
    · next hp =>
      have hassoc : items ++ p :: rest = items ++ [p] ++ rest := by
        rw [List.append_assoc, List.singleton_append]
      rw [hassoc] at h hstays hplace
      refine ih h hstays hstart hplace ?_ hrun
      exact List.forall_mem_append.mpr ⟨hkey, List.forall_mem_singleton.mpr (by simpa using hp)⟩

/-- The durations of a place, which is any item that is no key item. -/
structure Place (p : Item) : Prop where
  zip_nonneg : 0 ≤ p.durS.zip
  zip_le_dur : p.durS.zip ≤ p.getDur
  zip_le_extend : p.durS.zip ≤ p.durS.extend

/-- A path that is feasible and begins with a key item. -/
structure Given (path : List Item) : Prop where
  feasible : Feasible path
  key : ∃ s rest, path = s :: rest ∧ s.isKey = true
  places : ∀ p ∈ path, p.isKey = false → Place p

/-- The path behind `TimeEnrich` beside the one before it. -/
structure EnrichedFrom (path out : List Item) : Prop where
  items : out.map Item.untimed = path.map Item.untimed
  keys : KeysStay path out
  feasible : Feasible out
  within : ∀ p ∈ out, p.isKey = false → Within p.stay

theorem timeEnrich_enriched {out : Option (List Item)} (hsort : ∀ lt l, (sort lt l).Perm l)
    (h : Given (s :: rest)) (hstart : 0 ≤ s.departTime)
    (hrun : timeEnrich sort fuel (s :: rest) = .ok out) :
    ∃ path, out = some path ∧ EnrichedFrom (s :: rest) path := by
  obtain ⟨hstay, hstays⟩ := List.forall_mem_cons.mp h.feasible.stays
  obtain ⟨-, hplaces⟩ := List.forall_mem_cons.mp h.places
  have hkey : s.isKey = true := by
    obtain ⟨s', rest', heq, hkey⟩ := h.key
    cases heq
    exact hkey
  have hzip := fun p hp hno => (hplaces p hp hno).zip_nonneg
  have hsqueeze : ∀ p ∈ rest, Squeezable p := fun p hp hno => (hplaces p hp hno).zip_le_dur
  obtain ⟨items, hitems, hchain, hwindows⟩ :=
    zipFrom_feasible h.feasible.legs hstays hzip hsqueeze rfl (Int.le_refl _)
  obtain ⟨hmap, -, -, -⟩ := zipFrom_spec hitems hstays hzip
  -- squeezed stays are inside their bounds, whatever they were
  have hwithin : ∀ p ∈ items, p.isKey = false → 0 ≤ p.durS.zip ∧ Within p.stay := by
    intro p hp hno
    have hbounds := forall_mem_of_untimed
      (P := fun p => p.isKey = false → 0 ≤ p.durS.zip ∧ p.durS.zip ≤ p.durS.extend) hmap
      (fun q hq hno => ⟨hzip q hq hno, (hplaces q hq hno).zip_le_extend⟩) p hp hno
    refine ⟨hbounds.1, ?_⟩
    rw [Within, Item.stay, zipFrom_dur hitems p hp hno]
    exact ⟨Int.le_refl _, hbounds.2⟩
  have hrun' := hrun
  rw [timeEnrich, doZipDur, hitems] at hrun'
  obtain ⟨enriched, henriched, hrun'⟩ := bind_ok.mp hrun'
  obtain ⟨path, rfl, hpath⟩ := enrichFrom_within hchain hwindows hstart hwithin
    (List.forall_mem_nil _) hsort henriched
  cases hrun'
  obtain ⟨rest', heq, hfeasible, hmap', hsame⟩ :=
    timeEnrich_feasible h.feasible hzip hsqueeze hrun
  cases heq
  refine ⟨_, rfl, ?_, .cons (fun _ => rfl) hsame, hfeasible, List.forall_mem_cons.mpr
    ⟨fun hno => ?_, hpath⟩⟩
  · rw [List.map_cons, List.map_cons, hmap']
  · rw [hkey] at hno
    contradiction

theorem enrichPath_enriched (hsort : ∀ lt l, (sort lt l).Perm l) :
    (∀ (fuel : ℕ) (s : Item) (rest out : List Item) (ret : ℕ), Given (s :: rest) →
      0 ≤ s.departTime → enrichPath sort fuel (s :: rest) = .ok (ret, out) →
      ret = 0 ∧ EnrichedFrom (s :: rest) out) ∧
    ∀ (fuel : ℕ) (path out : List Item) (ret : ℕ), enrichPath sort fuel path = .ok (ret, out) →
      ret ≠ 0 → out = path := by
  constructor
  · intro fuel s rest out ret h hstart hrun
    obtain ⟨tmpPath, htmp, hrun⟩ := bind_ok.mp hrun
    obtain ⟨path, rfl, henriched⟩ := timeEnrich_enriched hsort h hstart htmp
    cases hrun
    exact ⟨rfl, henriched⟩
  · intro fuel path out ret hrun hret
    obtain ⟨tmpPath, -, hrun⟩ := bind_ok.mp hrun
    cases tmpPath with
    | none =>
      cases hrun
      rfl
    | some tmpPath =>
      cases hrun
      contradiction

def aMuseum (dur : Int) : Item := museum dur { zip := 1620, rcmd := 1800, extend := 1782 }

theorem given_museum : Given [dayStart, aMuseum 1700, dayEnd] where
  feasible := ⟨by simp [Leg, dayStart, dayEnd, aMuseum, museum, trafTime],
    by simp [InWindow, dayStart, dayEnd, aMuseum, museum]⟩
  key := ⟨dayStart, _, rfl, rfl⟩
  places := by
    intro p hp hno
    simp only [List.mem_cons, List.not_mem_nil, or_false] at hp
    rcases hp with rfl | rfl | rfl
    · contradiction
    · exact ⟨by decide, by decide, by decide⟩
    · contradiction

/-- From 1700 seconds to the least stay of 1620, and from there to the longest one. -/
theorem enrichPath_enriched_museum :
    EnrichedFrom [dayStart, aMuseum 1700, dayEnd] [dayStart, aMuseum 1782, dayEnd] :=
  ((enrichPath_enriched insertionSorted_perm).1 20 dayStart [aMuseum 1700, dayEnd]
    [dayStart, aMuseum 1782, dayEnd] 0 given_museum (by decide) (by decide +kernel)).2

/-- A departure at the time -1. -/
def beforeEpoch : Item where
  type := NODE_FUNC_KEY
  arriveTime := -1
  departTime := -1
  openTime := -1
  closeTime := -1

def nightMuseum : Item where
  placeType := 2
  arriveTime := -1
  departTime := 1699
  openTime := -1
  closeTime := 7200
  durS := { zip := 1620, rcmd := 1800, extend := 1782 }

def morningKey : Item where
  type := NODE_FUNC_KEY
  arriveTime := 7200
  departTime := 7200
  closeTime := 7200

/-- The time -1 is taken for a failure, and with a negative least stay an item is left before it is
reached. -/
theorem not_enrichPath_enriched :
    (¬ ∀ (sort : (ℕ → ℕ → Bool) → List ℕ → List ℕ) (fuel : ℕ) (path out : List Item) (ret : ℕ),
      (∀ lt l, (sort lt l).Perm l) → Given path → enrichPath sort fuel path = .ok (ret, out) →
      ret = 0) ∧
    ¬ ∀ (sort : (ℕ → ℕ → Bool) → List ℕ → List ℕ) (fuel : ℕ) (s : Item) (rest out : List Item)
      (ret : ℕ), (∀ lt l, (sort lt l).Perm l) → s.isKey = true → Feasible (s :: rest) →
      0 ≤ s.departTime →
      (∀ p ∈ rest, p.isKey = false → p.durS.zip ≤ p.getDur ∧ p.durS.zip ≤ p.durS.extend) →
      enrichPath sort fuel (s :: rest) = .ok (ret, out) → Feasible out := by
  constructor
  · intro hall
    have hgiven : Given [beforeEpoch, nightMuseum, morningKey] := by
      refine ⟨⟨by simp [Leg, beforeEpoch, nightMuseum, morningKey, trafTime],
        by simp [InWindow, beforeEpoch, nightMuseum, morningKey]⟩, ⟨beforeEpoch, _, rfl, rfl⟩,
        fun p hp hno => ?_⟩
      simp only [List.mem_cons, List.not_mem_nil, or_false] at hp
      rcases hp with rfl | rfl | rfl
      · contradiction
      · exact ⟨by decide, by decide, by decide⟩
      · contradiction
    exact absurd (hall insertionSorted 20 _ [beforeEpoch, nightMuseum, morningKey] 1
      insertionSorted_perm hgiven (by decide +kernel)) (by decide)
  · intro hall
    have hfeasible := hall insertionSorted 0 dayStart [museum 0 { zip := -5 }]
      [dayStart, museum (-5) { zip := -5 }] 0 insertionSorted_perm rfl
      ⟨by simp [Leg, dayStart, museum, trafTime], by simp [InWindow, dayStart, museum]⟩
      (by decide) (by decide) (by decide +kernel)
    obtain ⟨-, hstay, -⟩ := hfeasible.stays (museum (-5) { zip := -5 }) (by simp)
    exact absurd hstay (by decide)

end PPView.RealTime
