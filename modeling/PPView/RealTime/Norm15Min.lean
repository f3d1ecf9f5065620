import PPView.Plan.Durations
import PPView.RealTime.Feasible

/-!
# Stays of whole quarter hours

`Norm15Min` makes each stay that is no multiple of a quarter hour longer where there is time between
the items around it, and shorter otherwise. A stay that the user has set is begun as early as
possible. Of the opening times only the latter looks at one, the opening.
-/

namespace PPView.RealTime

/-- An item with the id of its place. -/
structure PlaceItem extends Item where
  placeID : String := ""

def PlaceItem.move (p : PlaceItem) (arriveTime departTime : Int) : PlaceItem :=
  { p with toItem := p.toItem.setTimes arriveTime departTime }

@[simp] theorem toItem_move (p : PlaceItem) (arriveTime departTime : Int) :
    (p.move arriveTime departTime).toItem = p.toItem.setTimes arriveTime departTime := rfl

section

variable (plan : DurPlan) (lastItem curItem nextItem : PlaceItem)

/-- Whether `Norm15Min` looks at the item: a place without a time of its own. -/
def toNorm : Bool :=
  curItem.type &&& NODE_FUNC_PLACE ≠ 0 && (plan.vPlaceOpenMap.lookup curItem.placeID).isNone

def elstArvT : Int := lastItem.departTime + trafTime lastItem.departTraffic

def ltstDeptT : Int := nextItem.arriveTime - trafTime nextItem.arriveTraffic

/-- What is missing for a whole quarter hour, or a quarter hour. -/
def needAdd : Int := 900 - curItem.getDur.tmod 900

/-- The loop's body. -/
def normItem : PlaceItem :=
  if toNorm plan curItem then
    let elstArvT := elstArvT lastItem
    let ltstDeptT := ltstDeptT nextItem
    match plan.userDurMap.lookup curItem.placeID with
    | some dur =>
      let arvT := max curItem.openTime elstArvT
      curItem.move arvT (arvT + dur)
    | none =>
      let mod := curItem.getDur.tmod 900
      if mod = 0 then curItem
      else
        let needAdd := needAdd curItem
        let newdur := curItem.getDur + needAdd
        if ltstDeptT - elstArvT ≥ newdur then
          if curItem.arriveTime - needAdd > elstArvT then
            curItem.move (curItem.arriveTime - needAdd) curItem.departTime
          else
            let needAdd := needAdd - (curItem.arriveTime - elstArvT)
            curItem.move elstArvT (curItem.departTime + needAdd)
        else if curItem.getDur - mod > 0 then
          curItem.move curItem.arriveTime (curItem.departTime - mod)
        else curItem
  else curItem

/-- The items behind `lastItem`, of which the last one stays as it is. -/
def normFrom (lastItem : PlaceItem) : List PlaceItem → List PlaceItem
  | curItem :: nextItem :: rest =>
    let curItem := normItem plan lastItem curItem nextItem
    curItem :: normFrom curItem (nextItem :: rest)
  | path => path

def norm15Min : List PlaceItem → List PlaceItem
  | [] => []
  | item :: rest => item :: normFrom plan item rest

end

/-! ## Paths in time -/

/-- There is time for the leg, whichever end records it. -/
def InTime (a b : PlaceItem) : Prop :=
  a.departTime + trafTime a.departTraffic ≤ b.arriveTime ∧
    a.departTime + trafTime b.arriveTraffic ≤ b.arriveTime

def OpenPlace (p : PlaceItem) : Prop := p.type &&& NODE_FUNC_PLACE ≠ 0 → InWindow p.toItem

structure TimelyPath (path : List PlaceItem) : Prop where
  legs : path.IsChain InTime
  stays : ∀ p ∈ path, OpenPlace p

/-! ## One round -/

/-- The stay gets longer: there is time for the next quarter hour. -/
def Lengthens (lastItem curItem nextItem : PlaceItem) : Prop :=
  curItem.getDur.tmod 900 ≠ 0 ∧
    curItem.getDur + needAdd curItem ≤ ltstDeptT nextItem - elstArvT lastItem

instance (lastItem curItem nextItem : PlaceItem) :
    Decidable (Lengthens lastItem curItem nextItem) :=
  inferInstanceAs (Decidable (_ ∧ _))

/-- A stay of `dur` from `arvT` on is inside the opening times, and is not begun too early. -/
structure FitsAt (lastItem curItem : PlaceItem) (arvT dur : Int) : Prop where
  reached : lastItem.departTime + trafTime curItem.arriveTraffic ≤ arvT
  dur_nonneg : 0 ≤ dur
  opened : curItem.openTime ≤ arvT
  closed : arvT + dur ≤ curItem.closeTime

/-- What a round needs of the items before it: a stay that the user has set, or that gets longer,
fits where it is put, and any other one is reached in time where it is. -/
def RoundOk (plan : DurPlan) (lastItem curItem nextItem : PlaceItem) : Prop :=
  match toNorm plan curItem, plan.userDurMap.lookup curItem.placeID with
  | true, some dur =>
    FitsAt lastItem curItem (max curItem.openTime (elstArvT lastItem)) dur
  | true, none =>
    if Lengthens lastItem curItem nextItem then
      FitsAt lastItem curItem (max (curItem.arriveTime - needAdd curItem) (elstArvT lastItem))
        (curItem.getDur + needAdd curItem)
    else InTime lastItem curItem
  | false, _ => InTime lastItem curItem

/-- Every round of the loop finds what it needs. -/
def RoundsOk (plan : DurPlan) (lastItem : PlaceItem) : List PlaceItem → Prop
  | curItem :: nextItem :: rest =>
    RoundOk plan lastItem curItem nextItem ∧
      RoundsOk plan (normItem plan lastItem curItem nextItem) (nextItem :: rest)
  | [curItem] => InTime lastItem curItem
  | [] => True

variable {plan : DurPlan} {lastItem curItem nextItem : PlaceItem} {rest : List PlaceItem}

theorem fitsAt_iff {arvT dur : Int} (helst : elstArvT lastItem ≤ arvT)
    (hplace : curItem.type &&& NODE_FUNC_PLACE ≠ 0) :
    InTime lastItem (curItem.move arvT (arvT + dur)) ∧ OpenPlace (curItem.move arvT (arvT + dur)) ↔
      FitsAt lastItem curItem arvT dur := by
  constructor
  · rintro ⟨⟨-, hreached⟩, hopen⟩
    obtain ⟨hopened, hdur, hclosed⟩ := hopen hplace
    exact ⟨hreached, by simpa [PlaceItem.move, Item.setTimes] using hdur, hopened, hclosed⟩
  · rintro ⟨hreached, hdur, hopened, hclosed⟩
    refine ⟨⟨helst, hreached⟩, fun _ => ⟨hopened, ?_, hclosed⟩⟩
    simpa [PlaceItem.move, Item.setTimes] using hdur

/-- A longer stay is put as early as it has to be. -/
theorem normItem_lengthens (hnorm : toNorm plan curItem = true)
    (hdur : plan.userDurMap.lookup curItem.placeID = none)
    (h : Lengthens lastItem curItem nextItem) :
    normItem plan lastItem curItem nextItem =
      curItem.move (max (curItem.arriveTime - needAdd curItem) (elstArvT lastItem))
        (max (curItem.arriveTime - needAdd curItem) (elstArvT lastItem) +
          (curItem.getDur + needAdd curItem)) := by
  rw [normItem, if_pos hnorm, hdur]
  dsimp only
  rw [if_neg h.1, if_pos h.2]
  split_ifs with hpull
  · rw [max_eq_left hpull.le, Item.getDur]
    congr 1
    omega
  · rw [max_eq_right (not_lt.mp hpull), Item.getDur]
    congr 1
    omega

/-- Any other stay begins when it did, and ends no later. -/
theorem normItem_not_lengthens (hnorm : toNorm plan curItem = true)
    (hdur : plan.userDurMap.lookup curItem.placeID = none)
    (h : ¬ Lengthens lastItem curItem nextItem) (hopen : InWindow curItem.toItem) :
    ∃ departTime, normItem plan lastItem curItem nextItem =
      curItem.move curItem.arriveTime departTime ∧ curItem.arriveTime ≤ departTime ∧
        departTime ≤ curItem.departTime := by
  obtain ⟨-, hstay, -⟩ := hopen
  have hsame : curItem = curItem.move curItem.arriveTime curItem.departTime := rfl
  rw [normItem, if_pos hnorm, hdur]
  dsimp only
  split_ifs with hmod hroom hpull hshort
  · exact ⟨_, hsame, hstay, le_rfl⟩
  · exact absurd ⟨hmod, hroom⟩ h
  · exact absurd ⟨hmod, hroom⟩ h
  · refine ⟨_, rfl, ?_, ?_⟩
    · rw [Item.getDur] at *
      omega
    · have := Int.tmod_nonneg 900 (show 0 ≤ curItem.getDur by rw [Item.getDur]; omega)
      omega
  · exact ⟨_, hsame, hstay, le_rfl⟩

theorem normItem_ok_iff (hopen : OpenPlace curItem) :
    InTime lastItem (normItem plan lastItem curItem nextItem) ∧
        OpenPlace (normItem plan lastItem curItem nextItem) ↔
      RoundOk plan lastItem curItem nextItem := by
  cases hnorm : toNorm plan curItem with
  | false =>
    simp [normItem, RoundOk, hnorm, hopen]
  | true =>
    have hplace : curItem.type &&& NODE_FUNC_PLACE ≠ 0 := by
      rw [toNorm, Bool.and_eq_true, decide_eq_true_iff] at hnorm
      exact hnorm.1
    cases hdur : plan.userDurMap.lookup curItem.placeID with
    | some dur =>
      rw [normItem, if_pos hnorm, RoundOk, hnorm, hdur]
      exact fitsAt_iff (le_max_right _ _) hplace
    | none =>
      simp only [RoundOk, hnorm, hdur]
      split_ifs with h
      · rw [normItem_lengthens hnorm hdur h]
        exact fitsAt_iff (le_max_right _ _) hplace
      · obtain ⟨departTime, heq, hstay, hle⟩ := normItem_not_lengthens hnorm hdur h (hopen hplace)
        obtain ⟨hopened, -, hclosed⟩ := hopen hplace
        rw [heq]
        exact and_iff_left fun _ => ⟨hopened, hstay, hle.trans hclosed⟩

/-! ## The whole path -/

theorem normFrom_ok_iff (h : ∀ p ∈ rest, OpenPlace p) :
    (lastItem :: normFrom plan lastItem rest).IsChain InTime ∧
        (∀ p ∈ normFrom plan lastItem rest, OpenPlace p) ↔
      RoundsOk plan lastItem rest := by
  induction rest generalizing lastItem with
  | nil => simp [normFrom, RoundsOk]
  | cons curItem rest ih =>
    obtain ⟨hcur, hrest⟩ := List.forall_mem_cons.mp h
    cases rest with
    | nil => simp [normFrom, RoundsOk, hcur]
    | cons nextItem rest =>
      rw [normFrom, RoundsOk, List.isChain_cons_cons, List.forall_mem_cons,
        ← normItem_ok_iff hcur, ← ih hrest]
      tauto

/-- Rounding keeps a path in time if and only if each round finds what it needs. -/
theorem norm15Min_timely_iff {item : PlaceItem} (h : TimelyPath (item :: rest)) :
    TimelyPath (norm15Min plan (item :: rest)) ↔ RoundsOk plan item rest := by
  obtain ⟨hitem, hrest⟩ := List.forall_mem_cons.mp h.stays
  rw [← normFrom_ok_iff hrest, norm15Min]
  constructor
  · intro htimely
    exact ⟨htimely.legs, (List.forall_mem_cons.mp htimely.stays).2⟩
  · rintro ⟨hlegs, hstays⟩
    exact ⟨hlegs, List.forall_mem_cons.mpr ⟨hitem, hstays⟩⟩

/-- Left at eight. -/
def earlyHotel : PlaceItem where
  type := NODE_FUNC_KEY
  departTime := 8 * 3600

/-- Open from nine to six, and visited for fifty minutes from `arriveTime` on. -/
def gallery (arriveTime : Int) : PlaceItem where
  type := 0x10
  arriveTime := arriveTime
  departTime := arriveTime + 3000
  openTime := 9 * 3600
  closeTime := 18 * 3600
  placeID := "v100"

def lateHotel : PlaceItem where
  type := NODE_FUNC_KEY
  arriveTime := 20 * 3600
  departTime := 20 * 3600

theorem timely_gallery {arriveTime : Int} (hopen : 9 * 3600 ≤ arriveTime)
    (hclose : arriveTime + 3000 ≤ 18 * 3600) :
    TimelyPath [earlyHotel, gallery arriveTime, lateHotel] where
  legs := by
    refine List.isChain_cons_cons.mpr ⟨⟨?_, ?_⟩, List.isChain_pair.mpr ⟨?_, ?_⟩⟩ <;>
      simp only [earlyHotel, gallery, lateHotel, trafTime, Option.elim] <;> omega
  stays := by
    intro p hp hplace
    simp only [List.mem_cons, List.not_mem_nil, or_false] at hp
    rcases hp with rfl | rfl | rfl
    · exact absurd rfl hplace
    · simp only [InWindow, gallery]
      omega
    · exact absurd rfl hplace

theorem norm15Min_timely_iff_gallery :
    TimelyPath (norm15Min {} [earlyHotel, gallery (10 * 3600), lateHotel]) ↔
      RoundsOk {} earlyHotel [gallery (10 * 3600), lateHotel] :=
  norm15Min_timely_iff (timely_gallery (by decide) (by decide))

/-- A visit that begins when the gallery opens is begun ten minutes before. -/
theorem not_norm15Min_timely : ¬ ∀ (plan : DurPlan) (path : List PlaceItem), TimelyPath path →
    TimelyPath (norm15Min plan path) := by
  intro hall
  have htimely := hall {} _ (@timely_gallery (9 * 3600) (by decide) (by decide))
  have hearly : normItem {} earlyHotel (gallery (9 * 3600)) lateHotel =
      (gallery (9 * 3600)).move (9 * 3600 - 600) (9 * 3600 + 3000) := rfl
  obtain ⟨hopen, -, -⟩ := htimely.stays _ (List.mem_cons_of_mem _ List.mem_cons_self) (by decide)
  rw [hearly] at hopen
  exact absurd hopen (by decide)

end PPView.RealTime
