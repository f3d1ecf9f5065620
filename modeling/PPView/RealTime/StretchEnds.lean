import Mathlib.Algebra.GroupWithZero.Nat
import Mathlib.Algebra.Order.BigOperators.Group.List
import Mathlib.Algebra.Order.Group.Int
import Mathlib.Algebra.Order.Group.Nat
import Mathlib.Data.List.Sort
import PPView.RealTime.Feasible

/-!
# When stretching ends

A place is put back into the queue of `TimeStretch` as long as its stay is shorter than its longest
one, and a tenth more of a stay below ten seconds is no second more.
-/

namespace PPView.RealTime

variable {s e : Item} {items items' : List Item} {index : ℕ} {again : Bool}

/-- A stay wherever it lies in time, and its bounds. -/
def Item.stay (p : Item) : Int × DurS := (p.getDur, p.durS)

/-- The stay that `TimeStretch` tries next. -/
def Item.stretched (p : Item) : Int :=
  max (min ((11 * p.getDur).tdiv 10) p.durS.extend) p.durS.zip

@[simp] theorem stay_setTimes (p : Item) (arriveTime dur : Int) :
    (p.setTimes arriveTime (arriveTime + dur)).stay = (dur, p.durS) := by
  rw [Item.stay, getDur_setTimes, add_sub_cancel_left]
  rfl

theorem stay_setTimes_sub (p : Item) (departTime dur : Int) :
    (p.setTimes (departTime - dur) departTime).stay = (dur, p.durS) := by
  rw [Item.stay, getDur_setTimes, sub_sub_cancel]
  rfl

/-! ## One round -/

theorem getEarliestDept_stays {deptTime earliest : Int}
    (hrun : getEarliestDept deptTime items = some (earliest, items')) :
    items'.map Item.stay = items.map Item.stay := by
  induction items generalizing deptTime items' with
  | nil =>
    obtain ⟨-, rfl⟩ : deptTime = earliest ∧ [] = items' := by simpa [getEarliestDept] using hrun
    rfl
  | cons p items ih =>
    rw [getEarliestDept] at hrun
    dsimp only at hrun
    split_ifs at hrun
    obtain ⟨⟨d, rest⟩, hrest, heq⟩ := Option.bind_eq_some_iff.mp hrun
    obtain ⟨rfl, rfl⟩ : d = earliest ∧ _ = items' := by simpa using heq
    rw [List.map_cons, List.map_cons, ih hrest, stay_setTimes]
    rfl

theorem getLatestArv_stays {arvTime latest : Int}
    (hrun : getLatestArv arvTime items = some (latest, items')) :
    items'.map Item.stay = items.map Item.stay := by
  induction items generalizing items' latest with
  | nil =>
    obtain ⟨-, rfl⟩ : arvTime = latest ∧ [] = items' := by simpa [getLatestArv] using hrun
    rfl
  | cons p items ih =>
    rw [getLatestArv] at hrun
    obtain ⟨⟨a, rest⟩, hrest, hrun⟩ := Option.bind_eq_some_iff.mp hrun
    dsimp only at hrun
    split_ifs at hrun
    obtain ⟨rfl, rfl⟩ := Prod.mk.inj (Option.some.inj hrun)
    rw [List.map_cons, List.map_cons, ih hrest, stay_setTimes_sub]
    rfl

/-- What one round does: the item takes as much of its next stay as there is room for. -/
theorem stretchAt_cases (hrun : stretchAt s e items index = some (items', again)) :
    ∃ item earliestT before latestT behind, items[index]? = some item ∧
      getEarliestDept s.departTime (items.take index) = some (earliestT, before) ∧
      getLatestArv e.arriveTime (items.drop (index + 1)) = some (latestT, behind) ∧
      ∃ arvT room, arvT = max (earliestT + trafTime item.arriveTraffic) item.openTime ∧
        arvT + room = min (latestT - trafTime item.departTraffic) item.closeTime ∧ 0 ≤ room ∧
        items' = before ++ item.setTimes arvT (arvT + min item.stretched room) :: behind ∧
        (again = true ↔ item.stretched ≤ room ∧ item.stretched < item.durS.extend) := by
  obtain ⟨item, hitem, hrun⟩ := Option.bind_eq_some_iff.mp hrun
  obtain ⟨⟨earliestT, before⟩, hbefore, hrun⟩ := Option.bind_eq_some_iff.mp hrun
  obtain ⟨⟨latestT, behind⟩, hbehind, hrun⟩ := Option.bind_eq_some_iff.mp hrun
  refine ⟨item, earliestT, before, latestT, behind, hitem, hbefore, hbehind, _,
    min (latestT - trafTime item.departTraffic) item.closeTime -
      max (earliestT + trafTime item.arriveTraffic) item.openTime, rfl, by omega, ?_⟩
  dsimp only at hrun
  rw [show max (min ((11 * item.getDur).tdiv 10) item.durS.extend) item.durS.zip = item.stretched
    from rfl] at hrun
  split_ifs at hrun with hfail hroom hlong
  · obtain ⟨rfl, rfl⟩ := Prod.mk.inj (Option.some.inj hrun)
    refine ⟨by omega, by rw [min_eq_left (a := item.stretched) (by omega)], ?_⟩
    rw [decide_eq_true_iff]
    omega
  · obtain ⟨rfl, rfl⟩ := Prod.mk.inj (Option.some.inj hrun)
    refine ⟨by omega, by rw [min_eq_right (a := item.stretched) (by omega), add_sub_cancel], ?_⟩
    simp only [Bool.false_eq_true, false_iff]
    omega

/-- One round changes one stay only. Where everything fits, there is room for what it was. -/
theorem stretchAt_stays (hrun : stretchAt s e items index = some (items', again)) :
    ∃ item room, items[index]? = some item ∧
      items'.map Item.stay =
        (items.map Item.stay).set index (min item.stretched room, item.durS) ∧
      (again = true ↔ item.stretched ≤ room ∧ item.stretched < item.durS.extend) ∧
      (Fits s e items → item.getDur ≤ room) := by
  obtain ⟨item, earliestT, before, latestT, behind, hitem, hbefore, hbehind, arvT, room, rfl, hroom,
    -, rfl, hagain⟩ := stretchAt_cases hrun
  obtain ⟨hindex, rfl⟩ := List.getElem?_eq_some_iff.mp hitem
  refine ⟨items[index], room, hitem, ?_, hagain, fun h => ?_⟩
  · rw [List.map_append, List.map_cons, getEarliestDept_stays hbefore, getLatestArv_stays hbehind,
      stay_setTimes, List.set_eq_take_append_cons_drop, if_pos (by simpa using hindex),
      List.map_take, List.map_drop]
  · obtain ⟨hfront, hback⟩ := h.split hindex
    obtain ⟨-, -, hearly, -⟩ := getEarliestDept_spec hfront
      (fun p hp => h.stays p (List.mem_of_mem_take hp)) rfl (Int.le_refl _) hbefore
    obtain ⟨-, -, hlate, -⟩ := getLatestArv_spec hback
      (fun p hp => h.stays p (List.mem_of_mem_drop hp)) hbehind
    obtain ⟨hopen, -, hclose⟩ := h.stays _ (List.getElem_mem hindex)
    rw [Item.getDur]
    omega

/-! ## Progress -/

/-- The stay is not the longest one, and a tenth more of it is no second more. -/
def Slow (stay : Int × DurS) : Prop :=
  max stay.1 stay.2.zip < 10 ∧ max stay.1 stay.2.zip < stay.2.extend

theorem getDur_lt_stretched {p : Item} (hzip : 0 ≤ p.durS.zip) (hslow : ¬ Slow p.stay)
    (hlt : p.stretched < p.durS.extend) : p.getDur < p.stretched := by
  rw [Slow, Item.stay] at hslow
  dsimp only at hslow
  rw [Item.stretched] at *
  rcases lt_or_ge p.getDur p.durS.zip with hdur | hdur
  · omega
  · rw [Int.tdiv_eq_ediv_of_nonneg (by omega)] at *
    omega

theorem not_slow_of_lt {dur dur' : Int} {durS : DurS} (hslow : ¬ Slow (dur, durS))
    (hlt : dur < dur') : ¬ Slow (dur', durS) := by
  rw [Slow] at *
  dsimp only at *
  omega

/-- What a stay lacks of its longest one, and one for its place in the list. -/
def room (stay : Int × DurS) : ℕ := (stay.2.extend - stay.1).toNat + 1

def rooms (stays : List (Int × DurS)) (sItemList : List ℕ) : ℕ :=
  (sItemList.map fun i => room (stays.getD i default)).sum

variable {stays : List (Int × DurS)} {sItemList sItemQueue : List ℕ}

theorem getD_set_ne {i : ℕ} {stay : Int × DurS} (h : i ≠ index) :
    (stays.set index stay).getD i default = stays.getD i default := by
  rw [List.getD_eq_getElem?_getD, List.getElem?_set_ne h.symm, List.getD_eq_getElem?_getD]

theorem getD_set_self {stay stay' : Int × DurS} (h : stays[index]? = some stay') :
    (stays.set index stay).getD index default = stay := by
  obtain ⟨hindex, -⟩ := List.getElem?_eq_some_iff.mp h
  simp [List.getD_eq_getElem?_getD, hindex]

theorem rooms_perm {sItemList' : List ℕ} (h : sItemList'.Perm sItemList) :
    rooms stays sItemList' = rooms stays sItemList :=
  (h.map _).sum_eq

/-- A longer stay lacks less. -/
theorem rooms_set_lt {dur dur' : Int} {durS : DurS} (hmem : index ∈ sItemList)
    (hstay : stays[index]? = some (dur, durS)) (hlt : dur < dur') (hextend : dur' < durS.extend) :
    rooms (stays.set index (dur', durS)) sItemList < rooms stays sItemList := by
  have hroom : room ((stays.set index (dur', durS)).getD index default) <
      room (stays.getD index default) := by
    rw [getD_set_self hstay, List.getD_eq_getElem?_getD, hstay, room, room, Option.getD_some]
    dsimp only
    omega
  refine List.sum_lt_sum _ _ (fun i _ => ?_) ⟨index, hmem, hroom⟩
  rcases eq_or_ne i index with rfl | hne
  · exact hroom.le
  · rw [getD_set_ne hne]

theorem rooms_erase_lt {stay : Int × DurS} (hnodup : sItemList.Nodup) (hmem : index ∈ sItemList) :
    rooms (stays.set index stay) (sItemList.erase index) < rooms stays sItemList := by
  have hrest : rooms (stays.set index stay) (sItemList.erase index) =
      rooms stays (sItemList.erase index) := by
    refine congrArg List.sum (List.map_congr_left fun i hi => ?_)
    rw [getD_set_ne (hnodup.mem_erase_iff.mp hi).1]
  rw [hrest, ← rooms_perm (List.perm_cons_erase hmem).symm, rooms, rooms, List.map_cons,
    List.sum_cons, room]
  omega

/-! ## The loop -/

section

variable {sort : (ℕ → ℕ → Bool) → List ℕ → List ℕ}

/-- Stays that get longer, or stop. -/
def Lively (items : List Item) (sItemList : List ℕ) : Prop :=
  ∀ i ∈ sItemList, 0 ≤ ((items.map Item.stay).getD i default).2.zip ∧
    ¬ Slow ((items.map Item.stay).getD i default)

/-- A round with the item goes on with less that lacks. -/
theorem stretchAt_rooms (hnodup : sItemList.Nodup) (hlively : Lively items sItemList)
    (hmem : index ∈ sItemList) (hrun : stretchAt s e items index = some (items', again)) :
    Lively items' (if again then sItemList else sItemList.erase index) ∧
      rooms (items'.map Item.stay) (if again then sItemList else sItemList.erase index) <
        rooms (items.map Item.stay) sItemList := by
  obtain ⟨item, freeTime, hitem, hstays, hagain, -⟩ := stretchAt_stays hrun
  have hstay : (items.map Item.stay)[index]? = some (item.getDur, item.durS) := by
    rw [List.getElem?_map, hitem]
    rfl
  rw [Lively, hstays]
  cases again with
  | false =>
    refine ⟨fun i hi => ?_, rooms_erase_lt hnodup hmem⟩
    obtain ⟨hne, hi⟩ := hnodup.mem_erase_iff.mp hi
    rw [getD_set_ne hne]
    exact hlively i hi
  | true =>
    obtain ⟨hroom, hextend⟩ := hagain.mp rfl
    rw [min_eq_left hroom]
    have hindex := hlively index hmem
    rw [List.getD_eq_getElem?_getD, hstay, Option.getD_some] at hindex
    obtain ⟨hzip, hslow⟩ := hindex
    have hlt := getDur_lt_stretched hzip hslow hextend
    refine ⟨fun i hi => ?_, rooms_set_lt hmem hstay hlt hextend⟩
    rcases eq_or_ne i index with rfl | hne
    · rw [getD_set_self hstay]
      exact ⟨hzip, not_slow_of_lt hslow hlt⟩
    · rw [getD_set_ne hne]
      exact hlively i hi

/-- The queue turns until its first item need not wait. The first item of the list gets to the front
at last, and for this one there is nothing to wait for. -/
theorem stretchLoop_turns
    (hround : ∀ q qs, (q :: qs).Perm sItemList →
      (¬ (sItemList.takeWhile (· ≠ q)).any fun other =>
        hotLevelAt items other ≥ hotLevelAt items q) →
      ∃ fuel out, stretchLoop sort s e fuel items sItemList (q :: qs) = .ok out)
    (hperm : sItemQueue.Perm sItemList) :
    ∃ fuel out, stretchLoop sort s e fuel items sItemList sItemQueue = .ok out := by
  cases sItemList with
  | nil =>
    obtain rfl := hperm.eq_nil
    exact ⟨0, some items, by rw [stretchLoop]; rfl⟩
  | cons first others =>
    generalize hk : sItemQueue.idxOf first = k
    induction k generalizing sItemQueue with
    | zero =>
      cases sItemQueue with
      | nil => exact absurd hperm.length_eq (by simp)
      | cons q qs =>
        obtain rfl : q = first := by
          by_contra hne
          rw [List.idxOf_cons_ne qs hne] at hk
          omega
        exact hround q qs hperm (by simp)
    | succ k ihk =>
      cases sItemQueue with
      | nil => exact absurd hperm.length_eq (by simp)
      | cons q qs =>
        by_cases hwait : ((first :: others).takeWhile (· ≠ q)).any fun other =>
            hotLevelAt items other ≥ hotLevelAt items q
        · have hne : q ≠ first := by
            rintro rfl
            simp at hk
          have hmem : first ∈ qs :=
            (List.mem_cons.mp (hperm.symm.subset List.mem_cons_self)).resolve_left hne.symm
          rw [List.idxOf_cons_ne qs hne] at hk
          obtain ⟨fuel, out, hrun⟩ := ihk ((List.perm_append_singleton q qs).trans hperm)
            (by rw [List.idxOf_append_of_mem hmem]; omega)
          exact ⟨fuel + 1, out, by rw [stretchLoop, if_pos hwait]; exact hrun⟩
        · exact hround q qs hperm hwait

/-- `n` bounds what the stays lack, which gets less with each round. -/
theorem stretchLoop_ends (hsort : ∀ lt l, (sort lt l).Perm l) (n : ℕ) (hnodup : sItemList.Nodup)
    (hlively : Lively items sItemList) (hrooms : rooms (items.map Item.stay) sItemList < n)
    (hperm : sItemQueue.Perm sItemList) :
    ∃ fuel out, stretchLoop sort s e fuel items sItemList sItemQueue = .ok out := by
  induction n generalizing items sItemList sItemQueue with
  | zero => omega
  | succ n ih =>
    refine stretchLoop_turns (fun q qs hperm hwait => ?_) hperm
    have hmem : q ∈ sItemList := hperm.subset List.mem_cons_self
    cases hat : stretchAt s e items q with
    | none => exact ⟨1, none, by rw [stretchLoop, if_neg hwait, hat]; rfl⟩
    | some result =>
      obtain ⟨items', again⟩ := result
      obtain ⟨hlively', hless⟩ := stretchAt_rooms hnodup hlively hmem hat
      cases again with
      | true =>
        rw [if_pos rfl] at hlively' hless
        have hsorted := hsort (fun i j => stretchRate items' i < stretchRate items' j) sItemList
        obtain ⟨fuel, out, hrun⟩ := ih (hsorted.nodup_iff.mpr hnodup)
          (fun i hi => hlively' i (hsorted.subset hi)) (by rw [rooms_perm hsorted]; omega)
          (((List.perm_append_singleton q qs).trans hperm).trans hsorted.symm)
        exact ⟨fuel + 1, out, by rw [stretchLoop, if_neg hwait, hat]; exact hrun⟩
      | false =>
        rw [if_neg Bool.false_ne_true] at hlively' hless
        obtain ⟨fuel, out, hrun⟩ := ih (hnodup.erase q) hlively' (by omega)
          (List.cons_perm_iff_perm_erase.mp hperm).2
        exact ⟨fuel + 1, out, by rw [stretchLoop, if_neg hwait, hat]; exact hrun⟩

end

/-! ## Places that stay in the queue -/

theorem getEarliestDept_some {x : Item} {deptTime : Int} (h : (s :: (items ++ [x])).IsChain Leg)
    (hstays : ∀ p ∈ items, InWindow p) (hdept : deptTime ≤ s.departTime) :
    ∃ earliest items', getEarliestDept deptTime items = some (earliest, items') ∧
      deptTime ≤ earliest := by
  induction items generalizing s deptTime with
  | nil => exact ⟨deptTime, [], rfl, le_rfl⟩
  | cons p items ih =>
    obtain ⟨hleg, hchain⟩ := List.isChain_cons_cons.mp h
    obtain ⟨⟨hopen, hdur, hclose⟩, hstays⟩ := List.forall_mem_cons.mp hstays
    have htime := hleg.time_le
    have htraf := trafTime_nonneg p.arriveTraffic
    obtain ⟨arriveTime, harrive⟩ :
      ∃ arriveTime, max (deptTime + trafTime p.arriveTraffic) p.openTime = arriveTime := ⟨_, rfl⟩
    have hdept' : arriveTime + p.getDur ≤ p.departTime := by
      rw [Item.getDur]
      omega
    obtain ⟨earliest, items', hrun, hle⟩ := ih hchain hstays hdept'
    refine ⟨earliest, p.setTimes arriveTime (arriveTime + p.getDur) :: items', ?_, ?_⟩
    · rw [getEarliestDept, harrive]
      dsimp only
      rw [if_neg (by omega), hrun]
      rfl
    · rw [Item.getDur] at hle
      omega

theorem getLatestArv_some {x : Item} (h : (x :: (items ++ [e])).IsChain Leg)
    (hstays : ∀ p ∈ items, InWindow p) :
    ∃ latest items', getLatestArv e.arriveTime items = some (latest, items') := by
  induction items generalizing x with
  | nil => exact ⟨e.arriveTime, [], rfl⟩
  | cons p items ih =>
    obtain ⟨-, hchain⟩ := List.isChain_cons_cons.mp h
    obtain ⟨⟨hopen, hdur, hclose⟩, hstays⟩ := List.forall_mem_cons.mp hstays
    obtain ⟨latest, items', hrun⟩ := ih hchain hstays
    obtain ⟨-, -, hlate, -⟩ := getLatestArv_spec hchain hstays hrun
    have hfit : ¬ p.openTime >
        min (latest - trafTime p.departTraffic) p.closeTime - p.getDur := by
      rw [Item.getDur]
      omega
    exact ⟨_, _, by rw [getLatestArv, hrun]; exact if_neg hfit⟩

/-- Where everything fits, a round never gives up. -/
theorem stretchAt_some (h : Fits s e items) (hstart : 0 ≤ s.departTime)
    (hindex : index < items.length) :
    ∃ items' again, stretchAt s e items index = some (items', again) := by
  obtain ⟨hfront, hback⟩ := h.split hindex
  have hbefore := fun p hp => h.stays p (List.mem_of_mem_take (i := index) hp)
  have hbehind := fun p hp => h.stays p (List.mem_of_mem_drop (i := index + 1) hp)
  obtain ⟨earliestT, before, hrun, hle⟩ := getEarliestDept_some hfront hbefore le_rfl
  obtain ⟨latestT, behind, hrun'⟩ := getLatestArv_some hback hbehind
  obtain ⟨-, -, hearly, -⟩ := getEarliestDept_spec hfront hbefore rfl le_rfl hrun
  obtain ⟨-, -, hlate, -⟩ := getLatestArv_spec hback hbehind hrun'
  obtain ⟨hopen, hdur, hclose⟩ := h.stays _ (List.getElem_mem hindex)
  have htraf := trafTime_nonneg items[index].arriveTraffic
  have htraf' := trafTime_nonneg items[index].departTraffic
  rw [stretchAt, List.getElem?_eq_getElem hindex, hrun, hrun']
  dsimp only [Option.bind_eq_bind, Option.bind_some]
  rw [if_neg (by omega), if_neg (by omega)]
  split <;> exact ⟨_, _, rfl⟩

/-- An item that is slow stays slow, and is put back. -/
theorem stretchAt_slow {i : ℕ} {stay : Int × DurS} (h : Fits s e items)
    (hstay : (items.map Item.stay)[i]? = some stay) (hslow : Slow stay) (hzip : 0 ≤ stay.2.zip)
    (hdur : stay.2.zip ≤ stay.1) (hrun : stretchAt s e items index = some (items', again)) :
    (items'.map Item.stay)[i]? = some stay ∧ (again = false → i ≠ index) := by
  obtain ⟨item, freeTime, hitem, hstays, hagain, hroom⟩ := stretchAt_stays hrun
  have hroom := hroom h
  rcases eq_or_ne i index with rfl | hne
  · obtain rfl : item.stay = stay := by
      rw [List.getElem?_map, hitem] at hstay
      exact Option.some.inj hstay
    obtain ⟨hshort, hextend⟩ := hslow
    rw [Item.stay] at *
    dsimp only at *
    have hsame : item.stretched = item.getDur := by
      rw [Item.stretched, Int.tdiv_eq_ediv_of_nonneg (by omega)]
      omega
    obtain rfl : again = true := hagain.mpr (by omega)
    rw [hstays, hsame, min_eq_left hroom]
    refine ⟨?_, fun h => absurd h (by simp)⟩
    rw [List.getElem?_set_self (by simpa using (List.getElem?_eq_some_iff.mp hitem).1)]
  · rw [hstays, List.getElem?_set_ne hne.symm]
    exact ⟨hstay, fun _ => hne⟩

section

variable {sort : (ℕ → ℕ → Bool) → List ℕ → List ℕ}

theorem stretchLoop_slow {i : ℕ} {stay : Int × DurS} {fuel : ℕ} (h : Fits s e items)
    (hstart : 0 ≤ s.departTime) (hzips : ∀ p ∈ items, 0 ≤ p.durS.zip)
    (hstay : (items.map Item.stay)[i]? = some stay) (hslow : Slow stay) (hzip : 0 ≤ stay.2.zip)
    (hdur : stay.2.zip ≤ stay.1) (hqueue : ∀ q ∈ sItemQueue, q < items.length)
    (hmem : i ∈ sItemQueue) :
    stretchLoop sort s e fuel items sItemList sItemQueue = .error .outOfFuel := by
  induction fuel generalizing items sItemList sItemQueue with
  | zero =>
    obtain ⟨q, qs, rfl⟩ := List.exists_cons_of_ne_nil (List.ne_nil_of_mem hmem)
    rw [stretchLoop]
    exact List.cons_ne_nil q qs
  | succ fuel ih =>
    obtain ⟨q, qs, rfl⟩ := List.exists_cons_of_ne_nil (List.ne_nil_of_mem hmem)
    have hrotate : qs ++ [q] ⊆ q :: qs := (List.perm_append_singleton q qs).subset
    have hback : q :: qs ⊆ qs ++ [q] := (List.perm_append_singleton q qs).symm.subset
    rw [stretchLoop]
    split_ifs with hwait
    · exact ih h hzips hstay (fun q hq => hqueue q (hrotate hq)) (hback hmem)
    · obtain ⟨items', again, hat⟩ := stretchAt_some h hstart (hqueue q List.mem_cons_self)
      obtain ⟨hmap, hfits⟩ := stretchAt_fits h hzips hat
      have hlength : items'.length = items.length := by simpa using congrArg List.length hmap
      obtain ⟨hstay', hagain⟩ := stretchAt_slow h hstay hslow hzip hdur hat
      rw [hat]
      cases again with
      | true =>
        exact ih hfits (zip_of_untimed hmap hzips) hstay'
          (fun q hq => hlength ▸ hqueue q (hrotate hq)) (hback hmem)
      | false =>
        exact ih hfits (zip_of_untimed hmap hzips) hstay'
          (fun q hq => hlength ▸ hqueue q (List.mem_cons_of_mem _ hq))
          ((List.mem_cons.mp hmem).resolve_left (hagain rfl))

/-! ## Every segment -/

def Ends (sort : (ℕ → ℕ → Bool) → List ℕ → List ℕ) (s e : Item) (items : List Item) : Prop :=
  ∃ fuel out, timeStretch sort fuel s e items = .ok out

theorem timeStretch_ends (hsort : ∀ lt l, (sort lt l).Perm l) (hzip : ∀ p ∈ items, 0 ≤ p.durS.zip)
    (hslow : ∀ p ∈ items, ¬ Slow p.stay) : Ends sort s e items := by
  have hperm := (hsort (fun i j => stretchRate items i < stretchRate items j)
    (sort (fun i j => hotLevelAt items i > hotLevelAt items j) (List.range items.length))).trans
    (hsort _ _)
  refine stretchLoop_ends hsort _ (hperm.nodup_iff.mpr List.nodup_range) (fun i hi => ?_)
    (Nat.lt_succ_self _) (hsort _ _).symm
  have hindex : i < items.length := List.mem_range.mp (hperm.subset hi)
  rw [List.getD_eq_getElem?_getD, List.getElem?_map, List.getElem?_eq_getElem hindex]
  exact ⟨hzip _ (List.getElem_mem hindex), hslow _ (List.getElem_mem hindex)⟩

theorem not_ends_of_slow (hsort : ∀ lt l, (sort lt l).Perm l) (h : Fits s e items)
    (hstart : 0 ≤ s.departTime) (hzip : ∀ p ∈ items, 0 ≤ p.durS.zip)
    (hdur : ∀ p ∈ items, p.durS.zip ≤ p.getDur) {p : Item} (hp : p ∈ items)
    (hslow : Slow p.stay) : ¬ Ends sort s e items := by
  rintro ⟨fuel, out, hrun⟩
  obtain ⟨i, hindex, rfl⟩ := List.mem_iff_getElem.mp hp
  have hstay : (items.map Item.stay)[i]? = some items[i].stay := by
    rw [List.getElem?_map, List.getElem?_eq_getElem hindex]
    rfl
  rw [timeStretch, stretchLoop_slow h hstart hzip hstay hslow (hzip _ hp) (hdur _ hp)
    (fun q hq => List.mem_range.mp ((hsort _ _).subset hq))
    ((hsort _ _).symm.subset (List.mem_range.mpr hindex))] at hrun
  cases hrun

/-- Stretching ends if no stay is slow; where everything fits, and no stay is shorter than its least
duration, it ends only then. -/
theorem timeStretch_ends_iff (hsort : ∀ lt l, (sort lt l).Perm l)
    (hzip : ∀ p ∈ items, 0 ≤ p.durS.zip) :
    ((∀ p ∈ items, ¬ Slow p.stay) → Ends sort s e items) ∧
      (Fits s e items → 0 ≤ s.departTime → (∀ p ∈ items, p.durS.zip ≤ p.getDur) →
        (Ends sort s e items ↔ ∀ p ∈ items, ¬ Slow p.stay)) :=
  ⟨timeStretch_ends hsort hzip, fun h hstart hdur =>
    ⟨fun hends _ hp hslow => not_ends_of_slow hsort h hstart hzip hdur hp hslow hends,
      timeStretch_ends hsort hzip⟩⟩

end

/-- A sort as `std::sort` does it for few items. -/
def insertionSorted (lt : ℕ → ℕ → Bool) (l : List ℕ) : List ℕ :=
  l.insertionSort fun i j => lt j i = false

theorem insertionSorted_perm (lt : ℕ → ℕ → Bool) (l : List ℕ) : (insertionSorted lt l).Perm l :=
  List.perm_insertionSort _ l

def dayStart : Item where
  type := NODE_FUNC_KEY
  departTime := 1491786000
  closeTime := 1491786000

def dayEnd : Item where
  type := NODE_FUNC_KEY
  arriveTime := 1491796800
  departTime := 1491796800
  closeTime := 1491796800

def museum (dur : Int) (durS : DurS) : Item where
  placeType := 2
  arriveTime := 1491786000
  departTime := 1491786000 + dur
  openTime := 1491786000
  closeTime := 1491818400
  durS := durS

/-- The museum is stretched from 1620 seconds to 1782. -/
theorem timeStretch_ends_iff_museum :
    ((∀ p ∈ [museum 1620 { zip := 1620, rcmd := 1800, extend := 1782 }], ¬ Slow p.stay) →
      Ends insertionSorted dayStart dayEnd
        [museum 1620 { zip := 1620, rcmd := 1800, extend := 1782 }]) ∧
    (Fits dayStart dayEnd [museum 1620 { zip := 1620, rcmd := 1800, extend := 1782 }] →
      0 ≤ dayStart.departTime →
      (∀ p ∈ [museum 1620 { zip := 1620, rcmd := 1800, extend := 1782 }],
        p.durS.zip ≤ p.getDur) →
      (Ends insertionSorted dayStart dayEnd
        [museum 1620 { zip := 1620, rcmd := 1800, extend := 1782 }] ↔
        ∀ p ∈ [museum 1620 { zip := 1620, rcmd := 1800, extend := 1782 }], ¬ Slow p.stay)) :=
  timeStretch_ends_iff insertionSorted_perm (by decide)

/-- A stay of no time at all is never longer. -/
theorem not_timeStretch_ends : ¬ ∀ (sort : (ℕ → ℕ → Bool) → List ℕ → List ℕ) (s e : Item)
    (items : List Item), (∀ lt l, (sort lt l).Perm l) →
    (∀ p ∈ items, 0 ≤ p.durS.zip ∧ p.durS.zip ≤ p.durS.extend) → Ends sort s e items := by
  intro hall
  refine not_ends_of_slow (p := museum 0 { rcmd := 1800, extend := 1800 }) insertionSorted_perm
    ⟨?_, ?_⟩ (by decide) (by decide) (by decide) (List.mem_singleton_self _) ⟨by decide, by decide⟩
    (hall insertionSorted dayStart dayEnd [museum 0 { rcmd := 1800, extend := 1800 }]
      insertionSorted_perm (by decide))
  · simp [Leg, dayStart, dayEnd, museum, trafTime]
  · simp [InWindow, museum]

end PPView.RealTime
