import PPView.Library.SwapOrders
import PPView.Plan.TrafRoute

/-!
# Trying the orders of the days

`RouteSearch::Perm` swaps the days of a range in place until a route can be laid through them.
-/

namespace PPView.RouteSearch

open SwapOrders (swap swapOrders)

variable {σ : Type}

/-- A `DayItem`, by the places of the day. -/
structure DayItem where
  m_orderList : List PlaceOrder
  deriving DecidableEq, Repr

/-- What a call of `TrafRoute::DoRoute` can do to the plan and to the new path, together `σ`. -/
structure RouteCalls (σ : Type) where
  doRoute : σ → List PlaceOrder → Int × σ
  m_isValid : σ → Bool
  reset : σ → σ

/-- The state of the search. `tried` lists the attempts, and whether they succeeded; it is not read
by the search. -/
structure Search (σ : Type) where
  dayList : List DayItem
  newPath : σ
  tried : List (List DayItem × Bool) := []

def swapTwoDays (dayList : List DayItem) (lDay rDay : ℕ) : List DayItem :=
  if lDay = rDay then dayList else swap dayList lDay rDay

def orderListOf (dateList : List String) (dayList : List DayItem) : List PlaceOrder :=
  dayList.zipIdx.flatMap fun (day, i) =>
    day.m_orderList.map fun placeOrder => { placeOrder with date := dateList.getD i "" }

/-- The branch `dayStart >= dayEnd`, behind which the loop is empty. -/
def attempt (r : RouteCalls σ) (dateList : List String) (s : Search σ) : Int × Search σ :=
  let (ret, newPath) := r.doRoute s.newPath (orderListOf dateList s.dayList)
  if ret = 0 ∧ r.m_isValid newPath then
    (0, { s with newPath, tried := s.tried ++ [(s.dayList, true)] })
  else
    (1, { s with newPath := r.reset newPath, tried := s.tried ++ [(s.dayList, false)] })

/-- The loop of `Perm`; `rec` is the call for the rest of the range. -/
def permLoop (rec : Search σ → Int × Search σ) (dayStart : ℕ) :
    List ℕ → Search σ → Int × Search σ
  | [], s => (1, s)
  | i :: l, s =>
    let s := if i ≠ dayStart then { s with dayList := swapTwoDays s.dayList dayStart i } else s
    let (ret, s) := rec s
    if ret = 0 then (0, s)
    else
      permLoop rec dayStart l
        (if i ≠ dayStart then { s with dayList := swapTwoDays s.dayList i dayStart } else s)

def perm (r : RouteCalls σ) (dateList : List String) (dayStart dayEnd : ℕ) (s : Search σ) :
    Int × Search σ :=
  if dayStart ≥ dayEnd then attempt r dateList s
  else
    permLoop (perm r dateList (dayStart + 1) dayEnd) dayStart
      (List.range' dayStart (dayEnd - dayStart)) s
termination_by dayEnd - dayStart

/-! ## Runs -/

variable {r : RouteCalls σ} {dateList : List String} {dayList : List DayItem} {s s' : Search σ}
  {orders orders' : List (List DayItem)} {dayStart dayEnd i : ℕ} {out : Int × Search σ}

@[simp] theorem swapTwoDays_eq (dayList : List DayItem) (lDay rDay : ℕ) :
    swapTwoDays dayList lDay rDay = swap dayList lDay rDay := by
  rw [swapTwoDays]
  split_ifs with h
  · rw [h, SwapOrders.swap_self]
  · rfl

/-- Both calls of `SwapTwoDays` are skipped where they would do nothing. -/
theorem ite_swapTwoDays (s : Search σ) (i j : ℕ) (p : Prop) [Decidable p] (h : ¬p → i = j) :
    (if p then { s with dayList := swapTwoDays s.dayList i j } else s) =
      { s with dayList := swap s.dayList i j } := by
  by_cases hp : p
  · rw [if_pos hp, swapTwoDays_eq]
  · rw [if_neg hp, h hp, SwapOrders.swap_self]

/-- The lists `orders` are attempted in turn, until one attempt succeeds. -/
def Attempts (s : Search σ) (orders : List (List DayItem)) (out : Int × Search σ) : Prop :=
  (out.1 = 1 ∧ out.2.dayList = s.dayList ∧ out.2.tried = s.tried ++ orders.map (·, false)) ∨
  out.1 = 0 ∧ ∃ failed rest, orders = failed ++ out.2.dayList :: rest ∧
    out.2.tried = s.tried ++ (failed.map (·, false) ++ [(out.2.dayList, true)])

theorem attempt_attempts (r : RouteCalls σ) (dateList : List String) (s : Search σ) :
    Attempts s [s.dayList] (attempt r dateList s) := by
  simp only [attempt]
  split_ifs with h
  · exact .inr ⟨rfl, [], [], by simp⟩
  · exact .inl ⟨rfl, rfl, by simp⟩

/-- A run that fails goes on with the lists that follow. -/
theorem Attempts.append (h : Attempts s orders (1, s')) (h' : Attempts s' orders' out)
    (hs' : s'.dayList = s.dayList) : Attempts s (orders ++ orders') out := by
  rcases h with ⟨-, -, htried⟩ | ⟨h0, -⟩
  · rcases h' with ⟨h1, hday, htried'⟩ | ⟨h0, failed, rest, horders, htried'⟩
    · refine .inl ⟨h1, hday.trans hs', ?_⟩
      rw [htried', htried, List.map_append, List.append_assoc]
    · refine .inr ⟨h0, orders ++ failed, rest, ?_, ?_⟩
      · rw [horders, List.append_assoc]
      · rw [htried', htried, List.map_append, List.append_assoc, List.append_assoc]
  · simp at h0

theorem permLoop_attempts {rec : Search σ → Int × Search σ}
    {F : List DayItem → List (List DayItem)}
    (hrec : ∀ s, Attempts s (F s.dayList) (rec s)) (dayStart : ℕ) (l : List ℕ) (s : Search σ) :
    Attempts s (l.flatMap fun i => F (swap s.dayList dayStart i))
      (permLoop rec dayStart l s) := by
  induction l generalizing s with
  | nil => exact .inl ⟨rfl, rfl, by simp [permLoop]⟩
  | cons i l ih =>
    rw [permLoop, List.flatMap_cons,
      ite_swapTwoDays s dayStart i _ fun h => (not_not.mp h).symm]
    dsimp only
    have hhead := hrec { s with dayList := swap s.dayList dayStart i }
    rcases hcall : rec { s with dayList := swap s.dayList dayStart i } with ⟨ret, t⟩
    rw [hcall] at hhead
    rw [ite_swapTwoDays t i dayStart _ fun h => not_not.mp h]
    rcases hhead with ⟨h1, hday, htried⟩ | ⟨h0, failed, rest, horders, htried⟩
    · obtain rfl : ret = 1 := h1
      rw [if_neg (by simp)]
      -- The second swap takes back the first.
      have hback : swap t.dayList i dayStart = s.dayList := by
        rw [show t.dayList = swap s.dayList dayStart i from hday, SwapOrders.swap_swap]
      have hloop := ih { t with dayList := swap t.dayList i dayStart }
      rw [hback] at hloop ⊢
      have hfirst : Attempts s (F (swap s.dayList dayStart i))
          (1, { t with dayList := s.dayList }) := .inl ⟨rfl, rfl, htried⟩
      exact Attempts.append hfirst hloop rfl
    · obtain rfl : ret = 0 := h0
      rw [if_pos rfl]
      refine .inr ⟨rfl, failed, rest ++ l.flatMap fun i => F (swap s.dayList dayStart i), ?_, ?_⟩
      · rw [show F (swap s.dayList dayStart i) = failed ++ t.dayList :: rest from horders]
        simp
      · exact htried

theorem perm_attempts (r : RouteCalls σ) (dateList : List String) (dayStart dayEnd : ℕ)
    (s : Search σ) :
    Attempts s (swapOrders dayStart dayEnd s.dayList) (perm r dateList dayStart dayEnd s) := by
  induction hn : dayEnd - dayStart generalizing dayStart s with
  | zero =>
    rw [perm, if_pos (by omega), SwapOrders.swapOrders_of_le (by omega)]
    exact attempt_attempts r dateList s
  | succ n ih =>
    rw [perm, if_neg (by omega), SwapOrders.swapOrders_of_lt (by omega)]
    exact permLoop_attempts (fun s => ih (dayStart + 1) s (by omega)) dayStart _ s

/-! ## Orders of the days -/

/-- `order` lists the `n` days, each once, and leaves those outside `[dayStart, dayEnd)`. -/
structure IsOrder (n dayStart dayEnd : ℕ) (order : List ℕ) : Prop where
  perm : order.Perm (List.range n)
  fixed : ∀ i < n, i < dayStart ∨ dayEnd ≤ i → order[i]? = some i

def arrange (dayList : List DayItem) (order : List ℕ) : List DayItem :=
  order.map fun i => dayList.getD i ⟨[]⟩

theorem arrange_range (dayList : List DayItem) :
    arrange dayList (List.range dayList.length) = dayList := by
  refine List.ext_getElem (by simp [arrange]) fun i hi hi' => ?_
  simp [arrange, hi']

theorem isOrder_iff {n : ℕ} {order : List ℕ} (h : dayStart < dayEnd → dayEnd ≤ n) :
    order ∈ swapOrders dayStart dayEnd (List.range n) ↔ IsOrder n dayStart dayEnd order := by
  rw [SwapOrders.mem_swapOrders_iff (by simpa using h)]
  constructor
  · rintro ⟨hperm, hfixed⟩
    exact ⟨hperm, fun i hi hout => by rw [hfixed i hout, List.getElem?_range hi]⟩
  · rintro ⟨hperm, hfixed⟩
    refine ⟨hperm, fun i hout => ?_⟩
    rcases Nat.lt_or_ge i n with hi | hi
    · rw [hfixed i hi hout, List.getElem?_range hi]
    · rw [List.getElem?_eq_none (by simpa [hperm.length_eq] using hi),
        List.getElem?_eq_none (by simpa using hi)]

/-- `Perm` attempts orders of the range that are pairwise different. When it fails it has attempted
all of them and leaves the days as they were; when it succeeds it leaves the days in the order of
its last attempt, which is the only one that succeeded. -/
theorem perm_tries (r : RouteCalls σ) (dateList : List String) (dayList : List DayItem)
    (newPath : σ) (dayStart dayEnd : ℕ) (h : dayStart < dayEnd → dayEnd ≤ dayList.length) :
    ∃ orders : List (List ℕ), orders.Nodup ∧
      (∀ order ∈ orders, IsOrder dayList.length dayStart dayEnd order) ∧
      let (ret, s) := perm r dateList dayStart dayEnd { dayList, newPath }
      s.tried.map Prod.fst = orders.map (arrange dayList) ∧
        ((ret = 1 ∧ (∀ order, IsOrder dayList.length dayStart dayEnd order → order ∈ orders) ∧
            (∀ t ∈ s.tried, t.2 = false) ∧ s.dayList = dayList) ∨
          ret = 0 ∧ ∃ failed, s.tried = failed ++ [(s.dayList, true)] ∧
            ∀ t ∈ failed, t.2 = false) := by
  have hall : swapOrders dayStart dayEnd dayList =
      (swapOrders dayStart dayEnd (List.range dayList.length)).map (arrange dayList) := by
    calc swapOrders dayStart dayEnd dayList
        = swapOrders dayStart dayEnd ((List.range dayList.length).map (dayList.getD · ⟨[]⟩)) :=
          congrArg _ (arrange_range dayList).symm
      _ = _ := SwapOrders.swapOrders_map _ _
  have hnodup : (swapOrders dayStart dayEnd (List.range dayList.length)).Nodup :=
    SwapOrders.nodup_swapOrders_of List.nodup_range (by simpa using h)
  have hrun := perm_attempts r dateList dayStart dayEnd { dayList, newPath }
  rcases hout : perm r dateList dayStart dayEnd { dayList, newPath } with ⟨ret, s⟩
  rw [hout] at hrun
  rcases hrun with ⟨hret, hday, htried⟩ | ⟨hret, failed, rest, horders, htried⟩
  · dsimp only [List.nil_append] at htried
    refine ⟨_, hnodup, fun order ho => (isOrder_iff h).mp ho, ?_, .inl ⟨hret, ?_, ?_, hday⟩⟩
    · simp [htried, ← hall, Function.comp_def]
    · exact fun order ho => (isOrder_iff h).mpr ho
    · simp [htried]
  · dsimp only at horders htried
    rw [hall] at horders
    obtain ⟨orders, orders', hsplit, hfailed, htail⟩ := List.map_eq_append_iff.mp horders
    obtain ⟨order, tail, rfl, hlast, -⟩ := List.map_eq_cons_iff.mp htail
    refine ⟨orders ++ [order], ?_, ?_, ?_, .inr ⟨hret, failed.map (·, false), ?_, ?_⟩⟩
    · rw [hsplit, List.append_cons] at hnodup
      exact hnodup.of_append_left
    · intro o ho
      refine (isOrder_iff h).mp ?_
      rw [hsplit, List.append_cons]
      exact List.mem_append_left _ ho
    · simp [htried, hfailed, hlast, Function.comp_def]
    · simpa using htried
    · simp

/-- Two days behind the first, and no route through any order of them. -/
theorem perm_tries_failing :
    ∃ orders : List (List ℕ), orders.Nodup ∧
      (∀ order, IsOrder 3 1 3 order → order ∈ orders) ∧
      (perm ⟨fun _ _ => (1, ()), fun _ => false, id⟩ ["0101", "0102", "0103"] 1 3
        { dayList := [⟨[]⟩, ⟨[]⟩, ⟨[]⟩], newPath := () }).2.tried.map Prod.fst =
          orders.map (arrange [⟨[]⟩, ⟨[]⟩, ⟨[]⟩]) := by
  obtain ⟨orders, hnodup, -, htried, ⟨-, hall, -⟩ | ⟨hret, -⟩⟩ :=
    perm_tries (σ := Unit) ⟨fun _ _ => (1, ()), fun _ => false, id⟩ ["0101", "0102", "0103"]
      [⟨[]⟩, ⟨[]⟩, ⟨[]⟩] () 1 3 (by decide)
  · exact ⟨orders, hnodup, hall, htried⟩
  · simp [perm, permLoop, attempt, List.range'] at hret

end PPView.RouteSearch
