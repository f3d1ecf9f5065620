import Mathlib.Algebra.Order.Field.Rat
import Mathlib.Algebra.Order.Ring.Unbundled.Basic
import Mathlib.Data.String.Basic
import PPView.Library.Json
import PPView.Library.RunningLeast

/-!
# The cheapest ticket of a tour

`LYConstData::GetBottomTicketAndPrice` compares the tickets of a tour by their lowest prices, which
it converts into one currency. `GetTicketPriceOfTheDate` lowers the price that it is handed, and
that is not reset from one ticket to the next. Prices are rational numbers here.
-/

namespace PPView.LYConstData

/-- `std::numeric_limits<float>::max()`. -/
def FLT_MAX : ℚ := (2 ^ 24 - 1) * 2 ^ 104

/-- The price entry has a first day, a last day and a price. -/
def IsPrice (jPrice : Json) : Prop :=
  jPrice.isMember "f" ∧ (jPrice.get "f").isString ∧ jPrice.isMember "t" ∧
    (jPrice.get "t").isString ∧ jPrice.isMember "p" ∧ (jPrice.get "p").isDouble

instance (jPrice : Json) : Decidable (IsPrice jPrice) := inferInstanceAs (Decidable (_ ∧ _))

/-- `asString` of a member that is a string. -/
def text (jPrice : Json) (key : String) : String := (jPrice.get key).asString.getD ""

/-- `asDouble` of a price. -/
def price (jPrice : Json) : ℚ := ((jPrice.get "p").asDouble).getD 0

/-- The price entries are objects, and a price is dated. -/
structure TicketsFun where
  m_ccy : String
  m_date_price : List Json
  objects : ∀ jPrice ∈ m_date_price, jPrice.isObject
  dated : ∀ jPrice ∈ m_date_price, IsPrice jPrice → text jPrice "f" ≠ ""

/-- `RateExchange::curConv` into the currency of the prices that are shown. -/
def curConv (curUnitMap : String → Option ℚ) (num : ℚ) (src : String) : ℚ :=
  match curUnitMap src with
  | some rate => num * rate
  | none => 0

/-- `std::find` of a number in an array. -/
def hasNumber (n : Int) : Json → Bool
  | .arr items => items.any fun
    | .int item => item = n
    | _ => false
  | _ => false

/-- A turn of the loop over the price entries. -/
def priceStep (getWeekByDate : String → Int) (date : String) (found : Bool × ℚ) (jPrice : Json) :
    Bool × ℚ :=
  if IsPrice jPrice then
    if date ≤ text jPrice "t" ∧ text jPrice "f" ≤ date then
      if jPrice.isMember "w" ∧ (jPrice.get "w").isArray then
        let wd := getWeekByDate date
        if hasNumber wd (jPrice.get "w") then (true, price jPrice) else found
      else (true, price jPrice)
    else if date = "" then (true, if found.2 > price jPrice then price jPrice else found.2)
    else found
  else found

/-- Whether there is a price, and what `low_price` becomes. -/
def getTicketPriceOfTheDate (getWeekByDate : String → Int) (ticket : TicketsFun) (date : String)
    (low_price : ℚ) : Bool × ℚ :=
  ticket.m_date_price.foldl (priceStep getWeekByDate date) (false, low_price)

structure BottomState where
  low_price : ℚ := FLT_MAX
  bottomPrice : ℚ := FLT_MAX
  tmp_bottomPrice : ℚ := FLT_MAX
  bottomTicket : Option TicketsFun := none

/-- A turn of the loop over the tickets. -/
def bottomStep (getWeekByDate : String → Int) (curUnitMap : String → Option ℚ) (s : BottomState)
    (ticket : TicketsFun) : BottomState :=
  let (hasTicket, low_price) := getTicketPriceOfTheDate getWeekByDate ticket "" s.low_price
  let s := { s with low_price }
  if hasTicket then
    let tmp_low_price := curConv curUnitMap low_price ticket.m_ccy
    if s.tmp_bottomPrice > tmp_low_price then
      { s with
        bottomPrice := low_price
        bottomTicket := some ticket
        tmp_bottomPrice := tmp_low_price }
    else s
  else s

/-- The tickets are those of the tour. -/
def getBottomTicketAndPrice (getWeekByDate : String → Int) (curUnitMap : String → Option ℚ)
    (tickets : List TicketsFun) : Bool × Option TicketsFun × ℚ :=
  let s := tickets.foldl (bottomStep getWeekByDate curUnitMap) {}
  (s.bottomTicket.isSome, s.bottomTicket, s.bottomPrice)

/-! ## The lowest price of a ticket -/

namespace TicketsFun

def prices (ticket : TicketsFun) : List ℚ := (ticket.m_date_price.filter (IsPrice ·)).map price

def lowestPrice (ticket : TicketsFun) : Option ℚ := ticket.prices.min?

end TicketsFun

variable {getWeekByDate : String → Int} {curUnitMap : String → Option ℚ} {ticket : TicketsFun}
  {tickets : List TicketsFun} {low_price : ℚ}

theorem priceStep_empty {jPrice : Json} (hprice : IsPrice jPrice) (hdated : text jPrice "f" ≠ "")
    (found : Bool × ℚ) :
    priceStep getWeekByDate "" found jPrice = (true, min found.2 (price jPrice)) := by
  have hfirst : ¬ text jPrice "f" ≤ "" := by
    rw [not_le, String.lt_iff_toList_lt]
    cases hchars : (text jPrice "f").toList with
    | nil => exact absurd (String.toList_eq_nil_iff.mp hchars) hdated
    | cons c chars => exact List.nil_lt_cons c chars
  rw [priceStep, if_pos hprice, if_neg fun h => hfirst h.2, if_pos rfl]
  congr 1
  split_ifs with hlt
  · exact (min_eq_right hlt.le).symm
  · exact (min_eq_left (not_lt.mp hlt)).symm

theorem foldl_priceStep_empty {jPrices : List Json}
    (hdated : ∀ jPrice ∈ jPrices, IsPrice jPrice → text jPrice "f" ≠ "") (found : Bool × ℚ) :
    jPrices.foldl (priceStep getWeekByDate "") found =
      let prices := (jPrices.filter (IsPrice ·)).map price
      (found.1 || !prices.isEmpty, prices.foldl min found.2) := by
  induction jPrices generalizing found with
  | nil => simp
  | cons jPrice jPrices ih =>
    obtain ⟨hhead, htail⟩ := List.forall_mem_cons.mp hdated
    rw [List.foldl_cons, ih htail]
    by_cases hprice : IsPrice jPrice
    · rw [priceStep_empty hprice (hhead hprice), List.filter_cons_of_pos (by simpa using hprice)]
      simp
    · rw [priceStep, if_neg hprice, List.filter_cons_of_neg (by simpa using hprice)]

/-- Without a date the price is lowered to the lowest one of the ticket. -/
theorem getTicketPriceOfTheDate_empty (low_price : ℚ) (ticket : TicketsFun) :
    getTicketPriceOfTheDate getWeekByDate ticket "" low_price =
      match ticket.lowestPrice with
      | some lowest => (true, min low_price lowest)
      | none => (false, low_price) := by
  rw [getTicketPriceOfTheDate, foldl_priceStep_empty ticket.dated]
  change (false || !ticket.prices.isEmpty, ticket.prices.foldl min low_price) = _
  unfold TicketsFun.lowestPrice
  cases hprices : ticket.prices with
  | nil => rfl
  | cons lowest prices =>
    rw [List.foldl_min, List.min?_cons']
    simp

/-! ## The tickets -/

/-- The tickets that have a price, each with its lowest one. -/
def priced (tickets : List TicketsFun) : List (TicketsFun × ℚ) :=
  tickets.filterMap fun ticket => ticket.lowestPrice.map (ticket, ·)

/-- A price converted as one of the ticket. -/
def convert (curUnitMap : String → Option ℚ) (offer : TicketsFun × ℚ) (price : ℚ) : ℚ :=
  curConv curUnitMap price offer.1.m_ccy

theorem mem_priced {offer : TicketsFun × ℚ} :
    offer ∈ priced tickets ↔ offer.1 ∈ tickets ∧ offer.1.lowestPrice = some offer.2 := by
  simp only [priced, List.mem_filterMap, Option.map_eq_some_iff]
  constructor
  · rintro ⟨ticket, hticket, lowest, hlowest, rfl⟩
    exact ⟨hticket, hlowest⟩
  · rintro ⟨hticket, hlowest⟩
    exact ⟨offer.1, hticket, offer.2, hlowest, rfl⟩

/-- The loop finds the least conversion of what it takes for the lowest price of each ticket. -/
theorem foldl_bottomStep (getWeekByDate : String → Int) (curUnitMap : String → Option ℚ)
    (tickets : List TicketsFun) (s : BottomState)
    (best : Option ((TicketsFun × ℚ) × ℚ)) (hticket : s.bottomTicket = best.map (·.1.1))
    (hprice : s.bottomPrice = (best.map Prod.snd).getD FLT_MAX) :
    let s' := tickets.foldl (bottomStep getWeekByDate curUnitMap) s
    let best' := leastFrom (fun o => convert curUnitMap o.1 o.2) best s.tmp_bottomPrice
      (lowered Prod.snd s.low_price (priced tickets))
    s'.bottomTicket = best'.map (·.1.1) ∧ s'.bottomPrice = (best'.map Prod.snd).getD FLT_MAX := by
  induction tickets generalizing s best with
  | nil => exact ⟨hticket, hprice⟩
  | cons ticket tickets ih =>
    rw [List.foldl_cons]
    cases hlowest : ticket.lowestPrice with
    | none =>
      have hstep : bottomStep getWeekByDate curUnitMap s ticket = s := by
        simp [bottomStep, getTicketPriceOfTheDate_empty, hlowest]
      have hpriced : priced (ticket :: tickets) = priced tickets := by
        simp [priced, hlowest]
      rw [hstep, hpriced]
      exact ih s best hticket hprice
    | some lowest =>
      have hpriced : priced (ticket :: tickets) = (ticket, lowest) :: priced tickets := by
        simp [priced, hlowest]
      rw [hpriced, lowered, leastFrom]
      simp only [bottomStep, getTicketPriceOfTheDate_empty, hlowest, if_true]
      by_cases hlt : curConv curUnitMap (min s.low_price lowest) ticket.m_ccy < s.tmp_bottomPrice
      · simp only [convert, hlt, if_true]
        exact ih _ (some ((ticket, lowest), min s.low_price lowest)) rfl rfl
      · simp only [convert, hlt, if_false]
        exact ih _ best hticket hprice

/-- The result says whether there is a price, and gives the ticket whose lowest price converts to
the least. -/
structure FindsBottom (curUnitMap : String → Option ℚ) (tickets : List TicketsFun)
    (result : Bool × Option TicketsFun × ℚ) : Prop where
  found : result.1 = true ↔ ∃ ticket ∈ tickets, ∃ jPrice ∈ ticket.m_date_price, IsPrice jPrice
  lowest : result.1 = true → ∃ ticket ∈ tickets, result.2.1 = some ticket ∧
    ticket.lowestPrice = some result.2.2 ∧
    ∀ other ∈ tickets, ∀ jPrice ∈ other.m_date_price, IsPrice jPrice →
      curConv curUnitMap result.2.2 ticket.m_ccy ≤ curConv curUnitMap (price jPrice) other.m_ccy

/-- Where an earlier ticket has a lower number as its price, so that the loop takes that number for
a price of this ticket, the conversion of that number is beaten. -/
def UndercutBeaten (curUnitMap : String → Option ℚ) (offers : List (TicketsFun × ℚ)) : Prop :=
  ∀ before offer after, offers = before ++ offer :: after →
    runningLeast Prod.snd FLT_MAX before < offer.2 →
      (∃ other ∈ offers, convert curUnitMap other other.2 <
          convert curUnitMap offer (runningLeast Prod.snd FLT_MAX before)) ∨
        ∃ other ∈ before, convert curUnitMap other other.2 ≤
          convert curUnitMap offer (runningLeast Prod.snd FLT_MAX before)

theorem lowestPrice_eq_some_iff {lowest : ℚ} : ticket.lowestPrice = some lowest ↔
    (∃ jPrice ∈ ticket.m_date_price, IsPrice jPrice ∧ price jPrice = lowest) ∧
      ∀ jPrice ∈ ticket.m_date_price, IsPrice jPrice → lowest ≤ price jPrice := by
  rw [TicketsFun.lowestPrice, List.min?_eq_some_iff]
  simp only [TicketsFun.prices, List.mem_map, List.mem_filter, decide_eq_true_eq, and_assoc]
  apply and_congr_right'
  constructor
  · intro h jPrice hmem hprice
    exact h _ ⟨jPrice, hmem, hprice, rfl⟩
  · rintro h _ ⟨jPrice, hmem, hprice, rfl⟩
    exact h jPrice hmem hprice

theorem exists_lowestPrice {jPrice : Json} (hmem : jPrice ∈ ticket.m_date_price)
    (hprice : IsPrice jPrice) : ∃ lowest, ticket.lowestPrice = some lowest := by
  rw [← Option.ne_none_iff_exists', TicketsFun.lowestPrice, ne_eq, List.min?_eq_none_iff]
  intro hnone
  have hmem' : price jPrice ∈ ticket.prices :=
    List.mem_map_of_mem (List.mem_filter.mpr ⟨hmem, by simpa using hprice⟩)
  rw [hnone] at hmem'
  exact absurd hmem' List.not_mem_nil

theorem priced_ne_nil_iff : priced tickets ≠ [] ↔
    ∃ ticket ∈ tickets, ∃ jPrice ∈ ticket.m_date_price, IsPrice jPrice := by
  rw [ne_eq, List.eq_nil_iff_forall_not_mem]
  push Not
  constructor
  · rintro ⟨offer, hoffer⟩
    obtain ⟨hticket, hlowest⟩ := mem_priced.mp hoffer
    obtain ⟨⟨jPrice, hmem, hprice, -⟩, -⟩ := lowestPrice_eq_some_iff.mp hlowest
    exact ⟨offer.1, hticket, jPrice, hmem, hprice⟩
  · rintro ⟨ticket, hticket, jPrice, hmem, hprice⟩
    obtain ⟨lowest, hlowest⟩ := exists_lowestPrice hmem hprice
    exact ⟨(ticket, lowest), mem_priced.mpr ⟨hticket, hlowest⟩⟩

theorem getBottomTicketAndPrice_eq (getWeekByDate : String → Int)
    (curUnitMap : String → Option ℚ) (tickets : List TicketsFun) :
    getBottomTicketAndPrice getWeekByDate curUnitMap tickets =
      let best := least (fun o => convert curUnitMap o.1 o.2) FLT_MAX
        (lowered Prod.snd FLT_MAX (priced tickets))
      (best.isSome, best.map (·.1.1), (best.map Prod.snd).getD FLT_MAX) := by
  obtain ⟨hticket, hprice⟩ := foldl_bottomStep getWeekByDate curUnitMap tickets {} none rfl rfl
  simp only [getBottomTicketAndPrice, hticket, hprice, Option.isSome_map]
  rfl

theorem monotone_convert (offer : TicketsFun × ℚ)
    (hrate : ∃ rate, curUnitMap offer.1.m_ccy = some rate ∧ 0 < rate) :
    Monotone (convert curUnitMap offer) := by
  obtain ⟨rate, hrate, hpos⟩ := hrate
  intro low high hle
  simp only [convert, curConv, hrate]
  exact mul_le_mul_of_nonneg_right hle hpos.le

/-- Whether the least of the conversions that are compared is the one of the lowest price of its
ticket. -/
theorem findsBottom_iff_least
    (hrate : ∀ ticket ∈ tickets, ∃ rate, curUnitMap ticket.m_ccy = some rate ∧ 0 < rate)
    (hsome : priced tickets ≠ []) :
    FindsBottom curUnitMap tickets (getBottomTicketAndPrice getWeekByDate curUnitMap tickets) ↔
      ∃ offer ∈ priced tickets,
        least (fun o => convert curUnitMap o.1 o.2) FLT_MAX
            (lowered Prod.snd FLT_MAX (priced tickets)) = some (offer, offer.2) ∧
          ∀ other ∈ priced tickets, convert curUnitMap offer offer.2 ≤
            convert curUnitMap other other.2 := by
  rw [getBottomTicketAndPrice_eq]
  constructor
  · intro h
    obtain ⟨ticket, hticket, heq, hlowest, hmin⟩ := h.lowest (h.found.mpr (priced_ne_nil_iff.mp hsome))
    obtain ⟨⟨offer, lowest⟩, hbest, rfl⟩ := Option.map_eq_some_iff.mp heq
    have hoffer : offer ∈ priced tickets := by
      obtain ⟨_, _, hsplit, -⟩ := least_split hbest
      obtain ⟨_, _, hpriced, -, -⟩ := lowered_split hsplit
      simp [hpriced]
    simp only [hbest, Option.map_some, Option.getD_some] at hlowest hmin
    obtain rfl : offer.2 = lowest :=
      Option.some.inj ((mem_priced.mp hoffer).2.symm.trans hlowest)
    refine ⟨offer, hoffer, hbest, fun other hother => ?_⟩
    obtain ⟨hother, hlowest⟩ := mem_priced.mp hother
    obtain ⟨⟨jPrice, hmem, hprice, heq⟩, -⟩ := lowestPrice_eq_some_iff.mp hlowest
    have hle := hmin other.1 hother jPrice hmem hprice
    rwa [heq] at hle
  · rintro ⟨offer, hoffer, hbest, hmin⟩
    rw [hbest]
    obtain ⟨hticket, hlowest⟩ := mem_priced.mp hoffer
    refine ⟨iff_of_true rfl (priced_ne_nil_iff.mp hsome), fun _ => ?_⟩
    refine ⟨offer.1, hticket, rfl, hlowest, fun other hother jPrice hmem hprice => ?_⟩
    obtain ⟨lowest, hlowest⟩ := exists_lowestPrice hmem hprice
    have hle := (lowestPrice_eq_some_iff.mp hlowest).2 jPrice hmem hprice
    have hconv := monotone_convert (other, lowest) (hrate other hother) hle
    exact (hmin (other, lowest) (mem_priced.mpr ⟨hother, hlowest⟩)).trans hconv

/-- The cheapest ticket is found exactly if there is none, or a conversion is below the bound that
the loop starts from and a low number of an earlier ticket never passes for the least price. -/
theorem getBottomTicketAndPrice_finds_iff (getWeekByDate : String → Int)
    (curUnitMap : String → Option ℚ) (tickets : List TicketsFun)
    (hrate : ∀ ticket ∈ tickets, ∃ rate, curUnitMap ticket.m_ccy = some rate ∧ 0 < rate) :
    FindsBottom curUnitMap tickets (getBottomTicketAndPrice getWeekByDate curUnitMap tickets) ↔
      priced tickets = [] ∨
        (∃ offer ∈ priced tickets, convert curUnitMap offer offer.2 < FLT_MAX) ∧
          UndercutBeaten curUnitMap (priced tickets) := by
  by_cases hnone : priced tickets = []
  · have hprice := priced_ne_nil_iff.not.mp (not_not_intro hnone)
    refine iff_of_true ?_ (.inl hnone)
    rw [getBottomTicketAndPrice_eq, hnone]
    exact ⟨iff_of_false Bool.false_ne_true hprice, fun h => absurd h Bool.false_ne_true⟩
  · rw [or_iff_right hnone, findsBottom_iff_least hrate hnone]
    exact least_lowered_iff
      (fun offer hoffer => monotone_convert offer (hrate offer.1 (mem_priced.mp hoffer).1)) FLT_MAX
      FLT_MAX

def priceEntry (p : Int) : Json :=
  .obj [("f", .str "20180101"), ("p", .int p), ("t", .str "20181231")]

/-- A ticket with one price entry. -/
def ticketOf (m_ccy : String) (p : Int) : TicketsFun where
  m_ccy := m_ccy
  m_date_price := [priceEntry p]
  objects := by simp [priceEntry, Json.isObject]
  dated jPrice hmem _ := by
    obtain rfl := List.mem_singleton.mp hmem
    exact (by decide : "20180101" ≠ "")

theorem lowestPrice_ticketOf (m_ccy : String) (p : Int) :
    (ticketOf m_ccy p).lowestPrice = some (p : ℚ) := by
  have hprice : IsPrice (priceEntry p) := ⟨rfl, rfl, rfl, rfl, rfl, rfl⟩
  rw [lowestPrice_eq_some_iff]
  constructor
  · exact ⟨priceEntry p, List.mem_singleton_self _, hprice, rfl⟩
  · intro jPrice hmem _
    obtain rfl := List.mem_singleton.mp hmem
    exact le_rfl

def yuanOf : String → Option ℚ
  | "USD" => some 7
  | "JPY" => some (6 / 100)
  | _ => none

theorem priced_ticketOf (ccy ccy' : String) (p p' : Int) :
    priced [ticketOf ccy p, ticketOf ccy' p'] =
      [(ticketOf ccy p, (p : ℚ)), (ticketOf ccy' p', (p' : ℚ))] := by
  simp [priced, lowestPrice_ticketOf]

/-- The thirty dollars pass for twenty, which are still more than twenty yen. -/
theorem getBottomTicketAndPrice_finds_iff_yenAndDollar :
    FindsBottom yuanOf [ticketOf "JPY" 20, ticketOf "USD" 30]
      (getBottomTicketAndPrice (fun _ => 1) yuanOf [ticketOf "JPY" 20, ticketOf "USD" 30]) := by
  have hyen : convert yuanOf (ticketOf "JPY" 20, 20) 20 = 20 * (6 / 100) := rfl
  have hdollar : convert yuanOf (ticketOf "USD" 30, 30) 20 = 20 * 7 := rfl
  have hmax : min FLT_MAX 20 = 20 := by norm_num [FLT_MAX]
  have hrate : ∀ ticket ∈ [ticketOf "JPY" 20, ticketOf "USD" 30],
      ∃ rate, yuanOf ticket.m_ccy = some rate ∧ 0 < rate := by
    simp only [List.forall_mem_cons]
    exact ⟨⟨6 / 100, rfl, by norm_num⟩, ⟨7, rfl, by norm_num⟩, by simp⟩
  refine (getBottomTicketAndPrice_finds_iff (fun _ => 1) yuanOf _ hrate).mpr (.inr ?_)
  rw [priced_ticketOf]
  refine ⟨⟨_, List.mem_cons_self, ?_⟩, ?_⟩
  · norm_num [hyen, FLT_MAX]
  · intro before offer after hsplit hlow
    rcases before with _ | ⟨first, _ | ⟨second, before⟩⟩
    · obtain ⟨rfl, -⟩ := List.cons.inj hsplit
      norm_num [runningLeast, FLT_MAX] at hlow
    · obtain ⟨rfl, hrest⟩ := List.cons.inj hsplit
      obtain ⟨rfl, -⟩ := List.cons.inj hrest
      refine .inr ⟨_, List.mem_cons_self, ?_⟩
      norm_num [runningLeast, hmax, hyen, hdollar]
    · simp at hsplit

/-- Behind a ticket for ten dollars, one for a thousand yen is given for ten. -/
theorem not_findsBottom_yen :
    (∀ ticket ∈ [ticketOf "USD" 10, ticketOf "JPY" 1000],
        ∃ rate, yuanOf ticket.m_ccy = some rate ∧ 0 < rate) ∧
      ¬ FindsBottom yuanOf [ticketOf "USD" 10, ticketOf "JPY" 1000]
        (getBottomTicketAndPrice (fun _ => 1) yuanOf [ticketOf "USD" 10, ticketOf "JPY" 1000]) := by
  refine ⟨?_, fun h => ?_⟩
  · simp only [List.forall_mem_cons]
    exact ⟨⟨7, rfl, by norm_num⟩, ⟨6 / 100, rfl, by norm_num⟩, by simp⟩
  · have hresult : getBottomTicketAndPrice (fun _ => 1) yuanOf
        [ticketOf "USD" 10, ticketOf "JPY" 1000] = (true, some (ticketOf "JPY" 1000), 10) := by
      have hpriced : priced [ticketOf "USD" 10, ticketOf "JPY" 1000] =
          [(ticketOf "USD" 10, 10), (ticketOf "JPY" 1000, 1000)] := by
        simpa using priced_ticketOf "USD" "JPY" 10 1000
      have hdollar : convert yuanOf (ticketOf "USD" 10, 10) 10 = 10 * 7 := rfl
      have hyen : convert yuanOf (ticketOf "JPY" 1000, 1000) 10 = 10 * (6 / 100) := rfl
      have hmax : min FLT_MAX 10 = 10 := by norm_num [FLT_MAX]
      have hmin : min (10 : ℚ) 1000 = 10 := by norm_num
      have hlt : (10 * 7 : ℚ) < FLT_MAX := by norm_num [FLT_MAX]
      have hlt' : (10 * (6 / 100) : ℚ) < 10 * 7 := by norm_num
      rw [getBottomTicketAndPrice_eq, hpriced]
      simp only [lowered, least, leastFrom, hmax, hmin, hdollar, hyen, if_pos hlt, if_pos hlt']
      rfl
    rw [hresult] at h
    obtain ⟨ticket, -, hticket, hlowest, -⟩ := h.lowest rfl
    obtain rfl := Option.some.inj hticket
    rw [lowestPrice_ticketOf] at hlowest
    norm_num at hlowest

end PPView.LYConstData
