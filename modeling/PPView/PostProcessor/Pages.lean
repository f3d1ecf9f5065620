import PPView.Fault
import PPView.Library.Json
import PPView.Library.Pages

/-!
# Pages of the tour list

`PostProcessor::MakeOutputP104` writes one page of the places to show. It counts all places up to
the page, but on the page only those that get a node.
-/

namespace PPView.PostProcessor

open Json

/-! ## Nodes -/

/-- A place to show; `isVar` tells the places that are a `VarPlace`. -/
structure ShowPlace where
  isVar : Bool
  ID : String
  name : String
  t : Int
  poi : String
  m_custom : Int
  deriving DecidableEq, Repr

structure TicketsFun where
  m_sid : String
  m_ccy : String
  deriving DecidableEq, Repr

/-- `LYConstData::GetBottomTicketAndPrice`, with the text of the price. -/
abbrev BottomTicket := ShowPlace → Option (TicketsFun × String)

/-- The node of a place, if it gets one. The ticket is read before it is tested. -/
def makeP104Node (bottomTicket : BottomTicket) (place : ShowPlace) : Res (Option Json) :=
  if !place.isVar then pure none
  else
    match bottomTicket place with
    | none => .error .nullPointer
    | some (ticket, price) =>
      pure (obj [("coord", str place.poi), ("custom", int place.m_custom), ("id", str place.ID),
        ("mode", int place.t), ("name", str place.name),
        ("realPrice", obj [("ccy", str ticket.m_ccy), ("price", str price),
          ("sid", str ticket.m_sid)]),
        ("rec", str "Hello PHP")])

/-! ## Pages -/

structure P104Plan where
  m_showItemList : List ShowPlace
  m_pageIndex : Int
  m_numEachPage : Int
  m_key : String

structure P104Data where
  total : ℕ
  list : List Json

/-- The nodes of all places. -/
def allNodes (bottomTicket : BottomTicket) : List ShowPlace → Res (List Json)
  | [] => pure []
  | place :: places => do
    match ← makeP104Node bottomTicket place with
    | none => allNodes bottomTicket places
    | some jPlaceItem => (jPlaceItem :: ·) <$> allNodes bottomTicket places

/-- The loop over the places where no key is searched for. -/
def pageNodes (bottomTicket : BottomTicket) (pageIndex numEachPage : Int) :
    List ShowPlace → (page itemNum itemSum : ℕ) → List Json → Res (List Json)
  | [], _, _, _, jList => pure jList
  | place :: places, page, itemNum, itemSum, jList =>
    let next (itemSum : ℕ) (jList : List Json) : Res (List Json) :=
      if ((itemNum + 1 : ℕ) : Int) = numEachPage then
        pageNodes bottomTicket pageIndex numEachPage places (page + 1) 0 itemSum jList
      else pageNodes bottomTicket pageIndex numEachPage places page (itemNum + 1) itemSum jList
    if (page : Int) = pageIndex ∧ (itemNum : Int) < numEachPage then do
      match ← makeP104Node bottomTicket place with
      | none => pageNodes bottomTicket pageIndex numEachPage places page itemNum itemSum jList
      | some jPlaceItem =>
        if ((itemSum + 1 : ℕ) : Int) = numEachPage then pure (jList ++ [jPlaceItem])
        else next (itemSum + 1) (jList ++ [jPlaceItem])
    else next itemSum jList

def makeOutputP104 (bottomTicket : BottomTicket) (plan : P104Plan) : Res P104Data := do
  let total := (← allNodes bottomTicket plan.m_showItemList).length
  if plan.m_key ≠ "" then
    let list ← allNodes bottomTicket plan.m_showItemList
    pure { total, list }
  else
    let list ← pageNodes bottomTicket plan.m_pageIndex plan.m_numEachPage plan.m_showItemList
      0 0 0 []
    pure { total, list }

/-! ## Runs -/

variable {bottomTicket : BottomTicket} {place : ShowPlace} {places : List ShowPlace} {n : ℕ}

/-- The node of a place that is accepted. -/
def nodeOf (bottomTicket : BottomTicket) (place : ShowPlace) : Option Json :=
  (makeP104Node bottomTicket place).toOption.join

/-- The places that can be shown have a ticket with a price. -/
def Priced (bottomTicket : BottomTicket) (places : List ShowPlace) : Prop :=
  ∀ place ∈ places, place.isVar → bottomTicket place ≠ none

theorem makeP104Node_eq (h : place.isVar → bottomTicket place ≠ none) :
    makeP104Node bottomTicket place = .ok (nodeOf bottomTicket place) ∧
      (nodeOf bottomTicket place = none ↔ ¬ place.isVar) := by
  rw [nodeOf, makeP104Node]
  cases hvar : place.isVar with
  | false => exact ⟨rfl, iff_of_true rfl (by simp)⟩
  | true =>
    obtain ⟨ticket, hticket⟩ := Option.ne_none_iff_exists'.mp (h hvar)
    rw [if_neg (by simp), hticket]
    exact ⟨rfl, iff_of_false (fun hnone => Option.some_ne_none _ hnone) (by simp)⟩

theorem allNodes_eq (h : Priced bottomTicket places) :
    allNodes bottomTicket places = .ok (places.filterMap (nodeOf bottomTicket)) := by
  induction places with
  | nil => rfl
  | cons place places ih =>
    have hrest := ih fun p hp => h p (List.mem_cons_of_mem _ hp)
    rw [allNodes, (makeP104Node_eq (h place List.mem_cons_self)).1, List.filterMap_cons, hrest]
    cases nodeOf bottomTicket place <;> rfl

theorem allNodes_error (h : ¬ Priced bottomTicket places) :
    allNodes bottomTicket places = .error .nullPointer := by
  induction places with
  | nil => exact absurd (fun p hp => by simp at hp) h
  | cons place places ih =>
    by_cases hplace : place.isVar → bottomTicket place ≠ none
    · have hrest := ih fun hall => h fun p hp => (List.mem_cons.mp hp).elim
        (fun heq => heq ▸ hplace) (hall p)
      rw [allNodes, (makeP104Node_eq hplace).1, hrest]
      cases nodeOf bottomTicket place <;> rfl
    · push Not at hplace
      rw [allNodes, makeP104Node, hplace.1, hplace.2]
      rfl

/-- On the page that is asked for, up to its last place. -/
theorem pageNodes_on (h : Priced bottomTicket places) {p k : ℕ} (hk : k < n) (jList : List Json) :
    pageNodes bottomTicket p n places p k k jList =
      .ok (jList ++ (places.filterMap (nodeOf bottomTicket)).take (n - k)) := by
  induction places generalizing k jList with
  | nil =>
    rw [pageNodes]
    simp [pure, Except.pure]
  | cons place places ih =>
    have hrest : Priced bottomTicket places := fun p hp => h p (List.mem_cons_of_mem _ hp)
    rw [pageNodes, if_pos ⟨rfl, by omega⟩, (makeP104Node_eq (h place List.mem_cons_self)).1,
      List.filterMap_cons]
    cases nodeOf bottomTicket place with
    | none => exact ih hrest hk jList
    | some jPlaceItem =>
      simp only [bind, Except.bind]
      by_cases hlast : k + 1 = n
      · rw [if_pos (by omega), show n - k = 1 by omega]
        rfl
      · rw [if_neg (by omega), if_neg (by omega), ih hrest (by omega),
          show n - k = n - (k + 1) + 1 by omega, List.take_succ_cons, List.append_assoc]
        rfl

/-- Before the page that is asked for every place counts. -/
theorem pageNodes_before (h : Priced bottomTicket places) {p page k : ℕ} (hpage : page < p)
    (hk : k < n) : pageNodes bottomTicket p n places page k 0 [] =
      .ok (((places.drop ((p - page) * n - k)).filterMap (nodeOf bottomTicket)).take n) := by
  induction places generalizing page k with
  | nil =>
    rw [pageNodes]
    simp [pure, Except.pure]
  | cons place places ih =>
    have hrest : Priced bottomTicket places := fun p hp => h p (List.mem_cons_of_mem _ hp)
    have hpos : n ≤ (p - page) * n := Nat.le_mul_of_pos_left n (by omega)
    rw [pageNodes, if_neg (by omega)]
    dsimp only
    by_cases hlast : k + 1 = n
    · rw [if_pos (by omega)]
      by_cases hnext : page + 1 = p
      · have hon := pageNodes_on hrest (p := p) (show 0 < n by omega) []
        rw [hnext, hon, show p - page = 1 by omega, Nat.one_mul, show n - k = 0 + 1 by omega]
        rfl
      · rw [ih hrest (by omega) (by omega), show (p - page) * n - k = (p - (page + 1)) * n + 1 by
          rw [show p - page = p - (page + 1) + 1 by omega, Nat.succ_mul]
          omega]
        rfl
    · rw [if_neg (by omega), ih hrest hpage (by omega),
        show (p - page) * n - k = (p - page) * n - (k + 1) + 1 by omega]
      rfl

theorem pageNodes_eq (h : Priced bottomTicket places) (hn : 0 < n) (p : ℕ) :
    pageNodes bottomTicket p n places 0 0 0 [] =
      .ok (Pages.pageOf (nodeOf bottomTicket) n places p) := by
  rw [Pages.pageOf]
  cases p with
  | zero => simpa using pageNodes_on h (p := 0) hn []
  | succ p =>
    have hpage : 0 < p + 1 := Nat.succ_pos p
    simpa using pageNodes_before h hpage hn

/-! ## All pages -/

/-- Every page can be had with the right total, and the pages show every accepted place once and in
order. -/
def Paginates (bottomTicket : BottomTicket) (places : List ShowPlace) (n : ℕ) : Prop :=
  ∃ pages : ℕ → List Json,
    (∀ p : ℕ, ∃ data, makeOutputP104 bottomTicket
        { m_showItemList := places, m_pageIndex := p, m_numEachPage := n, m_key := "" } = .ok data ∧
      data.total = (places.filterMap (nodeOf bottomTicket)).length ∧ data.list = pages p) ∧
    ∃ K, ∀ k ≥ K, (List.range k).flatMap pages = places.filterMap (nodeOf bottomTicket)

theorem makeOutputP104_eq (h : Priced bottomTicket places) (hn : 0 < n) (p : ℕ) :
    makeOutputP104 bottomTicket
        { m_showItemList := places, m_pageIndex := p, m_numEachPage := n, m_key := "" } =
      .ok ⟨(places.filterMap (nodeOf bottomTicket)).length,
        Pages.pageOf (nodeOf bottomTicket) n places p⟩ := by
  rw [makeOutputP104, allNodes_eq h]
  simp only [bind, Except.bind, ne_eq, not_true_eq_false, if_false, pageNodes_eq h hn]
  rfl

theorem paginates_iff_noGap (h : Priced bottomTicket places) (hn : 0 < n) :
    Paginates bottomTicket places n ↔ Pages.NoGap (nodeOf bottomTicket) n places := by
  rw [← Pages.flatMap_pageOf_iff hn]
  constructor
  · rintro ⟨pages, hpages, hall⟩
    have heq : pages = Pages.pageOf (nodeOf bottomTicket) n places := by
      funext p
      obtain ⟨data, hdata, -, hlist⟩ := hpages p
      rw [makeOutputP104_eq h hn] at hdata
      rw [← hlist, ← Except.ok.inj hdata]
    exact heq ▸ hall
  · exact fun hall => ⟨_, fun p => ⟨_, makeOutputP104_eq h hn p, rfl, rfl⟩, hall⟩

theorem Paginates.priced (h : Paginates bottomTicket places n) : Priced bottomTicket places := by
  by_contra hpriced
  obtain ⟨pages, hpages, -⟩ := h
  obtain ⟨data, hdata, -⟩ := hpages 0
  rw [makeOutputP104, allNodes_error hpriced] at hdata
  cases hdata

theorem noGap_iff (h : Priced bottomTicket places) :
    Pages.NoGap (nodeOf bottomTicket) n places ↔ ∀ i j place place', places[i]? = some place →
      places[j]? = some place' → ¬ place.isVar → place'.isVar → j / n ≤ i / n := by
  have hnode : ∀ i place, places[i]? = some place →
      (nodeOf bottomTicket place = none ↔ ¬ place.isVar) := fun i place hi =>
    (makeP104Node_eq (h place (List.mem_of_getElem? hi))).2
  constructor
  · intro hgap i j place place' hi hj hplace hplace'
    exact hgap i j place place' hi hj ((hnode i place hi).mpr hplace)
      (by rw [ne_eq, hnode j place' hj]; exact not_not_intro hplace')
  · intro hgap i j place place' hi hj hplace hplace'
    exact hgap i j place place' hi hj ((hnode i place hi).mp hplace)
      (by rw [ne_eq, hnode j place' hj] at hplace'; exact not_not.mp hplace')

/-- The pages are right exactly if every `VarPlace` has a ticket with a price and none of them
comes on a later page than a place of another kind. -/
theorem paginates_iff (bottomTicket : BottomTicket) (places : List ShowPlace) (hn : 0 < n) :
    Paginates bottomTicket places n ↔ Priced bottomTicket places ∧
      ∀ i j place place', places[i]? = some place → places[j]? = some place' → ¬ place.isVar →
        place'.isVar → j / n ≤ i / n := by
  by_cases h : Priced bottomTicket places
  · rw [paginates_iff_noGap h hn, noGap_iff h, and_iff_right h]
  · exact iff_of_false (fun hpages => h hpages.priced) fun hright => h hright.1

/-! ## Lists -/

def tour : ShowPlace := ⟨true, "T", "T", 256, "", 0⟩

def view : ShowPlace := ⟨false, "V", "V", 2, "", 0⟩

def ticketOf (_ : ShowPlace) : Option (TicketsFun × String) := some (⟨"s", "CNY"⟩, "10.00")

theorem paginates_twoPages : Paginates ticketOf [tour, tour, view] 2 := by
  refine (paginates_iff ticketOf [tour, tour, view] (by decide)).mpr
    ⟨by simp [Priced, ticketOf], ?_⟩
  intro i j place place' hi hj hplace hplace'
  have hj3 : j < 3 := (List.getElem?_eq_some_iff.mp hj).1
  match i with
  | 0 => exact absurd (by rw [← Option.some.inj hi]; rfl) hplace
  | 1 => exact absurd (by rw [← Option.some.inj hi]; rfl) hplace
  | i + 2 => omega

/-- A view on the page before a tour makes the tour come twice, and a tour whose ticket has no price
ends the program. -/
theorem not_paginates :
    ¬ Paginates ticketOf [view, tour] 1 ∧ ¬ Paginates (fun _ => none) [tour] 1 := by
  constructor
  · rw [paginates_iff_noGap (by simp [Priced, ticketOf]) (by decide)]
    intro h
    exact absurd (h 0 1 view tour rfl rfl rfl (Option.some_ne_none _)) (by decide)
  · exact fun h => h.priced tour List.mem_cons_self rfl rfl

end PPView.PostProcessor
