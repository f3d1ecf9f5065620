import PPView.RealTime.Segments

/-!
# The whole path

`DoReplace` keeps a feasible path feasible, whichever segments it could replace, if there is time
for the next leg when a key item between two segments is left as late as it closes.
-/

namespace PPView.RealTime

variable {getTraffic : String → String → String → Option TrafficItem}
  {sort : (ℕ → ℕ → Bool) → List ℕ → List ℕ}

/-! ## Items of the luggage -/

/-- One item is left before the next one is reached. -/
theorem Leg.departTime_le {p q : Item} (h : Leg p q) : p.departTime ≤ q.arriveTime := by
  have := trafTime_nonneg p.departTraffic
  have := h.2
  omega

theorem Feasible.tail {p : Item} {path : List Item} (h : Feasible (p :: path)) : Feasible path :=
  ⟨List.isChain_of_isChain_cons h.legs, (List.forall_mem_cons.mp h.stays).2⟩

/-- An item is left before the next key item closes. -/
theorem Feasible.departTime_le {p : Item} {path : List Item} (h : Feasible (p :: path)) :
    ∀ k ∈ path.find? Item.isKey, p.departTime ≤ k.closeTime := by
  induction path generalizing p with
  | nil => exact fun k hk => nomatch hk
  | cons q path ih =>
    intro k hk
    have hleg := (List.isChain_cons_cons.mp h.legs).1.departTime_le
    obtain ⟨-, hstay, hclose⟩ := h.stays q (by simp)
    rw [List.find?_cons] at hk
    split at hk
    · obtain rfl := Option.some.inj hk
      omega
    · have := ih h.tail k hk
      omega

/-- Only the opening times of the items of the luggage have changed. -/
def Reopened (p p' : Item) : Prop :=
  p' = { p with openTime := p'.openTime, closeTime := p'.closeTime } ∧
    (p.isLuggage = false → p' = p)

theorem Reopened.leg {p p' q q' : Item} (hp : Reopened p p') (hq : Reopened q q') (h : Leg p q) :
    Leg p' q' := by
  rw [hp.1, hq.1]
  exact h

theorem reopened_self (p : Item) : Reopened p p := ⟨rfl, fun _ => rfl⟩

/-- The opening times reach from when the key item before opens till the one behind closes. -/
theorem modLuggageHotelFrom_spec {path : List Item} (h : Feasible path) (lastOpen : Option Int)
    (hopen : ∀ o ∈ lastOpen, ∀ p ∈ path.head?, o ≤ p.arriveTime) :
    List.Forall₂ Reopened path (modLuggageHotelFrom lastOpen path) ∧
      ∀ p ∈ modLuggageHotelFrom lastOpen path, InWindow p := by
  induction path generalizing lastOpen with
  | nil => exact ⟨.nil, List.forall_mem_nil _⟩
  | cons p path ih =>
    have hp := h.stays p List.mem_cons_self
    have hnext {o : Int} (ho : o ≤ p.arriveTime) : ∀ q ∈ path.head?, o ≤ q.arriveTime := by
      intro q hq
      have hleg := (h.legs.rel_head? hq).departTime_le
      obtain ⟨-, hstay, -⟩ := hp
      omega
    rw [modLuggageHotelFrom]
    dsimp only
    split_ifs with hkey hlug
    · have hbefore : lastOpen.getD p.openTime ≤ p.arriveTime := by
        cases lastOpen with
        | none => exact hp.1
        | some o => exact hopen o rfl p rfl
      obtain ⟨hrest, hstays⟩ := ih h.tail (some (lastOpen.getD p.openTime))
        fun o ho => Option.some.inj ho ▸ hnext hbefore
      refine ⟨.cons ⟨rfl, fun hno => ?_⟩ hrest, List.forall_mem_cons.mpr ⟨⟨hbefore, hp.2.1, ?_⟩,
        hstays⟩⟩
      · rw [hlug] at hno
        contradiction
      · dsimp only
        cases hk : path.find? Item.isKey with
        | none => exact hp.2.2
        | some k => exact h.departTime_le k hk
    · obtain ⟨hrest, hstays⟩ := ih h.tail (some p.openTime)
        fun o ho => Option.some.inj ho ▸ hnext hp.1
      exact ⟨.cons (reopened_self p) hrest, List.forall_mem_cons.mpr ⟨hp, hstays⟩⟩
    · obtain ⟨hrest, hstays⟩ := ih h.tail lastOpen
        fun o ho => hnext (hopen o ho p rfl)
      exact ⟨.cons (reopened_self p) hrest, List.forall_mem_cons.mpr ⟨hp, hstays⟩⟩

theorem isChain_of_reopened {path path' : List Item} (h : List.Forall₂ Reopened path path')
    (hlegs : path.IsChain Leg) : path'.IsChain Leg := by
  induction h with
  | nil => exact .nil
  | cons hp hrest ih =>
    cases hrest with
    | nil => exact .singleton _
    | cons hq hrest =>
      obtain ⟨hleg, hchain⟩ := List.isChain_cons_cons.mp hlegs
      exact List.isChain_cons_cons.mpr ⟨hp.leg hq hleg, ih hchain⟩

theorem modLuggageHotel_feasible {path : List Item} (h : Feasible path) :
    Feasible (modLuggageHotel path) ∧ List.Forall₂ Reopened path (modLuggageHotel path) := by
  obtain ⟨hsame, hstays⟩ := modLuggageHotelFrom_spec h none nofun
  exact ⟨⟨isChain_of_reopened hsame h.legs, hstays⟩, hsame⟩

/-! ## Putting a segment back -/

variable {a z : Item} {mid out l r : List Item}

theorem Renewed.length_eq (h : Renewed a z mid out) : out.length = mid.length + 2 := by
  have := congrArg List.length h.plain
  simpa using this

/-- A segment that has been replaced fits where it was taken from. -/
theorem Renewed.splice (h : Renewed a z mid out) (hpath : Feasible (l ++ (a :: (mid ++ [z]) ++ r)))
    (hroom : ∀ y ∈ r.head?, z.placeType &&& LY_PLACE_TYPE_ARRIVE = 0 →
      z.closeTime + trafTime z.departTraffic ≤ y.arriveTime) : Feasible (l ++ (out ++ r)) := by
  obtain ⟨a', mid', z', rfl, hatraf, hatime, hztraf, hztime⟩ := h.ends
  obtain ⟨hl, hrest, hla⟩ := List.isChain_append.mp hpath.legs
  obtain ⟨-, hr, hzr⟩ := List.isChain_append.mp hrest
  have hlast (a z : Item) (mid : List Item) : (a :: (mid ++ [z])).getLast? = some z := by
    rw [← List.cons_append, List.getLast?_concat]
  refine ⟨List.isChain_append.mpr ⟨hl, List.isChain_append.mpr ⟨h.feasible.legs, hr, ?_⟩, ?_⟩, ?_⟩
  · intro x hx y hy
    rw [hlast] at hx
    obtain rfl := Option.some.inj hx
    have hleg := hzr z (hlast a z mid) y hy
    rcases hztime with heq | ⟨htype, heq⟩
    · exact hleg.of_le hztraf (heq ▸ Int.le_refl _)
    · refine ⟨hztraf.trans hleg.1, ?_⟩
      rw [heq, hztraf]
      exact hroom y hy htype
  · intro x hx y hy
    obtain rfl := Option.some.inj hy
    have hleg := hla x hx a rfl
    exact ⟨hleg.1.trans hatraf.symm, hatime ▸ hleg.2⟩
  · obtain ⟨hlstays, hrest⟩ := List.forall_mem_append.mp hpath.stays
    obtain ⟨-, hrstays⟩ := List.forall_mem_append.mp hrest
    exact List.forall_mem_append.mpr ⟨hlstays, List.forall_mem_append.mpr
      ⟨h.feasible.stays, hrstays⟩⟩

/-- The items from one index to another. -/
theorem exists_segment {path : List Item} {b e : ℕ} (hbe : b < e) (ha : path[b]? = some a)
    (hz : path[e]? = some z) : ∃ l mid, path = l ++ (a :: (mid ++ [z]) ++ path.drop (e + 1)) ∧
      l.length = b ∧ b + mid.length + 1 = e := by
  obtain ⟨hb, rfl⟩ := List.getElem?_eq_some_iff.mp ha
  obtain ⟨he, rfl⟩ := List.getElem?_eq_some_iff.mp hz
  refine ⟨path.take b, (path.drop (b + 1)).take (e - b - 1), ?_, by simp; omega, by simp; omega⟩
  have hmid : (path.drop (b + 1)).drop (e - b - 1) = path[e] :: path.drop (e + 1) := by
    rw [List.drop_drop, show b + 1 + (e - b - 1) = e by omega, List.drop_eq_getElem_cons he]
  conv_lhs => rw [← List.take_append_drop b path, List.drop_eq_getElem_cons hb,
    ← List.take_append_drop (e - b - 1) (path.drop (b + 1)), hmid]
  simp

theorem copyN_segment (l seg r : List Item) {b e : ℕ} (hb : l.length = b)
    (he : b + seg.length = e + 1) : copyN (l ++ (seg ++ r)) b e = seg := by
  subst hb
  rw [copyN, List.drop_left, show e + 1 - l.length = seg.length by omega, List.take_left]

theorem subN_segment (l seg out r : List Item) {b e : ℕ} (hb : l.length = b)
    (he : b + seg.length = e + 1) (hlen : out.length = seg.length) (hpos : 0 < seg.length) :
    subN (l ++ (seg ++ r)) out b e = l ++ (out ++ r) := by
  subst hb
  have hdrop : (l ++ (seg ++ r)).drop (l.length + out.length) = r := by
    rw [hlen, ← List.length_append, ← List.append_assoc, List.drop_left]
  have hin : ¬ (l.length ≥ (l ++ (seg ++ r)).length ∨ e ≥ (l ++ (seg ++ r)).length ∨
      out.length ≠ e - l.length + 1) := by
    simp only [List.length_append]
    omega
  rw [subN, if_neg hin, List.take_left, hdrop, List.append_assoc]

/-! ## The loop -/

/-- There is time for the leg behind a key item between two segments, even when it is left as late
as it closes. A station is left as before. -/
def LeavesRoom (path : List Item) : Prop :=
  ∀ {i z y}, path[i]? = some z → path[i + 1]? = some y → z.isCut = true →
    (∃ j < i, ∃ a, path[j]? = some a ∧ a.isCut = true) →
    z.placeType &&& LY_PLACE_TYPE_ARRIVE = 0 →
    z.closeTime + trafTime z.departTraffic ≤ y.arriveTime

/-- The state of the loop in front of the item `k`, when it started with `path`. -/
structure Inv (path : List Item) (k : ℕ) (state : Option ℕ × List Item) : Prop where
  feasible : Feasible state.2
  plain : state.2.map Item.plain = path.map Item.plain
  rest : state.2.drop k = path.drop k
  begIdx : ∀ b ∈ state.1, b < k ∧ ∃ a, state.2[b]? = some a ∧ a.isCut = true

theorem getElem?_of_plain {path path' : List Item}
    (h : path'.map Item.plain = path.map Item.plain) {i : ℕ} {p : Item} (hp : path'[i]? = some p) :
    ∃ q, path[i]? = some q ∧ q.plain = p.plain := by
  have hmap := congrArg (·[i]?) h
  simp only [List.getElem?_map, hp, Option.map_some] at hmap
  exact Option.map_eq_some_iff.mp hmap.symm

theorem isCut_of_plain {p q : Item} (h : q.plain = p.plain) (hp : p.isCut = true) :
    q.isCut = true :=
  (congrArg Item.isCut h).trans hp

section Round

variable {path path' : List Item} {k : ℕ} {begIdx : Option ℕ} {item : Item}

theorem Inv.drop_succ (h : Inv path k (begIdx, path')) :
    path'.drop (k + 1) = path.drop (k + 1) := by
  rw [← List.drop_drop, h.rest, List.drop_drop]

/-- The item that comes next is still the one of the whole path, and so is the one behind it. -/
theorem Inv.getElem?_eq (h : Inv path k (begIdx, path')) :
    path'[k]? = path[k]? ∧ path'[k + 1]? = path[k + 1]? := by
  have hsame {n : ℕ} (h : path'.drop n = path.drop n) : path'[n]? = path[n]? := by
    rw [← List.head?_drop, h, List.head?_drop]
  exact ⟨hsame h.rest, hsame h.drop_succ⟩

theorem Inv.pass (h : Inv path k (begIdx, path')) : Inv path (k + 1) (begIdx, path') := by
  refine ⟨h.feasible, h.plain, h.drop_succ, fun b hb => ?_⟩
  obtain ⟨hlt, hcut⟩ := h.begIdx b hb
  exact ⟨Nat.lt_succ_of_lt hlt, hcut⟩

/-- The next segment begins at the item `k`. -/
theorem Inv.begins (h : Inv path k (begIdx, path')) (hitem : path'[k]? = some item)
    (hcut : item.isCut = true) : Inv path (k + 1) (some k, path') := by
  refine ⟨h.feasible, h.plain, h.drop_succ, fun b hb => ?_⟩
  obtain rfl := Option.some.inj hb
  exact ⟨Nat.lt_succ_self k, item, hitem, hcut⟩

/-- The segment that ends at the item `k` is put back. -/
theorem Inv.putBack (hroom : LeavesRoom path) (h : Inv path k (begIdx, path'))
    (hitem : path'[k]? = some item) (hcut : item.isCut = true) (hacut : a.isCut = true)
    (hsplit : path' = l ++ (a :: (mid ++ [item]) ++ path'.drop (k + 1)))
    (hlen : l.length + mid.length + 1 = k) (hrenewed : Renewed a item mid out) :
    Inv path (k + 1) (some k, l ++ (out ++ path'.drop (k + 1))) := by
  have hfeasible : Feasible (l ++ (a :: (mid ++ [item]) ++ path'.drop (k + 1))) :=
    hsplit ▸ h.feasible
  have hplain : path'.map Item.plain = (l ++ (out ++ path'.drop (k + 1))).map Item.plain := by
    conv_lhs => rw [hsplit]
    simp only [List.map_append, hrenewed.plain]
  have ha : path'[l.length]? = some a := by
    rw [hsplit]
    simp
  refine ⟨hrenewed.splice hfeasible fun y hy htype => ?_, hplain ▸ h.plain, ?_, fun b hb => ?_⟩
  · obtain ⟨q, hq, hqplain⟩ := getElem?_of_plain h.plain ha
    rw [List.head?_drop, h.getElem?_eq.2] at hy
    exact hroom (h.getElem?_eq.1.symm.trans hitem) hy hcut
      ⟨l.length, by omega, q, hq, isCut_of_plain hqplain hacut⟩ htype
  · rw [← List.append_assoc, ← h.drop_succ]
    refine List.drop_left' ?_
    rw [List.length_append, hrenewed.length_eq]
    omega
  · obtain rfl := Option.some.inj hb
    obtain ⟨q, hq, hqplain⟩ := getElem?_of_plain hplain hitem
    exact ⟨Nat.lt_succ_self k, q, hq, isCut_of_plain hqplain hcut⟩

end Round

theorem replaceRound_inv {path : List Item} (hdur : ∀ p ∈ path, Nonneg p)
    (hroom : LeavesRoom path) {fuel k : ℕ} {state state' : Option ℕ × List Item}
    (h : Inv path k state)
    (hrun : replaceRound getTraffic sort fuel state k = .ok state') : Inv path (k + 1) state' := by
  obtain ⟨begIdx, path'⟩ := state
  unfold replaceRound at hrun
  dsimp only at hrun
  split at hrun
  · contradiction
  next item hitem =>
  by_cases hcut : item.isCut = true
  case neg =>
    rw [if_pos hcut] at hrun
    obtain rfl : _ = state' := by simpa [pure, Except.pure] using hrun
    exact h.pass
  rw [if_neg (not_not.mpr hcut)] at hrun
  cases begIdx with
  | none =>
    obtain rfl : _ = state' := by simpa [pure, Except.pure] using hrun
    exact h.begins hitem hcut
  | some b =>
    obtain ⟨tmpPath, htmp, hrun⟩ := bind_ok.mp hrun
    obtain rfl : _ = state' := by simpa [pure, Except.pure] using hrun
    cases tmpPath with
    | none => exact h.begins hitem hcut
    | some out =>
      obtain ⟨hlt, a, ha, hacut⟩ := h.begIdx b rfl
      dsimp only at ha htmp
      obtain ⟨l, mid, hsplit, hl, hmid⟩ := exists_segment hlt ha hitem
      have hseg : b + (a :: (mid ++ [item])).length = k + 1 := by
        simp only [List.length_cons, List.length_append, List.length_nil]
        omega
      rw [hsplit, copyN_segment l _ _ hl hseg] at htmp
      have hmem : ∀ p ∈ a :: (mid ++ [item]), p ∈ path' := fun p hp => by
        rw [hsplit]
        exact List.mem_append_right l (List.mem_append_left _ hp)
      have hrenewed := replace_spec hacut hcut (fun p hp => h.feasible.stays p (hmem p hp))
        (fun p hp => nonneg_of_plain h.plain hdur p (hmem p hp)) htmp
      have hlen : out.length = (a :: (mid ++ [item])).length := by
        rw [hrenewed.length_eq]
        simp
      have hsub : subN path' out b k = l ++ (out ++ path'.drop (k + 1)) := by
        conv_lhs => rw [hsplit]
        exact subN_segment l _ _ _ hl hseg hlen (by simp)
      rw [Option.elim_some, hsub]
      exact h.putBack hroom hitem hcut hacut hsplit (by omega) hrenewed

theorem foldlM_replaceRound {path : List Item} (hdur : ∀ p ∈ path, Nonneg p)
    (hroom : LeavesRoom path) {fuel n k : ℕ} {state state' : Option ℕ × List Item}
    (h : Inv path k state)
    (hrun : (List.range' k n).foldlM (replaceRound getTraffic sort fuel) state = .ok state') :
    Inv path (k + n) state' := by
  induction n generalizing k state with
  | zero =>
    obtain rfl : state = state' := by simpa [pure, Except.pure] using hrun
    exact h
  | succ n ih =>
    rw [List.range'_succ, List.foldlM_cons] at hrun
    obtain ⟨state'', hround, hrest⟩ := bind_ok.mp hrun
    have hinv := ih (replaceRound_inv hdur hroom h hround) hrest
    rwa [Nat.add_right_comm] at hinv

theorem exists_reopened {path path' : List Item} (h : List.Forall₂ Reopened path path') {i : ℕ}
    {p' : Item} (hp : path'[i]? = some p') : ∃ p, path[i]? = some p ∧ Reopened p p' := by
  induction h generalizing i with
  | nil => simp at hp
  | cons hq _ ih =>
    cases i with
    | zero =>
      obtain rfl := Option.some.inj hp
      exact ⟨_, rfl, hq⟩
    | succ i => exact ih hp

theorem Reopened.isCut {p p' : Item} (h : Reopened p p') (hcut : p'.isCut = true) :
    p.isCut = true ∧ p' = p := by
  rw [h.1] at hcut
  have hp : p.isCut = true := hcut
  refine ⟨hp, h.2 ?_⟩
  rw [Item.isCut, Bool.and_eq_true, Bool.not_eq_true'] at hp
  exact hp.2

theorem LeavesRoom.of_reopened {path path' : List Item} (h : LeavesRoom path)
    (hsame : List.Forall₂ Reopened path path') : LeavesRoom path' := by
  intro i z' y' hz' hy' hcut hbefore htype
  obtain ⟨z, hz, hzz⟩ := exists_reopened hsame hz'
  obtain ⟨y, hy, hyy⟩ := exists_reopened hsame hy'
  obtain ⟨hzcut, rfl⟩ := hzz.isCut hcut
  obtain ⟨j, hj, a', ha', hacut'⟩ := hbefore
  obtain ⟨a, ha, haa⟩ := exists_reopened hsame ha'
  have hytime : y'.arriveTime = y.arriveTime := by rw [hyy.1]
  rw [hytime]
  exact h hz hy hzcut ⟨j, hj, a, ha, (haa.isCut hacut').1⟩ htype

/-- Whichever segments could be replaced, the whole path is feasible for the traffic on it. -/
theorem doReplace_feasible {fuel : ℕ} {path path' : List Item} (h : Feasible path)
    (hdur : ∀ p ∈ path, Nonneg p) (hroom : LeavesRoom path)
    (hrun : doReplace getTraffic sort fuel path = .ok path') : Feasible path' := by
  obtain ⟨hfeasible, hsame⟩ := modLuggageHotel_feasible h
  obtain ⟨⟨begIdx, out⟩, hfold, hrun⟩ := bind_ok.mp hrun
  obtain rfl : out = path' := by simpa [pure, Except.pure] using hrun
  have hdur' : ∀ p ∈ modLuggageHotel path, Nonneg p := by
    intro p' hp'
    obtain ⟨i, hi⟩ := List.mem_iff_getElem?.mp hp'
    obtain ⟨p, hp, hpp⟩ := exists_reopened hsame hi
    rw [hpp.1]
    exact hdur p (List.mem_of_getElem? hp)
  have hinv : Inv (modLuggageHotel path) 0 (none, modLuggageHotel path) :=
    ⟨hfeasible, rfl, rfl, fun b hb => (nomatch hb)⟩
  rw [List.range_eq_range'] at hfold
  exact (foldlM_replaceRound hdur' (hroom.of_reopened hsame) hinv hfold).feasible

/-! ## A station and two hotels -/

/-- Half an hour everywhere. -/
def oldTraffic (startP stopP : String) : TrafficItem := ⟨startP, stopP, 1800⟩

def station : Item where
  placeType := 0x20
  type := 0x1000
  departTraffic := some (oldTraffic "station" "first")

/-- A hotel that closes after ten hours, and where the stay lasts from `arriveTime` to
`departTime`. -/
def hotel (arriveTime departTime minDur : Int) (arriveTraffic departTraffic : Option TrafficItem) :
    Item where
  placeType := 0x4
  type := 0x10000
  arriveTraffic := arriveTraffic
  departTraffic := departTraffic
  arriveTime := arriveTime
  departTime := departTime
  closeTime := 36000
  durS := { min := minDur }

/-- The first hotel is left at `departTime`, and the second one is reached at `arriveTime`. -/
def hotels (departTime minDur arriveTime : Int) : List Item :=
  [station,
    hotel 1800 departTime minDur (some (oldTraffic "station" "first"))
      (some (oldTraffic "first" "second")),
    { hotel arriveTime 72000 0 (some (oldTraffic "first" "second")) none with closeTime := 72000 }]

/-- The new travel times by the ends of the leg. -/
def newTimes (first second : ℕ) (startP stopP _date : String) : Option TrafficItem :=
  some ⟨startP, stopP, if stopP = "first" then first else second⟩

theorem feasible_hotels {departTime minDur arriveTime : Int} (harrive : 1800 ≤ departTime)
    (hclose : departTime ≤ 36000) (hleg : departTime + 1800 ≤ arriveTime)
    (hsecond : arriveTime ≤ 72000) : Feasible (hotels departTime minDur arriveTime) := by
  refine ⟨List.isChain_cons_cons.mpr ⟨⟨rfl, ?_⟩, List.isChain_pair.mpr ⟨rfl, ?_⟩⟩, ?_⟩
  · exact Int.le_refl 1800
  · exact hleg
  · simp only [hotels, List.forall_mem_cons, InWindow, station, hotel]
    refine ⟨by decide, ⟨by omega, harrive, hclose⟩, ⟨by omega, hsecond, by omega⟩,
      List.forall_mem_nil _⟩

theorem leavesRoom_hotels {departTime minDur arriveTime : Int} (hroom : 37800 ≤ arriveTime) :
    LeavesRoom (hotels departTime minDur arriveTime) := by
  intro i z y hz hy _ hbefore _
  obtain ⟨j, hj, -⟩ := hbefore
  match i with
  | 0 => contradiction
  | 1 =>
    obtain rfl := Option.some.inj hz
    obtain rfl := Option.some.inj hy
    exact hroom
  | i + 2 => simp [hotels] at hy

theorem nonneg_hotels {departTime minDur arriveTime : Int} (hmin : 0 ≤ minDur) :
    ∀ p ∈ hotels departTime minDur arriveTime, Nonneg p := by
  simp only [hotels, List.forall_mem_cons, Nonneg, station, hotel]
  exact ⟨⟨by decide, by decide⟩, ⟨hmin, Int.le_refl 0⟩, ⟨Int.le_refl 0, Int.le_refl 0⟩,
    List.forall_mem_nil _⟩

/-- The second segment cannot be replaced. -/
theorem doReplace_hotels : ∃ path', doReplace (newTimes 3600 40000) (fun _ l => l) 0
    (hotels 36000 600 60000) = .ok path' ∧ Feasible path' := by
  have hfeasible : Feasible (hotels 36000 600 60000) :=
    feasible_hotels (by decide) (by decide) (by decide) (by decide)
  have hrun : doReplace (newTimes 3600 40000) (fun _ l => l) 0 (hotels 36000 600 60000) = .ok _ :=
    rfl
  exact ⟨_, hrun, doReplace_feasible hfeasible (nonneg_hotels (by decide))
    (leavesRoom_hotels (by decide)) hrun⟩

/-- When the first hotel is left before it closes, it is left at that time afterwards, and the
second one is still reached as before. With a negative duration the first hotel is reached after
it has been left. -/
theorem not_doReplace_feasible :
    (Feasible (hotels 7200 600 9000) ∧ ∃ path', doReplace (newTimes 3600 40000) (fun _ l => l) 0
      (hotels 7200 600 9000) = .ok path' ∧ ¬ Feasible path') ∧
    Feasible (hotels 36000 (-9000) 60000) ∧ ∃ path', doReplace (newTimes 40000 1800)
      (fun _ l => l) 0 (hotels 36000 (-9000) 60000) = .ok path' ∧ ¬ Feasible path' := by
  refine ⟨⟨feasible_hotels (by decide) (by decide) (by decide) (by decide), _, rfl, fun h => ?_⟩,
    feasible_hotels (by decide) (by decide) (by decide) (by decide), _, rfl, fun h => ?_⟩
  · have hleg := (List.isChain_cons_cons.mp (List.isChain_cons_cons.mp h.legs).2).1.2
    revert hleg
    decide
  · have hstay := (List.forall_mem_cons.mp (List.forall_mem_cons.mp h.stays).2).1.2.1
    revert hstay
    decide

end PPView.RealTime
