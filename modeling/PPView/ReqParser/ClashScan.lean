import PPView.ReqParser.ClashPois

/-!
# The scan without its calls

The calls on the places up to the present one only do what the loops would do by themselves: the
places before have no clash left, and the present one is treated as the loops treat it.
-/

namespace PPView.ReqParser

open Repeats

/-! ## Effects -/

/-- What is done about a place `placeOrder` that the place `order` behind it clashes with. -/
def clear (order placeOrder : PlaceOrder) (plan : ClashPlan) : ClashPlan :=
  if placeOrder.place.isTour then delClashPois placeOrder.place plan
  else
    let plan := if order.place.isCarStore then delClashPois order.place plan else plan
    if placeOrder.place.isCarStore ∧ order.place.isArrive then delClashPois placeOrder.place plan
    else plan

def Cleared (order placeOrder : PlaceOrder) (plan : ClashPlan) : Prop :=
  if placeOrder.place.isTour then placeOrder.place ∈ plan.delPoisSet
  else (order.place.isCarStore → order.place ∈ plan.delPoisSet) ∧
    (placeOrder.place.isCarStore ∧ order.place.isArrive → placeOrder.place ∈ plan.delPoisSet)

variable {order placeOrder : PlaceOrder} {plan : ClashPlan}

theorem mem_clear_of_mem {place : ClashPlace} (h : place ∈ plan.delPoisSet) :
    place ∈ (clear order placeOrder plan).delPoisSet := by
  rw [clear]
  dsimp only
  split_ifs <;> simp [mem_del, h]

theorem Consistent.clear (h : Consistent plan) (order placeOrder : PlaceOrder) :
    Consistent (clear order placeOrder plan) := by
  rw [ReqParser.clear]
  dsimp only
  split_ifs
  · exact h.del _
  · exact (h.del _).del _
  · exact h.del _
  · exact h.del _
  · exact h

theorem cleared_clear (order placeOrder : PlaceOrder) (plan : ClashPlan) :
    Cleared order placeOrder (clear order placeOrder plan) := by
  rw [Cleared, clear]
  dsimp only
  split_ifs with htour hboth hcar hcar
  · exact mem_del.mpr (.inr rfl)
  · exact ⟨fun _ => mem_del.mpr (.inl (mem_del.mpr (.inr rfl))), fun _ => mem_del.mpr (.inr rfl)⟩
  · exact ⟨fun h => absurd h hcar, fun _ => mem_del.mpr (.inr rfl)⟩
  · exact ⟨fun _ => mem_del.mpr (.inr rfl), fun h => absurd h hboth⟩
  · exact ⟨fun h => absurd h hcar, fun h => absurd h hboth⟩

theorem clear_of_cleared (h : Consistent plan) (hcleared : Cleared order placeOrder plan) :
    clear order placeOrder plan = plan := by
  rw [Cleared] at hcleared
  rw [clear]
  dsimp only
  split_ifs at hcleared ⊢ with htour hboth hcar hcar
  · exact delClashPois_of_mem h hcleared
  · rw [delClashPois_of_mem h (hcleared.1 hcar), delClashPois_of_mem h (hcleared.2 hboth)]
  · exact delClashPois_of_mem h (hcleared.2 hboth)
  · exact delClashPois_of_mem h (hcleared.1 hcar)
  · rfl

theorem repeatable_clear (order : PlaceOrder) :
    Repeatable (clear order) (Cleared order) Consistent where
  done _ _ := cleared_clear _ _ _
  keep x y s h := by
    rw [Cleared] at h ⊢
    split_ifs at h ⊢
    · exact mem_clear_of_mem h
    · exact ⟨fun hcar => mem_clear_of_mem (h.1 hcar), fun hboth => mem_clear_of_mem (h.2 hboth)⟩
  noop _ _ := clear_of_cleared
  ok_f _ _ h := h.clear _ _

/-- The loop calls the scan behind each tour that it removes. -/
theorem clashLoop_eq_loop (inner : List PlaceOrder → ClashPlan → Option ClashPlan)
    (pre : List PlaceOrder) (order : PlaceOrder) (l : List PlaceOrder) (plan : ClashPlan) :
    clashLoop inner pre order l plan = loop (clear order) (fun placeOrder plan =>
      if placeOrder.place.isTour then inner ((pre ++ [order]).filter (· ≠ placeOrder)) plan
      else some plan) l plan := by
  induction l generalizing plan with
  | nil => rfl
  | cons placeOrder l ih =>
    rw [clashLoop, loop, clear]
    split_ifs with htour
    all_goals simp only [ih]
    all_goals rfl

/-! ## Clashes -/

section

variable (T : String → Option (Int × Int)) (last order : PlaceOrder)

/-- The places are on one day, and their times are related. -/
def related (rel : Int × Int → Int × Int → Bool) : Bool :=
  last.date = order.date ∧
    (T order.place.ID).any fun time => (T last.place.ID).any fun lastTime => rel lastTime time

/-- The earlier place of the list begins when the later one is over. -/
def reversed : Bool := related T last order fun lastTime time => lastTime.1 ≥ time.2

def overlapping : Bool :=
  related T last order fun lastTime time => lastTime.1 < time.2 ∧ time.1 < lastTime.2

def clash : Bool := reversed T last order || overlapping T last order

/-- The places that the present one clashes with, as the loops take them. -/
def clashesOf (D : List ClashPlace) (pre : List PlaceOrder) : List PlaceOrder :=
  (pre.filter fun last => last.place ∉ D ∧ reversed T last order).reverse ++
    (pre.filter fun last => last.place ∉ D ∧ overlapping T last order).reverse

end

variable {T : String → Option (Int × Int)} {D D' : List ClashPlace} {pre : List PlaceOrder}

theorem related_iff {last : PlaceOrder} {rel : Int × Int → Int × Int → Bool} :
    related T last order rel ↔ last.date = order.date ∧ ∃ time, T order.place.ID = some time ∧
      ∃ lastTime, T last.place.ID = some lastTime ∧ rel lastTime time := by
  simp only [related, decide_eq_true_eq, Option.any_eq_true]

theorem mem_clashesOf : placeOrder ∈ clashesOf T order D pre ↔
    placeOrder ∈ pre ∧ placeOrder.place ∉ D ∧ clash T placeOrder order := by
  simp only [clashesOf, clash, List.mem_append, List.mem_reverse, List.mem_filter,
    decide_eq_true_eq,
    Bool.or_eq_true]
  tauto

/-- Later there are those that are still there. -/
theorem clashesOf_filter (hD : D ⊆ D') (hmem : placeOrder.place ∈ D') :
    clashesOf T order D' (pre.filter (· ≠ placeOrder)) =
      (clashesOf T order D pre).filter fun last => last.place ∉ D' := by
  have hfilter (p : PlaceOrder → Bool) :
      (pre.filter (· ≠ placeOrder)).filter (fun last => last.place ∉ D' ∧ p last) =
        (pre.filter fun last => last.place ∉ D ∧ p last).filter fun last => last.place ∉ D' := by
    rw [List.filter_filter, List.filter_filter]
    refine List.filter_congr fun last _ => ?_
    by_cases hlast : last.place ∈ D'
    · simp [hlast]
    · have hne : last ≠ placeOrder := fun heq => hlast (heq ▸ hmem)
      have hnot : last.place ∉ D := fun h => hlast (hD h)
      simp [hlast, hne, hnot]
  rw [clashesOf, clashesOf, List.filter_append, List.filter_reverse, List.filter_reverse, hfilter,
    hfilter]

/-! ## Plans of the run -/

def DistinctIds (L : List PlaceOrder) : Prop := (L.map fun order => order.place.ID).Nodup

theorem DistinctIds.eq {L : List PlaceOrder} (hL : DistinctIds L) {o o' : PlaceOrder} (ho : o ∈ L)
    (ho' : o' ∈ L) (h : o.place.ID = o'.place.ID) : o = o' :=
  List.inj_on_of_nodup_map hL ho ho' h

/-- A plan where some of the places of the list are removed; the others have their times. -/
structure Reached (L : List PlaceOrder) (T : String → Option (Int × Int)) (plan : ClashPlan) :
    Prop where
  consistent : Consistent plan
  mem : ∀ place ∈ plan.delPoisSet, ∃ order ∈ L, order.place = place
  times : ∀ order ∈ L, order.place ∉ plan.delPoisSet →
    plan.m_vPlaceOpenMap order.place.ID = T order.place.ID

variable {L : List PlaceOrder}

theorem Reached.del (hL : DistinctIds L) (h : Reached L T plan) (ho : order ∈ L) :
    Reached L T (delClashPois order.place plan) where
  consistent := h.consistent.del _
  mem place hmem := by
    rcases mem_del.mp hmem with hmem | rfl
    · exact h.mem place hmem
    · exact ⟨order, ho, rfl⟩
  times o ho' hmem := by
    rw [mem_del, not_or] at hmem
    rw [vPlaceOpenMap_del, eraseKey, if_neg, h.times o ho' hmem.1]
    exact fun hID => hmem.2 (congrArg PlaceOrder.place (hL.eq ho' ho hID))

theorem Reached.clear (hL : DistinctIds L) (h : Reached L T plan) (ho : order ∈ L)
    (hlast : placeOrder ∈ L) : Reached L T (clear order placeOrder plan) := by
  rw [ReqParser.clear]
  dsimp only
  split_ifs
  · exact h.del hL hlast
  · exact (h.del hL ho).del hL hlast
  · exact h.del hL hlast
  · exact h.del hL ho
  · exact h

theorem Reached.run (hL : DistinctIds L) (h : Reached L T plan) (ho : order ∈ L)
    {l : List PlaceOrder} (hl : l ⊆ L) : Reached L T (run (ReqParser.clear order) l plan) := by
  induction l generalizing plan with
  | nil => exact h
  | cons placeOrder l ih =>
    obtain ⟨hplace, hl⟩ := List.cons_subset.mp hl
    exact ih (h.clear hL ho hplace) hl

theorem subset_run (order : PlaceOrder) (l : List PlaceOrder) (plan : ClashPlan) :
    plan.delPoisSet ⊆ (run (clear order) l plan).delPoisSet := by
  induction l generalizing plan with
  | nil => exact List.Subset.refl _
  | cons placeOrder l ih =>
    rw [run_cons]
    exact fun place h => ih _ (mem_clear_of_mem h)

/-- Only the places of the loop and the present one are removed. -/
theorem mem_run {place : ClashPlace} {l : List PlaceOrder}
    (h : place ∈ (run (clear order) l plan).delPoisSet) :
    place ∈ plan.delPoisSet ∨ place = order.place ∨ ∃ last ∈ l, last.place = place := by
  induction l generalizing plan with
  | nil => exact .inl h
  | cons placeOrder l ih =>
    have hclear : place ∈ (clear order placeOrder plan).delPoisSet →
        place ∈ plan.delPoisSet ∨ place = order.place ∨ placeOrder.place = place := by
      intro hmem
      rw [clear] at hmem
      dsimp only at hmem
      split_ifs at hmem
      all_goals
        try simp only [mem_del] at hmem
        tauto
    rcases ih h with hmem | rfl | ⟨last, hlast, rfl⟩
    · rcases hclear hmem with hmem | rfl | rfl
      · exact .inl hmem
      · exact .inr (.inl rfl)
      · exact .inr (.inr ⟨placeOrder, List.mem_cons_self, rfl⟩)
    · exact .inr (.inl rfl)
    · exact .inr (.inr ⟨last, List.mem_cons_of_mem _ hlast, rfl⟩)

/-! ## The scan -/

variable (T)

/-- What is done about the place `order`. -/
def settle (pre : List PlaceOrder) (order : PlaceOrder) (plan : ClashPlan) : ClashPlan :=
  if order.place ∈ plan.delPoisSet then plan
  else if order.place.isTour then
    if clashesOf T order plan.delPoisSet pre = [] then plan else delClashPois order.place plan
  else run (clear order) (clashesOf T order plan.delPoisSet pre) plan

def settleAll : List PlaceOrder → List PlaceOrder → ClashPlan → ClashPlan
  | _, [], plan => plan
  | pre, order :: orderList, plan =>
    settleAll (pre ++ [order]) orderList (settle T pre order plan)

theorem settleAll_append (pre l l' : List PlaceOrder) (plan : ClashPlan) :
    settleAll T pre (l ++ l') plan = settleAll T (pre ++ l) l' (settleAll T pre l plan) := by
  induction l generalizing pre plan with
  | nil => rw [List.nil_append, List.append_nil, settleAll]
  | cons order l ih => rw [List.cons_append, settleAll, settleAll, ih, List.append_assoc,
      List.singleton_append]

variable {T}

theorem Reached.settle (hL : DistinctIds L) (h : Reached L T plan) (hpre : pre ⊆ L)
    (ho : order ∈ L) : Reached L T (settle T pre order plan) := by
  rw [ReqParser.settle]
  split_ifs
  · exact h
  · exact h
  · exact h.del hL ho
  · exact h.run hL ho fun last hlast => hpre (mem_clashesOf.mp hlast).1

theorem subset_settle (pre : List PlaceOrder) (order : PlaceOrder) (plan : ClashPlan) :
    plan.delPoisSet ⊆ (settle T pre order plan).delPoisSet := by
  rw [settle]
  split_ifs
  · exact List.Subset.refl _
  · exact List.Subset.refl _
  · exact fun place h => mem_del.mpr (.inl h)
  · exact subset_run _ _ _

/-! ## Settled places -/

/-- Two places that clash and are both kept. -/
def Tolerated (last order : PlaceOrder) : Prop :=
  ¬ last.place.isTour ∧ ¬ order.place.isTour ∧ ¬ order.place.isCarStore ∧
    ¬ (last.place.isCarStore ∧ order.place.isArrive)

def Settled (T : String → Option (Int × Int)) (l : List PlaceOrder) (D : List ClashPlace) : Prop :=
  l.Pairwise fun last order =>
    last.place ∉ D → order.place ∉ D → clash T last order → Tolerated last order

theorem Settled.mono {l : List PlaceOrder} (h : Settled T l D) (hD : D ⊆ D') : Settled T l D' :=
  h.imp fun hab ha hb => hab (fun h => ha (hD h)) fun h => hb (hD h)

/-- Nothing is done about places that are settled. -/
theorem settle_of_tolerated (h : Consistent plan)
    (hall : ∀ last ∈ pre, last.place ∉ plan.delPoisSet → order.place ∉ plan.delPoisSet →
      clash T last order → Tolerated last order) : settle T pre order plan = plan := by
  rw [settle]
  split_ifs with hmem htour hnil
  · rfl
  · rfl
  · obtain ⟨last, hlast⟩ := List.exists_mem_of_ne_nil _ hnil
    obtain ⟨hpre, hkept, hclash⟩ := mem_clashesOf.mp hlast
    exact absurd htour (hall last hpre hkept hmem hclash).2.1
  · refine (repeatable_clear order).run_of_done h fun last hlast => ?_
    obtain ⟨hpre, hkept, hclash⟩ := mem_clashesOf.mp hlast
    obtain ⟨hlastTour, -, hcar, hboth⟩ := hall last hpre hkept hmem hclash
    rw [Cleared, if_neg hlastTour]
    exact ⟨fun h => absurd h hcar, fun h => absurd h hboth⟩

theorem settleAll_of_settled (h : Consistent plan) {l : List PlaceOrder}
    (hsettled : Settled T (pre ++ l) plan.delPoisSet) : settleAll T pre l plan = plan := by
  induction l generalizing pre with
  | nil => rfl
  | cons order l ih =>
    have hfirst := List.pairwise_append.mp hsettled
    rw [settleAll, settle_of_tolerated h fun last hlast => hfirst.2.2 last hlast order
      List.mem_cons_self]
    exact ih (by simpa using hsettled)

/-- The place is settled with those before it. -/
theorem settled_settle (h : Settled T pre plan.delPoisSet) (order : PlaceOrder) :
    Settled T (pre ++ [order]) (settle T pre order plan).delPoisSet := by
  refine List.pairwise_append.mpr ⟨h.mono (subset_settle pre order plan),
    List.pairwise_singleton _ _,
    fun last hlast o ho hlastKept hkept hclash => ?_⟩
  obtain rfl := List.mem_singleton.mp ho
  have hlastKept' := fun h => hlastKept (subset_settle pre o plan h)
  have hkept' := fun h => hkept (subset_settle pre o plan h)
  have hmem : last ∈ clashesOf T o plan.delPoisSet pre :=
    mem_clashesOf.mpr ⟨hlast, hlastKept', hclash⟩
  rw [settle, if_neg hkept'] at hlastKept hkept
  split_ifs at hlastKept hkept with htour hnil
  · rw [hnil] at hmem
    contradiction
  · exact absurd (mem_del.mpr (.inr rfl)) hkept
  · have hcleared := (repeatable_clear o).done_run (s := plan) hmem
    rw [Cleared] at hcleared
    split_ifs at hcleared with hlastTour
    · exact absurd hcleared hlastKept
    · exact ⟨hlastTour, htour, fun hcar => hkept (hcleared.1 hcar),
        fun hboth => hlastKept (hcleared.2 hboth)⟩

/-! ## The calls -/

theorem filter_concat (hL : DistinctIds L) (hpre : (pre ++ [order]).Sublist L)
    (hmem : placeOrder ∈ pre) :
    (pre ++ [order]).filter (· ≠ placeOrder) = pre.filter (· ≠ placeOrder) ++ [order] := by
  have hne : order ≠ placeOrder := by
    rintro rfl
    have hnodup : DistinctIds (pre ++ [order]) := hL.sublist (hpre.map _)
    rw [DistinctIds, List.map_append, List.nodup_append] at hnodup
    exact hnodup.2.2 _ (List.mem_map_of_mem hmem) _ (by simp) rfl
  rw [List.filter_append, List.filter_cons_of_pos (by simpa using hne), List.filter_nil]

/-- A call from the loop goes on with the loop, if the present place is still there. -/
theorem settleAll_inner (hL : DistinctIds L) (hreached : Reached L T plan)
    (hpre : (pre ++ [order]).Sublist L) (hsettled : Settled T pre plan.delPoisSet)
    (htour : ¬ order.place.isTour) {P : List PlaceOrder}
    (hP : P <+: clashesOf T order plan.delPoisSet pre)
    (hmem : placeOrder ∈ P) (hplace : placeOrder.place.isTour) :
    ∃ Q, P <+: Q ∧ Q <+: clashesOf T order plan.delPoisSet pre ∧
      settleAll T [] ((pre ++ [order]).filter (· ≠ placeOrder)) (run (clear order) P plan) =
        run (clear order) Q plan := by
  have hin := (mem_clashesOf.mp (hP.subset hmem)).1
  have hrep := repeatable_clear order
  have hrun : Consistent (run (clear order) P plan) := hrep.ok_run hreached.consistent
  have hremoved : placeOrder.place ∈ (run (clear order) P plan).delPoisSet := by
    have hcleared := hrep.done_run (s := plan) hmem
    rwa [Cleared, if_pos hplace] at hcleared
  have hbefore : Settled T (pre.filter (· ≠ placeOrder)) (run (clear order) P plan).delPoisSet :=
    (hsettled.mono (subset_run order P plan)).sublist List.filter_sublist
  rw [filter_concat hL hpre hin, settleAll_append,
    settleAll_of_settled hrun (by simpa using hbefore),
    List.nil_append, settleAll, settleAll, settle]
  by_cases hgone : order.place ∈ (run (clear order) P plan).delPoisSet
  · exact ⟨P, List.prefix_rfl, hP, by rw [if_pos hgone]⟩
  · refine ⟨_, hP, List.prefix_rfl, ?_⟩
    rw [if_neg hgone, if_neg htour, clashesOf_filter (subset_run order P plan) hremoved,
      hrep.run_filter hrun, hrep.run_prefix hreached.consistent hP]
    -- The places that are gone are those of the loop so far.
    intro last hlast hdead
    rw [decide_eq_true_eq, not_not] at hdead
    obtain ⟨hlastPre, hlastKept, -⟩ := mem_clashesOf.mp hlast
    rcases mem_run hdead with h | h | ⟨last', hlast', heq⟩
    · exact absurd h hlastKept
    · rw [h] at hdead
      exact absurd hdead hgone
    · have hsub : pre ⊆ L := fun o ho => hpre.subset (List.mem_append_left _ ho)
      have hlastL := hsub (mem_clashesOf.mp (hP.subset hlast')).1
      obtain rfl : last' = last := hL.eq hlastL (hsub hlastPre) (congrArg ClashPlace.ID heq)
      exact hrep.done_run hlast'

/-- What the calls have to give. -/
def CallsSettle (L : List PlaceOrder) (T : String → Option (Int × Int)) (bound : ℕ)
    (inner : List PlaceOrder → ClashPlan → Option ClashPlan) : Prop :=
  ∀ l plan, l.length < bound → l.Sublist L → Reached L T plan →
    inner l plan = some (settleAll T [] l plan)

theorem clashLoop_eq (hL : DistinctIds L) (hreached : Reached L T plan)
    (hpre : (pre ++ [order]).Sublist L) (hsettled : Settled T pre plan.delPoisSet)
    (htour : ¬ order.place.isTour)
    {inner : List PlaceOrder → ClashPlan → Option ClashPlan}
    (hinner : CallsSettle L T (pre.length + 1) inner) :
    loop (clear order) (fun placeOrder plan =>
        if placeOrder.place.isTour then inner ((pre ++ [order]).filter (· ≠ placeOrder)) plan
        else some plan) (clashesOf T order plan.delPoisSet pre) plan =
      some (run (clear order) (clashesOf T order plan.delPoisSet pre) plan) := by
  refine (repeatable_clear order).loop_eq hreached.consistent fun placeOrder hplace P hP hmem => ?_
  by_cases hplaceTour : placeOrder.place.isTour
  · obtain ⟨Q, hPQ, hQ, heq⟩ := settleAll_inner hL hreached hpre hsettled htour hP hmem hplaceTour
    refine ⟨Q, hPQ, hQ, ?_⟩
    have hin := (mem_clashesOf.mp hplace).1
    have hlen : ((pre ++ [order]).filter (· ≠ placeOrder)).length < pre.length + 1 := by
      rw [filter_concat hL hpre hin, List.length_append, List.length_singleton]
      have := List.length_filter_lt_length_iff_exists (l := pre) (p := (· ≠ placeOrder))
      have := this.mpr ⟨placeOrder, hin, by simp⟩
      omega
    have hsub : P ⊆ L := fun o ho =>
      hpre.subset (List.mem_append_left _ (mem_clashesOf.mp (hP.subset ho)).1)
    rw [if_pos hplaceTour, hinner _ _ hlen (List.filter_sublist.trans hpre)
      (hreached.run hL (hpre.subset (by simp)) hsub), heq]
  · exact ⟨P, List.prefix_rfl, hP, by rw [if_neg hplaceTour]⟩

/-! ## The code -/

variable {dayTime : String → Int}

theorem timesOn_eq (h : Reached L T plan) (ho : order ∈ L)
    (hkept : order.place ∉ plan.delPoisSet) (date : String) :
    timesOn dayTime plan date order =
      (T order.place.ID).map fun time => (dayTime date + time.1, dayTime date + time.2) := by
  rw [timesOn, h.times order ho hkept]

/-- The times of a day are compared as they are. -/
theorem placesBefore_eq (h : Reached L T plan) (hpre : pre ⊆ L) {time : Int × Int}
    (htime : T order.place.ID = some time) {rel : Int × Int → Bool}
    {rel' : Int × Int → Int × Int → Bool} (hrel : ∀ lastTime : Int × Int,
      rel (dayTime order.date + lastTime.1, dayTime order.date + lastTime.2) = rel' lastTime time) :
    placesBefore dayTime plan order.date pre rel =
      pre.filter fun last => last.place ∉ plan.delPoisSet ∧ related T last order rel' := by
  refine List.filter_congr fun last hlast => ?_
  rw [related, htime]
  by_cases hkept : last.place ∈ plan.delPoisSet
  · simp [hkept]
  · rw [timesOn_eq h (hpre hlast) hkept]
    cases T last.place.ID with
    | none => simp
    | some lastTime =>
      by_cases hdate : order.date = last.date
      · have hrel' := hrel lastTime
        rw [hdate] at hrel'
        simp [hkept, hrel', hdate]
      · simp [hkept, hdate, Ne.symm hdate]

theorem dealList_of_tour (htour : order.place.isTour)
    (inner : List PlaceOrder → ClashPlan → Option ClashPlan) (pre list : List PlaceOrder)
    (plan : ClashPlan) : dealList inner pre order list plan =
      some (if list = [] then plan else delClashPois order.place plan) := by
  rw [dealList]
  cases list with
  | nil => rfl
  | cons last list => simp [htour]

/-- A tour is removed once. -/
theorem dealLists_of_tour (htour : order.place.isTour) (h : Consistent plan)
    (inner : List PlaceOrder → ClashPlan → Option ClashPlan) (pre list list' : List PlaceOrder) :
    (dealList inner pre order list plan).bind (dealList inner pre order list') =
      some (if list.reverse ++ list'.reverse = [] then plan else delClashPois order.place plan) := by
  have hagain := delClashPois_of_mem (h.del order.place) (mem_del.mpr (.inr rfl))
  rw [dealList_of_tour htour, Option.bind_some, dealList_of_tour htour]
  cases list with
  | nil => simp
  | cons last list => simp [hagain]

theorem dealList_of_not_tour (htour : ¬ order.place.isTour)
    (inner : List PlaceOrder → ClashPlan → Option ClashPlan) (pre list : List PlaceOrder)
    (plan : ClashPlan) :
    dealList inner pre order list plan = clashLoop inner pre order list.reverse plan := by
  rw [dealList]
  cases list with
  | nil => rfl
  | cons last list => simp [htour]

theorem checkOrder_eq (hL : DistinctIds L) (hreached : Reached L T plan)
    (hpre : (pre ++ [order]).Sublist L) (hsettled : Settled T pre plan.delPoisSet)
    {inner : List PlaceOrder → ClashPlan → Option ClashPlan}
    (hinner : CallsSettle L T (pre.length + 1) inner) :
    checkOrder dayTime inner pre order plan = some (settle T pre order plan) := by
  have ho : order ∈ L := hpre.subset (by simp)
  have hpreL : pre ⊆ L := fun o ho => hpre.subset (List.mem_append_left _ ho)
  have hdate (date : String) : (if date ≠ order.date then order.date else date) = order.date := by
    split_ifs with h
    · rfl
    · exact not_not.mp h
  rw [checkOrder]
  dsimp only
  rw [hdate]
  by_cases hkept : order.place ∈ plan.delPoisSet
  · rw [timesOn, (hreached.consistent _ hkept).2.2, settle, if_pos hkept]
    rfl
  · rw [timesOn_eq hreached ho hkept]
    cases htime : T order.place.ID with
    | none =>
      have hnil : clashesOf T order plan.delPoisSet pre = [] := by
        simp [clashesOf, reversed, overlapping, related, htime]
      rw [settle, if_neg hkept, hnil]
      simp
    | some time =>
      have hinverse : placesBefore dayTime plan order.date pre
          (fun last => last.1 ≥ dayTime order.date + time.2) =
          pre.filter fun last => last.place ∉ plan.delPoisSet ∧ reversed T last order :=
        placesBefore_eq hreached hpreL htime (by simp)
      have hoverlap : placesBefore dayTime plan order.date pre
          (fun last => last.1 < dayTime order.date + time.2 ∧
            dayTime order.date + time.1 < last.2) =
          pre.filter fun last => last.place ∉ plan.delPoisSet ∧ overlapping T last order :=
        placesBefore_eq hreached hpreL htime (by simp)
      simp only [Option.map_some]
      rw [hinverse, hoverlap, settle, if_neg hkept]
      by_cases htour : order.place.isTour
      · rw [if_pos htour, clashesOf]
        exact dealLists_of_tour htour hreached.consistent ..
      · have hloop := clashLoop_eq hL hreached hpre hsettled htour hinner
        rw [clashesOf, loop_append] at hloop
        rw [if_neg htour, clashesOf, ← hloop]
        simp only [dealList_of_not_tour htour, clashLoop_eq_loop]
        rfl

theorem dealOrders_eq (hL : DistinctIds L)
    {inner : List PlaceOrder → ClashPlan → Option ClashPlan} {l : List PlaceOrder}
    (hl : (pre ++ l).Sublist L) (hinner : CallsSettle L T (pre ++ l).length inner)
    (hreached : Reached L T plan) (hsettled : Settled T pre plan.delPoisSet) :
    dealOrders dayTime inner pre l plan = some (settleAll T pre l plan) := by
  induction l generalizing pre plan with
  | nil => rfl
  | cons order l ih =>
    have hsplit : pre ++ order :: l = pre ++ [order] ++ l := by simp
    rw [hsplit] at hl hinner
    have hpre : (pre ++ [order]).Sublist L := (List.sublist_append_left ..).trans hl
    have hinner' : CallsSettle L T (pre.length + 1) inner := fun l' plan hlen =>
      hinner l' plan (by simp only [List.length_append, List.length_singleton]; omega)
    have hcheck : checkOrder dayTime inner pre order plan = some (settle T pre order plan) :=
      checkOrder_eq hL hreached hpre hsettled hinner'
    rw [dealOrders, hcheck, settleAll]
    refine ih hl hinner (hreached.settle hL ?_ (hpre.subset (by simp)))
      (settled_settle hsettled order)
    exact fun o ho => hpre.subset (List.mem_append_left _ ho)

/-- Calls that go deep enough end, and do what the loops would do without further calls. -/
theorem dealClash_eq (hL : DistinctIds L) {depth : ℕ} {l : List PlaceOrder}
    (hdepth : l.length < depth) (hl : l.Sublist L) (hreached : Reached L T plan) :
    dealClashOfSpecialPois dayTime depth l plan = some (settleAll T [] l plan) := by
  induction depth generalizing l plan with
  | zero => omega
  | succ depth ih =>
    rw [dealClashOfSpecialPois]
    by_cases hone : l.length = 1
    · obtain ⟨order, rfl⟩ := List.length_eq_one_iff.mp hone
      rw [if_pos hone, settleAll_of_settled hreached.consistent (by simp [Settled])]
    · rw [if_neg hone]
      refine dealOrders_eq hL hl (fun l' plan' hlen hl' hreached' => ?_) hreached List.Pairwise.nil
      refine ih ?_ hl' hreached'
      rw [List.nil_append] at hlen
      omega

end PPView.ReqParser
