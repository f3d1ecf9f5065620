import Mathlib.Data.List.TakeWhile
import PPView.ReqParser.ClashScan

/-!
# What is removed, and for what

A removal has a reason if the place clashes with one that is still there. The loops over the clashes
of a car store go on when they have removed it, and remove tours that only clash with it.
-/

namespace PPView.ReqParser

open Repeats

variable {order placeOrder : PlaceOrder} {plan : ClashPlan} {T : String → Option (Int × Int)}
  {D : List ClashPlace} {pre L S : List PlaceOrder}

/-! ## Removals of the loops -/

theorem ClashPlace.isTour_of_isCarStore {place : ClashPlace} (h : place.isCarStore) :
    place.isTour = false := by
  rw [isTour, place.disguised h]
  decide

theorem ClashPlace.isArrive_of_isCarStore {place : ClashPlace} (h : place.isCarStore) :
    place.isArrive = false := by
  rw [isArrive, place.disguised h]
  decide

def PlaceOrder.isTour (order : PlaceOrder) : Bool := order.place.isTour

/-- What is removed for a place that stays. -/
def isCleared (order placeOrder : PlaceOrder) : Bool :=
  placeOrder.place.isTour ∨ placeOrder.place.isCarStore ∧ order.place.isArrive

theorem delPoisSet_del_of_notMem {place : ClashPlace} (h : place ∉ plan.delPoisSet) :
    (delClashPois place plan).delPoisSet = plan.delPoisSet ++ [place] := by
  rw [delPoisSet_del, if_neg h]

/-- The effect, if the present place is no car store or already gone. -/
theorem delPoisSet_clear (hplan : Consistent plan)
    (horder : order.place.isCarStore → order.place ∈ plan.delPoisSet)
    (hkept : placeOrder.place ∉ plan.delPoisSet) :
    (clear order placeOrder plan).delPoisSet = plan.delPoisSet ++
      if isCleared order placeOrder then [placeOrder.place] else [] := by
  have hself : (if order.place.isCarStore then delClashPois order.place plan else plan) = plan := by
    split_ifs with hcar
    · exact delClashPois_of_mem hplan (horder hcar)
    · rfl
  rw [clear, hself, isCleared]
  by_cases htour : placeOrder.place.isTour
  · simp [htour, delPoisSet_del_of_notMem hkept]
  · by_cases hboth : placeOrder.place.isCarStore ∧ order.place.isArrive
    · simp [htour, hboth, delPoisSet_del_of_notMem hkept]
    · simp only [htour, hboth]
      simp

theorem delPoisSet_run (hplan : Consistent plan)
    (horder : order.place.isCarStore → order.place ∈ plan.delPoisSet)
    (hnodup : (S.map (·.place)).Nodup) (hkept : ∀ last ∈ S, last.place ∉ plan.delPoisSet) :
    (run (clear order) S plan).delPoisSet =
      plan.delPoisSet ++ (S.filter (isCleared order)).map (·.place) := by
  induction S generalizing plan with
  | nil => simp
  | cons placeOrder S ih =>
    obtain ⟨hne, hnodup⟩ := List.nodup_cons.mp hnodup
    obtain ⟨hfirst, hkept⟩ := List.forall_mem_cons.mp hkept
    have hclear := delPoisSet_clear hplan horder hfirst
    rw [run_cons, ih (hplan.clear _ _) (fun hcar => mem_clear_of_mem (horder hcar)) hnodup, hclear]
    · by_cases hc : isCleared order placeOrder
      · simp [hc]
      · simp [hc]
    · intro last hlast hmem
      rw [hclear] at hmem
      rcases List.mem_append.mp hmem with hmem | hmem
      · exact hkept last hlast hmem
      · split_ifs at hmem
        · exact hne (List.mem_map.mpr ⟨last, hlast, List.mem_singleton.mp hmem⟩)
        · contradiction

/-- What is removed for a car store: the tours in front of the first other place, then the car
store, and then the other tours. -/
def removedFor (order : PlaceOrder) (S : List PlaceOrder) : List ClashPlace :=
  (S.takeWhile PlaceOrder.isTour).map (·.place) ++
    if S.dropWhile PlaceOrder.isTour = [] then []
    else order.place :: ((S.dropWhile PlaceOrder.isTour).filter PlaceOrder.isTour).map (·.place)

theorem delPoisSet_run_carStore (hplan : Consistent plan) (hcar : order.place.isCarStore)
    (hnodup : (S.map (·.place)).Nodup) (hkept : ∀ last ∈ S, last.place ∉ plan.delPoisSet)
    (horder : order.place ∉ plan.delPoisSet) (hne : order.place ∉ S.map (·.place)) :
    (run (clear order) S plan).delPoisSet = plan.delPoisSet ++ removedFor order S := by
  have harrive := ClashPlace.isArrive_of_isCarStore hcar
  have hcleared : isCleared order = PlaceOrder.isTour := by
    funext last
    simp [isCleared, PlaceOrder.isTour, harrive]
  induction S generalizing plan with
  | nil => simp [removedFor]
  | cons placeOrder S ih =>
    obtain ⟨hneS, hnodupS⟩ := List.nodup_cons.mp hnodup
    obtain ⟨hfirst, hkeptS⟩ := List.forall_mem_cons.mp hkept
    rw [List.map_cons, List.mem_cons, not_or] at hne
    by_cases htour : placeOrder.isTour
    · have hstep : clear order placeOrder plan = delClashPois placeOrder.place plan :=
        if_pos htour
      rw [run_cons, hstep, ih (hplan.del _) hnodupS ?_ ?_ hne.2, delPoisSet_del_of_notMem hfirst,
        removedFor, removedFor, List.takeWhile_cons_of_pos htour, List.dropWhile_cons_of_pos htour]
      · simp
      · intro last hlast hmem
        rcases mem_del.mp hmem with hmem | heq
        · exact hkeptS last hlast hmem
        · exact hneS (List.mem_map.mpr ⟨last, hlast, heq⟩)
      · exact fun hmem => (mem_del.mp hmem).elim horder hne.1
    · -- The car store goes first, and then the rest is as for one that is gone.
      have hstep : clear order placeOrder plan = delClashPois order.place plan := by
        rw [clear, if_neg (show ¬ placeOrder.place.isTour from htour), if_pos hcar, if_neg]
        simp [harrive]
      have hrest := delPoisSet_run (hplan.del order.place) (fun _ => mem_del.mpr (.inr rfl)) hnodupS
        fun last hlast hmem => (mem_del.mp hmem).elim (hkeptS last hlast)
          fun heq => hne.2 (List.mem_map.mpr ⟨last, hlast, heq⟩)
      rw [run_cons, hstep, hrest, hcleared, delPoisSet_del_of_notMem horder, removedFor,
        List.takeWhile_cons_of_neg htour, List.dropWhile_cons_of_neg htour,
        List.filter_cons_of_neg htour, if_neg (List.cons_ne_nil _ _)]
      simp

/-! ## Reasons -/

/-- The places clash, in the order of the list. -/
def ClashIn (T : String → Option (Int × Int)) (L : List PlaceOrder) (a b : PlaceOrder) : Prop :=
  ([a, b].Sublist L ∧ clash T a b) ∨ ([b, a].Sublist L ∧ clash T b a)

/-- The place is a tour or a car store, and clashes with one that is not removed. -/
def Justified (T : String → Option (Int × Int)) (L : List PlaceOrder) (D : List ClashPlace)
    (place : ClashPlace) : Prop :=
  ∃ o ∈ L, o.place = place ∧ (place.isTour ∨ place.isCarStore) ∧
    ∃ q ∈ L, q.place ∉ D ∧ ClashIn T L o q

/-- All removals behind those of `D` are justified when they are made. -/
def AllJustified (T : String → Option (Int × Int)) (L : List PlaceOrder) :
    List ClashPlace → List ClashPlace → Prop
  | _, [] => True
  | D, place :: removed => Justified T L D place ∧ AllJustified T L (D ++ [place]) removed

theorem allJustified_append {D removed removed' : List ClashPlace} :
    AllJustified T L D (removed ++ removed') ↔
      AllJustified T L D removed ∧ AllJustified T L (D ++ removed) removed' := by
  induction removed generalizing D with
  | nil => simp [AllJustified]
  | cons place removed ih =>
    rw [List.cons_append, AllJustified, AllJustified, ih, List.append_assoc, and_assoc]
    rfl

theorem allJustified_iff {removed : List ClashPlace} : AllJustified T L D removed ↔
    ∀ U place V, removed = U ++ place :: V → Justified T L (D ++ U) place := by
  induction removed generalizing D with
  | nil => simp [AllJustified]
  | cons place removed ih =>
    rw [AllJustified, ih]
    constructor
    · rintro ⟨hfirst, hrest⟩ U place' V heq
      cases U with
      | nil =>
        obtain ⟨rfl, -⟩ := List.cons_eq_cons.mp heq
        simpa using hfirst
      | cons u U =>
        obtain ⟨rfl, hremoved⟩ := List.cons_eq_cons.mp heq
        simpa using hrest U place' V hremoved
    · intro h
      refine ⟨by simpa using h [] place removed rfl, fun U place' V heq => ?_⟩
      simpa using h (place :: U) place' V (by rw [heq]; rfl)

/-- Places with one reason that stays. -/
theorem allJustified_of_common {l : List PlaceOrder} {q : PlaceOrder} (hq : q ∈ L)
    (hD : q.place ∉ D) (hl : q.place ∉ l.map (·.place))
    (hall : ∀ o ∈ l, o ∈ L ∧ (o.place.isTour ∨ o.place.isCarStore) ∧ ClashIn T L o q) :
    AllJustified T L D (l.map (·.place)) := by
  induction l generalizing D with
  | nil => trivial
  | cons o l ih =>
    rw [List.map_cons, List.mem_cons, not_or] at hl
    obtain ⟨⟨ho, hkind, hclash⟩, hall⟩ := List.forall_mem_cons.mp hall
    refine ⟨⟨o, ho, rfl, hkind, q, hq, hD, hclash⟩, ih ?_ hl.2 hall⟩
    rw [List.mem_append, not_or, List.mem_singleton]
    exact ⟨hD, hl.1⟩

/-! ## One place of the list -/

section Step

variable {post : List PlaceOrder}

theorem pair_sublist {a b : PlaceOrder} (ha : a ∈ pre) (hb : b ∈ post) :
    [a, b].Sublist (pre ++ post) :=
  (List.singleton_sublist.mpr ha).append (List.singleton_sublist.mpr hb)

/-- Settled places that clash are no tours. -/
theorem Settled.not_isTour (h : Settled T pre D) {a b : PlaceOrder} (ha : a.place ∉ D)
    (hb : b.place ∉ D) (hclash : ClashIn T pre a b) : ¬ a.place.isTour := by
  rcases hclash with ⟨hsub, hclash⟩ | ⟨hsub, hclash⟩
  · have := (List.pairwise_pair.mp (h.sublist hsub)) ha hb hclash
    exact this.1
  · have := (List.pairwise_pair.mp (h.sublist hsub)) hb ha hclash
    exact this.2.1

theorem DistinctIds.disjoint (hL : DistinctIds (pre ++ post)) {a b : PlaceOrder} (ha : a ∈ pre)
    (hb : b ∈ post) : a.place ≠ b.place := by
  rw [DistinctIds, List.map_append, List.nodup_append] at hL
  exact fun heq => hL.2.2 _ (List.mem_map_of_mem ha) _ (List.mem_map_of_mem hb)
    (congrArg ClashPlace.ID heq)

theorem clashIn_left (hL : DistinctIds (pre ++ post)) {a b : PlaceOrder} (ha : a ∈ pre)
    (hb : b ∈ pre) (h : ClashIn T (pre ++ post) a b) : ClashIn T pre a b := by
  have hsub {a b : PlaceOrder} (ha : a ∈ pre) (hb : b ∈ pre)
      (hab : [a, b].Sublist (pre ++ post)) : [a, b].Sublist pre := by
    obtain ⟨l₁, l₂, heq, h₁, h₂⟩ := List.sublist_append_iff.mp hab
    have hnil : l₂ = [] := by
      refine List.eq_nil_iff_forall_not_mem.mpr fun x hx => ?_
      have hpost := h₂.subset hx
      have hpair : x ∈ [a, b] := heq ▸ List.mem_append_right _ hx
      rcases List.mem_pair.mp hpair with rfl | rfl
      · exact hL.disjoint ha hpost rfl
      · exact hL.disjoint hb hpost rfl
    rw [heq, hnil, List.append_nil]
    exact h₁
  exact h.imp (fun ⟨hab, hclash⟩ => ⟨hsub ha hb hab, hclash⟩)
    fun ⟨hba, hclash⟩ => ⟨hsub hb ha hba, hclash⟩

theorem clash_of_clashIn (hL : DistinctIds (pre ++ post)) {a b : PlaceOrder} (ha : a ∈ pre)
    (hb : b ∈ post) (h : ClashIn T (pre ++ post) a b) : clash T a b := by
  refine h.elim (fun h => h.2) fun ⟨hba, _⟩ => ?_
  obtain ⟨l₁, l₂, heq, h₁, h₂⟩ := List.sublist_append_iff.mp hba
  cases l₁ with
  | nil =>
    rw [List.nil_append] at heq
    exact absurd rfl (hL.disjoint ha (h₂.subset (heq ▸ by simp)))
  | cons x l₁ =>
    obtain ⟨rfl, -⟩ := List.cons_eq_cons.mp heq
    exact absurd rfl (hL.disjoint (h₁.subset List.mem_cons_self) hb)

/-- The clashes with the present place. -/
theorem clashIn_order {post : List PlaceOrder} (h : placeOrder ∈ clashesOf T order D pre) :
    ClashIn T (pre ++ order :: post) placeOrder order := by
  obtain ⟨hpre, -, hclash⟩ := mem_clashesOf.mp h
  exact .inl ⟨pair_sublist hpre List.mem_cons_self, hclash⟩

/-- A place is not reversed and overlapping at once. -/
theorem not_overlapping_of_reversed {last : PlaceOrder} (h : reversed T last order) :
    ¬ overlapping T last order := by
  intro hover
  obtain ⟨-, time, htime, lastTime, hlast, hrev⟩ := related_iff.mp h
  obtain ⟨-, time', htime', lastTime', hlast', hover⟩ := related_iff.mp hover
  obtain rfl := Option.some.inj (htime.symm.trans htime')
  obtain rfl := Option.some.inj (hlast.symm.trans hlast')
  rw [decide_eq_true_eq] at hrev hover
  omega

theorem nodup_clashesOf (hL : DistinctIds pre) (T : String → Option (Int × Int))
    (order : PlaceOrder)
    (D : List ClashPlace) : ((clashesOf T order D pre).map (·.place)).Nodup := by
  have hpre : pre.Nodup := List.Nodup.of_map _ hL
  refine List.Nodup.map_on (fun a ha b hb heq => ?_) ?_
  · exact hL.eq (mem_clashesOf.mp ha).1 (mem_clashesOf.mp hb).1 (congrArg ClashPlace.ID heq)
  · refine List.nodup_append.mpr ⟨List.nodup_reverse.mpr (hpre.filter _),
      List.nodup_reverse.mpr (hpre.filter _), fun a ha b hb => ?_⟩
    rintro rfl
    rw [List.mem_reverse, List.mem_filter, decide_eq_true_eq] at ha hb
    exact not_overlapping_of_reversed ha.2.2 hb.2.2

theorem notMem_of_mem_post (hL : DistinctIds (pre ++ post))
    (hD : ∀ place ∈ D, ∃ o ∈ pre, o.place = place) {q : PlaceOrder} (hq : q ∈ post) :
    q.place ∉ D := by
  intro hmem
  obtain ⟨o, ho, heq⟩ := hD _ hmem
  exact hL.disjoint ho hq heq

variable (hL : DistinctIds (pre ++ order :: post))

include hL

/-- Removals for a place that is still there are justified by it. -/
theorem allJustified_clashes (hkept : order.place ∉ D) {l : List PlaceOrder}
    (hl : l ⊆ clashesOf T order D pre) (hkind : ∀ e ∈ l, e.place.isTour ∨ e.place.isCarStore) :
    AllJustified T (pre ++ order :: post) D (l.map (·.place)) := by
  refine allJustified_of_common (q := order) (by simp) hkept (fun hin => ?_) fun e he => ?_
  · obtain ⟨e, he, heq⟩ := List.mem_map.mp hin
    exact hL.disjoint (mem_clashesOf.mp (hl he)).1 List.mem_cons_self heq
  · exact ⟨List.mem_append_left _ (mem_clashesOf.mp (hl he)).1, hkind e he, clashIn_order (hl he)⟩

/-- Where the present place is removed, an earlier tour needs a clash with a later place: the
earlier ones are settled. -/
theorem justified_tour_iff (hsettled : Settled T pre D) {D' : List ClashPlace} (hsub : D ⊆ D')
    (horder : order.place ∈ D') (hD' : ∀ place ∈ D', ∃ o ∈ pre ++ [order], o.place = place)
    {e : PlaceOrder} (he : e ∈ pre) (hkept : e.place ∉ D) (htour : e.isTour) :
    Justified T (pre ++ order :: post) D' e.place ↔ ∃ q ∈ post, clash T e q := by
  have heL : e ∈ pre ++ order :: post := List.mem_append_left _ he
  constructor
  · rintro ⟨o, ho, heq, -, q, hq, hqD, hclash⟩
    obtain rfl := hL.eq ho heL (congrArg ClashPlace.ID heq)
    rcases List.mem_append.mp hq with hqPre | hqPost
    · have hsame := clashIn_left hL he hqPre hclash
      exact absurd htour (hsettled.not_isTour hkept (fun hmem => hqD (hsub hmem)) hsame)
    · rcases List.mem_cons.mp hqPost with rfl | hqPost'
      · exact absurd horder hqD
      · exact ⟨q, hqPost', clash_of_clashIn hL he hqPost hclash⟩
  · rintro ⟨q, hq, hclash⟩
    have hL' : DistinctIds ((pre ++ [order]) ++ post) := by simpa using hL
    exact ⟨e, heL, rfl, .inl htour, q, by simp [hq], notMem_of_mem_post hL' hD' hq,
      .inl ⟨pair_sublist he (List.mem_cons_of_mem _ hq), hclash⟩⟩

theorem allJustified_tours_iff (hsettled : Settled T pre D) {D' : List ClashPlace} (hsub : D ⊆ D')
    (horder : order.place ∈ D') (hD' : ∀ place ∈ D', ∃ o ∈ pre ++ [order], o.place = place)
    {l : List PlaceOrder} (hl : ∀ e ∈ l, e ∈ pre ∧ e.place ∉ D ∧ e.isTour) :
    AllJustified T (pre ++ order :: post) D' (l.map (·.place)) ↔
      ∀ e ∈ l, ∃ q ∈ post, clash T e q := by
  induction l generalizing D' with
  | nil => simp [AllJustified]
  | cons e l ih =>
    obtain ⟨⟨he, hkept, htour⟩, hl⟩ := List.forall_mem_cons.mp hl
    have hnext : ∀ place ∈ D' ++ [e.place], ∃ o ∈ pre ++ [order], o.place = place := by
      refine List.forall_mem_append.mpr ⟨hD', fun place hplace => ?_⟩
      exact ⟨e, List.mem_append_left _ he, (List.mem_singleton.mp hplace).symm⟩
    rw [List.map_cons, AllJustified, justified_tour_iff hL hsettled hsub horder hD' he hkept htour,
      ih (List.Subset.trans hsub (List.subset_append_left _ _)) (List.mem_append_left _ horder)
        hnext hl,
      List.forall_mem_cons]

variable (hD : ∀ place ∈ D, ∃ o ∈ pre, o.place = place)

include hD

/-- The removals for a car store are justified if the tours behind the first other place also clash
with a later place. -/
theorem allJustified_removedFor (hsettled : Settled T pre D) (hcar : order.place.isCarStore) :
    AllJustified T (pre ++ order :: post) D (removedFor order (clashesOf T order D pre)) ↔
      ∀ e ∈ (clashesOf T order D pre).dropWhile PlaceOrder.isTour, e.isTour →
        ∃ q ∈ post, clash T e q := by
  have hkept : order.place ∉ D := notMem_of_mem_post hL hD List.mem_cons_self
  have hnodup := nodup_clashesOf (hL.sublist ((List.sublist_append_left ..).map _)) T order D
  have hsplit := List.takeWhile_append_dropWhile (p := PlaceOrder.isTour)
    (l := clashesOf T order D pre)
  have htours : ∀ e ∈ (clashesOf T order D pre).takeWhile PlaceOrder.isTour, e.isTour :=
    fun e he => List.mem_takeWhile_imp he
  rw [removedFor]
  generalize (clashesOf T order D pre).takeWhile PlaceOrder.isTour = A at *
  generalize (clashesOf T order D pre).dropWhile PlaceOrder.isTour = B at *
  have hA : A ⊆ clashesOf T order D pre := hsplit ▸ List.subset_append_left A B
  have hB : B ⊆ clashesOf T order D pre := hsplit ▸ List.subset_append_right A B
  rw [allJustified_append,
    and_iff_right (allJustified_clashes hL hkept hA fun e he => .inl (htours e he))]
  cases B with
  | nil => simp [AllJustified]
  | cons x B =>
    -- The car store still clashes with the first place that is no tour.
    have hxA : x.place ∉ A.map (·.place) := by
      rw [← hsplit, List.map_append, List.nodup_append] at hnodup
      exact fun hin => hnodup.2.2 _ hin _ List.mem_cons_self rfl
    have hx := hB List.mem_cons_self
    obtain ⟨hxPre, hxD, -⟩ := mem_clashesOf.mp hx
    have hcarStore : Justified T (pre ++ order :: post) (D ++ A.map (·.place)) order.place :=
      ⟨order, by simp, rfl, .inr hcar, x, List.mem_append_left _ hxPre, by simp [hxD, hxA],
        (clashIn_order hx).symm⟩
    have hbefore : ∀ place ∈ D ++ A.map (·.place) ++ [order.place],
        ∃ o ∈ pre ++ [order], o.place = place := by
      intro place hplace
      simp only [List.mem_append, List.mem_map, List.mem_singleton] at hplace
      rcases hplace with (hplace | ⟨e, he, rfl⟩) | rfl
      · obtain ⟨o, ho, heq⟩ := hD place hplace
        exact ⟨o, List.mem_append_left _ ho, heq⟩
      · exact ⟨e, List.mem_append_left _ (mem_clashesOf.mp (hA he)).1, rfl⟩
      · exact ⟨order, by simp, rfl⟩
    have hstale : ∀ e ∈ (x :: B).filter PlaceOrder.isTour, e ∈ pre ∧ e.place ∉ D ∧ e.isTour := by
      intro e he
      obtain ⟨hmem, htour⟩ := List.mem_filter.mp he
      obtain ⟨hpre, heD, -⟩ := mem_clashesOf.mp (hB hmem)
      exact ⟨hpre, heD, htour⟩
    rw [if_neg (List.cons_ne_nil _ _), AllJustified, and_iff_right hcarStore,
      allJustified_tours_iff hL hsettled (by simp) (by simp) hbefore hstale]
    simp only [List.mem_filter, and_imp]

end Step

/-- Behind a place that is no tour, the clashes of a car store have no tour that only clashes with
it. -/
def NoStaleTour (T : String → Option (Int × Int)) (pre : List PlaceOrder) (order : PlaceOrder)
    (post : List PlaceOrder) (D : List ClashPlace) : Prop :=
  order.place.isCarStore → ∀ e ∈ (clashesOf T order D pre).dropWhile PlaceOrder.isTour, e.isTour →
    ∃ q ∈ post, clash T e q

/-- One place of the list. -/
theorem settle_removes {post : List PlaceOrder} (hL : DistinctIds (pre ++ order :: post))
    (hplan : Consistent plan) (hmem : ∀ place ∈ plan.delPoisSet, ∃ o ∈ pre, o.place = place)
    (hsettled : Settled T pre plan.delPoisSet) :
    ∃ removed, (settle T pre order plan).delPoisSet = plan.delPoisSet ++ removed ∧
      (AllJustified T (pre ++ order :: post) plan.delPoisSet removed ↔
        NoStaleTour T pre order post plan.delPoisSet) := by
  have hkept : order.place ∉ plan.delPoisSet := notMem_of_mem_post hL hmem List.mem_cons_self
  have hpre : DistinctIds pre := hL.sublist ((List.sublist_append_left ..).map _)
  have hnodup := nodup_clashesOf hpre T order plan.delPoisSet
  have hclashes : ∀ last ∈ clashesOf T order plan.delPoisSet pre, last.place ∉ plan.delPoisSet :=
    fun last hlast => (mem_clashesOf.mp hlast).2.1
  have hstale (hcar : ¬ order.place.isCarStore) : NoStaleTour T pre order post plan.delPoisSet :=
    fun h => absurd h hcar
  rw [settle, if_neg hkept]
  by_cases htour : order.place.isTour
  · have hcar : ¬ order.place.isCarStore := by
      intro hcar
      rw [ClashPlace.isTour_of_isCarStore hcar] at htour
      contradiction
    rw [if_pos htour]
    cases hlist : clashesOf T order plan.delPoisSet pre with
    | nil => exact ⟨[], by simp, iff_of_true trivial (hstale hcar)⟩
    | cons last clashes =>
      have hlast : last ∈ clashesOf T order plan.delPoisSet pre := hlist ▸ List.mem_cons_self
      refine ⟨[order.place], ?_, iff_of_true ⟨⟨order, by simp, rfl, .inl htour, last, ?_,
        hclashes last hlast, (clashIn_order hlast).symm⟩, trivial⟩ (hstale hcar)⟩
      · rw [if_neg (List.cons_ne_nil _ _), delPoisSet_del_of_notMem hkept]
      · exact List.mem_append_left _ (mem_clashesOf.mp hlast).1
  · rw [if_neg htour]
    by_cases hcar : order.place.isCarStore
    · have hne : order.place ∉ (clashesOf T order plan.delPoisSet pre).map (·.place) := by
        intro hin
        obtain ⟨e, he, heq⟩ := List.mem_map.mp hin
        exact hL.disjoint (mem_clashesOf.mp he).1 List.mem_cons_self heq
      refine ⟨_, delPoisSet_run_carStore hplan hcar hnodup hclashes hkept hne, ?_⟩
      rw [allJustified_removedFor hL hmem hsettled hcar]
      exact ⟨fun h _ => h, fun h => h hcar⟩
    · refine ⟨_, delPoisSet_run hplan (fun h => absurd h hcar) hnodup hclashes,
        iff_of_true (allJustified_clashes hL hkept (List.filter_subset_self _) fun e he => ?_)
          (hstale hcar)⟩
      have hcleared := (List.mem_filter.mp he).2
      rw [isCleared, decide_eq_true_eq] at hcleared
      exact hcleared.imp_right And.left

/-! ## The whole list -/

theorem mem_settle {place : ClashPlace} (h : place ∈ (settle T pre order plan).delPoisSet) :
    place ∈ plan.delPoisSet ∨ ∃ o ∈ pre ++ [order], o.place = place := by
  rw [settle] at h
  split_ifs at h
  · exact .inl h
  · exact .inl h
  · exact (mem_del.mp h).imp_right fun heq => ⟨order, by simp, heq.symm⟩
  · rcases mem_run h with h | heq | ⟨last, hlast, heq⟩
    · exact .inl h
    · exact .inr ⟨order, by simp, heq.symm⟩
    · exact .inr ⟨last, List.mem_append_left _ (mem_clashesOf.mp hlast).1, heq⟩

theorem settleAll_removes (hL : DistinctIds L) {post : List PlaceOrder} (hpre : pre ++ post = L)
    (hreached : Reached L T plan) (hmem : ∀ place ∈ plan.delPoisSet, ∃ o ∈ pre, o.place = place)
    (hsettled : Settled T pre plan.delPoisSet) :
    Settled T L (settleAll T pre post plan).delPoisSet ∧ Reached L T (settleAll T pre post plan) ∧
    ∃ removed, (settleAll T pre post plan).delPoisSet = plan.delPoisSet ++ removed ∧
      (AllJustified T L plan.delPoisSet removed ↔ ∀ X order Y, post = X ++ order :: Y →
        NoStaleTour T (pre ++ X) order Y (settleAll T pre X plan).delPoisSet) := by
  induction post generalizing pre plan with
  | nil =>
    rw [List.append_nil] at hpre
    exact ⟨hpre ▸ hsettled, hreached, [], by simp [settleAll], by simp [AllJustified]⟩
  | cons order post ih =>
    obtain ⟨removed, hfirst, hjust⟩ := settle_removes (hpre ▸ hL) hreached.consistent hmem hsettled
    have hpre' : (pre ++ [order]) ++ post = L := by simpa using hpre
    have hmem' : ∀ place ∈ (settle T pre order plan).delPoisSet,
        ∃ o ∈ pre ++ [order], o.place = place := by
      intro place hplace
      rcases mem_settle hplace with hplace | hplace
      · obtain ⟨o, ho, heq⟩ := hmem place hplace
        exact ⟨o, List.mem_append_left _ ho, heq⟩
      · exact hplace
    have hpreL : pre ⊆ L := hpre ▸ List.subset_append_left _ _
    have horder : order ∈ L := hpre ▸ List.mem_append_right _ List.mem_cons_self
    obtain ⟨hend, hreached', removed', hrest, hjust'⟩ := ih hpre'
      (hreached.settle hL hpreL horder) hmem' (settled_settle hsettled order)
    refine ⟨hend, hreached', removed ++ removed', ?_, ?_⟩
    · rw [settleAll, hrest, hfirst, List.append_assoc]
    · rw [allJustified_append, ← hfirst, hjust', ← hpre, hjust]
      constructor
      · rintro ⟨hstep, hsteps⟩ X o Y heq
        cases X with
        | nil =>
          obtain ⟨rfl, rfl⟩ := List.cons_eq_cons.mp heq
          simpa [settleAll] using hstep
        | cons x X =>
          obtain ⟨rfl, hpost⟩ := List.cons_eq_cons.mp heq
          simpa [settleAll] using hsteps X o Y hpost
      · intro h
        refine ⟨by simpa [settleAll] using h [] order post rfl, fun X o Y heq => ?_⟩
        simpa [settleAll] using h (order :: X) o Y (by rw [heq]; rfl)

/-- Settled places that are kept are in order and disjoint, if one of them is a tour. -/
theorem Settled.disjoint (hsettled : Settled T L plan.delPoisSet) (hreached : Reached L T plan)
    {a b : PlaceOrder} (hab : [a, b].Sublist L) (hdate : a.date = b.date)
    (ha : a.place ∉ plan.delPoisSet) (hb : b.place ∉ plan.delPoisSet)
    (htour : a.place.isTour ∨ b.place.isTour) {s t : Int × Int}
    (hs : plan.m_vPlaceOpenMap a.place.ID = some s)
    (ht : plan.m_vPlaceOpenMap b.place.ID = some t) : s.2 ≤ t.1 := by
  rw [hreached.times a (hab.subset (by simp)) ha] at hs
  rw [hreached.times b (hab.subset (by simp)) hb] at ht
  by_contra hlt
  have hclash : clash T a b := by
    rw [clash, Bool.or_eq_true]
    by_cases hrev : s.1 ≥ t.2
    · exact .inl (related_iff.mpr ⟨hdate, t, ht, s, hs, by simpa using hrev⟩)
    · refine .inr (related_iff.mpr ⟨hdate, t, ht, s, hs, ?_⟩)
      rw [decide_eq_true_eq]
      omega
  obtain ⟨haTour, hbTour, -⟩ := (List.pairwise_pair.mp (hsettled.sublist hab)) ha hb hclash
  exact htour.elim haTour hbTour

/-! ## The result -/

/-- Two timed places of a day that are both kept are in order and disjoint, if one of them is a
tour, and every removal is justified when it is made. -/
structure ClearsClashes (L : List PlaceOrder) (plan plan' : ClashPlan) : Prop where
  disjoint : ∀ a b, [a, b].Sublist L → a.date = b.date → a.place ∉ plan'.delPoisSet →
    b.place ∉ plan'.delPoisSet → (a.place.isTour ∨ b.place.isTour) →
    ∀ s t, plan'.m_vPlaceOpenMap a.place.ID = some s → plan'.m_vPlaceOpenMap b.place.ID = some t →
      s.2 ≤ t.1
  justified : ∀ U place V, plan'.delPoisSet = U ++ place :: V →
    Justified plan.m_vPlaceOpenMap L U place

/-- The scan ends. It clears the clashes, with a reason for every removal, exactly if no step finds
a car store with a tour behind another place in its clashes that clashes with no later place. -/
theorem dealClash_clears_iff (dayTime : String → Int) (hL : DistinctIds L)
    (hplan : plan.delPoisSet = []) :
    ∃ plan', (∀ depth, L.length < depth →
        dealClashOfSpecialPois dayTime depth L plan = some plan') ∧
      (ClearsClashes L plan plan' ↔ ∀ X order Y before, L = X ++ order :: Y →
        dealOrders dayTime (dealClashOfSpecialPois dayTime L.length) [] X plan = some before →
          NoStaleTour plan.m_vPlaceOpenMap X order Y before.delPoisSet) := by
  have hreached : Reached L plan.m_vPlaceOpenMap plan :=
    ⟨by simp [Consistent, hplan], by simp [hplan], fun _ _ _ => rfl⟩
  have hbefore : ∀ X, X.Sublist L →
      dealOrders dayTime (dealClashOfSpecialPois dayTime L.length) [] X plan =
        some (settleAll plan.m_vPlaceOpenMap [] X plan) := fun X hX =>
    dealOrders_eq hL hX (fun l plan' hlen hl hreached' =>
      dealClash_eq hL (hlen.trans_le hX.length_le) hl hreached') hreached List.Pairwise.nil
  obtain ⟨hsettled, hreached', removed, hremoved, hjust⟩ :=
    settleAll_removes hL (List.nil_append L) hreached (by simp [hplan]) List.Pairwise.nil
  rw [hplan, List.nil_append] at hremoved
  rw [hplan] at hjust
  refine ⟨_, fun depth hdepth => dealClash_eq hL hdepth (List.Sublist.refl L) hreached, ?_⟩
  constructor
  · intro h X order Y before heq hrun
    have hX : X.Sublist L := heq ▸ List.sublist_append_left ..
    rw [hbefore X hX] at hrun
    rw [← Option.some.inj hrun]
    have hall : AllJustified plan.m_vPlaceOpenMap L [] removed :=
      allJustified_iff.mpr fun U place V hU => h.justified U place V (hremoved.trans hU)
    simpa using hjust.mp hall X order Y heq
  · intro h
    refine ⟨fun a b hab hdate ha hb htour s t hs ht =>
      hsettled.disjoint hreached' hab hdate ha hb htour hs ht, fun U place V hU => ?_⟩
    have hall : AllJustified plan.m_vPlaceOpenMap L [] removed := by
      refine hjust.mpr fun X order Y heq => ?_
      simpa using h X order Y _ heq (hbefore X (heq ▸ List.sublist_append_left ..))
    simpa using allJustified_iff.mp hall U place V (hremoved.symm.trans hU)

/-! ## A day -/

def tourPlace (ID : String) : ClashPlace := ⟨ID, 0x00004000, none, by simp⟩

def hotelPlace (ID : String) : ClashPlace := ⟨ID, 4, none, by simp⟩

def carStorePlace (ID : String) : ClashPlace := ⟨ID, 2, some ID, fun _ => rfl⟩

/-- A tour from three to four, a hotel at five, and a car that is fetched at ten in the morning. -/
def afternoon : List PlaceOrder :=
  [⟨tourPlace "T", "20180101", 0, 0⟩, ⟨hotelPlace "H", "20180101", 1, 0⟩,
    ⟨carStorePlace "C", "20180101", 2, 0⟩]

def afternoonPlan : ClashPlan where
  m_userMustPlaceSet := ∅
  m_PlaceDateMap _ := none
  m_UserDurMap _ := none
  m_vPlaceOpenMap ID :=
    if ID = "T" then some (54000, 57600)
    else if ID = "H" then some (61200, 64800)
    else if ID = "C" then some (36000, 39600)
    else none
  m_userDelSet := ∅
  delPoisSet := []

/-- The hotel, in front of the tour in the list. -/
def evening : List PlaceOrder :=
  [⟨hotelPlace "H", "20180101", 0, 0⟩, ⟨tourPlace "T", "20180101", 1, 0⟩,
    ⟨carStorePlace "C", "20180101", 2, 0⟩]

/-- The tour goes before the car store is looked at, which then goes for the hotel. -/
theorem dealClash_evening : ∃ plan', (∀ depth, 3 < depth →
      dealClashOfSpecialPois (fun _ => 0) depth evening afternoonPlan = some plan') ∧
    ClearsClashes evening afternoonPlan plan' ∧
    plan'.delPoisSet = [tourPlace "T", carStorePlace "C"] := by
  have hids : DistinctIds evening := by
    unfold DistinctIds
    decide +kernel
  have hempty : afternoonPlan.delPoisSet = [] := rfl
  have hdel : (dealClashOfSpecialPois (fun _ => 0) 4 evening afternoonPlan).map (·.delPoisSet) =
      some [tourPlace "T", carStorePlace "C"] := by decide +kernel
  obtain ⟨plan', hrun, hiff⟩ := dealClash_clears_iff (fun _ => 0) hids hempty
  rw [hrun 4 (by decide)] at hdel
  refine ⟨plan', hrun, hiff.mpr fun X order Y before heq hbefore hcar => ?_, Option.some.inj hdel⟩
  rcases X with _ | ⟨first, _ | ⟨second, _ | ⟨third, X⟩⟩⟩
  · obtain ⟨rfl, -⟩ := List.cons.inj heq
    exact absurd hcar (by decide)
  · obtain ⟨-, hrest⟩ := List.cons.inj heq
    obtain ⟨rfl, -⟩ := List.cons.inj hrest
    exact absurd hcar (by decide)
  · simp only [evening, List.cons_append, List.nil_append, List.cons.injEq] at heq
    obtain ⟨rfl, rfl, rfl, -⟩ := heq
    have hgone : (dealOrders (fun _ => 0) (dealClashOfSpecialPois (fun _ => 0) 3) []
        (evening.take 2) afternoonPlan).map (·.delPoisSet) = some [tourPlace "T"] := by
      decide +kernel
    have hmap := congrArg (Option.map (·.delPoisSet)) hbefore
    have hnone : ∀ e ∈ (clashesOf afternoonPlan.m_vPlaceOpenMap
        ⟨carStorePlace "C", "20180101", 2, 0⟩ [tourPlace "T"] (evening.take 2)).dropWhile
          PlaceOrder.isTour, ¬ e.isTour := by decide +kernel
    rw [show before.delPoisSet = [tourPlace "T"] from Option.some.inj (hmap.symm.trans hgone)]
    exact fun e he htour => absurd htour (hnone e he)
  · simp [evening] at heq

/-- The hotel removes the car store, which is before it in time, and the tour goes with it. -/
theorem not_clears_afternoon : ∃ plan',
    dealClashOfSpecialPois (fun _ => 0) 4 afternoon afternoonPlan = some plan' ∧
      ¬ ClearsClashes afternoon afternoonPlan plan' := by
  have hrun : (dealClashOfSpecialPois (fun _ => 0) 4 afternoon afternoonPlan).map (·.delPoisSet) =
      some [carStorePlace "C", tourPlace "T"] := by decide +kernel
  obtain ⟨plan', hcall, hdel⟩ := Option.map_eq_some_iff.mp hrun
  refine ⟨plan', hcall, fun h => ?_⟩
  obtain ⟨o, ho, heq, -, q, hq, hkept, hclash⟩ :=
    h.justified [carStorePlace "C"] (tourPlace "T") [] hdel
  -- The hotel is behind the tour, in the list and in time.
  have hfree : ∀ o ∈ afternoon, ∀ q ∈ afternoon, o.place = tourPlace "T" →
      q.place ∉ [carStorePlace "C"] → ¬ ClashIn afternoonPlan.m_vPlaceOpenMap afternoon o q := by
    unfold ClashIn
    decide +kernel
  exact hfree o ho q hq heq hkept hclash

end PPView.ReqParser
