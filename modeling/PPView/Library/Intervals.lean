import Mathlib.Data.List.Chain
import Mathlib.Data.Set.Lattice
import Mathlib.Order.Interval.Set.Basic
import Mathlib.Tactic.Common
import Mathlib.Tactic.Order

/-!
# Joining lists of intervals

Lists of intervals that are put one behind the other. Where the first interval of the next list is
`near` the end of the last one, the two become one interval. Intervals contain their start, but not
their end.
-/

namespace PPView.Intervals

variable {α : Type*} {near : α → α → Prop} [DecidableRel near]

variable (near) in
/-- Two lists, joined. -/
def join (l d : List (α × α)) : List (α × α) :=
  match l.getLast?, d with
  | some back, front :: rest =>
    if near back.2 front.1 then l.dropLast ++ (back.1, front.2) :: rest else l ++ d
  | _, _ => l ++ d

/-- The last interval of each list with the first one of the next. -/
def joints : List (List (α × α)) → List ((α × α) × (α × α))
  | d :: d' :: ds =>
    match d.getLast?, d'.head? with
    | some back, some front => (back, front) :: joints (d' :: ds)
    | _, _ => joints (d' :: ds)
  | _ => []

variable {l d rest : List (α × α)} {ds : List (List (α × α))} {back front last : α × α}

theorem join_near (h : near back.2 front.1) :
    join near (l ++ [back]) (front :: rest) = l ++ (back.1, front.2) :: rest := by
  simp [join, h]

theorem join_far (h : ¬ near back.2 front.1) :
    join near (l ++ [back]) (front :: rest) = l ++ [back] ++ front :: rest := by
  simp [join, h]

@[simp] theorem join_nil_left : join near [] d = d := by
  simp [join]

@[simp] theorem join_nil_right : join near l [] = l := by
  cases h : l.getLast? <;> simp [join, h]

/-! ## Neighbours -/

/-- Joining keeps a relation between the end of an interval and the start of the next one. -/
theorem isChain_join {Q : α → α → Prop} (hfar : ∀ a b, ¬ near a b → Q a b)
    (hl : l.IsChain fun a b => Q a.2 b.1) (hd : d.IsChain fun a b => Q a.2 b.1) :
    (join near l d).IsChain fun a b => Q a.2 b.1 := by
  rcases List.eq_nil_or_concat' l with rfl | ⟨l, back, rfl⟩
  · rwa [join_nil_left]
  cases d with
  | nil => rwa [join_nil_right]
  | cons front rest =>
    by_cases h : near back.2 front.1
    · rw [List.isChain_append] at hl
      rw [List.isChain_cons] at hd
      rw [join_near h, List.isChain_append, List.isChain_cons]
      refine ⟨hl.1, ⟨hd.1, hd.2⟩, fun x hx y hy => ?_⟩
      obtain rfl : (back.1, front.2) = y := by simpa using hy
      exact hl.2.2 x hx back rfl
    · rw [join_far h, List.isChain_append]
      refine ⟨hl, hd, fun x hx y hy => ?_⟩
      obtain rfl : back = x := by simpa using hx
      obtain rfl : front = y := by simpa using hy
      exact hfar _ _ h

theorem isChain_foldl_join {Q : α → α → Prop} (hfar : ∀ a b, ¬ near a b → Q a b)
    (hl : l.IsChain fun a b => Q a.2 b.1) (hds : ∀ d ∈ ds, d.IsChain fun a b => Q a.2 b.1) :
    (ds.foldl (join near) l).IsChain fun a b => Q a.2 b.1 := by
  induction ds generalizing l with
  | nil => exact hl
  | cons d ds ih =>
    obtain ⟨hd, hds⟩ := List.forall_mem_cons.mp hds
    exact ih (isChain_join hfar hl hd) hds

/-- Neighbours in the joined list were neighbours in one of the lists, or are not near. -/
theorem foldl_join_neighbours (ds : List (List (α × α))) :
    (ds.foldl (join near) []).IsChain fun a b =>
      (∃ d ∈ ds, ∃ x y, [x, y] <:+: d ∧ x.2 = a.2 ∧ y.1 = b.1) ∨ ¬ near a.2 b.1 := by
  refine isChain_foldl_join (Q := fun s t =>
    (∃ d ∈ ds, ∃ x y, [x, y] <:+: d ∧ x.2 = s ∧ y.1 = t) ∨ ¬ near s t)
    (fun a b h => .inr h) List.isChain_nil fun d hd => ?_
  rw [List.isChain_iff_forall_rel_of_append_cons_cons]
  rintro a b l₁ l₂ rfl
  exact .inl ⟨_, hd, a, b, ⟨l₁, l₂, by simp⟩, rfl, rfl⟩

/-! ## Covering -/

variable [LinearOrder α]

/-- What the intervals of a list cover. -/
def covered (l : List (α × α)) : Set α := {t | ∃ i ∈ l, i.1 ≤ t ∧ t < i.2}

variable (near) in
/-- What lies between lists that are near each other. -/
def gaps (js : List ((α × α) × (α × α))) : Set α :=
  {t | ∃ j ∈ js, near j.1.2 j.2.1 ∧ j.1.2 ≤ t ∧ t < j.2.1}

/-- Each interval ends where it begins or later. -/
def Proper (l : List (α × α)) : Prop := ∀ i ∈ l, i.1 ≤ i.2

/-- And before the next one begins. -/
def Increasing (l : List (α × α)) : Prop := Proper l ∧ l.IsChain fun a b => a.2 ≤ b.1

/-- Of two intervals the second one neither begins nor ends before the first one. -/
def Follows (back front : α × α) : Prop :=
  back.1 ≤ back.2 ∧ back.1 ≤ front.1 ∧ front.1 ≤ front.2 ∧ back.2 ≤ front.2

theorem covered_nil : covered ([] : List (α × α)) = ∅ := by
  simp [covered]

theorem covered_append : covered (l ++ d) = covered l ∪ covered d := by
  ext t
  simp [covered, or_and_right, exists_or]

theorem covered_cons : covered (front :: rest) = Set.Ico front.1 front.2 ∪ covered rest := by
  ext t
  simp [covered]

omit [DecidableRel near] in
theorem gaps_cons {js : List ((α × α) × (α × α))} :
    gaps near ((back, front) :: js) =
      {t | near back.2 front.1 ∧ back.2 ≤ t ∧ t < front.1} ∪ gaps near js := by
  ext t
  simp [gaps]

/-- One interval for two and what lies between them. -/
theorem Ico_eq_union (h : Follows back front) :
    Set.Ico back.1 front.2 =
      Set.Ico back.1 back.2 ∪ Set.Ico back.2 front.1 ∪ Set.Ico front.1 front.2 := by
  obtain ⟨hback, hstart, hfront, hend⟩ := h
  ext t
  simp only [Set.mem_union, Set.mem_Ico]
  constructor
  · rintro ⟨hle, hlt⟩
    rcases lt_or_ge t back.2 with h | h
    · exact .inl (.inl ⟨hle, h⟩)
    · rcases lt_or_ge t front.1 with h' | h'
      · exact .inl (.inr ⟨h, h'⟩)
      · exact .inr ⟨h', hlt⟩
  · rintro ((⟨hle, hlt⟩ | ⟨hle, hlt⟩) | ⟨hle, hlt⟩) <;> constructor <;> order

/-- The list ends like `last`, and its last interval begins no later. -/
def EndsLike (last : α × α) (l : List (α × α)) : Prop :=
  ∃ init back, l = init ++ [back] ∧ back.2 = last.2 ∧ back.1 ≤ last.1

theorem endsLike_of_getLast? (h : l.getLast? = some last) : EndsLike last l := by
  obtain ⟨init, rfl⟩ := List.getLast?_eq_some_iff.mp h
  exact ⟨init, last, rfl, rfl, le_rfl⟩

theorem EndsLike.append (h : d.getLast? = some last) (l : List (α × α)) :
    EndsLike last (l ++ d) := by
  obtain ⟨init, rfl⟩ := List.getLast?_eq_some_iff.mp h
  exact ⟨l ++ init, last, by simp, rfl, le_rfl⟩

/-- What one more list adds. -/
theorem join_spec {last' : α × α} (hl : EndsLike last l)
    (hlast : (front :: rest).getLast? = some last')
    (hkept : near last.2 front.1 → Follows last front) :
    EndsLike last' (join near l (front :: rest)) ∧
      covered (join near l (front :: rest)) = covered l ∪
        {t | near last.2 front.1 ∧ last.2 ≤ t ∧ t < front.1} ∪ covered (front :: rest) ∧
      (Proper l → Proper (front :: rest) → Proper (join near l (front :: rest))) := by
  obtain ⟨init, back, rfl, hend, hstart⟩ := hl
  by_cases h : near last.2 front.1
  · have hfollows : Follows back front := by
      obtain ⟨hproper, hfirst, hfront, hlater⟩ := hkept h
      exact ⟨by order, by order, hfront, by order⟩
    rw [join_near (hend ▸ h)]
    refine ⟨?_, ?_, fun hproper hd => ?_⟩
    · cases rest with
      | nil =>
        obtain rfl : front = last' := by simpa using hlast
        exact ⟨init, (back.1, front.2), rfl, rfl, hfollows.2.1⟩
      | cons next rest =>
        rw [List.getLast?_cons_cons] at hlast
        exact EndsLike.append (d := (back.1, front.2) :: next :: rest)
          (by rw [List.getLast?_cons_cons, hlast]) init
    · have hgap : {t | near last.2 front.1 ∧ last.2 ≤ t ∧ t < front.1} =
          Set.Ico back.2 front.1 := by
        ext t
        simp [h, hend]
      rw [hgap, covered_append, covered_cons, covered_append, covered_cons, covered_cons,
        covered_nil, Set.union_empty, Ico_eq_union hfollows]
      simp only [Set.union_assoc]
    · rw [Proper, List.forall_mem_append] at hproper ⊢
      rw [Proper, List.forall_mem_cons] at hd
      exact ⟨hproper.1, List.forall_mem_cons.mpr ⟨hfollows.2.1.trans hfollows.2.2.1, hd.2⟩⟩
  · have hgap : {t | near last.2 front.1 ∧ last.2 ≤ t ∧ t < front.1} = ∅ := by
      ext t
      simp [h]
    rw [join_far (hend ▸ h), hgap, Set.union_empty, covered_append]
    exact ⟨EndsLike.append hlast _, rfl, fun hproper hd => List.forall_mem_append.mpr ⟨hproper, hd⟩⟩

/-- What the lists that follow add: what they cover, and the gaps on the way. -/
theorem foldl_join_spec (hl : EndsLike last l) (hd : d.getLast? = some last)
    (hne : ∀ d ∈ ds, d ≠ [])
    (hkept : ∀ j ∈ joints (d :: ds), near j.1.2 j.2.1 → Follows j.1 j.2) :
    covered (ds.foldl (join near) l) =
        covered l ∪ covered ds.flatten ∪ gaps near (joints (d :: ds)) ∧
      (Proper l → (∀ d ∈ ds, Proper d) → Proper (ds.foldl (join near) l)) := by
  induction ds generalizing l d last with
  | nil => simp [joints, gaps, covered_nil]
  | cons d' ds ih =>
    obtain ⟨hd', hds⟩ := List.forall_mem_cons.mp hne
    obtain ⟨front, rest, rfl⟩ := List.exists_cons_of_ne_nil hd'
    obtain ⟨last', hlast'⟩ : ∃ last', (front :: rest).getLast? = some last' :=
      ⟨_, List.getLast?_eq_some_getLast hd'⟩
    have hjoints : joints (d :: (front :: rest) :: ds) =
        (last, front) :: joints ((front :: rest) :: ds) := by
      rw [joints, hd]
      rfl
    rw [hjoints, List.forall_mem_cons] at hkept
    obtain ⟨hends, hcovered, hproper⟩ := join_spec hl hlast' hkept.1
    obtain ⟨hcovereds, hpropers⟩ := ih hends hlast' hds hkept.2
    constructor
    · rw [List.foldl_cons, hcovereds, hcovered, hjoints, gaps_cons, List.flatten_cons,
        covered_append]
      ac_rfl
    · intro hl hall
      obtain ⟨hfirst, hall⟩ := List.forall_mem_cons.mp hall
      exact hpropers (hproper hl hfirst) hall

/-- A joined list covers what the lists cover, and what lies between those that are near. -/
theorem covered_foldl_join (hne : ∀ d ∈ ds, d ≠ [])
    (hkept : ∀ j ∈ joints ds, near j.1.2 j.2.1 → Follows j.1 j.2) :
    covered (ds.foldl (join near) []) = covered ds.flatten ∪ gaps near (joints ds) := by
  cases ds with
  | nil => simp [joints, gaps, covered_nil]
  | cons d ds =>
    obtain ⟨hd, hne⟩ := List.forall_mem_cons.mp hne
    have hlast := List.getLast?_eq_some_getLast hd
    obtain ⟨hcovered, -⟩ := foldl_join_spec (endsLike_of_getLast? hlast) hlast hne hkept
    rw [List.foldl_cons, join_nil_left, hcovered, List.flatten_cons, covered_append]

/-- Lists that are increasing are joined to one that is. -/
theorem increasing_foldl_join (hfar : ∀ a b : α, ¬ near a b → a ≤ b) (hne : ∀ d ∈ ds, d ≠ [])
    (hkept : ∀ j ∈ joints ds, near j.1.2 j.2.1 → Follows j.1 j.2)
    (hds : ∀ d ∈ ds, Increasing d) : Increasing (ds.foldl (join near) []) := by
  refine ⟨?_, isChain_foldl_join hfar List.isChain_nil fun d hd => (hds d hd).2⟩
  cases ds with
  | nil => exact fun i hi => absurd hi List.not_mem_nil
  | cons d ds =>
    obtain ⟨hd, hne⟩ := List.forall_mem_cons.mp hne
    obtain ⟨hfirst, hds⟩ := List.forall_mem_cons.mp hds
    have hlast := List.getLast?_eq_some_getLast hd
    rw [List.foldl_cons, join_nil_left]
    exact (foldl_join_spec (endsLike_of_getLast? hlast) hlast hne hkept).2 hfirst.1 fun d hd =>
      (hds d hd).1

end PPView.Intervals
