import Mathlib.Data.String.Basic
import PPView.Library.Gaps
import PPView.Library.StableSort

/-!
# Completing the hotels of a city

`ReqParser::CompleteHotel` checks the stays that are asked for and fills the nights without a hotel
with the core hotel. Dates are strings of the form YYYYMMDD and compared as such.
-/

namespace PPView.ReqParser

/-! ## Stays -/

structure HInfo (H : Type) where
  m_hotel : H
  m_checkIn : String
  m_checkOut : String
  m_isCoreHotel : Bool
  m_userCommand : Bool
  deriving DecidableEq

structure RouteBlock (H : Type) where
  checkIn : String
  checkOut : String
  hInfo_list : List (HInfo H)
  hotel_list : List H

/-- The core hotels, and `std::sort` with `hInfoCmp`. -/
structure HotelTools (H : Type) where
  GetCoreHotel : String → Option H
  sort : List (HInfo H) → List (HInfo H)
  sort_perm : ∀ l, (sort l).Perm l
  sort_pairwise : ∀ l, (sort l).Pairwise fun A B => A.m_checkIn ≤ B.m_checkIn

variable {H : Type}

namespace HInfo

/-- The stay is clipped on one side. -/
def clip (dayStart dayEnd : String) (hInfo : HInfo H) : HInfo H :=
  if hInfo.m_checkIn < dayStart then { hInfo with m_checkIn := dayStart }
  else if hInfo.m_checkOut > dayEnd then { hInfo with m_checkOut := dayEnd }
  else hInfo

/-- A stay in the core hotel. -/
def core (hotel : H) (span : String × String) : HInfo H where
  m_hotel := hotel
  m_checkIn := span.1
  m_checkOut := span.2
  m_isCoreHotel := true
  m_userCommand := false

def span (hInfo : HInfo H) : String × String := (hInfo.m_checkIn, hInfo.m_checkOut)

end HInfo

/-- The first loop: stays that are not possible are dropped. -/
def checkStays (dayStart dayEnd : String) : List (HInfo H) → String → List (HInfo H)
  | [], _ => []
  | hInfo :: hInfo_list, lastCheckOut =>
    if hInfo.m_checkOut < hInfo.m_checkIn then checkStays dayStart dayEnd hInfo_list lastCheckOut
    else if hInfo.m_checkOut < dayStart ∨ dayEnd < hInfo.m_checkIn then
      checkStays dayStart dayEnd hInfo_list lastCheckOut
    else
      let hInfo := hInfo.clip dayStart dayEnd
      if hInfo.m_checkIn < lastCheckOut then checkStays dayStart dayEnd hInfo_list lastCheckOut
      else hInfo :: checkStays dayStart dayEnd hInfo_list hInfo.m_checkOut

/-- The second loop: the stays in the core hotel go to the end of the list. -/
def fillBetween (coreHotel : Option H) :
    List (HInfo H) → String → List (HInfo H) → Option (List (HInfo H) × String)
  | [], dayStart, list => some (list, dayStart)
  | hInfo :: hInfo_list, dayStart, list =>
    if hInfo.m_checkIn > dayStart then do
      let hotel ← coreHotel
      fillBetween coreHotel hInfo_list hInfo.m_checkOut
        (list ++ [.core hotel (dayStart, hInfo.m_checkIn)])
    else fillBetween coreHotel hInfo_list hInfo.m_checkOut list

/-- The result and the block, for a plan of the city `m_City`. -/
def completeHotel (tools : HotelTools H) (m_City : Option String) (block : RouteBlock H) :
    Int × RouteBlock H :=
  match m_City with
  | none => (1, block)
  | some cityID =>
    let sorted := tools.sort block.hInfo_list
    let dayStart := block.checkIn
    let dayEnd := block.checkOut
    if dayStart = "" ∨ dayEnd = "" then (0, { block with hInfo_list := sorted })
    else
      let hInfo_list := checkStays dayStart dayEnd sorted dayStart
      if hInfo_list.isEmpty then
        match tools.GetCoreHotel cityID with
        | none => (1, { block with hInfo_list })
        | some hotel => (0, { block with hInfo_list := [.core hotel (dayStart, dayEnd)] })
      else
        match fillBetween (tools.GetCoreHotel cityID) hInfo_list dayStart hInfo_list with
        | none => (1, { block with hInfo_list })
        | some (list, dayStart) =>
          if dayStart < dayEnd then
            match tools.GetCoreHotel cityID with
            | none => (1, { block with hInfo_list := list })
            | some hotel => (0, { block with
                hInfo_list := list ++ [.core hotel (dayStart, dayEnd)]
                hotel_list := block.hotel_list ++ [hotel] })
          else (0, { block with hInfo_list := list })

/-! ## Filled gaps -/

open Gaps

variable {hotel : H} {stays : List (HInfo H)} {a e : String}

theorem fillBetween_eq (hotel : H) (stays : List (HInfo H)) (a : String) (list : List (HInfo H)) :
    fillBetween (some hotel) stays a list =
      some (list ++ (between a (stays.map HInfo.span)).map (HInfo.core hotel),
        lastEnd a (stays.map HInfo.span)) := by
  induction stays generalizing a list with
  | nil => simp [fillBetween, between, lastEnd]
  | cons hInfo stays ih =>
    rw [fillBetween, List.map_cons, between, lastEnd]
    by_cases hlt : a < hInfo.m_checkIn
    · rw [if_pos hlt, Option.bind_eq_bind, Option.bind_some, ih, if_pos (by exact hlt)]
      simp [HInfo.span]
    · rw [if_neg hlt, ih, if_neg (by exact hlt)]
      simp [HInfo.span]

/-- With a core hotel the gaps are filled. -/
theorem completeHotel_eq (tools : HotelTools H) {cityID : String} {block : RouteBlock H}
    (hstart : block.checkIn ≠ "") (hend : block.checkOut ≠ "")
    (hlt : block.checkIn < block.checkOut) (hcore : tools.GetCoreHotel cityID = some hotel) :
    ∃ block', completeHotel tools (some cityID) block = (0, block') ∧
      block'.hInfo_list = checkStays block.checkIn block.checkOut (tools.sort block.hInfo_list)
          block.checkIn ++
        (gaps block.checkIn ((checkStays block.checkIn block.checkOut (tools.sort block.hInfo_list)
          block.checkIn).map HInfo.span) block.checkOut).map (HInfo.core hotel) := by
  rw [completeHotel]
  dsimp only
  rw [if_neg (by simp [hstart, hend])]
  generalize checkStays block.checkIn block.checkOut (tools.sort block.hInfo_list)
    block.checkIn = stays
  rw [gaps, hcore, fillBetween_eq]
  dsimp only
  cases stays with
  | nil => exact ⟨_, rfl, by simp [between, lastEnd, hlt]⟩
  | cons hInfo stays =>
    rw [if_neg (by simp)]
    split_ifs
    · exact ⟨_, rfl, by simp⟩
    · exact ⟨_, rfl, by simp⟩

/-! ## Kept stays -/

variable {A E last : String} {l : List (HInfo H)} {s : HInfo H}

namespace HInfo

/-- The stay is not ill-ordered, and not outside the stay of the city. -/
def Possible (A E : String) (s : HInfo H) : Prop :=
  s.m_checkIn ≤ s.m_checkOut ∧ A ≤ s.m_checkOut ∧ s.m_checkIn ≤ E

/-- The part of the stay that is in the stay of the city. -/
def within (A E : String) (s : HInfo H) : HInfo H :=
  { s with m_checkIn := max A s.m_checkIn, m_checkOut := min E s.m_checkOut }

/-- The stay begins during the earlier stay `k`, in the stay of the city. -/
def Overlaps (A E : String) (k s : HInfo H) : Prop :=
  k.m_checkIn ≤ s.m_checkIn ∧ max A s.m_checkIn < min E k.m_checkOut

theorem clip_m_checkIn (A E : String) (s : HInfo H) :
    (s.clip A E).m_checkIn = max A s.m_checkIn := by
  rw [clip]
  split_ifs with h h'
  · rw [max_eq_left h.le]
  · rw [max_eq_right (not_lt.mp h)]
  · rw [max_eq_right (not_lt.mp h)]

theorem clip_eq_within (hle : (s.clip A E).m_checkOut ≤ E) :
    s.clip A E = s.within A E := by
  rw [clip] at hle ⊢
  rw [within]
  split_ifs at hle ⊢ with hin hout
  · rw [max_eq_left hin.le, min_eq_right hle]
  · rw [max_eq_right (not_lt.mp hin), min_eq_left (le_of_lt hout)]
  · rw [max_eq_right (not_lt.mp hin), min_eq_right hle]

theorem Possible.clip_le (h : s.Possible A E) :
    (s.clip A E).m_checkIn ≤ (s.clip A E).m_checkOut := by
  obtain ⟨hle, hA, hE⟩ := h
  rw [clip]
  split_ifs
  · exact hA
  · exact hE
  · exact hle

end HInfo

/-- The head of the list is kept, or dropped for a reason. -/
theorem checkStays_cons (A E : String) (s : HInfo H) (l : List (HInfo H)) (last : String) :
    (¬ s.Possible A E ∧ checkStays A E (s :: l) last = checkStays A E l last) ∨
    (s.Possible A E ∧ max A s.m_checkIn < last ∧
      checkStays A E (s :: l) last = checkStays A E l last) ∨
    (s.Possible A E ∧ last ≤ max A s.m_checkIn ∧ checkStays A E (s :: l) last =
      s.clip A E :: checkStays A E l (s.clip A E).m_checkOut) := by
  rw [checkStays, HInfo.Possible, ← HInfo.clip_m_checkIn A E s]
  dsimp only
  split_ifs with hill hout hover
  · exact .inl ⟨fun h => absurd h.1 (not_le.mpr hill), rfl⟩
  · refine .inl ⟨fun h => ?_, rfl⟩
    rcases hout with hA | hE
    · exact absurd h.2.1 (not_le.mpr hA)
    · exact absurd h.2.2 (not_le.mpr hE)
  · rw [not_or] at hout
    exact .inr (.inl ⟨⟨not_lt.mp hill, not_lt.mp hout.1, not_lt.mp hout.2⟩, hover, rfl⟩)
  · rw [not_or] at hout
    exact .inr (.inr ⟨⟨not_lt.mp hill, not_lt.mp hout.1, not_lt.mp hout.2⟩, not_lt.mp hover, rfl⟩)

theorem apart_checkStays (A E : String) (l : List (HInfo H)) (last : String) :
    Apart last ((checkStays A E l last).map HInfo.span) := by
  induction l generalizing last with
  | nil => trivial
  | cons s l ih =>
    rcases checkStays_cons A E s l last with ⟨-, heq⟩ | ⟨-, -, heq⟩ | ⟨hpos, hlast, heq⟩
    · rw [heq]
      exact ih last
    · rw [heq]
      exact ih last
    · rw [heq]
      exact ⟨hlast.trans (HInfo.clip_m_checkIn A E s).ge, hpos.clip_le, ih _⟩

/-- The stays that are kept, and those that are dropped; the stays `prev` were kept before. -/
theorem checkStays_split (hl : l.Pairwise fun A B => A.m_checkIn ≤ B.m_checkIn)
    (prev : List (HInfo H)) (hlast : last = A ∨
      ∃ k ∈ prev, (k.clip A E).m_checkOut = last ∧ ∀ s ∈ l, k.m_checkIn ≤ s.m_checkIn) :
    ∃ kept dropped, l.Perm (kept ++ dropped) ∧ checkStays A E l last = kept.map (HInfo.clip A E) ∧
      ∀ s ∈ dropped, ¬ s.Possible A E ∨ ∃ k ∈ prev ++ kept, k.m_checkIn ≤ s.m_checkIn ∧
        max A s.m_checkIn < (k.clip A E).m_checkOut := by
  induction l generalizing last prev with
  | nil => exact ⟨[], [], .nil, rfl, by simp⟩
  | cons s l ih =>
    obtain ⟨hs, hl⟩ := List.pairwise_cons.mp hl
    -- What the rest of the list gives if the head is dropped.
    have hdrop (hreason : ¬ s.Possible A E ∨ ∃ k ∈ prev, k.m_checkIn ≤ s.m_checkIn ∧
          max A s.m_checkIn < (k.clip A E).m_checkOut)
        (heq : checkStays A E (s :: l) last = checkStays A E l last) :
        ∃ kept dropped, (s :: l).Perm (kept ++ dropped) ∧
          checkStays A E (s :: l) last = kept.map (HInfo.clip A E) ∧
          ∀ s ∈ dropped, ¬ s.Possible A E ∨ ∃ k ∈ prev ++ kept, k.m_checkIn ≤ s.m_checkIn ∧
            max A s.m_checkIn < (k.clip A E).m_checkOut := by
      obtain ⟨kept, dropped, hperm, hkept, hall⟩ := ih hl prev (hlast.imp_right
        fun ⟨k, hk, hend, hle⟩ => ⟨k, hk, hend, fun s hs => hle s (List.mem_cons_of_mem _ hs)⟩)
      refine ⟨kept, s :: dropped, (hperm.cons s).trans List.perm_middle.symm, heq.trans hkept, ?_⟩
      refine List.forall_mem_cons.mpr ⟨hreason.imp_right ?_, hall⟩
      exact fun ⟨k, hk, hle⟩ => ⟨k, List.mem_append_left _ hk, hle⟩
    rcases checkStays_cons A E s l last with ⟨hpos, heq⟩ | ⟨-, hover, heq⟩ | ⟨hpos, -, heq⟩
    · exact hdrop (.inl hpos) heq
    · rcases hlast with rfl | ⟨k, hk, hend, hle⟩
      · exact absurd hover (not_lt.mpr (le_max_left _ _))
      · exact hdrop (.inr ⟨k, hk, hle s List.mem_cons_self, hend ▸ hover⟩) heq
    · obtain ⟨kept, dropped, hperm, hkept, hall⟩ := ih hl (prev ++ [s])
        (.inr ⟨s, List.mem_append_right prev (List.mem_singleton_self s), rfl, hs⟩)
      refine ⟨s :: kept, dropped, hperm.cons s, by rw [heq, hkept, List.map_cons], ?_⟩
      simpa using hall

/-! ## The end of the city's stay -/

theorem HInfo.clip_m_checkOut_le (h : A ≤ s.m_checkIn) :
    (s.clip A E).m_checkOut ≤ E := by
  rw [clip, if_neg (not_lt.mpr h)]
  split_ifs with hout
  · exact le_rfl
  · exact not_lt.mp hout

/-- Once a stay has gone past the beginning, those that begin before it are dropped. -/
theorem checkStays_le_of_lt (h : A < last) (l : List (HInfo H)) :
    ∀ s ∈ checkStays A E l last, s.m_checkOut ≤ E := by
  induction l generalizing last with
  | nil => simp [checkStays]
  | cons s l ih =>
    rcases checkStays_cons A E s l last with ⟨-, heq⟩ | ⟨-, -, heq⟩ | ⟨hpos, hle, heq⟩
    · exact heq ▸ ih h
    · exact heq ▸ ih h
    · have hA : A ≤ s.m_checkIn := by
        rcases le_max_iff.mp hle with hlast | hlast
        · exact absurd h (not_lt.mpr hlast)
        · exact h.le.trans hlast
      rw [heq, List.forall_mem_cons]
      refine ⟨HInfo.clip_m_checkOut_le hA, ih ?_⟩
      exact (h.trans_le hle).trans_le ((HInfo.clip_m_checkIn A E s).ge.trans hpos.clip_le)

/-- The stay begins before that of the city and goes on. -/
def reachesIn (A : String) (s : HInfo H) : Bool := s.m_checkIn < A ∧ A < s.m_checkOut

theorem find?_reachesIn_of_le (hl : ∀ s ∈ l, A ≤ s.m_checkIn) : l.find? (reachesIn A) = none := by
  refine List.find?_eq_none.mpr fun s hs hreach => ?_
  rw [reachesIn, decide_eq_true_eq] at hreach
  exact absurd hreach.1 (not_lt.mpr (hl s hs))

theorem checkStays_le_iff (hAE : A < E) (hl : l.Pairwise fun A B => A.m_checkIn ≤ B.m_checkIn) :
    (∀ s ∈ checkStays A E l A, s.m_checkOut ≤ E) ↔
      ∀ s ∈ l.find? (reachesIn A), s.m_checkOut ≤ E := by
  induction l with
  | nil => simp [checkStays]
  | cons s l ih =>
    obtain ⟨hs, hl⟩ := List.pairwise_cons.mp hl
    rcases checkStays_cons A E s l A with ⟨hpos, heq⟩ | ⟨-, hover, -⟩ | ⟨hpos, -, heq⟩
    · have hreach : ¬ reachesIn A s := by
        rw [reachesIn, decide_eq_true_eq]
        exact fun h => hpos ⟨(h.1.trans h.2).le, h.2.le, (h.1.trans hAE).le⟩
      rw [heq, ih hl, List.find?_cons_of_neg hreach]
    · exact absurd hover (not_lt.mpr (le_max_left _ _))
    · rw [heq, List.forall_mem_cons]
      by_cases hin : s.m_checkIn < A
      · have hclip : (s.clip A E).m_checkOut = s.m_checkOut := by rw [HInfo.clip, if_pos hin]
        rw [hclip]
        rcases hpos.2.1.eq_or_lt with hA | hA
        · have hreach : ¬ reachesIn A s := by
            rw [reachesIn, decide_eq_true_eq]
            exact fun h => absurd hA h.2.ne
          rw [← hA, ih hl, List.find?_cons_of_neg hreach, and_iff_right hAE.le]
        · have hreach : reachesIn A s := by
            rw [reachesIn, decide_eq_true_eq]
            exact ⟨hin, hA⟩
          rw [List.find?_cons_of_pos hreach, and_iff_left (checkStays_le_of_lt hA l)]
          simp
      · -- No stay of the list begins before the city's.
        have hall : ∀ s' ∈ s :: l, A ≤ s'.m_checkIn := by
          refine List.forall_mem_cons.mpr ⟨not_lt.mp hin, fun s' hs' => ?_⟩
          exact (not_lt.mp hin).trans (hs s' hs')
        refine iff_of_true ⟨HInfo.clip_m_checkOut_le (not_lt.mp hin), ?_⟩ ?_
        · have hA : A ≤ (s.clip A E).m_checkOut :=
            (le_max_left A s.m_checkIn).trans ((HInfo.clip_m_checkIn A E s).ge.trans hpos.clip_le)
          rcases hA.eq_or_lt with hA | hA
          · rw [← hA, ih hl, find?_reachesIn_of_le fun s' hs' =>
              hall s' (List.mem_cons_of_mem _ hs')]
            simp
          · exact checkStays_le_of_lt hA l
        · rw [find?_reachesIn_of_le hall]
          simp

/-! ## The result -/

/-- Eight digits. -/
def IsDate (date : String) : Prop := date.length = 8 ∧ date.toList.all Char.isDigit

theorem IsDate.ne_empty {date : String} (h : IsDate date) : date ≠ "" := by
  rintro rfl
  exact absurd h.1 (by decide)

/-- Every stay lies in that of the city, every night is in exactly one stay, and the stays that are
asked for are all there but for those with a reason; the others are in the core hotel. -/
structure Completes (hotel : H) (A E : String) (requested result : List (HInfo H)) : Prop where
  inside : ∀ s ∈ result, A ≤ s.m_checkIn ∧ s.m_checkIn ≤ s.m_checkOut ∧ s.m_checkOut ≤ E
  covers : ∀ night, A ≤ night → night < E →
    result.countP (fun s => s.m_checkIn ≤ night ∧ night < s.m_checkOut) = 1
  keeps : ∃ kept dropped added, requested.Perm (kept ++ dropped) ∧
    result.Perm (kept.map (HInfo.within A E) ++ added) ∧
    (∀ s ∈ dropped, s.m_checkOut < s.m_checkIn ∨ s.m_checkOut < A ∨ E < s.m_checkIn ∨
      ∃ k ∈ kept, k.Overlaps A E s) ∧
    ∀ s ∈ added, s.m_hotel = hotel ∧ s.m_isCoreHotel

theorem Completes.of_inside (hAE : A < E) {sorted requested : List (HInfo H)}
    (hperm : sorted.Perm requested)
    (hsorted : sorted.Pairwise fun A B => A.m_checkIn ≤ B.m_checkIn) (hotel : H)
    (hin : ∀ s ∈ checkStays A E sorted A, s.m_checkOut ≤ E) :
    Completes hotel A E requested (checkStays A E sorted A ++
      (gaps A ((checkStays A E sorted A).map HInfo.span) E).map (HInfo.core hotel)) := by
  have hapart := apart_checkStays A E sorted A
  have hends : ∀ s ∈ (checkStays A E sorted A).map HInfo.span, s.2 ≤ E := by
    intro s hs
    obtain ⟨hInfo, hmem, rfl⟩ := List.mem_map.mp hs
    exact hin hInfo hmem
  refine ⟨fun s hs => ?_, fun night hA hE => ?_, ?_⟩
  · rcases List.mem_append.mp hs with hs | hs
    · obtain ⟨hA, hle⟩ := hapart.mem (List.mem_map_of_mem hs)
      exact ⟨hA, hle, hin s hs⟩
    · obtain ⟨g, hg, rfl⟩ := List.mem_map.mp hs
      exact mem_gaps hapart hends hg
  · have hcount := countP_fill hapart hends hAE.le night
    rw [if_pos ⟨hA, hE⟩, List.countP_append, List.countP_map] at hcount
    rw [List.countP_append, List.countP_map]
    exact hcount
  · obtain ⟨kept, dropped, hsplit, hkept, hdropped⟩ := checkStays_split hsorted [] (.inl rfl)
    have hwithin : ∀ k ∈ kept, k.clip A E = k.within A E := fun k hk =>
      HInfo.clip_eq_within (hin _ (hkept ▸ List.mem_map_of_mem hk))
    refine ⟨kept, dropped, (gaps A ((checkStays A E sorted A).map HInfo.span) E).map
      (HInfo.core hotel), hperm.symm.trans hsplit, ?_, fun s hs => ?_, fun s hs => ?_⟩
    · rw [hkept, List.map_congr_left hwithin]
    · rcases hdropped s hs with hpos | ⟨k, hk, hle, hlt⟩
      · rw [HInfo.Possible, not_and_or, not_and_or, not_le, not_le, not_le] at hpos
        exact hpos.imp_right fun h => h.imp_right .inl
      · rw [List.nil_append] at hk
        rw [hwithin k hk] at hlt
        exact .inr (.inr (.inr ⟨k, hk, hle, hlt⟩))
    · obtain ⟨g, -, rfl⟩ := List.mem_map.mp hs
      exact ⟨rfl, rfl⟩

/-- With a core hotel the stays are completed exactly if the first of the stays that begin before
the city's and go on, in the order of the sort, does not go past its end. -/
theorem completeHotel_completes_iff (tools : HotelTools H) (cityID : String)
    (block : RouteBlock H) (hstart : IsDate block.checkIn) (hend : IsDate block.checkOut)
    (hlt : block.checkIn < block.checkOut) {hotel : H}
    (hcore : tools.GetCoreHotel cityID = some hotel) :
    ∃ block', completeHotel tools (some cityID) block = (0, block') ∧
      (Completes hotel block.checkIn block.checkOut block.hInfo_list block'.hInfo_list ↔
        ∀ s ∈ (tools.sort block.hInfo_list).find? (reachesIn block.checkIn),
          s.m_checkOut ≤ block.checkOut) := by
  obtain ⟨block', hrun, hlist⟩ := completeHotel_eq tools hstart.ne_empty hend.ne_empty hlt hcore
  have hsorted := tools.sort_pairwise block.hInfo_list
  refine ⟨block', hrun, ?_⟩
  rw [← checkStays_le_iff hlt hsorted, hlist]
  constructor
  · exact fun h s hs => (h.inside s (List.mem_append_left _ hs)).2.2
  · exact Completes.of_inside hlt (tools.sort_perm _) hsorted hotel

/-! ## Requests -/

def insertionTools : HotelTools String where
  GetCoreHotel _ := some "core"
  sort := stableSort fun A B => A.m_checkIn < B.m_checkIn
  sort_perm := stableSort_perm _
  sort_pairwise l := by
    have hiff (A B : HInfo String) : InOrder (fun A B : HInfo String => A.m_checkIn < B.m_checkIn)
        A B ↔ A.m_checkIn ≤ B.m_checkIn := decide_eq_false_iff_not.trans not_lt
    refine (stableSort_pairwise (fun A B C => ?_) (List.pairwise_of_forall fun A B => ?_)).imp
      fun h => (hiff _ _).mp h
    · simp only [hiff]
      exact le_trans
    · simp only [hiff]
      exact le_total _ _

/-- Three nights, with the stays that are asked for. -/
def threeNights (hInfo_list : List (HInfo String)) : RouteBlock String where
  checkIn := "20180103"
  checkOut := "20180106"
  hInfo_list
  hotel_list := []

def stay (checkIn checkOut : String) : HInfo String := ⟨"h", checkIn, checkOut, false, true⟩

theorem completeHotel_lateNight : ∃ block', completeHotel insertionTools (some "10001")
      (threeNights [stay "20180104" "20180107"]) = (0, block') ∧
    Completes "core" "20180103" "20180106" [stay "20180104" "20180107"] block'.hInfo_list := by
  obtain ⟨block', hrun, hiff⟩ := completeHotel_completes_iff insertionTools "10001"
    (threeNights [stay "20180104" "20180107"]) ⟨by decide +kernel, by decide +kernel⟩
    ⟨by decide +kernel, by decide +kernel⟩ (by decide +kernel) rfl
  refine ⟨block', hrun, hiff.mpr ?_⟩
  decide +kernel

/-- A stay that begins before the city's and ends after it keeps its end. -/
theorem not_completes_longStay : ∃ block', completeHotel insertionTools (some "10001")
      (threeNights [stay "20180101" "20180110"]) = (0, block') ∧
    ¬ Completes "core" "20180103" "20180106" [stay "20180101" "20180110"] block'.hInfo_list := by
  refine ⟨_, rfl, fun h => ?_⟩
  have := h.inside (stay "20180103" "20180110") (by decide +kernel)
  exact absurd this.2.2 (by decide +kernel)

end PPView.ReqParser
