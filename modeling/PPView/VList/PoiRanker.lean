import Mathlib.Data.Finset.Basic
import Mathlib.Data.List.Sort
import Mathlib.Data.Rat.Defs
import Mathlib.Algebra.Order.Ring.Rat
import PPView.Library.Pages

/-!
# Filtering and ranking nodes

`PoiRanker::DoFilt` erases nodes from the list that it walks through, and `RankProcessor::DoRank`
sorts what is left and takes a page of it. The loops over the constraints have an index of their
own, but look at the constraint with the index of the node.
-/

namespace PPView.VList

/-- Constraints on tags and on values, each for a key. -/
structure FiltCons where
  m_tagList : List (Int × Finset String)
  m_rangeList : List (Int × ℚ × ℚ)

/-- The maps give what `operator[]` gives. `poiNode` is a pointer. -/
structure RankNode where
  score : ℚ
  poiNode : ℕ
  valueMap : Int → ℚ := fun _ => 0
  tagMap : Int → String := fun _ => ""

/-! ## Filtering -/

namespace FiltCons

variable (FCons : FiltCons) (node : RankNode)

def MeetsTag (tag : Int × Finset String) : Prop := node.tagMap tag.1 ∈ tag.2

def MeetsRange (range : Int × ℚ × ℚ) : Prop :=
  ¬ (node.valueMap range.1 < range.2.1 ∨ node.valueMap range.1 > range.2.2)

instance (tag : Int × Finset String) : Decidable (MeetsTag node tag) :=
  inferInstanceAs (Decidable (_ ∈ _))

instance (range : Int × ℚ × ℚ) : Decidable (MeetsRange node range) :=
  inferInstanceAs (Decidable (¬ _))

/-- A loop of `count` turns that ends with the first that fails. No turn depends on its index. -/
def checkLoop (check : Option Bool) : ℕ → Bool → Option Bool
  | 0, isHit => some isHit
  | count + 1, isHit => do
    if ← check then checkLoop check count isHit else some false

/-- `none` if an index is out of range. -/
def isHit (i : ℕ) : Option Bool := do
  let isHit ← checkLoop (FCons.m_tagList[i]?.map (MeetsTag node ·)) FCons.m_tagList.length true
  checkLoop (FCons.m_rangeList[i]?.map (MeetsRange node ·)) FCons.m_rangeList.length isHit

/-- The loop over the nodes. The one behind an erased one takes its place, and is not looked at. -/
def filtLoop (NodeList : List RankNode) (i : ℕ) : Option (List RankNode) :=
  if h : i < NodeList.length then do
    if ← FCons.isHit NodeList[i] i then filtLoop NodeList (i + 1)
    else filtLoop (NodeList.eraseIdx i) (i + 1)
  else some NodeList
termination_by NodeList.length - i
decreasing_by
  · omega
  · rw [List.length_eraseIdx_of_lt h]
    omega

def doFilt (NodeList : List RankNode) : Option (List RankNode) :=
  if FCons.m_tagList = [] ∧ FCons.m_rangeList = [] then some NodeList
  else FCons.filtLoop NodeList 0

end FiltCons

/-! ## Ranking -/

/-- `NodeComp` and `NodeCompR`, negated. -/
def Ranked (IsReverse : Bool) (a b : RankNode) : Prop :=
  if IsReverse then a.score ≤ b.score else b.score ≤ a.score

/-- `std::sort` by score. -/
structure Sorter where
  sort : Bool → List RankNode → List RankNode
  sort_perm : ∀ IsReverse l, (sort IsReverse l).Perm l
  sort_pairwise : ∀ IsReverse l, (sort IsReverse l).Pairwise (Ranked IsReverse)

instance (IsReverse : Bool) : DecidableRel (Ranked IsReverse) := fun _ _ =>
  inferInstanceAs (Decidable (ite _ _ _))

/-- An insertion sort. -/
def byScore : Sorter where
  sort IsReverse l := l.insertionSort (Ranked IsReverse)
  sort_perm IsReverse l := List.perm_insertionSort _ l
  sort_pairwise IsReverse l := by
    have htotal : Std.Total (Ranked IsReverse) := ⟨fun a b => by
      unfold Ranked
      split_ifs
      · exact le_total _ _
      · exact le_total _ _⟩
    have htrans : IsTrans RankNode (Ranked IsReverse) := ⟨fun a b c hab hbc => by
      unfold Ranked at *
      split_ifs at *
      · exact hab.trans hbc
      · exact hbc.trans hab⟩
    exact List.pairwise_insertionSort _ l

/-- `RankProcessor::DoRank` for a page. -/
def doRankPage (sorter : Sorter) (FCons : FiltCons) (m_nodeList : List RankNode)
    (CountPerPage PageCount : ℕ) (IsReverse : Bool) : Option (List ℕ) := do
  let m_nodeList := sorter.sort IsReverse (← FCons.doFilt m_nodeList)
  let size := (PageCount + 1) * CountPerPage
  let size := if size > m_nodeList.length then m_nodeList.length else size
  some (((m_nodeList.take size).drop (PageCount * CountPerPage)).map RankNode.poiNode)

/-- `RankProcessor::DoRank` without pages. -/
def doRank (sorter : Sorter) (FCons : FiltCons) (m_nodeList : List RankNode) (IsReverse : Bool) :
    Option (List ℕ) := do
  let m_nodeList := sorter.sort IsReverse (← FCons.doFilt m_nodeList)
  some (m_nodeList.map RankNode.poiNode)

namespace FiltCons

variable {FCons : FiltCons} {node : RankNode} {i : ℕ}

/-- All constraints hold. -/
def Meets (FCons : FiltCons) (node : RankNode) : Prop :=
  (∀ tag ∈ FCons.m_tagList, MeetsTag node tag) ∧
    ∀ range ∈ FCons.m_rangeList, MeetsRange node range

instance : Decidable (FCons.Meets node) := inferInstanceAs (Decidable (_ ∧ _))

/-- A list of constraints has the index, or is empty. -/
def InRange (FCons : FiltCons) (i : ℕ) : Prop :=
  (FCons.m_tagList = [] ∨ i < FCons.m_tagList.length) ∧
    (FCons.m_rangeList = [] ∨ i < FCons.m_rangeList.length)

/-- The constraint of each list that has the index. -/
def MeetsAt (FCons : FiltCons) (node : RankNode) (i : ℕ) : Prop :=
  (∀ tag ∈ FCons.m_tagList[i]?, MeetsTag node tag) ∧
    ∀ range ∈ FCons.m_rangeList[i]?, MeetsRange node range

instance : Decidable (FCons.InRange i) := inferInstanceAs (Decidable (_ ∧ _))

instance : Decidable (FCons.MeetsAt node i) := inferInstanceAs (Decidable (_ ∧ _))

theorem Meets.meetsAt (h : FCons.Meets node) (i : ℕ) : FCons.MeetsAt node i := by
  constructor
  · intro tag htag
    exact h.1 tag (List.mem_of_getElem? htag)
  · intro range hrange
    exact h.2 range (List.mem_of_getElem? hrange)

/-! ## A turn of the loop -/

theorem checkLoop_eq_some_iff {α : Type*} {P : α → Prop} [DecidablePred P] {l : List α}
    {hit hit' : Bool} : checkLoop (l[i]?.map (P ·)) l.length hit = some hit' ↔
      (l = [] ∨ i < l.length) ∧ (hit' = true ↔ hit = true ∧ ∀ a ∈ l[i]?, P a) := by
  by_cases hnil : l = []
  · subst hnil
    cases hit <;> cases hit' <;> simp [checkLoop]
  · obtain ⟨count, hcount⟩ : ∃ count, l.length = count + 1 :=
      ⟨l.length - 1, by have := List.length_pos_of_ne_nil hnil; omega⟩
    have hloop : ∀ check : Bool, ∀ count, checkLoop (some check) (count + 1) hit =
        some (if check then hit else false) := by
      intro check count
      induction count with
      | zero => cases check <;> rfl
      | succ count ih =>
        rw [checkLoop]
        cases check with
        | false => rfl
        | true => exact ih
    by_cases hi : i < l.length
    · rw [List.getElem?_eq_getElem hi, Option.map_some, hcount, hloop]
      by_cases hP : P l[i] <;> cases hit <;> cases hit' <;> simp [hnil, hP] <;> omega
    · rw [List.getElem?_eq_none (by omega), Option.map_none, hcount]
      simp [checkLoop, hnil, hcount ▸ hi]

theorem isHit_eq_some_iff {hit : Bool} : FCons.isHit node i = some hit ↔
    FCons.InRange i ∧ (hit = true ↔ FCons.MeetsAt node i) := by
  simp only [isHit, Option.bind_eq_bind, Option.bind_eq_some_iff, checkLoop_eq_some_iff, InRange,
    MeetsAt, true_and]
  constructor
  · rintro ⟨tagHit, ⟨htag, htagHit⟩, hrange, hhit⟩
    exact ⟨⟨htag, hrange⟩, by rw [hhit, htagHit]⟩
  · rintro ⟨⟨htag, hrange⟩, hhit⟩
    refine ⟨decide (∀ tag ∈ FCons.m_tagList[i]?, MeetsTag node tag), ⟨htag, by simp⟩, hrange, ?_⟩
    rw [hhit, decide_eq_true_eq]

theorem exists_isHit (node : RankNode) (h : FCons.InRange i) : ∃ hit, FCons.isHit node i = some hit := by
  classical
  exact ⟨decide (FCons.MeetsAt node i), isHit_eq_some_iff.mpr ⟨h, decide_eq_true_iff⟩⟩

/-! ## The loop over the nodes -/

/-- What the loop does to the nodes from the index on; `skip` if the first is not looked at. -/
def scan (FCons : FiltCons) : Bool → ℕ → List RankNode → Option (List RankNode)
  | _, _, [] => some []
  | true, i, node :: rest => (scan FCons false i rest).map (node :: ·)
  | false, i, node :: rest => do
    if ← FCons.isHit node i then (scan FCons false (i + 1) rest).map (node :: ·)
    else scan FCons true (i + 1) rest

theorem map_scan_append (FCons : FiltCons) (skip : Bool) (i : ℕ) (before : List RankNode)
    (node : RankNode) (rest : List RankNode) :
    (FCons.scan skip i rest).map (before ++ [node] ++ ·) =
      ((FCons.scan skip i rest).map (node :: ·)).map (before ++ ·) := by
  rw [Option.map_map]
  congr 1
  funext l
  exact List.append_assoc before [node] l

theorem filtLoop_of_le {NodeList : List RankNode} (h : NodeList.length ≤ i) :
    FCons.filtLoop NodeList i = some NodeList := by
  rw [filtLoop, dif_neg (by omega)]

theorem filtLoop_eq_scan (FCons : FiltCons) (rest before : List RankNode) (skip : Bool) :
    FCons.filtLoop (before ++ rest) (before.length + skip.toNat) =
      (FCons.scan skip (before.length + skip.toNat) rest).map (before ++ ·) := by
  induction rest generalizing before skip with
  | nil =>
    rw [List.append_nil, filtLoop_of_le (Nat.le_add_right _ _), scan, Option.map_some,
      List.append_nil]
  | cons node rest ih =>
    have hkept := ih (before ++ [node]) false
    rw [List.length_append, List.append_assoc] at hkept
    cases skip with
    | true =>
      rw [scan, ← map_scan_append]
      exact hkept
    | false =>
      have hskip := ih before true
      have hget : (before ++ node :: rest)[before.length]? = some node := by simp
      have herase : (before ++ node :: rest).eraseIdx before.length = before ++ rest := by
        rw [List.eraseIdx_append_of_length_le le_rfl, Nat.sub_self, List.eraseIdx_cons_zero]
      obtain ⟨hlt, hget⟩ := List.getElem?_eq_some_iff.mp hget
      simp only [Bool.toNat_false, Nat.add_zero, Bool.toNat_true, List.length_singleton,
        List.singleton_append] at hkept hskip ⊢
      rw [filtLoop, dif_pos hlt, hget, scan]
      cases FCons.isHit node before.length with
      | none => rfl
      | some hit =>
        cases hit with
        | true => exact hkept.trans (map_scan_append FCons false _ before node rest)
        | false => exact herase ▸ hskip

/-! ## Exactly the nodes that meet the constraints -/

/-- Whether the node before is erased. -/
def behind (FCons : FiltCons) (skip : Bool) (before : List RankNode) : Bool :=
  (before.getLast?.map fun previous => decide (¬ FCons.Meets previous)).getD skip

/-- A node behind an erased one is to be kept. Any other one has an index for which there are
constraints, and is kept rightly if it meets those. -/
def Fits (FCons : FiltCons) (skip : Bool) (i : ℕ) (node : RankNode) : Prop :=
  if skip then FCons.Meets node else FCons.InRange i ∧ (FCons.MeetsAt node i → FCons.Meets node)

instance (skip : Bool) : Decidable (FCons.Fits skip i node) :=
  inferInstanceAs (Decidable (ite _ _ _))

/-- Every node fits, with the number of the nodes before it that are to be kept as its index. -/
def Fitting (FCons : FiltCons) (skip : Bool) (i : ℕ) (NodeList : List RankNode) : Prop :=
  ∀ before node after, NodeList = before ++ node :: after →
    FCons.Fits (FCons.behind skip before) (i + before.countP (FCons.Meets ·)) node

theorem fitting_nil (skip : Bool) (i : ℕ) : FCons.Fitting skip i [] := by
  intro before node after h
  simp at h

theorem behind_cons (skip : Bool) (node : RankNode) (before : List RankNode) :
    FCons.behind skip (node :: before) = FCons.behind (decide (¬ FCons.Meets node)) before := by
  cases before with
  | nil => rfl
  | cons next before => simp [behind, List.getLast?_cons]

theorem fitting_cons (skip : Bool) (i : ℕ) (node : RankNode) (rest : List RankNode) :
    FCons.Fitting skip i (node :: rest) ↔ FCons.Fits skip i node ∧
      FCons.Fitting (decide (¬ FCons.Meets node)) (i + if FCons.Meets node then 1 else 0) rest := by
  have hcount : ∀ before : List RankNode, i + (node :: before).countP (FCons.Meets ·) =
      i + (if FCons.Meets node then 1 else 0) + before.countP (FCons.Meets ·) := by
    intro before
    simp only [List.countP_cons, decide_eq_true_eq]
    omega
  constructor
  · intro h
    refine ⟨h [] node rest rfl, ?_⟩
    rintro before next after rfl
    have hnext := h (node :: before) next after rfl
    rwa [hcount, behind_cons] at hnext
  · rintro ⟨hnode, hrest⟩ before next after heq
    cases before with
    | nil =>
      obtain ⟨rfl, rfl⟩ := List.cons.inj heq
      exact hnode
    | cons first before =>
      obtain ⟨rfl, rfl⟩ := List.cons.inj heq
      rw [hcount, behind_cons]
      exact hrest before next after rfl

theorem map_cons_eq_filter_iff (FCons : FiltCons) (node : RankNode) (rest : List RankNode)
    (kept : Option (List RankNode)) :
    kept.map (node :: ·) = some ((node :: rest).filter (FCons.Meets ·)) ↔
      FCons.Meets node ∧ kept = some (rest.filter (FCons.Meets ·)) := by
  constructor
  · intro h
    obtain ⟨l, hl, heq⟩ := Option.map_eq_some_iff.mp h
    have hmem : node ∈ (node :: rest).filter (FCons.Meets ·) := heq ▸ List.mem_cons_self
    have hmeets : FCons.Meets node := by simpa using (List.mem_filter.mp hmem).2
    rw [List.filter_cons_of_pos (by simpa using hmeets)] at heq
    exact ⟨hmeets, hl.trans (congrArg some (List.cons.inj heq).2)⟩
  · rintro ⟨hmeets, rfl⟩
    rw [List.filter_cons_of_pos (by simpa using hmeets)]
    rfl

theorem scan_eq_filter_iff (FCons : FiltCons) (rest : List RankNode) (skip : Bool) (i : ℕ) :
    FCons.scan skip (i + skip.toNat) rest = some (rest.filter (FCons.Meets ·)) ↔
      FCons.Fitting skip i rest := by
  induction rest generalizing skip i with
  | nil => exact iff_of_true (by cases skip <;> rfl) (fitting_nil skip i)
  | cons node rest ih =>
    rw [fitting_cons]
    cases skip with
    | true =>
      rw [scan, map_cons_eq_filter_iff, Fits, if_pos rfl]
      apply and_congr_right
      intro hmeets
      have hkept := ih false (i + 1)
      simpa [hmeets] using hkept
    | false =>
      have hkept := ih false (i + 1)
      have hskip := ih true i
      simp only [Bool.toNat_false, Nat.add_zero, Bool.toNat_true] at hkept hskip ⊢
      rw [scan, Fits]
      cases hhit : FCons.isHit node i with
      | none =>
        have hrange : ¬ FCons.InRange i := by
          intro hrange
          obtain ⟨hit, hsome⟩ := exists_isHit node hrange
          rw [hhit] at hsome
          contradiction
        simp [hrange]
      | some hit =>
        obtain ⟨hrange, hat⟩ := isHit_eq_some_iff.mp hhit
        by_cases hmeets : FCons.Meets node
        · obtain rfl := hat.mpr (hmeets.meetsAt i)
          simp [hrange, hmeets, hkept]
        · cases hit with
          | true =>
            have hnot := map_cons_eq_filter_iff FCons node rest (FCons.scan false (i + 1) rest)
            simp only [hmeets, false_and, iff_false] at hnot
            exact iff_of_false hnot fun h => hmeets (h.1.2 (hat.mp rfl))
          | false =>
            have hnat : ¬ FCons.MeetsAt node i := fun h => Bool.noConfusion (hat.mpr h)
            simpa [hrange, hmeets, hnat] using hskip

theorem doFilt_eq_filter_iff (FCons : FiltCons) (NodeList : List RankNode) :
    FCons.doFilt NodeList = some (NodeList.filter (FCons.Meets ·)) ↔
      FCons.Fitting false 0 NodeList := by
  unfold doFilt
  split_ifs with hnone
  · have hmeets : ∀ node, FCons.Meets node := fun node => by simp [Meets, hnone]
    have hfitting : FCons.Fitting false 0 NodeList := by
      intro before node after _
      unfold Fits
      split_ifs
      · exact hmeets node
      · exact ⟨⟨.inl hnone.1, .inl hnone.2⟩, fun _ => hmeets node⟩
    exact iff_of_true (by simp [hmeets]) hfitting
  · have hscan := filtLoop_eq_scan FCons NodeList [] false
    simp only [List.nil_append, Option.map_id'] at hscan
    exact hscan ▸ scan_eq_filter_iff FCons NodeList false 0

end FiltCons

/-! ## Pages -/

variable {sorter : Sorter} {FCons : FiltCons} {NodeList : List RankNode}

theorem doRankPage_eq {kept : List RankNode} (h : FCons.doFilt NodeList = some kept)
    (n p : ℕ) (IsReverse : Bool) : doRankPage sorter FCons NodeList n p IsReverse =
      some (Pages.blockOf (fun node => some node.poiNode) n (sorter.sort IsReverse kept) p) := by
  have hsize : ∀ l : List RankNode, l.take (if (p + 1) * n > l.length then l.length
      else (p + 1) * n) = l.take ((p + 1) * n) := by
    intro l
    split_ifs with hlt
    · rw [List.take_length, List.take_of_length_le hlt.le]
    · rfl
  have hsucc : (p + 1) * n - p * n = n := by
    rw [Nat.succ_mul, Nat.add_sub_cancel_left]
  simp only [doRankPage, h, Option.bind_eq_bind, Option.bind_some, hsize, List.drop_take, hsucc,
    Pages.blockOf, List.filterMap_eq_map']

/-- The constraints are met by what is kept, and by nothing else. The pages of any size are, one
after the other, what is kept in the order of the scores. -/
structure Ranks (sorter : Sorter) (FCons : FiltCons) (NodeList : List RankNode)
    (IsReverse : Bool) : Prop where
  filt : FCons.doFilt NodeList = some (NodeList.filter (FCons.Meets ·))
  pages : ∃ ranked : List RankNode, ranked.Perm (NodeList.filter (FCons.Meets ·)) ∧
    ranked.Pairwise (Ranked IsReverse) ∧
    doRank sorter FCons NodeList IsReverse = some (ranked.map RankNode.poiNode) ∧
    ∀ n ≥ 1, ∃ page : ℕ → List ℕ,
      (∀ p, doRankPage sorter FCons NodeList n p IsReverse = some (page p)) ∧
      ∀ k, ranked.length ≤ k * n →
        (List.range k).flatMap page = ranked.map RankNode.poiNode

/-- The second node has a wrong tag, and stands where that tag is looked at. -/
def fourNodes : List RankNode :=
  [⟨2, 0, fun _ => 0, fun _ => "a"⟩, ⟨5, 1, fun _ => 0, fun tag => if tag = 0 then "a" else "b"⟩,
    ⟨1, 2, fun _ => 0, fun _ => "a"⟩, ⟨3, 3, fun _ => 0, fun _ => "a"⟩]

def threeTags : FiltCons := ⟨[(0, {"a"}), (1, {"a"}), (2, {"a", "b"})], []⟩

/-- Two nodes with the right tag, but a single constraint. -/
def twoNodes : List RankNode := [⟨2, 0, fun _ => 0, fun _ => "a"⟩, ⟨1, 1, fun _ => 0, fun _ => "a"⟩]

def oneTag : FiltCons := ⟨[(0, {"a"})], []⟩

end PPView.VList
