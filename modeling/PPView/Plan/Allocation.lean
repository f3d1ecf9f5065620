import Mathlib.Data.Finset.Card
import PPView.Library.Pairings
import PPView.Library.Tables
import PPView.Plan.AllocWindows

/-!
# Sound blocks

Every block of a plan that `DoAlloc` has filled knows a place at most once, and with windows in
which it can be visited. The places that still wait are those that some block knows.
-/

namespace PPView

/-! ## The blocks -/

/-- A block that has been cleared and filled with places, each of them at most once. -/
structure AllocBlock.Filled (block₀ block : AllocBlock) : Prop where
  availDur : block.availDur = block₀.availDur
  trafDate : block.trafDate = block₀.trafDate
  isNotPlay : block.isNotPlay = block₀.isNotPlay
  nodup : (block.pInfoList.map VarPlaceInfo.vPlace).Nodup
  getPlaceInfo : ∀ id pInfo, block.getPlaceInfo id = some pInfo ↔
    pInfo ∈ block.pInfoList ∧ pInfo.vPlace = id
  getFunc : ∀ id, block.getFunc id =
    block₀.getFunc id ||| ((block.getPlaceInfo id).map VarPlaceInfo.type).getD 0

namespace AllocBlock

variable {block₀ block : AllocBlock} {id : String} {pInfo : VarPlaceInfo}

theorem getPlaceInfo_push (id' : String) :
    (block.push id pInfo).getPlaceInfo id' =
      if id' = id then some pInfo else block.getPlaceInfo id' :=
  lookup_cons_ite id' (id, pInfo) block.pInfoMap

theorem getFunc_push (id' : String) :
    (block.push id pInfo).getFunc id' =
      if id' = id then block.getFunc id ||| pInfo.type else block.getFunc id' := by
  change (List.lookup id' ((id, block.getFunc id ||| pInfo.type) :: block.nodeFuncMap)).getD 0 = _
  rw [lookup_cons_ite]
  split_ifs <;> rfl

theorem filled_clearNode (block : AllocBlock) : Filled block block.clearNode where
  availDur := rfl
  trafDate := rfl
  isNotPlay := rfl
  nodup := List.nodup_nil
  getPlaceInfo id pInfo := by simp [AllocBlock.getPlaceInfo, AllocBlock.clearNode]
  getFunc id := (Nat.or_zero _).symm

theorem Filled.push (h : Filled block₀ block) (hid : pInfo.vPlace = id)
    (hnew : block.getPlaceInfo id = none) : Filled block₀ (block.push id pInfo) := by
  have hnot : ∀ pInfo' ∈ block.pInfoList, pInfo'.vPlace ≠ id := fun pInfo' hmem heq => by
    rw [(h.getPlaceInfo id pInfo').mpr ⟨hmem, heq⟩] at hnew
    simp at hnew
  refine { h with nodup := ?_, getPlaceInfo := fun id' pInfo' => ?_, getFunc := fun id' => ?_ }
  · change ((block.pInfoList ++ [pInfo]).map _).Nodup
    rw [List.map_append, List.nodup_append]
    refine ⟨h.nodup, by simp, ?_⟩
    rintro vPlace hmem vPlace' hmem' rfl
    obtain ⟨pInfo', hpInfo', rfl⟩ := List.mem_map.mp hmem
    exact hnot pInfo' hpInfo' ((List.mem_singleton.mp hmem').trans hid)
  · change _ ↔ pInfo' ∈ block.pInfoList ++ [pInfo] ∧ _
    rw [getPlaceInfo_push, List.mem_append, List.mem_singleton]
    split_ifs with heq
    · constructor
      · intro hsome
        obtain rfl := Option.some.inj hsome
        exact ⟨.inr rfl, hid.trans heq.symm⟩
      · rintro ⟨hmem | rfl, rfl⟩
        · exact absurd heq (hnot pInfo' hmem)
        · rfl
    · rw [h.getPlaceInfo]
      refine and_congr_left fun hvPlace => ⟨.inl, fun hmem => hmem.resolve_right ?_⟩
      rintro rfl
      exact heq (hvPlace.symm.trans hid)
  · rw [getFunc_push, getPlaceInfo_push]
    split_ifs with heq
    · subst heq
      rw [h.getFunc, hnew]
      simp
    · exact h.getFunc id'

end AllocBlock

namespace AllocPlan

variable {plan plan' : AllocPlan} {fuel : ℕ} {tmp : TimeIR.DateRange} {place : AllocPlace}
  {block block' : AllocBlock} {blocks blocks' : List AllocBlock} {pInfo : VarPlaceInfo}
  {i j : ℕ} {ret : Bool}

/-! ## The loop over the blocks -/

theorem Resets.refl (plan : AllocPlan) : Resets place plan plan := ⟨.refl _, rfl⟩

theorem Resets.trans {plan₁ plan₂ plan₃ : AllocPlan} (h : Resets place plan₁ plan₂)
    (h' : Resets place plan₂ plan₃) : Resets place plan₁ plan₃ :=
  ⟨h.1.trans h'.1, by rw [h'.2, h.2]⟩

/-- The windows of a place that is no tour do not depend on durations of tours. -/
theorem Windows.of_resets (h : Windows plan place i block pInfo)
    (hresets : Resets place plan plan') : Windows plan' place i block pInfo := by
  obtain ⟨⟨heq, hsome, hother, htour⟩, hplan⟩ := hresets
  have hinfo : plan'.faultTolerant = plan.faultTolerant ∧ plan'.lookSet = plan.lookSet := by
    rw [heq]
    exact ⟨rfl, rfl⟩
  refine { h with date := ?_, fits := fun htolerant hnone hphoto => ?_ }
  · rw [hplan]
    exact h.date
  · obtain rfl : plan' = plan := by rw [hplan, htour hnone]
    exact h.fits htolerant hnone hphoto

/-- How the loop from the block number `i` on changes the blocks. -/
inductive Allocates (plan : AllocPlan) (place : AllocPlace) :
    ℕ → List AllocBlock → Bool → List AllocBlock → Prop
  | nil (i : ℕ) : Allocates plan place i [] false []
  | skip {i : ℕ} {block : AllocBlock} {blocks blocks' : List AllocBlock} {ret : Bool}
    (h : Allocates plan place (i + 1) blocks ret blocks') :
    Allocates plan place i (block :: blocks) ret (block :: blocks')
  | push {i : ℕ} {block : AllocBlock} {blocks blocks' : List AllocBlock} {ret : Bool}
    {pInfo : VarPlaceInfo} (hwindows : Windows plan place i block pInfo)
    (h : Allocates plan place (i + 1) blocks ret blocks') :
    Allocates plan place i (block :: blocks) true (block.push place.ID pInfo :: blocks')

theorem allocFrom_cases
    (h : allocFrom fuel tmp place i blocks plan = .ok (ret, blocks', plan')) :
    Resets place plan plan' ∧ Allocates plan' place i blocks ret blocks' := by
  induction blocks generalizing i plan plan' ret blocks' with
  | nil =>
    obtain ⟨rfl, hpair⟩ := Prod.mk.inj (Except.ok.inj h)
    obtain ⟨rfl, rfl⟩ := Prod.mk.inj hpair
    exact ⟨.refl _, .nil i⟩
  | cons block blocks ih =>
    obtain ⟨⟨plan₁, pInfo⟩, hin, h⟩ := bind_ok.mp h
    obtain ⟨⟨ret₁, blocks₁, plan₂⟩, hfrom, h⟩ := bind_ok.mp h
    obtain ⟨hresets, hwindows⟩ := allocIn_cases hin
    obtain ⟨hresets', hrest⟩ := ih hfrom
    dsimp only at h
    cases pInfo with
    | none =>
      obtain ⟨rfl, hpair⟩ := Prod.mk.inj (Except.ok.inj h)
      obtain ⟨rfl, rfl⟩ := Prod.mk.inj hpair
      exact ⟨hresets.trans hresets', .skip hrest⟩
    | some pInfo =>
      obtain ⟨rfl, hpair⟩ := Prod.mk.inj (Except.ok.inj h)
      obtain ⟨rfl, rfl⟩ := Prod.mk.inj hpair
      exact ⟨hresets.trans hresets', .push ((hwindows _ rfl).of_resets hresets') hrest⟩

namespace Allocates

theorem eq_of_false (h : Allocates plan place i blocks false blocks') : blocks' = blocks := by
  generalize hret : false = ret at h
  induction h with
  | nil => rfl
  | skip _ ih => rw [ih hret]
  | push => simp at hret

theorem getElem? (h : Allocates plan place i blocks ret blocks')
    (hblock : blocks'[j]? = some block') :
    ∃ block, blocks[j]? = some block ∧ (block' = block ∨ ret = true ∧
      ∃ pInfo, block' = block.push place.ID pInfo ∧ Windows plan place (i + j) block pInfo) := by
  induction h generalizing j with
  | nil => simp at hblock
  | skip h ih =>
    cases j with
    | zero => exact ⟨block', hblock, .inl rfl⟩
    | succ j =>
      obtain ⟨block, hblock, hcases⟩ := ih hblock
      exact ⟨block, hblock, by rwa [Nat.add_right_comm] at hcases⟩
  | push hwindows h ih =>
    cases j with
    | zero =>
      obtain rfl := Option.some.inj hblock
      exact ⟨_, rfl, .inr ⟨rfl, _, rfl, hwindows⟩⟩
    | succ j =>
      obtain ⟨block, hblock, hcases⟩ := ih hblock
      rw [Nat.add_right_comm] at hcases
      exact ⟨block, hblock, hcases.imp_right fun h => ⟨rfl, h.2⟩⟩

theorem exists_block (h : Allocates plan place i blocks ret blocks') (hblock : block ∈ blocks) :
    block ∈ blocks' ∨ ∃ pInfo, block.push place.ID pInfo ∈ blocks' := by
  induction h with
  | nil => simp at hblock
  | skip h ih =>
    rcases List.mem_cons.mp hblock with rfl | hblock
    · exact .inl (by simp)
    · exact (ih hblock).imp (List.mem_cons_of_mem _) fun ⟨pInfo, hmem⟩ =>
        ⟨pInfo, List.mem_cons_of_mem _ hmem⟩
  | push hwindows h ih =>
    rcases List.mem_cons.mp hblock with rfl | hblock
    · exact .inr ⟨_, List.mem_cons_self⟩
    · exact (ih hblock).imp (List.mem_cons_of_mem _) fun ⟨pInfo, hmem⟩ =>
        ⟨pInfo, List.mem_cons_of_mem _ hmem⟩

theorem exists_push (h : Allocates plan place i blocks true blocks') :
    ∃ (block : AllocBlock) (pInfo : VarPlaceInfo), block.push place.ID pInfo ∈ blocks' := by
  generalize hret : true = ret at h
  induction h with
  | nil => simp at hret
  | skip _ ih =>
    obtain ⟨block, pInfo, hmem⟩ := ih hret
    exact ⟨block, pInfo, List.mem_cons_of_mem _ hmem⟩
  | push => exact ⟨_, _, List.mem_cons_self⟩

/-- What the loop keeps of a block. -/
theorem map_eq {α : Type} {f : AllocBlock → α}
    (hf : ∀ block id pInfo, f (block.push id pInfo) = f block)
    (h : Allocates plan place i blocks ret blocks') : blocks'.map f = blocks.map f := by
  induction h with
  | nil => rfl
  | skip _ ih => rw [List.map_cons, List.map_cons, ih]
  | push _ _ ih => rw [List.map_cons, List.map_cons, ih, hf]

theorem filled {blocks₀ : List AllocBlock}
    (h : Allocates plan place i blocks ret blocks')
    (hfilled : List.Forall₂ AllocBlock.Filled blocks₀ blocks)
    (hnew : ∀ block ∈ blocks, block.getPlaceInfo place.ID = none) :
    List.Forall₂ AllocBlock.Filled blocks₀ blocks' := by
  induction h generalizing blocks₀ with
  | nil => exact hfilled
  | skip _ ih =>
    obtain ⟨block₀, blocks₀, hhead, htail, rfl⟩ := List.forall₂_cons_right_iff.mp hfilled
    exact .cons hhead (ih htail fun block hmem => hnew block (List.mem_cons_of_mem _ hmem))
  | push hwindows _ ih =>
    obtain ⟨block₀, blocks₀, hhead, htail, rfl⟩ := List.forall₂_cons_right_iff.mp hfilled
    exact .cons (hhead.push hwindows.vPlace (hnew _ List.mem_cons_self))
      (ih htail fun block hmem => hnew block (List.mem_cons_of_mem _ hmem))

end Allocates

/-! ## What stays -/

/-- What no round changes. -/
def fixed (plan : AllocPlan) : AllocPlan :=
  { plan with durSMap := [], userDurMap := [], lookSet := [], blockList := [], failSet := [] }

/-- The plan of a later round. -/
structure Frame (plan plan' : AllocPlan) : Prop where
  fixed : plan'.fixed = plan.fixed
  lookSet : plan.lookSet ⊆ plan'.lookSet
  durSMap : ∀ id durS, plan.durSMap.lookup id = some durS → plan'.durSMap.lookup id = some durS

theorem Frame.refl (plan : AllocPlan) : Frame plan plan := ⟨rfl, List.Subset.refl _, fun _ _ => id⟩

theorem Frame.trans {plan₁ plan₂ plan₃ : AllocPlan} (h : Frame plan₁ plan₂)
    (h' : Frame plan₂ plan₃) : Frame plan₁ plan₃ :=
  ⟨h'.fixed.trans h.fixed, List.Subset.trans h.lookSet h'.lookSet,
    fun id durS hid => h'.durSMap id durS (h.durSMap id durS hid)⟩

/-- The plan after an attempt to allocate a place. -/
structure Tried (plan plan' : AllocPlan) : Prop where
  eq : plan' = { plan with
    userDurMap := plan'.userDurMap, lookSet := plan'.lookSet, blockList := plan'.blockList }
  lookSet : plan.lookSet ⊆ plan'.lookSet

theorem Tried.refl (plan : AllocPlan) : Tried plan plan := ⟨rfl, List.Subset.refl _⟩

theorem Tried.trans {plan₁ plan₂ plan₃ : AllocPlan} (h : Tried plan₁ plan₂)
    (h' : Tried plan₂ plan₃) : Tried plan₁ plan₃ :=
  ⟨by rw [h'.eq, h.eq], List.Subset.trans h.lookSet h'.lookSet⟩

theorem Tried.frame (h : Tried plan plan') : Frame plan plan' := by
  refine ⟨?_, h.lookSet, fun id durS hid => ?_⟩
  · rw [h.eq]
    rfl
  · rw [h.eq]
    exact hid

theorem Tried.failSet (h : Tried plan plan') : plan'.failSet = plan.failSet := by
  rw [h.eq]

theorem Resets.tried (h : Resets place plan plan') (blocks : List AllocBlock) :
    Tried plan { plan' with blockList := blocks } := by
  obtain ⟨⟨heq, -, -, -⟩, hplan⟩ := h
  rw [hplan, heq]
  exact ⟨rfl, List.Subset.refl _⟩

namespace Frame

variable (h : Frame plan plan')

include h

theorem waitPlaceList : plan'.waitPlaceList = plan.waitPlaceList := by
  have hfixed := congrArg AllocPlan.waitPlaceList h.fixed
  exact hfixed

theorem keyNode : plan'.keyNode = plan.keyNode := by
  have hfixed := congrArg AllocPlan.keyNode h.fixed
  exact hfixed

theorem restNeedNum : plan'.restNeedNum = plan.restNeedNum := by
  have hfixed := congrArg AllocPlan.restNeedNum h.fixed
  exact hfixed

theorem shopNeedNum : plan'.shopNeedNum = plan.shopNeedNum := by
  have hfixed := congrArg AllocPlan.shopNeedNum h.fixed
  exact hfixed

theorem faultTolerant : plan'.faultTolerant = plan.faultTolerant := by
  have hfixed := congrArg (fun plan : AllocPlan => plan.faultTolerant) h.fixed
  exact hfixed

theorem isUserDateAvail (place : AllocPlace) (date : Str) :
    plan'.isUserDateAvail place date = plan.isUserDateAvail place date := by
  have hfixed := congrArg (fun plan => AllocPlan.isUserDateAvail plan place date) h.fixed
  exact hfixed

theorem isRestaurant (place : AllocPlace) : plan'.isRestaurant place = plan.isRestaurant place := by
  have hfixed := congrArg (fun plan => AllocPlan.isRestaurant plan place) h.fixed
  exact hfixed

theorem trafTime (place : AllocPlace) (ida idb : String) (date : Str) :
    plan'.trafTime place ida idb date = plan.trafTime place ida idb date := by
  have hfixed := congrArg (fun plan => AllocPlan.trafTime plan place ida idb date) h.fixed
  exact hfixed

theorem getZipDur (hdur : (plan.durSMap.lookup place.ID).isSome) :
    plan'.getZipDur place.toVarPlace = plan.getZipDur place.toVarPlace := by
  obtain ⟨durS, hdur⟩ := Option.isSome_iff_exists.mp hdur
  simp only [InfoPlan.getZipDur, DurPlan.getDurS, hdur, h.durSMap _ _ hdur]

theorem isPhotoRest (hphoto : plan'.isPhotoRest place = false) :
    plan.isPhotoRest place = false := by
  simp only [AllocPlan.isPhotoRest, Bool.and_eq_false_iff, decide_eq_false_iff_not] at hphoto ⊢
  exact hphoto.imp id fun hnot hmem => hnot (h.lookSet hmem)

end Frame

/-- A place that keeps its zipped duration keeps its windows. -/
theorem Windows.of_frame (h : Windows plan place i block pInfo) (hframe : Frame plan plan')
    (hdur : plan'.getZipDur place.toVarPlace = plan.getZipDur place.toVarPlace) :
    Windows plan' place i block pInfo := by
  refine { h with date := ?_, fits := fun htolerant hnone hphoto => ?_ }
  · rw [hframe.isUserDateAvail]
    exact h.date
  · rw [hframe.faultTolerant] at htolerant
    obtain ⟨fromKey, toKey, hfrom, hto, hfits⟩ :=
      h.fits htolerant hnone (hframe.isPhotoRest hphoto)
    rw [← hframe.keyNode] at hfrom hto
    refine ⟨fromKey, toKey, hfrom, hto, fun window hwindow => ?_⟩
    have hfits := hfits window hwindow
    simp only [Fits] at hfits ⊢
    rwa [hframe.trafTime, hframe.trafTime, hdur]

/-! ## The attempts -/

/-- The windows do not depend on what the blocks know. -/
theorem Windows.of_blockList (h : Windows plan place i block pInfo) (blocks : List AllocBlock) :
    Windows { plan with blockList := blocks } place i block pInfo :=
  ⟨h.vPlace, h.availDur, h.play, h.date, h.ne_nil, h.subset, h.null, h.fits⟩

theorem Allocates.mono (h : Allocates plan place i blocks ret blocks')
    (hwindows : ∀ i block pInfo, Windows plan place i block pInfo →
      Windows plan' place i block pInfo) : Allocates plan' place i blocks ret blocks' := by
  induction h with
  | nil => exact .nil _
  | skip _ ih => exact .skip ih
  | push hpush _ ih => exact .push (hwindows _ _ _ hpush) ih

/-- What an attempt does. -/
structure Attempt (plan : AllocPlan) (place : AllocPlace) (ret : Bool) (plan' : AllocPlan) :
    Prop where
  tried : Tried plan plan'
  allocates : Allocates plan' place 0 plan.blockList ret plan'.blockList

theorem attempt_isAllocable (h : plan.isAllocable fuel tmp place = .ok (ret, plan')) :
    Attempt plan place ret plan' := by
  obtain ⟨⟨ret₁, blocks, plan₁⟩, hfrom, h⟩ := bind_ok.mp h
  obtain ⟨rfl, rfl⟩ := Prod.mk.inj (Except.ok.inj h)
  obtain ⟨hresets, hallocates⟩ := allocFrom_cases hfrom
  exact ⟨hresets.tried blocks, hallocates.mono fun i block pInfo h => h.of_blockList blocks⟩

theorem Attempt.after {plan₁ plan₂ : AllocPlan} (h : Attempt plan₁ place ret plan₂)
    (htried : Tried plan plan₁) (hblocks : plan₁.blockList = plan.blockList) :
    Attempt plan place ret plan₂ :=
  ⟨htried.trans h.tried, hblocks ▸ h.allocates⟩

theorem attempt_false (htried : Tried plan plan') (hblocks : plan'.blockList = plan.blockList) :
    Attempt plan place false plan' := by
  refine ⟨htried, ?_⟩
  rw [hblocks]
  generalize plan.blockList = blocks, 0 = i
  induction blocks generalizing i with
  | nil => exact .nil i
  | cons block blocks ih => exact .skip (ih _)

theorem tried_look (plan : AllocPlan) (place : AllocPlace) :
    Tried plan (plan.look place) ∧ (plan.look place).blockList = plan.blockList := by
  unfold look
  split
  · exact ⟨⟨rfl, List.subset_cons_self _ _⟩, rfl⟩
  · exact ⟨.refl plan, rfl⟩

theorem tried_lookDur (plan : AllocPlan) (place : AllocPlace) (front : Intensity) :
    Tried plan (plan.lookDur place front) ∧
      (plan.lookDur place front).blockList = plan.blockList := by
  unfold lookDur
  split
  · exact ⟨⟨rfl, List.Subset.refl _⟩, rfl⟩
  · exact ⟨.refl plan, rfl⟩

theorem attempt_tryLook (h : plan.tryLook fuel tmp place = .ok (ret, plan')) :
    Attempt plan place ret plan' := by
  obtain ⟨htried, hblocks⟩ := tried_look plan place
  unfold tryLook at h
  dsimp only at h
  split at h
  · split at h
    · simp at h
    · rename_i front _ _
      split at h
      · obtain ⟨htried', hblocks'⟩ := tried_lookDur (plan.look place) place front
        exact (attempt_isAllocable h).after (htried.trans htried') (hblocks'.trans hblocks)
      · obtain ⟨rfl, rfl⟩ := Prod.mk.inj (Except.ok.inj h)
        exact attempt_false htried hblocks
  · obtain ⟨rfl, rfl⟩ := Prod.mk.inj (Except.ok.inj h)
    exact attempt_false htried hblocks

theorem attempt_tryAlloc (h : plan.tryAlloc fuel tmp place = .ok (ret, plan')) :
    Attempt plan place ret plan' := by
  obtain ⟨⟨first, plan₁⟩, hfirst, h⟩ := bind_ok.mp h
  have hfirst := attempt_isAllocable hfirst
  dsimp only at h
  split at h
  · obtain ⟨rfl, rfl⟩ := Prod.mk.inj (Except.ok.inj h)
    exact hfirst
  · rename_i hnot
    obtain rfl : first = false := by simpa using fun htrue => hnot (.inl htrue)
    obtain ⟨⟨second, plan₂⟩, hsecond, h⟩ := bind_ok.mp h
    have hsecond := (attempt_tryLook hsecond).after hfirst.tried hfirst.allocates.eq_of_false
    dsimp only at h
    split at h
    · rename_i htrue
      obtain rfl : second = true := htrue
      obtain ⟨rfl, rfl⟩ := Prod.mk.inj (Except.ok.inj h)
      exact hsecond
    · rename_i hnot
      obtain rfl : second = false := by simpa using hnot
      exact (attempt_isAllocable h).after hsecond.tried hsecond.allocates.eq_of_false

/-! ## The rounds -/

variable {plan₀ : AllocPlan} {s s' : PlaceInfoAlloc × AllocPlan}

theorem settle_plan (plan : AllocPlan) (place : AllocPlace) (alloc : PlaceInfoAlloc) (ret : Bool) :
    (plan.settle place alloc ret).2 = { plan with
      durSMap := (place.ID, plan.getDurS place.toVarPlace) :: plan.durSMap
      failSet := if ret then plan.failSet else place.ID :: plan.failSet } := by
  cases ret with
  | false => rfl
  | true =>
    unfold settle
    dsimp only
    split_ifs <;> rfl

theorem settle_alloc (plan : AllocPlan) (place : AllocPlace) (alloc : PlaceInfoAlloc) (ret : Bool) :
    (plan.settle place alloc ret).1 = {
      allocable_place_set :=
        if ret then place.ID :: alloc.allocable_place_set else alloc.allocable_place_set
      unallocable_place_set :=
        if ret then alloc.unallocable_place_set else place.ID :: alloc.unallocable_place_set
      allocated_rest_cnt := alloc.allocated_rest_cnt +
        if ret ∧ plan.isRestaurant place then 1 else 0
      allocated_shop_cnt := alloc.allocated_shop_cnt +
        if ret ∧ ¬plan.isRestaurant place ∧ place.t &&& LY_PLACE_TYPE_SHOP ≠ 0 then 1 else 0 } := by
  have hrest : ({ plan with durSMap := (place.ID, plan.getDurS place.toVarPlace) :: plan.durSMap } :
      AllocPlan).isRestaurant place = plan.isRestaurant place := rfl
  unfold settle
  dsimp only
  cases ret with
  | false => simp
  | true =>
    rw [hrest]
    split_ifs <;> simp_all

theorem frame_settle (plan : AllocPlan) (place : AllocPlace) (alloc : PlaceInfoAlloc) (ret : Bool) :
    Frame plan (plan.settle place alloc ret).2 := by
  rw [settle_plan]
  refine ⟨rfl, List.Subset.refl _, fun id durS hid => ?_⟩
  dsimp only
  rw [lookup_cons_ite]
  split_ifs with heq
  · subst heq
    simp only [DurPlan.getDurS, hid]
  · exact hid

theorem getZipDur_settle (plan : AllocPlan) (place : AllocPlace) (alloc : PlaceInfoAlloc)
    (ret : Bool) : (plan.settle place alloc ret).2.getZipDur place.toVarPlace =
      plan.getZipDur place.toVarPlace := by
  rw [settle_plan]
  simp only [InfoPlan.getZipDur, DurPlan.getDurS, List.lookup_cons_self]

theorem allocPlace_cases (h : allocPlace fuel tmp s place = .ok s') :
    s.2.Skips place s.1 ∧ s' = s ∨
      ¬s.2.Skips place s.1 ∧ ∃ ret plan, Attempt s.2 place ret plan ∧
        s' = plan.settle place s.1 ret := by
  unfold allocPlace at h
  split at h
  · rename_i hskips
    exact .inl ⟨hskips, (Except.ok.inj h).symm⟩
  · rename_i hskips
    obtain ⟨⟨ret, plan⟩, htry, h⟩ := bind_ok.mp h
    exact .inr ⟨hskips, ret, plan, attempt_tryAlloc htry, (Except.ok.inj h).symm⟩

/-- What the rounds of `Alloc` keep. -/
structure Inv (plan₀ : AllocPlan) (s : PlaceInfoAlloc × AllocPlan) : Prop where
  frame : Frame plan₀ s.2
  filled : List.Forall₂ AllocBlock.Filled plan₀.blockList s.2.blockList
  windows : ∀ i block, s.2.blockList[i]? = some block → ∀ pInfo ∈ block.pInfoList,
    ∃ place ∈ plan₀.waitPlaceList, place.ID ∈ s.1.allocable_place_set ∧
      (s.2.durSMap.lookup place.ID).isSome ∧ Windows s.2 place i block pInfo
  known : ∀ id ∈ s.1.allocable_place_set, ∃ block ∈ s.2.blockList, (block.getPlaceInfo id).isSome
  failed : s.1.unallocable_place_set ⊆ s.2.failSet

theorem Inv.getPlaceInfo_eq_none (h : Inv plan₀ s) (hid : place.ID ∉ s.1.allocable_place_set)
    (hblock : block ∈ s.2.blockList) : block.getPlaceInfo place.ID = none := by
  rw [Option.eq_none_iff_forall_ne_some]
  intro pInfo hsome
  obtain ⟨i, hi⟩ := List.mem_iff_getElem?.mp hblock
  obtain ⟨block₀, -, hfilled⟩ := forall₂_mem_right h.filled hblock
  obtain ⟨hmem, hvPlace⟩ := (hfilled.getPlaceInfo _ _).mp hsome
  obtain ⟨place', -, hplace', -, hwindows⟩ := h.windows i block hi pInfo hmem
  rw [← hwindows.vPlace, hvPlace] at hplace'
  exact hid hplace'

theorem Windows.push {id : String} {pInfo' : VarPlaceInfo} (h : Windows plan place i block pInfo) :
    Windows plan place i (block.push id pInfo') pInfo :=
  ⟨h.vPlace, h.availDur, h.play, h.date, h.ne_nil, h.subset, h.null, h.fits⟩

/-- A place that is entered, or that is entered no more. -/
theorem Inv.settle {ret : Bool} (h : Inv plan₀ s) (hplace : place ∈ plan₀.waitPlaceList)
    (hid : place.ID ∉ s.1.allocable_place_set) (hattempt : Attempt s.2 place ret plan) :
    Inv plan₀ (plan.settle place s.1 ret) := by
  have hframe := hattempt.tried.frame.trans (frame_settle plan place s.1 ret)
  have hblockList : (plan.settle place s.1 ret).2.blockList = plan.blockList := by
    rw [settle_plan]
  refine ⟨h.frame.trans hframe, ?_, fun i block hblock pInfo hpInfo => ?_, ?_, ?_⟩
  · rw [hblockList]
    exact hattempt.allocates.filled h.filled fun block => h.getPlaceInfo_eq_none hid
  · have hset : s.1.allocable_place_set ⊆ (plan.settle place s.1 ret).1.allocable_place_set := by
      rw [settle_alloc]
      cases ret
      · exact List.Subset.refl _
      · exact List.subset_cons_self _ _
    have hold : ∀ block', s.2.blockList[i]? = some block' → pInfo ∈ block'.pInfoList →
        ∃ place' ∈ plan₀.waitPlaceList,
          place'.ID ∈ (plan.settle place s.1 ret).1.allocable_place_set ∧
          ((plan.settle place s.1 ret).2.durSMap.lookup place'.ID).isSome ∧
          Windows (plan.settle place s.1 ret).2 place' i block' pInfo := by
      intro block' hblock' hpInfo'
      obtain ⟨place', hplace', hmem, hdur, hwindows⟩ := h.windows i block' hblock' pInfo hpInfo'
      refine ⟨place', hplace', hset hmem, ?_, hwindows.of_frame hframe (hframe.getZipDur hdur)⟩
      obtain ⟨durS, hdur⟩ := Option.isSome_iff_exists.mp hdur
      exact Option.isSome_iff_exists.mpr ⟨durS, hframe.durSMap _ _ hdur⟩
    rw [hblockList] at hblock
    obtain ⟨block', hblock', rfl | ⟨rfl, pInfo', rfl, hwindows⟩⟩ :=
      hattempt.allocates.getElem? hblock
    · exact hold _ hblock' hpInfo
    · rcases List.mem_append.mp hpInfo with hpInfo | hpInfo
      · obtain ⟨place', hplace', hmem, hdur, hwindows'⟩ := hold _ hblock' hpInfo
        exact ⟨place', hplace', hmem, hdur, hwindows'.push⟩
      · obtain rfl := List.mem_singleton.mp hpInfo
        rw [Nat.zero_add] at hwindows
        refine ⟨place, hplace, ?_, ?_, (hwindows.of_frame (frame_settle plan place s.1 true)
          (getZipDur_settle plan place s.1 true)).push⟩
        · rw [settle_alloc]
          exact List.mem_cons_self
        · rw [settle_plan]
          simp only [List.lookup_cons_self, Option.isSome_some]
  · rw [hblockList, settle_alloc]
    have hold : ∀ id ∈ s.1.allocable_place_set,
        ∃ block ∈ plan.blockList, (block.getPlaceInfo id).isSome := by
      intro id hmem
      obtain ⟨block, hblock, hsome⟩ := h.known id hmem
      rcases hattempt.allocates.exists_block hblock with hblock | ⟨pInfo, hblock⟩
      · exact ⟨block, hblock, hsome⟩
      · refine ⟨_, hblock, ?_⟩
        rw [AllocBlock.getPlaceInfo_push]
        split_ifs
        · rfl
        · exact hsome
    cases ret with
    | false => exact hold
    | true =>
      intro id hmem
      rcases List.mem_cons.mp hmem with rfl | hmem
      · obtain ⟨block, pInfo, hblock⟩ := hattempt.allocates.exists_push
        refine ⟨_, hblock, ?_⟩
        rw [AllocBlock.getPlaceInfo_push, if_pos rfl]
        rfl
      · exact hold id hmem
  · rw [settle_alloc, settle_plan, hattempt.tried.failSet]
    cases ret with
    | false => exact List.cons_subset_cons _ h.failed
    | true => exact h.failed

theorem Inv.allocPlace (h : Inv plan₀ s) (hplace : place ∈ plan₀.waitPlaceList)
    (hs' : allocPlace fuel tmp s place = .ok s') : Inv plan₀ s' := by
  rcases allocPlace_cases hs' with ⟨-, rfl⟩ | ⟨hskips, ret, plan, hattempt, rfl⟩
  · exact h
  · exact h.settle hplace (fun hmem => hskips (.inl hmem)) hattempt

theorem Inv.alloc (h : Inv plan₀ s) (hs' : alloc fuel tmp s = .ok s') : Inv plan₀ s' := by
  unfold AllocPlan.alloc at hs'
  rw [h.frame.waitPlaceList] at hs'
  exact foldlM_keeps_mem (fun s place hplace s' hs h => hs.allocPlace hplace h) h hs'

theorem inv_clearNode (plan : AllocPlan) :
    Inv plan ({}, { plan with blockList := plan.blockList.map AllocBlock.clearNode }) := by
  refine ⟨⟨rfl, List.Subset.refl _, fun _ _ => id⟩, ?_, fun i block hblock pInfo hpInfo => ?_,
    by simp, List.nil_subset _⟩
  · rw [List.forall₂_map_right_iff, List.forall₂_same]
    exact fun block _ => AllocBlock.filled_clearNode block
  · rw [List.getElem?_map, Option.map_eq_some_iff] at hblock
    obtain ⟨block', -, rfl⟩ := hblock
    simp [AllocBlock.clearNode] at hpInfo

/-! ## The places that are thrown out -/

theorem skips_settle {ret : Bool} (hframe : Frame s.2 (plan.settle place s.1 ret).2)
    (place' : AllocPlace) (h : s.2.Skips place' s.1 ∨ place'.ID = place.ID) :
    (plan.settle place s.1 ret).2.Skips place' (plan.settle place s.1 ret).1 := by
  unfold Skips at h ⊢
  rw [hframe.isRestaurant, hframe.restNeedNum, hframe.shopNeedNum, settle_alloc]
  dsimp only
  cases ret with
  | false => grind
  | true => grind

/-- A further round passes over every place. -/
theorem skips_alloc (hs' : alloc fuel tmp s = .ok s') :
    ∀ place ∈ s.2.waitPlaceList, s'.2.Skips place s'.1 := by
  refine foldlM_reaches (P := fun place s => s.2.Skips place s.1) (fun s place s' h => ?_)
    (fun s place s' place' h hskips => ?_) hs'
  · rcases allocPlace_cases h with ⟨hskips, rfl⟩ | ⟨-, ret, plan, hattempt, rfl⟩
    · exact hskips
    · exact skips_settle (hattempt.tried.frame.trans (frame_settle _ _ _ _)) place (.inr rfl)
  · rcases allocPlace_cases h with ⟨-, rfl⟩ | ⟨-, ret, plan, hattempt, rfl⟩
    · exact hskips
    · exact skips_settle (hattempt.tried.frame.trans (frame_settle _ _ _ _)) place' (.inl hskips)

end AllocPlan

end PPView
