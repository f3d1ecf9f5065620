import Mathlib.Algebra.Order.BigOperators.Group.List
import PPView.Bag.DFSBest
import PPView.Bag.DFSWorker

/-!
# Merging does not depend on the schedule

Each thread keeps the best of the paths that its own jobs have joined, and `MergeDFS` keeps the best
of these. What one thread drops is not among the best of all (`BestSet.kBest_mono`), so the merged
heaps hold the best of the joined paths of all jobs, whatever thread did which job and when
(`mergeDFS_best`).
-/

namespace PPView

open BestSet SPathHeap

/-! ## The paths that the program makes -/

/-- What is built with the members of `SPath`: `AddMissLevel` has no caller, and `SetMissLevel` only
passes on the level of another path. -/
inductive SPath.Built (plan : BagPlan) : SPath → Prop where
  | init : Built plan (SPath.init plan)
  | pushV {p : SPath} (h : Built plan p) (bPos vPos : Nat) : Built plan (p.pushV bPos vPos)
  | setHot {p : SPath} (h : Built plan p) (hot : Int) : Built plan (p.setHot hot)
  | setDist {p : SPath} (h : Built plan p) (dist : Int) : Built plan (p.setDist dist)
  | setCross {p : SPath} (h : Built plan p) (cross : Int) : Built plan (p.setCross cross)
  | setClash {p : SPath} (h : Built plan p) (clash : Int) : Built plan (p.setClash clash)
  | setFirstL {p : SPath} (h : Built plan p) (firstL : Int) : Built plan (p.setFirstL firstL)
  | setScore {p : SPath} (h : Built plan p) (score : ℚ) : Built plan (p.setScore score)
  | setMissLevel {p q : SPath} (hp : Built plan p) (hq : Built plan q) :
    Built plan (p.setMissLevel q.missLevel)
  | setHash {p : SPath} (h : Built plan p) (hash hashPointSet hashFrom : UInt32) :
    Built plan { p with hash := hash, hashPointSet := hashPointSet, hashFrom := hashFrom }

theorem SPath.Built.missLevel {plan : BagPlan} {p : SPath} (h : p.Built plan) :
    p.missLevel = 0 := by
  induction h with
  | init => rfl
  | pushV _ bPos vPos ih => rw [SPath.missLevel_pushV, ih]
  | setMissLevel _ _ _ ih => exact ih
  | setHot _ _ ih | setDist _ _ ih | setCross _ _ ih | setClash _ _ ih | setFirstL _ _ ih
  | setScore _ _ ih | setHash _ _ _ _ ih => exact ih

theorem SPath.Built.nodeNum {plan : BagPlan} {p : SPath} (h : p.Built plan) :
    p.nodeNum = plan.nodeNum := by
  induction h with
  | init => rfl
  | pushV _ bPos vPos ih =>
    unfold SPath.pushV
    split_ifs
    all_goals exact ih
  | setHot _ _ ih | setDist _ _ ih | setCross _ _ ih | setClash _ _ ih | setFirstL _ _ ih
  | setScore _ _ ih | setMissLevel _ _ ih | setHash _ _ _ _ ih => exact ih

namespace DFSWorker

variable {param : BagParam} {timeOut : Nat → Nat → Bool} {plan : BagPlan} {richPath : SPath}

/-! ## The joined paths -/

/-- One element of each list, in the order of nested loops. -/
def choices {α : Type} : List (List α) → List (List α)
  | [] => [[]]
  | l :: ls => l.flatMap fun x => (choices ls).map (x :: ·)

theorem mem_choices {α : Type} {ls : List (List α)} {xs : List α} :
    xs ∈ choices ls ↔ List.Forall₂ (· ∈ ·) xs ls := by
  induction ls generalizing xs with
  | nil => simp [choices]
  | cons l ls ih =>
    simp only [choices, List.mem_flatMap, List.mem_map, ih]
    constructor
    · rintro ⟨x, hx, xs, hxs, rfl⟩
      exact .cons hx hxs
    · rintro (_ | ⟨hx, hxs⟩)
      exact ⟨_, hx, _, hxs, rfl⟩

theorem forall_of_mem_choices {α : Type} {P : α → Prop} {ls : List (List α)} {xs : List α}
    (h : xs ∈ choices ls) (hP : ∀ l ∈ ls, ∀ x ∈ l, P x) : ∀ x ∈ xs, P x := by
  rw [mem_choices] at h
  induction h with
  | nil => simp
  | cons hx _ ih =>
    obtain ⟨hl, hP⟩ := List.forall_mem_cons.mp hP
    exact List.forall_mem_cons.mpr ⟨hl _ hx, ih hP⟩

/-- The paths that `DoSearch` finds for a day. -/
def dayPaths (param : BagParam) (timeOut : Nat → Nat → Bool) (plan : BagPlan) (richPath : SPath)
    (blockIdx : Nat) : List SPath :=
  match DFS.doSearch param (timeOut blockIdx) plan richPath blockIdx with
  | .ok (_, paths) => paths
  | .error _ => []

/-- The joined paths of a rich path. -/
def joinedPaths (param : BagParam) (timeOut : Nat → Nat → Bool) (plan : BagPlan)
    (richPath : SPath) : List SPath :=
  (choices ((List.range plan.blockNum).map (dayPaths param timeOut plan richPath))).map
    (joinPath plan richPath)

@[simp] theorem missLevel_joinPath (tmpList : List SPath) :
    (joinPath plan richPath tmpList).missLevel = richPath.missLevel := by
  simp only [joinPath, SPath.calHashPointSet]
  split_ifs <;> simp [SPath.setHashFrom, SPath.setMissLevel]

@[simp] theorem clash_joinPath (tmpList : List SPath) :
    (joinPath plan richPath tmpList).clash = (tmpList.map SPath.clash).sum := by
  simp only [joinPath, SPath.calHashPointSet]
  split_ifs <;>
    simp [SPath.setHashFrom, SPath.setMissLevel, SPath.setScore, SPath.setFirstL, SPath.setClash]

@[simp] theorem score_joinPath (tmpList : List SPath) :
    (joinPath plan richPath tmpList).score = totScore tmpList := by
  simp only [joinPath, SPath.calHashPointSet]
  split_ifs <;> simp [SPath.setHashFrom, SPath.setMissLevel, SPath.setScore]

theorem totScore_int {tmpList : List SPath} (h : ∀ p ∈ tmpList, p.IntScore) :
    ∃ n : ℤ, totScore tmpList = n := by
  induction tmpList with
  | nil => exact ⟨0, by simp [totScore]⟩
  | cons p tmpList ih =>
    obtain ⟨⟨m, hm⟩, h⟩ := List.forall_mem_cons.mp h
    obtain ⟨n, hn⟩ := ih h
    refine ⟨m + n, ?_⟩
    rw [totScore, List.map_cons, List.sum_cons, hm, ← totScore, hn]
    push_cast
    rfl

/-- Joining paths of the days gives a path like theirs, with the level of the rich path. -/
theorem found_joinPath (hrich : richPath.Built plan) {tmpList : List SPath}
    (h : ∀ p ∈ tmpList, Walk.Found p) : Walk.Found (joinPath plan richPath tmpList) where
  missLevel := by rw [missLevel_joinPath, hrich.missLevel]
  clash := by
    rw [clash_joinPath]
    refine List.sum_nonneg fun c hc => ?_
    obtain ⟨p, hp, rfl⟩ := List.mem_map.mp hc
    exact (h p hp).clash
  int := by
    rw [SPath.IntScore, score_joinPath]
    exact totScore_int fun p hp => (h p hp).int

/-- The heap takes every joined path into account, pruned or not. -/
theorem joinDayPath_eq (hrich : richPath.Built plan) {daySPList : List (List SPath)}
    (hday : ∀ l ∈ daySPList, ∀ p ∈ l, Walk.Found p) {tmpList : List SPath}
    (htmp : ∀ p ∈ tmpList, Walk.Found p) {heap : SPathHeap} (hint : DFS.HeapInt heap) :
    joinDayPath param plan richPath daySPList tmpList heap =
      heap.pushAll ((choices daySPList).map fun l => joinPath plan richPath (tmpList ++ l)) := by
  induction daySPList generalizing tmpList heap with
  | nil =>
    have hfound := found_joinPath hrich htmp
    rw [joinDayPath]
    simp only [choices, List.map_cons, List.append_nil, List.map_nil, pushAll, List.foldl_cons,
      List.foldl_nil]
    split_ifs with hcan
    · simp only [Bool.and_eq_true, Bool.not_eq_true'] at hcan
      exact (push_of_not_canPush hint hfound.int hcan.2 hfound.missLevel.ge hfound.clash
        (score_joinPath _).le).symm
    · rfl
  | cons l daySPList ih =>
    obtain ⟨hl, hday⟩ := List.forall_mem_cons.mp hday
    rw [joinDayPath]
    -- the loop over the paths of the day
    clear * - ih hl hday htmp hint hrich
    induction l generalizing heap with
    | nil => rfl
    | cons p l ihl =>
      obtain ⟨hp, hl⟩ := List.forall_mem_cons.mp hl
      have htmp' : ∀ q ∈ tmpList ++ [p], Walk.Found q := fun q hq => by
        rcases List.mem_append.mp hq with hq | hq
        · exact htmp q hq
        · exact List.mem_singleton.mp hq ▸ hp
      have hstep := ih hday htmp' hint
      have hint' : DFS.HeapInt (joinDayPath param plan richPath daySPList
        (tmpList ++ [p]) heap) := by
        rw [hstep]
        refine DFS.heapInt_pushAll hint fun q hq => ?_
        obtain ⟨xs, hxs, rfl⟩ := List.mem_map.mp hq
        refine found_joinPath hrich fun r hr => ?_
        rcases List.mem_append.mp hr with hr | hr
        · exact htmp' r hr
        · exact forall_of_mem_choices hxs hday r hr
      rw [List.foldl_cons, ihl hint' hl, hstep, ← DFS.pushAll_append]
      simp [choices, List.map_append, Function.comp_def]

/-! ## What a job adds -/

theorem mapM_eq_ok {α β : Type} {f : α → Res β} {g : α → β} {l : List α}
    (h : ∀ x ∈ l, f x = .ok (g x)) : l.mapM f = .ok (l.map g) := by
  induction l with
  | nil => rfl
  | cons x l ih =>
    obtain ⟨hx, hl⟩ := List.forall_mem_cons.mp h
    rw [List.mapM_cons, hx, ih hl]
    rfl

theorem dayPaths_found (param : BagParam) (plan : BagPlan) (richPath : SPath)
    (hto : ∀ b n, timeOut b n = false) (blockIdx : Nat) :
    ∃ ret, DFS.doSearch param (timeOut blockIdx) plan richPath blockIdx =
        .ok (ret, dayPaths param timeOut plan richPath blockIdx) ∧
      ∀ p ∈ dayPaths param timeOut plan richPath blockIdx, Walk.Found p := by
  obtain ⟨ret, paths, hsearch, hfound⟩ := DFS.doSearch_found (hto blockIdx) richPath blockIdx
  have hpaths : dayPaths param timeOut plan richPath blockIdx = paths := by rw [dayPaths, hsearch]
  exact ⟨ret, hpaths ▸ hsearch, hpaths ▸ hfound⟩

theorem found_joinedPaths (hto : ∀ b n, timeOut b n = false) (hrich : richPath.Built plan) :
    ∀ p ∈ joinedPaths param timeOut plan richPath, Walk.Found p := by
  intro p hp
  obtain ⟨xs, hxs, rfl⟩ := List.mem_map.mp hp
  refine found_joinPath hrich (forall_of_mem_choices hxs fun l hl => ?_)
  obtain ⟨blockIdx, -, rfl⟩ := List.mem_map.mp hl
  exact (dayPaths_found param plan richPath hto blockIdx).choose_spec.2

theorem mem_choices_congr {α : Type} {f g : Nat → List α} (h : ∀ b x, x ∈ f b ↔ x ∈ g b)
    (l : List Nat) (xs : List α) : xs ∈ choices (l.map f) ↔ xs ∈ choices (l.map g) := by
  simp only [mem_choices, List.forall₂_map_right_iff, h]

/-- A job pushes its joined paths into the heap of its point set, in some order. -/
theorem doWork_spec (hrich : richPath.Built plan) {timer : Timer} (hto : timer = .never)
    {copyVal : Nat → List SPath → List SPath} (hcopy : ∀ b l, (copyVal b l).Perm l)
    {tmPool : ThreadMemPool}
    (hint : DFS.HeapInt (getDFSHeap param tmPool.dfsHeapMap richPath.hashPointSet)) :
    ∃ ps, (∀ p, p ∈ ps ↔ p ∈ joinedPaths param Timer.never.search plan richPath) ∧
      doWork param plan timer richPath copyVal tmPool = .ok { tmPool with
        dfsHeapMap := tmPool.dfsHeapMap.insert richPath.hashPointSet
          ((getDFSHeap param tmPool.dfsHeapMap richPath.hashPointSet).pushAll ps) } := by
  subst hto
  have hnever : ∀ b n, Timer.never.search b n = false := fun _ _ => rfl
  let days := fun b => copyVal b (dayPaths param Timer.never.search plan richPath b)
  have hdays : (List.range plan.blockNum).mapM (fun b =>
      (fun r => copyVal b r.2) <$> DFS.doSearch param (Timer.never.search b) plan richPath b) =
        .ok ((List.range plan.blockNum).map days) := by
    refine mapM_eq_ok fun b _ => ?_
    obtain ⟨ret, hret, -⟩ := dayPaths_found param plan richPath hnever b
    rw [hret]
    rfl
  have hfound : ∀ l ∈ (List.range plan.blockNum).map days, ∀ p ∈ l, Walk.Found p := by
    intro l hl p hp
    obtain ⟨b, -, rfl⟩ := List.mem_map.mp hl
    exact (dayPaths_found param plan richPath hnever b).choose_spec.2 p ((hcopy b _).mem_iff.mp hp)
  refine ⟨(choices ((List.range plan.blockNum).map days)).map (joinPath plan richPath),
    fun p => ?_, ?_⟩
  · simp only [joinedPaths, List.mem_map, days, mem_choices_congr fun b x =>
      (hcopy b (dayPaths param Timer.never.search plan richPath b)).mem_iff]
  · have hjoin : joinDayPath param plan richPath ((List.range plan.blockNum).map days) []
        (getDFSHeap param tmPool.dfsHeapMap richPath.hashPointSet) = _ :=
      joinDayPath_eq hrich hfound (by simp) hint
    simp only [List.nil_append] at hjoin
    rw [doWork, if_neg (by simp [Timer.never]), hdays, ← hjoin]
    rfl

/-! ## The pools -/

variable {τ : Type} [DecidableEq τ]

/-- The joined paths of the rich paths with the given hash of their point set, when the timer does
not run out. -/
def allJoined (param : BagParam) (plan : BagPlan) (richList : List SPath) (hash : UInt32) :
    List SPath :=
  (richList.filter fun richPath => richPath.hashPointSet = hash).flatMap
    (joinedPaths param Timer.never.search plan)

theorem mem_allJoined {richList : List SPath} {hash : UInt32} {p : SPath} :
    p ∈ allJoined param plan richList hash ↔ ∃ richPath ∈ richList,
      richPath.hashPointSet = hash ∧ p ∈ joinedPaths param Timer.never.search plan richPath := by
  simp [allJoined, and_assoc]

theorem allJoined_mono {richList richList' : List SPath} (h : richList ⊆ richList')
    (hash : UInt32) :
    allJoined param plan richList hash ⊆ allJoined param plan richList' hash :=
  fun p hp => by
    obtain ⟨richPath, hrich, hp⟩ := mem_allJoined.mp hp
    exact mem_allJoined.mpr ⟨richPath, h hrich, hp⟩

/-- The rich paths of the jobs of a thread. -/
def richOf (jobs : List (Job τ)) (thread : τ) : List SPath :=
  (jobs.filter fun job => job.thread = thread).map Job.richPath

/-- Equal hashes stand for paths that `SPathCmp` does not tell apart. -/
def Consistent (ps : List SPath) : Prop :=
  ∀ p ∈ ps, ∀ q ∈ ps, p.hash = q.hash →
    p.missLevel = q.missLevel ∧ p.clash = q.clash ∧ p.score = q.score

theorem Consistent.key {ps : List SPath} (h : Consistent ps) {p q : SPath} (hp : p ∈ ps)
    (hq : q ∈ ps) (hpq : p.hash = q.hash) : p.key = q.key := by
  obtain ⟨hmiss, hclash, hscore⟩ := h p hp q hq hpq
  exact SPath.key_inj.mpr ⟨hmiss, hclash, hscore, hpq⟩

theorem Consistent.mono {ps qs : List SPath} (h : Consistent ps) (hsub : qs ⊆ ps) :
    Consistent qs := fun p hp q hq => h p (hsub hp) q (hsub hq)

theorem richOf_subset (jobs : List (Job τ)) (thread : τ) :
    richOf jobs thread ⊆ jobs.map Job.richPath :=
  List.map_subset _ List.filter_sublist.subset

/-- The heaps of every thread hold the best paths that its jobs have joined. -/
def PoolsHold (param : BagParam) (plan : BagPlan) (jobs : List (Job τ))
    (pools : τ → ThreadMemPool) : Prop :=
  ∀ thread hash,
    Holds (allJoined param plan (richOf jobs thread) hash).toFinset
      (getDFSHeap param (pools thread).dfsHeapMap hash) ∧
    (getDFSHeap param (pools thread).dfsHeapMap hash).topK = param.dfsSPSHashHeapLimit

theorem poolsHold_nil : PoolsHold param plan [] fun _ : τ => {} := fun _ _ =>
  ⟨holds_nil _ _, rfl⟩

/-- One job adds its joined paths to one heap of its thread. -/
theorem PoolsHold.step {jobs : List (Job τ)} {pools : τ → ThreadMemPool}
    (h : PoolsHold param plan jobs pools) {job : Job τ} (hto : job.timer = .never)
    (hbuilt : ∀ job' ∈ jobs ++ [job], job'.richPath.Built plan)
    (hcopy : ∀ b l, (job.copyVal b l).Perm l)
    (hhash : ∀ hash, Consistent
      (allJoined param plan ((jobs ++ [job]).map Job.richPath) hash)) :
    ∃ tmPool, doWork param plan job.timer job.richPath job.copyVal (pools job.thread) = .ok tmPool ∧
      PoolsHold param plan (jobs ++ [job])
        (Function.update pools job.thread tmPool) := by
  have hsub : ∀ thread hash, ∀ p ∈ allJoined param plan
    (richOf (jobs ++ [job]) thread) hash,
      p ∈ allJoined param plan ((jobs ++ [job]).map Job.richPath) hash :=
    fun thread hash p hp => allJoined_mono (richOf_subset _ _) hash hp
  have hfound : ∀ hash, ∀ p ∈ allJoined param plan ((jobs ++ [job]).map Job.richPath) hash,
      Walk.Found p := by
    intro hash p hp
    obtain ⟨richPath, hrich, -, hp⟩ := mem_allJoined.mp hp
    obtain ⟨job', hjob', rfl⟩ := List.mem_map.mp hrich
    exact found_joinedPaths (fun _ _ => rfl) (hbuilt job' hjob') p hp
  have hsame : richOf (jobs ++ [job]) job.thread = richOf jobs job.thread ++ [job.richPath] := by
    simp [richOf]
  obtain ⟨hholds, htopK⟩ := h job.thread job.richPath.hashPointSet
  have hseen : ∀ q ∈ allJoined param plan (richOf jobs job.thread)
      job.richPath.hashPointSet, q ∈ allJoined param plan (richOf (jobs ++ [job])
        job.thread) job.richPath.hashPointSet :=
    fun q hq => allJoined_mono (hsame ▸ List.subset_append_left _ _) _ hq
  obtain ⟨ps, hps, hwork⟩ := doWork_spec (hbuilt job (by simp)) hto hcopy fun q hq =>
    (hfound _ q (hsub _ _ q (hseen q (List.mem_toFinset.mp (hholds.subset q hq))))).int
  refine ⟨_, hwork, fun thread hash => ?_⟩
  by_cases hthread : thread = job.thread
  · subst hthread
    rw [Function.update_self]
    by_cases hpoint : hash = job.richPath.hashPointSet
    · -- the heap of the job
      subst hpoint
      have hall : (allJoined param plan (richOf jobs job.thread)
          job.richPath.hashPointSet).toFinset ∪ ps.toFinset =
          (allJoined param plan (richOf (jobs ++ [job]) job.thread)
            job.richPath.hashPointSet).toFinset := by
        ext p
        simp [hsame, mem_allJoined, hps, or_and_right, exists_or]
      have hmem : ∀ q ∈ (allJoined param plan (richOf jobs job.thread)
          job.richPath.hashPointSet).toFinset ∪ ps.toFinset,
          q ∈ allJoined param plan ((jobs ++ [job]).map Job.richPath)
            job.richPath.hashPointSet := fun q hq =>
        hsub job.thread _ q (List.mem_toFinset.mp (hall ▸ hq))
      rw [getDFSHeap, AList.lookup_insert, Option.getD_some, ← hall]
      refine ⟨hholds.foldl ps (fun q hq => (hfound _ q (hmem q hq)).int)
        fun q hq p hp hqp => ?_, ?_⟩
      · exact (hhash _).key (hmem q hq) (hmem p (Finset.mem_union_right _ (by simpa using hp))) hqp
      · rw [pushAll, topK_foldl_push]
        exact htopK
    · have hall : allJoined param plan (richOf (jobs ++ [job]) job.thread) hash =
          allJoined param plan (richOf jobs job.thread) hash := by
        simp [hsame, allJoined, Ne.symm hpoint]
      rw [getDFSHeap, AList.lookup_insert_ne hpoint, hall]
      exact h job.thread hash
  · rw [Function.update_of_ne hthread]
    have hother : richOf (jobs ++ [job]) thread = richOf jobs thread := by
      simp [richOf, Ne.symm hthread]
    rw [hother]
    exact h thread hash

theorem runJobs_spec {done jobs : List (Job τ)} {pools : τ → ThreadMemPool}
    (hto : ∀ job ∈ jobs, job.timer = .never) (h : PoolsHold param plan done pools)
    (hbuilt : ∀ job ∈ done ++ jobs, job.richPath.Built plan)
    (hcopy : ∀ job ∈ jobs, ∀ b l, (job.copyVal b l).Perm l)
    (hhash : ∀ hash, Consistent
      (allJoined param plan ((done ++ jobs).map Job.richPath) hash)) :
    ∃ pools', runJobs param plan pools jobs = .ok pools' ∧
      PoolsHold param plan (done ++ jobs) pools' := by
  induction jobs generalizing done pools with
  | nil => exact ⟨pools, rfl, by simpa using h⟩
  | cons job jobs ih =>
    obtain ⟨hjob, hcopy⟩ := List.forall_mem_cons.mp hcopy
    obtain ⟨hnever, hto⟩ := List.forall_mem_cons.mp hto
    have happend : done ++ job :: jobs = done ++ [job] ++ jobs := by simp
    rw [happend] at hbuilt hhash ⊢
    obtain ⟨tmPool, hwork, hstep⟩ := h.step hnever
      (fun job' hjob' => hbuilt job' (List.mem_append_left _ hjob')) hjob fun hash =>
        (hhash hash).mono (allJoined_mono (List.map_subset _ (List.subset_append_left _ _)) hash)
    obtain ⟨pools', hrun, hpools'⟩ := ih hto hstep hbuilt hcopy hhash
    refine ⟨pools', ?_, hpools'⟩
    rw [runJobs, List.foldlM_cons, hwork]
    exact hrun

end DFSWorker

namespace DFSearch

variable {param : BagParam} {plan : BagPlan}

/-- The paths visited under a hash. -/
def visited (visits : List (UInt32 × List SPath)) (hash : UInt32) : List SPath :=
  (visits.filter fun visit => visit.1 = hash).flatMap Prod.snd

theorem mem_visited {visits : List (UInt32 × List SPath)} {hash : UInt32} {p : SPath} :
    p ∈ visited visits hash ↔ ∃ visit ∈ visits, visit.1 = hash ∧ p ∈ visit.2 := by
  simp [visited, and_assoc]

/-- The merged heap of a hash holds the best of the paths visited under it. -/
theorem mergeDFS_holds (param : BagParam) {visits : List (UInt32 × List SPath)}
    (hint : ∀ hash, ∀ p ∈ visited visits hash, p.IntScore)
    (hhash : ∀ hash, DFSWorker.Consistent (visited visits hash)) (hash : UInt32) :
    Holds (visited visits hash).toFinset (getDFSHeap param (mergeDFS param visits) hash) ∧
      (getDFSHeap param (mergeDFS param visits) hash).topK = param.dfsSPSHashHeapLimit := by
  induction visits using List.reverseRecOn generalizing hash with
  | nil => exact ⟨holds_nil _ _, rfl⟩
  | append_singleton visits visit ih =>
    have hsub : ∀ hash, visited visits hash ⊆ visited (visits ++ [visit]) hash :=
      fun hash p hp => by
        obtain ⟨v, hv, hp⟩ := mem_visited.mp hp
        exact mem_visited.mpr ⟨v, List.mem_append_left _ hv, hp⟩
    have hprev := ih (fun hash p hp => hint hash p (hsub hash hp))
      fun hash => (hhash hash).mono (hsub hash)
    rw [mergeDFS, List.foldl_append, ← mergeDFS]
    simp only [List.foldl_cons, List.foldl_nil]
    by_cases hvisit : hash = visit.1
    · subst hvisit
      obtain ⟨hholds, htopK⟩ := hprev visit.1
      have hall : (visited visits visit.1).toFinset ∪ visit.2.toFinset =
          (visited (visits ++ [visit]) visit.1).toFinset := by
        ext p
        simp [visited]
      have hmem : ∀ q ∈ (visited visits visit.1).toFinset ∪ visit.2.toFinset,
          q ∈ visited (visits ++ [visit]) visit.1 := fun q hq => List.mem_toFinset.mp (hall ▸ hq)
      rw [getDFSHeap, AList.lookup_insert, Option.getD_some, ← hall]
      refine ⟨hholds.foldl visit.2 (fun q hq => hint _ q (hmem q hq)) fun q hq p hp hqp => ?_, ?_⟩
      · exact (hhash _).key (hmem q hq) (hmem p (Finset.mem_union_right _ (by simpa using hp))) hqp
      · rw [topK_foldl_push]
        exact htopK
    · have hall : visited (visits ++ [visit]) hash = visited visits hash := by
        simp [visited, Ne.symm hvisit]
      rw [getDFSHeap, AList.lookup_insert_ne hvisit, hall]
      exact hprev hash

/-! ## Any schedule -/

variable {τ : Type} [DecidableEq τ]

/-- The paths that a merge visits are those in the heaps of the threads. -/
theorem mem_visited_iff (param : BagParam) {pools : τ → ThreadMemPool}
    {jobs : List (DFSWorker.Job τ)} {visits : List (UInt32 × List SPath)}
    (h : MergeOrder pools jobs visits) {hash : UInt32} {p : SPath} :
    p ∈ visited visits hash ↔ ∃ job ∈ jobs,
      p ∈ (getDFSHeap param (pools job.thread).dfsHeapMap hash).queue := by
  obtain ⟨entries, hperm, hvisits⟩ := h
  have hentries : p ∈ visited visits hash ↔ ∃ e ∈ entries, e.1 = hash ∧ p ∈ e.2.queue := by
    rw [mem_visited]
    clear hperm
    induction hvisits with
    | nil => simp
    | cons hev _ ih =>
      rw [List.exists_mem_cons_iff, List.exists_mem_cons_iff, ih, hev.1, hev.2.mem_iff]
  rw [hentries]
  constructor
  · rintro ⟨e, he, rfl, hp⟩
    obtain ⟨thread, hthread, he⟩ := List.mem_flatMap.mp (hperm.mem_iff.mp he)
    obtain ⟨job, hjob, rfl⟩ := List.mem_map.mp (List.mem_dedup.mp hthread)
    refine ⟨job, hjob, ?_⟩
    have hlookup : (pools job.thread).dfsHeapMap.lookup e.1 = some e.2 :=
      AList.mem_lookup_iff.mpr he
    rw [getDFSHeap, hlookup]
    exact hp
  · rintro ⟨job, hjob, hp⟩
    rw [getDFSHeap] at hp
    cases hlookup : (pools job.thread).dfsHeapMap.lookup hash with
    | none => simp [hlookup, newDFSHeap] at hp
    | some heap =>
      refine ⟨⟨hash, heap⟩, hperm.mem_iff.mpr (List.mem_flatMap.mpr
        ⟨job.thread, List.mem_dedup.mpr (List.mem_map_of_mem hjob),
        AList.mem_lookup_iff.mp hlookup⟩),
        rfl, by simpa [hlookup] using hp⟩

/-- The merged heaps hold, for each hash of a point set, the best of the joined paths of all rich
paths with that hash, whatever thread did which job, in which order, and however the heaps were
visited. -/
theorem mergeDFS_best (richList : List SPath)
    (hbuilt : ∀ richPath ∈ richList, richPath.Built plan)
    (hhash : ∀ hash, DFSWorker.Consistent (DFSWorker.allJoined param plan richList hash))
    (jobs : List (DFSWorker.Job τ)) (hjobs : (jobs.map DFSWorker.Job.richPath).Perm richList)
    (hto : ∀ job ∈ jobs, job.timer = .never)
    (hcopy : ∀ job ∈ jobs, ∀ b l, (job.copyVal b l).Perm l) :
    ∃ pools, DFSWorker.runJobs param plan (fun _ => {}) jobs = .ok pools ∧
      ∀ visits, MergeOrder pools jobs visits → ∀ hash,
        ((getDFSHeap param (mergeDFS param visits) hash).queue.map SPath.key).toFinset =
          kBest param.dfsSPSHashHeapLimit
            ((DFSWorker.allJoined param plan richList hash).toFinset.image SPath.key) := by
  have hall : ∀ hash, DFSWorker.allJoined param plan
    (jobs.map DFSWorker.Job.richPath) hash ⊆
      DFSWorker.allJoined param plan richList hash := fun hash =>
    DFSWorker.allJoined_mono hjobs.subset hash
  have hbuilt' : ∀ job ∈ jobs, job.richPath.Built plan := fun job hjob =>
    hbuilt _ (hjobs.mem_iff.mp (List.mem_map_of_mem hjob))
  obtain ⟨pools, hrun, hpools⟩ := DFSWorker.runJobs_spec hto
    DFSWorker.poolsHold_nil (by simpa using hbuilt') hcopy
    fun hash => (hhash hash).mono (by simpa using hall hash)
  refine ⟨pools, hrun, fun visits hvisits hash => ?_⟩
  rw [List.nil_append] at hpools
  have hthread : ∀ thread hash, DFSWorker.allJoined param plan
      (DFSWorker.richOf jobs thread) hash ⊆ DFSWorker.allJoined param plan richList hash :=
    fun thread hash => List.Subset.trans
      (DFSWorker.allJoined_mono (DFSWorker.richOf_subset jobs thread) hash) (hall hash)
  have hsub : ∀ hash, visited visits hash ⊆ DFSWorker.allJoined param plan
    richList hash := by
    intro hash p hp
    obtain ⟨job, -, hp⟩ := (mem_visited_iff param hvisits).mp hp
    exact hthread job.thread hash (List.mem_toFinset.mp ((hpools job.thread hash).1.subset p hp))
  have hint : ∀ hash, ∀ p ∈ visited visits hash, p.IntScore := fun hash p hp => by
    obtain ⟨richPath, hrich, -, hp⟩ := DFSWorker.mem_allJoined.mp (hsub hash hp)
    exact (DFSWorker.found_joinedPaths (fun _ _ => rfl) (hbuilt richPath hrich) p hp).int
  obtain ⟨hholds, htopK⟩ := mergeDFS_holds param hint
    (fun hash => (hhash hash).mono (hsub hash)) hash
  rw [hholds.keys, htopK]
  refine kBest_eq_of_subset (fun y hy => ?_) (Finset.image_subset_image fun p hp => ?_)
  · -- one of the best of all is one of the best of its thread
    obtain ⟨p, hp, rfl⟩ := Finset.mem_image.mp (kBest_subset hy)
    obtain ⟨richPath, hrich, hpoint, hp⟩ := DFSWorker.mem_allJoined.mp (List.mem_toFinset.mp hp)
    obtain ⟨job, hjob, rfl⟩ := List.mem_map.mp (hjobs.mem_iff.mpr hrich)
    obtain ⟨hpool, hpoolK⟩ := hpools job.thread hash
    have hmem : p ∈ DFSWorker.allJoined param plan
      (DFSWorker.richOf jobs job.thread) hash :=
      DFSWorker.mem_allJoined.mpr ⟨job.richPath,
        List.mem_map_of_mem (List.mem_filter.mpr ⟨hjob, by simp⟩), hpoint, hp⟩
    have hbest := kBest_mono (Finset.image_subset_image (f := SPath.key) (fun q hq =>
      List.mem_toFinset.mpr (hthread job.thread hash (List.mem_toFinset.mp hq)))) hy
      (Finset.mem_image_of_mem _ (List.mem_toFinset.mpr hmem))
    rw [← hpoolK, ← hpool.keys, List.mem_toFinset] at hbest
    obtain ⟨q, hq, hkey⟩ := List.mem_map.mp hbest
    exact Finset.mem_image.mpr
      ⟨q, List.mem_toFinset.mpr ((mem_visited_iff param hvisits).mpr ⟨job, hjob, hq⟩), hkey⟩
  · exact List.mem_toFinset.mpr (hsub hash (List.mem_toFinset.mp hp))

/-! ## Two threads -/

/-- Two threads search the same rich path and list the paths of its days in different orders. -/
def towerJobs : List (DFSWorker.Job Bool) :=
  [⟨true, DFS.towerRich, fun _ l => l, .never⟩,
    ⟨false, DFS.towerRich, fun _ l => l.reverse, .never⟩]

/-- The search joins a single path for the day. -/
theorem consistent_towerRich {richList : List SPath} (hrich : ∀ r ∈ richList, r = DFS.towerRich)
    (hash : UInt32) :
    DFSWorker.Consistent (DFSWorker.allJoined {} DFS.towerPlan richList hash) := by
  have hjoined : (DFSWorker.joinedPaths {} DFSWorker.Timer.never.search DFS.towerPlan
      DFS.towerRich).length = 1 := by decide +kernel
  obtain ⟨p, hp⟩ := List.length_eq_one_iff.mp hjoined
  have hall : ∀ q ∈ DFSWorker.allJoined {} DFS.towerPlan richList hash, q = p := by
    intro q hq
    obtain ⟨richPath, hmem, -, hq⟩ := DFSWorker.mem_allJoined.mp hq
    rw [hrich richPath hmem] at hq
    exact List.mem_singleton.mp (hp ▸ hq)
  intro q hq r hr _
  rw [hall q hq, hall r hr]
  exact ⟨rfl, rfl, rfl⟩

theorem mergeDFS_best_towerPlan :
    ∃ pools, DFSWorker.runJobs {} DFS.towerPlan (fun _ => {}) towerJobs =
        .ok pools ∧
      ∀ visits, MergeOrder pools towerJobs visits → ∀ hash,
        ((getDFSHeap {} (mergeDFS {} visits) hash).queue.map SPath.key).toFinset =
          kBest 2 ((DFSWorker.allJoined {} DFS.towerPlan
            [DFS.towerRich, DFS.towerRich] hash).toFinset.image SPath.key) := by
  refine mergeDFS_best [DFS.towerRich, DFS.towerRich] ?_ ?_ towerJobs (.refl _)
    (by simp [towerJobs]) ?_
  · have hbuilt : DFS.towerRich.Built DFS.towerPlan := (SPath.Built.init.pushV 0 2).pushV 0 3
    simpa using hbuilt
  · exact consistent_towerRich (by simp)
  · intro job hjob b l
    rcases List.mem_cons.mp hjob with rfl | hjob
    · exact .refl l
    · obtain rfl := List.mem_singleton.mp hjob
      exact List.reverse_perm l

end DFSearch

end PPView
