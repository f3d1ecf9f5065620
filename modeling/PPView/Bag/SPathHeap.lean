import Mathlib.Data.Finset.Image
import PPView.Bag.SPath
import PPView.Library.BestSet

/-!
# Bounded heaps of paths

`SPathHeap` keeps the `topK` best paths pushed, one for each hash. `queue` lists them from the worst
on, so that its head is the `top` of the priority queue. `hashSet` remembers the hash of every
path that once was in the queue.

`Holds seen h` is the invariant of the pushes: the keys in the queue are the best keys seen.
-/

namespace PPView

open BestSet

structure SPathHeap where
  topK : Nat
  topK_pos : 0 < topK
  queue : List SPath := []
  hashSet : List UInt32 := []

namespace SPathHeap

variable (h : SPathHeap)

/-- `CanPush`. The queue of a heap with room may be empty, that of a full one is not. -/
def canPush (score : ℚ) (missLevel : Int := 0) (clash : Int := 0) : Bool :=
  match h.queue with
  | [] => true
  | top :: _ =>
    if h.queue.length < h.topK then true
    else if missLevel < top.missLevel then true
    else if missLevel > top.missLevel then false
    else if clash < top.clash then true
    else if clash > top.clash then false
    else score > top.score - 1 / 1000000

/-- The queue behind the insertion of a path. -/
def insertQueue (queue : List SPath) (sPath : SPath) : List SPath :=
  queue.orderedInsert (fun spa spb => SPathCmp spb spa) sPath

/-- The test of `Push` before it looks at the hash. -/
def isPush (sPath : SPath) : Bool :=
  match h.queue with
  | [] => true
  | top :: _ => if h.queue.length < h.topK then true else SPathCmp sPath top

/-- The queue with room for one more path: the `top` of a full one is popped. -/
def popFull : List SPath := if h.queue.length ≥ h.topK then h.queue.tail else h.queue

/-- `Push` without `dupHashAllow`, which no caller sets. The callers free the path that it
returns. -/
def push (sPath : SPath) : SPathHeap :=
  if !h.isPush sPath then h
  else if sPath.hash ∈ h.hashSet then h
  else { h with
    hashSet := sPath.hash :: h.hashSet
    queue := insertQueue h.popFull sPath }

theorem popFull_sublist : h.popFull.Sublist h.queue := by
  rw [popFull]
  split_ifs
  · exact List.tail_sublist _
  · exact List.Sublist.refl _

@[simp] theorem topK_push (p : SPath) : (h.push p).topK = h.topK := by
  simp only [push]
  split_ifs <;> rfl

@[simp] theorem topK_foldl_push (ps : List SPath) : (ps.foldl push h).topK = h.topK := by
  induction ps generalizing h with
  | nil => rfl
  | cons p ps ih => rw [List.foldl_cons, ih, topK_push]

/-! ## What a heap holds -/

/-- The heap holds the best of the paths seen. -/
structure Holds (seen : Finset SPath) (h : SPathHeap) : Prop where
  sorted : h.queue.Pairwise fun a b => b.key < a.key
  subset : ∀ p ∈ h.queue, p ∈ seen
  keys : (h.queue.map SPath.key).toFinset = kBest h.topK (seen.image SPath.key)
  hashes : ∀ x ∈ h.hashSet, ∃ p ∈ seen, p.hash = x
  queued : ∀ p ∈ h.queue, p.hash ∈ h.hashSet

theorem holds_nil (topK : Nat) (topK_pos : 0 < topK) : Holds ∅ ⟨topK, topK_pos, [], []⟩ where
  sorted := List.Pairwise.nil
  subset := by simp
  keys := by simp [kBest]
  hashes := by simp
  queued := by simp

variable {h} {seen : Finset SPath} {p : SPath}

theorem Holds.key_mem (hh : Holds seen h) {q : SPath} (hq : q ∈ h.queue) :
    q.key ∈ kBest h.topK (seen.image SPath.key) := by
  rw [← hh.keys, List.mem_toFinset]
  exact List.mem_map_of_mem hq

theorem Holds.length_queue (hh : Holds seen h) :
    h.queue.length = (kBest h.topK (seen.image SPath.key)).card := by
  have hnodup : (h.queue.map SPath.key).Nodup :=
    List.pairwise_map.mpr (hh.sorted.imp fun hlt => hlt.ne')
  rw [← hh.keys, List.toFinset_card_of_nodup hnodup, List.length_map]

theorem mem_insertQueue {queue : List SPath} {q : SPath} :
    q ∈ insertQueue queue p ↔ q = p ∨ q ∈ queue := List.mem_orderedInsert _

theorem insertQueue_sorted {queue : List SPath}
    (hsorted : queue.Pairwise fun a b => b.key < a.key) (hp : p.IntScore)
    (hint : ∀ q ∈ queue, q.IntScore) (hnew : p.key ∉ queue.map SPath.key) :
    (insertQueue queue p).Pairwise fun a b => b.key < a.key := by
  induction queue with
  | nil => simp [insertQueue]
  | cons q queue ih =>
    obtain ⟨hq, hqueue⟩ := List.pairwise_cons.mp hsorted
    obtain ⟨hqint, hint⟩ := List.forall_mem_cons.mp hint
    rw [List.map_cons, List.mem_cons, not_or] at hnew
    rw [insertQueue, List.orderedInsert_cons]
    split_ifs with hcmp
    · have hlt : q.key < p.key := (SPath.SPathCmp_iff hqint hp).mp hcmp
      refine List.pairwise_cons.mpr ⟨fun r hr => ?_, hsorted⟩
      rcases List.mem_cons.mp hr with rfl | hr
      · exact hlt
      · exact (hq r hr).trans hlt
    · have hlt : p.key < q.key :=
        lt_of_le_of_ne (not_lt.mp fun h => hcmp ((SPath.SPathCmp_iff hqint hp).mpr h)) hnew.1
      refine List.pairwise_cons.mpr ⟨fun r hr => ?_, ih hqueue hint hnew.2⟩
      rcases mem_insertQueue.mp hr with rfl | hr
      · exact hlt
      · exact hq r hr

/-! ## One push -/

/-- The step of `Holds` for a path that changes neither the heap nor the best keys. -/
theorem Holds.skip (hh : Holds seen h)
    (hkeys : kBest h.topK ((insert p seen).image SPath.key) =
      kBest h.topK (seen.image SPath.key)) : Holds (insert p seen) h where
  sorted := hh.sorted
  subset := fun q hq => Finset.mem_insert_of_mem (hh.subset q hq)
  keys := hh.keys.trans hkeys.symm
  hashes := fun x hx => (hh.hashes x hx).imp fun _ => And.imp_left Finset.mem_insert_of_mem
  queued := hh.queued

/-- A path that fails the test of `Push` is not among the best. -/
theorem Holds.kBest_of_not_isPush (hh : Holds seen h) (hint : ∀ q ∈ h.queue, q.IntScore)
    (hp : p.IntScore) (hpush : h.isPush p = false) :
    kBest h.topK ((insert p seen).image SPath.key) = kBest h.topK (seen.image SPath.key) := by
  have hlen := hh.length_queue
  have hsorted := hh.sorted
  rw [Finset.image_insert]
  cases hqueue : h.queue with
  | nil => simp [isPush, hqueue] at hpush
  | cons top queue =>
    simp only [isPush, hqueue] at hpush
    split_ifs at hpush with hlt
    have hge : top.key ≤ p.key := not_lt.mp fun hlt => by
      have := (SPath.SPathCmp_iff hp (hint top (by simp [hqueue]))).mpr hlt
      simp_all
    rw [hqueue] at hlen hsorted
    refine kBest_insert_of_le (by omega) fun y hy => ?_
    rw [← hh.keys, hqueue, List.mem_toFinset, List.mem_map] at hy
    obtain ⟨q, hq, rfl⟩ := hy
    rcases List.mem_cons.mp hq with rfl | hq
    · exact hge
    · exact ((List.pairwise_cons.mp hsorted).1 q hq).le.trans hge

/-- A path that passes the test, and whose hash is new, has a new key. -/
theorem Holds.key_new (hh : Holds seen h) (hint : ∀ q ∈ h.queue, q.IntScore)
    (hp : p.IntScore) (hpush : h.isPush p = true) (hhash : p.hash ∉ h.hashSet) :
    p.key ∉ seen.image SPath.key := by
  intro hmem
  -- the key would be one of the best, hence in the queue, and its hash remembered
  have hbest : p.key ∈ kBest h.topK (seen.image SPath.key) := by
    have hlen := hh.length_queue
    cases hqueue : h.queue with
    | nil =>
      have hlt : (kBest h.topK (seen.image SPath.key)).card < h.topK := by
        rw [← hlen, hqueue]
        exact h.topK_pos
      rwa [kBest_eq_of_card_lt hlt]
    | cons top queue =>
      simp only [isPush, hqueue] at hpush
      split_ifs at hpush with hlt
      · rw [← hqueue, hlen] at hlt
        rwa [kBest_eq_of_card_lt hlt]
      · have htop : top ∈ h.queue := by simp [hqueue]
        have := (SPath.SPathCmp_iff hp (hint top htop)).mp hpush
        exact mem_kBest_of_le (hh.key_mem htop) hmem this.le
  rw [← hh.keys, List.mem_toFinset, List.mem_map] at hbest
  obtain ⟨q, hq, hkey⟩ := hbest
  exact hhash ((SPath.key_inj.mp hkey).2.2.2 ▸ hh.queued q hq)

/-- The keys of what stays in the queue when a path with a new key comes in. -/
theorem Holds.kBest_of_isPush (hh : Holds seen h) (hint : ∀ q ∈ h.queue, q.IntScore)
    (hp : p.IntScore) (hpush : h.isPush p = true) (hnew : p.key ∉ seen.image SPath.key) :
    insert p.key (h.popFull.map SPath.key).toFinset =
      kBest h.topK ((insert p seen).image SPath.key) := by
  have hlen := hh.length_queue
  rw [Finset.image_insert, popFull]
  split_ifs with hfull
  · obtain ⟨top, queue, hqueue⟩ :=
      List.exists_cons_of_length_pos (Nat.lt_of_lt_of_le h.topK_pos hfull)
    have hsorted := hh.sorted
    have htop : top ∈ h.queue := by simp [hqueue]
    have hlt : p.key < top.key := by
      simp only [isPush, hqueue] at hpush
      rw [hqueue] at hfull
      rw [if_neg (by omega)] at hpush
      exact (SPath.SPathCmp_iff hp (hint top htop)).mp hpush
    rw [hqueue] at hsorted
    have hbelow := (List.pairwise_cons.mp hsorted).1
    have hkeys := hh.keys
    rw [hqueue, List.map_cons, List.toFinset_cons] at hkeys
    have hnotMem : top.key ∉ (queue.map SPath.key).toFinset := fun hmem => by
      obtain ⟨q, hq, hkey⟩ := List.mem_map.mp (List.mem_toFinset.mp hmem)
      exact absurd (hbelow q hq) (hkey ▸ lt_irrefl _)
    rw [kBest_insert_of_lt (by omega) (hh.key_mem htop) (fun y hy => ?_) hlt hnew, ← hkeys,
      Finset.erase_insert hnotMem, hqueue, List.tail_cons]
    rw [← hkeys, Finset.mem_insert] at hy
    rcases hy with rfl | hy
    · exact le_rfl
    · obtain ⟨q, hq, rfl⟩ := List.mem_map.mp (List.mem_toFinset.mp hy)
      exact (hbelow q hq).le
  · rw [kBest_insert_of_card_lt (by omega), ← hh.keys]

/-- A push takes the path into account, if equal hashes stand for equal keys. -/
theorem Holds.push (hh : Holds seen h) (hint : ∀ q ∈ seen, q.IntScore) (hp : p.IntScore)
    (hhash : ∀ q ∈ seen, q.hash = p.hash → q.key = p.key) :
    Holds (insert p seen) (h.push p) := by
  have hint' : ∀ q ∈ h.queue, q.IntScore := fun q hq => hint q (hh.subset q hq)
  rw [SPathHeap.push]
  split_ifs with hpush hmem
  · exact hh.skip (hh.kBest_of_not_isPush hint' hp (by simpa using hpush))
  · obtain ⟨q, hq, hqp⟩ := hh.hashes p.hash hmem
    refine hh.skip ?_
    rw [Finset.image_insert, Finset.insert_eq_of_mem]
    exact Finset.mem_image.mpr ⟨q, hq, hhash q hq hqp⟩
  · have hpush : h.isPush p = true := by simpa using hpush
    have hnew := hh.key_new hint' hp hpush hmem
    have hsub := popFull_sublist h
    have hkeys := hh.kBest_of_isPush hint' hp hpush hnew
    refine ⟨?_, fun q hq => ?_, ?_, fun x hx => ?_, fun q hq => ?_⟩
    · refine insertQueue_sorted (hh.sorted.sublist hsub) hp (fun q hq => hint' q (hsub.mem hq))
        fun hmem => hnew ?_
      obtain ⟨q, hq, hkey⟩ := List.mem_map.mp hmem
      exact Finset.mem_image.mpr ⟨q, hh.subset q (hsub.mem hq), hkey⟩
    · rcases mem_insertQueue.mp hq with rfl | hq
      · exact Finset.mem_insert_self _ _
      · exact Finset.mem_insert_of_mem (hh.subset q (hsub.mem hq))
    · rw [← hkeys]
      ext y
      simp only [List.mem_toFinset, List.mem_map, Finset.mem_insert, mem_insertQueue]
      grind
    · rcases List.mem_cons.mp hx with rfl | hx
      · exact ⟨p, Finset.mem_insert_self _ _, rfl⟩
      · exact (hh.hashes x hx).imp fun _ => And.imp_left Finset.mem_insert_of_mem
    · rcases mem_insertQueue.mp hq with rfl | hq
      · exact List.mem_cons_self
      · exact List.mem_cons_of_mem _ (hh.queued q (hsub.mem hq))

/-! ## Any number of pushes -/

theorem Holds.foldl (hh : Holds seen h) (ps : List SPath) (hint : ∀ q ∈ seen ∪ ps.toFinset,
    q.IntScore) (hhash : ∀ q ∈ seen ∪ ps.toFinset, ∀ p ∈ ps, q.hash = p.hash → q.key = p.key) :
    Holds (seen ∪ ps.toFinset) (ps.foldl SPathHeap.push h) := by
  induction ps generalizing h seen with
  | nil => simpa using hh
  | cons p ps ih =>
    have hset : seen ∪ (p :: ps).toFinset = insert p seen ∪ ps.toFinset := by
      rw [List.toFinset_cons, Finset.union_insert, Finset.insert_union]
    rw [hset] at hint hhash ⊢
    refine ih (hh.push (fun q hq => hint q ?_) (hint p ?_) fun q hq => hhash q ?_ p (by simp))
      hint fun q hq p hp => hhash q hq p (List.mem_cons_of_mem _ hp)
    · exact Finset.mem_union_left _ (Finset.mem_insert_of_mem hq)
    · exact Finset.mem_union_left _ (Finset.mem_insert_self p seen)
    · exact Finset.mem_union_left _ (Finset.mem_insert_of_mem hq)

/-- The paths in the queue are the best seen, where the keys tell the paths apart. -/
theorem Holds.mem_queue (hh : Holds seen h) (hint : ∀ q ∈ seen, q.IntScore)
    (hinj : Set.InjOn SPath.key (seen : Set SPath)) :
    p ∈ h.queue ↔ p ∈ seen ∧ (seen.filter fun q => SPathCmp q p).card < h.topK := by
  have hfilter : p ∈ seen → seen.filter (fun q => SPathCmp q p) =
      seen.filter fun q => q.key < p.key := fun hp =>
    Finset.filter_congr fun q hq => SPath.SPathCmp_iff (hint q hq) (hint p hp)
  constructor
  · intro hp
    refine ⟨hh.subset p hp, ?_⟩
    rw [hfilter (hh.subset p hp)]
    exact ((mem_kBest_image hinj).mp (hh.key_mem hp)).2
  · rintro ⟨hp, hcard⟩
    rw [hfilter hp] at hcard
    have := (mem_kBest_image hinj).mpr ⟨Finset.mem_image_of_mem _ hp, hcard⟩
    rw [← hh.keys, List.mem_toFinset, List.mem_map] at this
    obtain ⟨q, hq, hkey⟩ := this
    exact hinj (hh.subset q hq) hp hkey ▸ hq

/-! ## Pruning -/

/-- Where the test of a score fails, no path with that score or less changes the heap. -/
theorem push_of_not_canPush (hint : ∀ q ∈ h.queue, q.IntScore) (hp : p.IntScore) {score : ℚ}
    (hcan : h.canPush score = false) (hmiss : 0 ≤ p.missLevel) (hclash : 0 ≤ p.clash)
    (hscore : p.score ≤ score) : h.push p = h := by
  cases hqueue : h.queue with
  | nil => simp [canPush, hqueue] at hcan
  | cons top queue =>
    have hcmp := SPath.SPathCmp_iff hp (hint top (by simp [hqueue]))
    have hpush : h.isPush p = false := by
      simp only [canPush, isPush, hqueue] at hcan ⊢
      split_ifs at hcan ⊢ with hlen hlow hhigh hlow' hhigh'
      all_goals
        refine Bool.eq_false_iff.mpr fun h => ?_
        have hlt := hcmp.mp h
        simp only [SPath.key, Prod.Lex.toLex_lt_toLex] at hlt
      · omega
      · omega
      · have hcan : score ≤ top.score - 1 / 1000000 := by simpa using hcan
        have hless : p.score < top.score := by linarith
        rcases hlt with hlt | ⟨-, hlt | ⟨-, hlt | ⟨heq, -⟩⟩⟩
        · omega
        · omega
        · linarith
        · linarith
    rw [SPathHeap.push, hpush]
    rfl

end SPathHeap

end PPView
