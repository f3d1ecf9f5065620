import PPView.Library.Pairings
import PPView.PathGenerator.DayPathExpand

/-!
# Working on stretches

`selectOpenClose` and `TimeEnrich` cut the day at its fixed nodes, work on a copy of each
stretch from one fixed node to the next and write the nodes strictly between back. `scan` is
that walk. `scan_spec` reduces what is to be shown about the day to one stretch: the copies
must be scheduled and may change only intervals and durations of free nodes.
-/

namespace PPView

namespace NodeJ

/-- What the passes after the selection of sessions leave alone. -/
def core (n : NodeJ) : NodeJ := if n.isFixed then n.bare else n.skeleton

theorem skeleton_core (n : NodeJ) : n.core.skeleton = n.skeleton := by
  unfold core
  split_ifs
  · exact skeleton_bare n
  · cases h : n.free <;> simp [skeleton, h, Function.comp_def]

theorem skeleton_eq_of_core {m n : NodeJ} (h : m.core = n.core) : m.skeleton = n.skeleton := by
  rw [← skeleton_core m, h, skeleton_core]

theorem isFixed_eq_of_skeleton {m n : NodeJ} (h : m.skeleton = n.skeleton) :
    m.isFixed = n.isFixed := by
  rw [← skeleton_isFixed m, h, skeleton_isFixed]

theorem bare_eq_of_core {m n : NodeJ} (h : m.core = n.core) (hx : m.isFixed) : m.bare = n.bare := by
  have hx' : n.isFixed := isFixed_eq_of_skeleton (skeleton_eq_of_core h) ▸ hx
  simpa [core, hx, hx'] using h

theorem core_eq_of_bare {m n : NodeJ} (h : m.bare = n.bare) : m.core = n.core := by
  have hskel : m.skeleton = n.skeleton := by rw [← skeleton_bare m, h, skeleton_bare]
  have hx := isFixed_eq_of_skeleton hskel
  simp only [core, hx, h, hskel]

theorem core_eq_of_skeleton {m n : NodeJ} (h : m.skeleton = n.skeleton) (hx : n.isFixed = false) :
    m.core = n.core := by
  have hx' : m.isFixed = false := isFixed_eq_of_skeleton h ▸ hx
  simp [core, hx, hx', h]

/-- A fixed node at its session is determined by its core up to its flags. -/
theorem setDefaultError_eq_of_core {m n : NodeJ} (h : m.core = n.core) (hx : m.isFixed)
    (hm : m.time = m.session) (hn : n.time = n.session) :
    m.setDefaultError = n.setDefaultError := by
  have hbare := bare_eq_of_core h hx
  have hsession : m.session = n.session := (congrArg session hbare :)
  have htime : m.time = n.time := by rw [hm, hn, hsession]
  calc m.setDefaultError = { m.bare with time := m.time } := rfl
    _ = { n.bare with time := n.time } := by rw [hbare, htime]
    _ = n.setDefaultError := rfl

end NodeJ

open NodeJ

namespace RouteJ

theorem linked_iff_of_skeleton {r r' : RouteJ} (h : r.map skeleton = r'.map skeleton) :
    Linked r ↔ Linked r' := by
  have hmap (r : RouteJ) : Linked r ↔ (r.map skeleton).IsChain HasEdge :=
    (List.isChain_map (R := HasEdge) skeleton).symm
  rw [hmap r, hmap r', h]

theorem map_skeleton_of_core {r r' : RouteJ} (h : r.map core = r'.map core) :
    r.map skeleton = r'.map skeleton := by
  have hmap (r : RouteJ) : (r.map core).map skeleton = r.map skeleton := by
    simp [Function.comp_def, skeleton_core]
  rw [← hmap, h, hmap]

theorem Valid.of_skeleton {r r' : RouteJ} (hr : Valid r) (h : r.map skeleton = r'.map skeleton) :
    Valid r' := by
  have hhead := congrArg List.head? h
  have hlast := congrArg List.getLast? h
  simp only [List.head?_map, List.getLast?_map] at hhead hlast
  refine ⟨checkRouteJ_of_skeleton h ▸ hr.check, fun n hn => ?_, fun n hn => ?_⟩
  · obtain ⟨m, hm, hmn⟩ : ∃ m, m ∈ r.head? ∧ m.skeleton = n.skeleton := by
      simpa [Option.mem_def.mp hn] using hhead
    exact isFixed_eq_of_skeleton hmn ▸ hr.first m hm
  · obtain ⟨m, hm, hmn⟩ : ∃ m, m ∈ r.getLast? ∧ m.skeleton = n.skeleton := by
      simpa [Option.mem_def.mp hn] using hlast
    exact isFixed_eq_of_skeleton hmn ▸ hr.last m hm

/-- The flags have no influence on a schedule. -/
theorem scheduled_iff_of_setDefaultError {r r' : RouteJ}
    (h : r.map setDefaultError = r'.map setDefaultError) : Scheduled r ↔ Scheduled r' := by
  have hmap (r : RouteJ) : Scheduled r ↔ Scheduled (r.map setDefaultError) := by
    refine and_congr ?_ (List.isChain_map (R := Follows) setDefaultError).symm
    cases r <;> simp [session, sessionIdx, times, setDefaultError]
  rw [hmap r, hmap r', h]

/-- A route may be cut at a fixed node. -/
theorem scheduled_append_cons_iff {a b : RouteJ} {x : NodeJ} (hx : x.isFixed) :
    Scheduled (a ++ x :: b) ↔ Scheduled (a ++ [x]) ∧ Scheduled (x :: b) := by
  unfold Scheduled
  rw [List.isChain_split]
  cases a with
  | nil => simp
  | cons m a =>
    simp only [List.cons_append, List.head?_cons, Option.mem_some_iff, forall_eq']
    constructor
    · rintro ⟨hm, hl, hr⟩
      obtain ⟨p, hp⟩ : ∃ p, Follows p x := by
        rw [← List.cons_append, List.isChain_append] at hl
        exact ⟨_, hl.2.2 _ (List.getLast_mem_getLast? (List.cons_ne_nil m a)) x (by simp)⟩
      exact ⟨⟨hm, hl⟩, hp.time_eq_session hx, hr⟩
    · rintro ⟨⟨hm, hl⟩, -, hr⟩
      exact ⟨hm, hl, hr⟩

/-- A stretch of checked nodes between fixed ones is valid. -/
theorem Valid.of_checkNodeJ {x y : NodeJ} {mid : RouteJ} (hx : x.isFixed) (hy : y.isFixed)
    (h : ∀ n ∈ x :: (mid ++ [y]), n.checkNodeJ) : Valid (x :: (mid ++ [y])) := by
  refine ⟨?_, by simpa using hx, fun n hn => ?_⟩
  · rw [checkRouteJ, if_neg (by simp)]
    exact List.all_eq_true.mpr h
  · rw [← List.cons_append, List.getLast?_concat, Option.mem_some_iff] at hn
    exact hn ▸ hy

theorem stretch_subset (x y : NodeJ) (mid rest : RouteJ) :
    x :: (mid ++ [y]) ⊆ x :: (mid ++ y :: rest) := by
  intro n hn
  simp only [List.mem_cons, List.mem_append, List.not_mem_nil, or_false] at hn ⊢
  tauto

/-- The stretch from one fixed node to another. -/
theorem Valid.stretch {before mid rest : RouteJ} {x y : NodeJ}
    (hr : Valid (before ++ x :: (mid ++ y :: rest))) (hx : x.isFixed) (hy : y.isFixed) :
    Valid (x :: (mid ++ [y])) :=
  .of_checkNodeJ hx hy fun _ hn =>
    hr.checkNodeJ (List.mem_append_right before (stretch_subset x y mid rest hn))

theorem Scheduled.stretch {before mid rest : RouteJ} {x y : NodeJ}
    (hs : Scheduled (before ++ x :: (mid ++ y :: rest))) (hx : x.isFixed) (hy : y.isFixed) :
    Scheduled (x :: (mid ++ [y])) :=
  ((scheduled_append_cons_iff (a := x :: mid) hy).mp ((scheduled_append_cons_iff hx).mp hs).2).1

/-- The stretch up to the next fixed node, and the rest from there on. -/
theorem expanded_stretch {mid rest : RouteJ} {x y : NodeJ} (hx : x.isFixed) (hy : y.isFixed)
    (hcheck : ∀ n ∈ x :: (mid ++ y :: rest), n.checkNodeJ)
    (hs : Scheduled (x :: (mid ++ y :: rest))) :
    Expanded (x :: (mid ++ [y])) ∧ (∀ n ∈ y :: rest, n.checkNodeJ) ∧ Scheduled (y :: rest) := by
  obtain ⟨hs₁, hs₂⟩ := (scheduled_append_cons_iff (a := x :: mid) hy).mp hs
  have hvalid : Valid (x :: (mid ++ [y])) :=
    .of_checkNodeJ hx hy fun n hn => hcheck n (stretch_subset x y mid rest hn)
  refine ⟨⟨hvalid, hs₁⟩, fun n hn => ?_, hs₂⟩
  exact hcheck n (List.mem_cons_of_mem x (List.mem_append_right mid hn))

end RouteJ

/-- A scheduled beginning of a valid route. -/
theorem RouteJ.Valid.begun_of_take {r out : RouteJ} (hr : Valid r)
    (hskel : out.map skeleton = (r.take out.length).map skeleton) (hs : Scheduled out) :
    Begun out := by
  refine ⟨fun n hn => ?_, fun n hn => ?_, hs⟩
  · obtain ⟨m, hm, hmn⟩ := List.mem_map.mp (hskel ▸ List.mem_map_of_mem hn)
    rw [← checkNodeJ_skeleton, ← hmn, checkNodeJ_skeleton]
    exact hr.checkNodeJ (List.mem_of_mem_take hm)
  · have hhead := congrArg List.head? hskel
    rw [List.head?_map, List.head?_map, Option.mem_def.mp hn, List.head?_take] at hhead
    split_ifs at hhead
    · simp at hhead
    · obtain ⟨m, hm, hmn⟩ := Option.map_eq_some_iff.mp hhead.symm
      exact isFixed_eq_of_skeleton hmn ▸ hr.first m hm

theorem PathGenerator.Pass.begun {r out : RouteJ} (h : Pass r out) (hr : RouteJ.Valid r) :
    RouteJ.Begun out :=
  hr.begun_of_take (RouteJ.map_skeleton_of_bare h.bare) h.scheduled

theorem PathGenerator.begun_of_dayPathExpand {r : RouteJ} {controls : Controls}
    {g' : PathGenerator} {b : Bool} (h : (create r controls).dayPathExpand = .ok (b, g')) :
    RouteJ.Begun g'.outRouteJ := by
  by_cases hcheck : checkRouteJ (create r controls).inRouteJ
  · obtain ⟨hvalid, -⟩ := valid_of_check hcheck
    exact (pass_of_dayPathExpand hvalid rfl h).2.begun hvalid
  · -- a route that is refused leaves nothing
    rw [dayPathExpand, if_pos (by simpa using hcheck)] at h
    obtain ⟨-, rfl⟩ : false = b ∧ create r controls = g' := by simpa [pure, Except.pure] using h
    exact ⟨by simp [create], by simp [create], by simp [create, RouteJ.Scheduled]⟩

/-! ## The walk -/

section Scan

variable {σ : Type} (halt : NodeJ → Bool) (f : Nat → σ → RouteJ → Res (σ × Bool × RouteJ))

/-- The nodes of `seg` strictly between its ends, written over those of `stretch`. -/
def splice (stretch seg : RouteJ) : RouteJ :=
  stretch.take 1 ++ (List.range (stretch.length - 1)).map fun num => seg.getD (num + 1) default

/-- The walk over a route: `stretch` starts at the last fixed node seen. It stops at a node that
`halt` refuses, with the result `false`. At a fixed node with something before it, `f` works on
a copy of the stretch and says whether to stop after it. -/
def scan : σ → (before stretch rest : RouteJ) → Res (Bool × RouteJ)
  | _, before, stretch, [] => pure (true, before ++ stretch)
  | s, before, stretch, node :: rest =>
    if halt node then pure (false, before ++ stretch ++ node :: rest)
    else if node.isFixed then
      if stretch.length > 1 then do
        let (s, stop, seg) ← f (before.length + stretch.length) s (stretch ++ [node])
        if stop then pure (true, before ++ splice stretch seg ++ node :: rest)
        else scan s (before ++ splice stretch seg) [node] rest
      else scan s (before ++ stretch) [node] rest
    else scan s before (stretch ++ [node]) rest

theorem length_splice (stretch seg : RouteJ) : (splice stretch seg).length = stretch.length := by
  simp only [splice, List.length_append, List.length_take, List.length_map, List.length_range]
  omega

/-- The walk fails as the work on a stretch does. -/
theorem scan_error {E : Fault → Prop} (hf : ∀ i s seg e, f i s seg = .error e → E e) {s : σ}
    {before stretch rest : RouteJ} {e : Fault} (h : scan halt f s before stretch rest = .error e) :
    E e := by
  induction rest generalizing s before stretch with
  | nil => simp [scan, pure, Except.pure] at h
  | cons node rest ih =>
    unfold scan at h
    split_ifs at h
    · simp [pure, Except.pure] at h
    · rcases bind_error.mp h with h | ⟨⟨s', stop, seg⟩, -, h⟩
      · exact hf _ _ _ _ h
      · cases stop with
        | true => simp [pure, Except.pure] at h
        | false => exact ih h
    · exact ih h
    · exact ih h

end Scan

/-! ## What is kept -/

/-- The route `r` after a rescheduling that meets `Q` at every node. -/
structure Refit (Q : NodeJ → Prop) (r r' : RouteJ) : Prop where
  core : r'.map core = r.map core
  scheduled : RouteJ.Scheduled r'
  all : ∀ n ∈ r', Q n

theorem splice_eq {x x' y' : NodeJ} {mid mid' : RouteJ} (h : mid'.length = mid.length) :
    splice (x :: mid) (x' :: (mid' ++ [y'])) = x :: mid' := by
  have hmap : (List.range mid.length).map
      (fun num => (x' :: (mid' ++ [y'])).getD (num + 1) default) = mid' := by
    apply List.ext_getElem
    · simp [h]
    · intro i h1 h2
      simp [List.getElem?_append_left h2, List.getElem?_eq_getElem h2]
  rw [splice, List.length_cons, Nat.add_sub_cancel, hmap]
  rfl

namespace Refit

variable {Q : NodeJ → Prop} {r r' r'' : RouteJ}

theorem refl (hs : RouteJ.Scheduled r) (hQ : ∀ n ∈ r, Q n) : Refit Q r r := ⟨rfl, hs, hQ⟩

theorem trans (h : Refit Q r r') (h' : Refit Q r' r'') : Refit Q r r'' :=
  ⟨h'.core.trans h.core, h'.scheduled, h'.all⟩

theorem valid (h : Refit Q r r') (hr : RouteJ.Valid r) : RouteJ.Valid r' :=
  hr.of_skeleton (RouteJ.map_skeleton_of_core h.core).symm

theorem isFixed_eq (h : Refit Q r r') {j : Nat} {n : NodeJ}
    (hn : r'[j]? = some n) : ∃ m, r[j]? = some m ∧ m.isFixed = n.isFixed := by
  have hj : (r'.map NodeJ.core)[j]? = some n.core := by simp [hn]
  rw [h.core, List.getElem?_map] at hj
  obtain ⟨m, hm, hmn⟩ := Option.map_eq_some_iff.mp hj
  exact ⟨m, hm, isFixed_eq_of_skeleton (skeleton_eq_of_core hmn)⟩

/-- A node with opening intervals is free. -/
theorem isFixed_of_openClose (h : Refit Q r r') (hr : RouteJ.Valid r) {j : Nat} {m : NodeJ}
    (hm : r[j]? = some m) (hopen : (r'.getD j default).openClose ≠ []) : m.isFixed = false := by
  cases hn : r'[j]? with
  | none =>
    rw [List.getD_eq_getElem?_getD, hn] at hopen
    exact absurd rfl hopen
  | some n =>
    obtain ⟨m', hm', hmn⟩ := h.isFixed_eq hn
    obtain rfl : m' = m := by simpa [hm] using hm'.symm
    have hsingle : n.Single := (h.valid hr).single (List.mem_of_getElem? hn)
    have hfree : n.isFree := by
      rw [List.getD_eq_getElem?_getD, hn, Option.getD_some] at hopen
      cases hf : n.free <;> simp_all [isFree, openClose]
    rw [hmn]
    simpa [hfree] using hsingle.symm

/-- A rescheduled stretch, with its ends apart. -/
theorem exists_eq {x y : NodeJ} {mid seg : RouteJ} (h : Refit Q (x :: (mid ++ [y])) seg) :
    ∃ x' mid' y', seg = x' :: (mid' ++ [y']) ∧ x'.core = x.core ∧
      mid'.map NodeJ.core = mid.map NodeJ.core ∧
      y'.core = y.core := by
  have hcore := h.core
  rw [List.map_cons, List.map_append] at hcore
  obtain ⟨x', seg', rfl, hx, hseg⟩ := List.map_eq_cons_iff.mp hcore
  obtain ⟨mid', last, rfl, hmid, hlast⟩ := List.map_eq_append_iff.mp hseg
  obtain ⟨y', rfl, hy⟩ := List.map_eq_singleton_iff.mp hlast
  exact ⟨x', mid', y', rfl, hx, hmid, hy⟩

/-- The ends of a rescheduled stretch differ from those of the stretch in their flags only. -/
theorem setDefaultError_ends {x y x' y' : NodeJ} {mid mid' : RouteJ}
    (h : Refit Q (x :: (mid ++ [y])) (x' :: (mid' ++ [y']))) (hx : x.isFixed) (hy : y.isFixed)
    (hs : RouteJ.Scheduled (x :: (mid ++ [y]))) :
    (x :: (mid' ++ [y])).map setDefaultError = (x' :: (mid' ++ [y'])).map setDefaultError := by
  obtain ⟨x'', mid'', y'', heq, hcx, hcmid, hcy⟩ := h.exists_eq
  obtain ⟨rfl, hrest⟩ := List.cons_eq_cons.mp heq
  obtain ⟨rfl, hlast⟩ := List.append_inj' hrest rfl
  obtain rfl : y' = y'' := by simpa using hlast
  have hx' : x'.isFixed := isFixed_eq_of_skeleton (skeleton_eq_of_core hcx) ▸ hx
  have hy' : y'.isFixed := isFixed_eq_of_skeleton (skeleton_eq_of_core hcy) ▸ hy
  have hsy := ((RouteJ.scheduled_append_cons_iff (a := x :: mid) hy).mp hs).2
  have hsy' := ((RouteJ.scheduled_append_cons_iff (a := x' :: mid') hy').mp h.scheduled).2
  have hex := setDefaultError_eq_of_core hcx hx' (h.scheduled.1 x' (by simp)) (hs.1 x (by simp))
  have hey := setDefaultError_eq_of_core hcy hy' (hsy'.1 y' (by simp)) (hsy.1 y (by simp))
  simp [hex, hey]

/-- Writing a rescheduled stretch back reschedules the day. -/
theorem splice {before mid rest seg : RouteJ} {x y : NodeJ} (hx : x.isFixed) (hy : y.isFixed)
    (hs : RouteJ.Scheduled (before ++ x :: (mid ++ y :: rest)))
    (hQ : ∀ n ∈ before ++ x :: (mid ++ y :: rest), Q n) (h : Refit Q (x :: (mid ++ [y])) seg) :
    Refit Q (before ++ x :: (mid ++ y :: rest))
      (before ++ PPView.splice (x :: mid) seg ++ y :: rest) := by
  obtain ⟨x', mid', y', rfl, -, hcmid, -⟩ := h.exists_eq
  have hlen : mid'.length = mid.length := by simpa using congrArg List.length hcmid
  rw [splice_eq hlen]
  obtain ⟨hs1, hs2⟩ := (RouteJ.scheduled_append_cons_iff hx).mp hs
  obtain ⟨hs2, hs3⟩ := (RouteJ.scheduled_append_cons_iff (a := x :: mid) hy).mp hs2
  refine ⟨by simp [hcmid], ?_, fun n hn => ?_⟩
  · rw [List.append_assoc, List.cons_append, RouteJ.scheduled_append_cons_iff hx]
    refine ⟨hs1, (RouteJ.scheduled_append_cons_iff (a := x :: mid') hy).mpr ⟨?_, hs3⟩⟩
    exact (RouteJ.scheduled_iff_of_setDefaultError (h.setDefaultError_ends hx hy hs2)).mpr
      h.scheduled
  · have hmid : ∀ n ∈ mid', Q n := fun n hn => h.all n (by simp [hn])
    simp only [List.mem_append, List.mem_cons] at hn hQ
    rcases hn with (hn | rfl | hn) | hn
    · exact hQ n (.inl hn)
    · exact hQ n (.inr (.inl rfl))
    · exact hmid n hn
    · exact hQ n (.inr (.inr (.inr hn)))

end Refit

/-! ## The rule for the walk -/

section Rule

variable {σ : Type} {halt : NodeJ → Bool} {f : Nat → σ → RouteJ → Res (σ × Bool × RouteJ)}
  {Q : NodeJ → Prop}

theorem scan_spec_aux
    (hf : ∀ i s seg s' stop seg', RouteJ.Valid seg → RouteJ.Scheduled seg → (∀ n ∈ seg, Q n) →
      f i s seg = .ok (s', stop, seg') → Refit Q seg seg')
    {s : σ} (before mid : RouteJ) {rest r' : RouteJ} {x : NodeJ} {b : Bool} (hx : x.isFixed)
    (hr : RouteJ.Valid (before ++ x :: (mid ++ rest)))
    (hs : RouteJ.Scheduled (before ++ x :: (mid ++ rest)))
    (hQ : ∀ n ∈ before ++ x :: (mid ++ rest), Q n)
    (h : scan halt f s before (x :: mid) rest = .ok (b, r')) :
    Refit Q (before ++ x :: (mid ++ rest)) r' := by
  induction rest generalizing s before mid x with
  | nil =>
    obtain ⟨-, rfl⟩ : true = b ∧ before ++ x :: mid = r' := by
      simpa [scan, pure, Except.pure] using h
    simpa using Refit.refl hs hQ
  | cons node rest ih =>
    unfold scan at h
    split_ifs at h with hhalt hy hlen
    · obtain ⟨-, rfl⟩ : false = b ∧ before ++ x :: mid ++ node :: rest = r' := by
        simpa [pure, Except.pure] using h
      simpa using Refit.refl hs hQ
    · obtain ⟨⟨s', stop, seg⟩, hseg, h⟩ := bind_ok.mp h
      have hfit : Refit Q (x :: (mid ++ [node])) seg := by
        refine hf _ _ _ _ _ _ (hr.stretch hx hy) (hs.stretch hx hy) (fun n hn => hQ n ?_) hseg
        exact List.mem_append_right before (RouteJ.stretch_subset x node mid rest hn)
      have hday := hfit.splice hx hy hs hQ
      cases stop with
      | true =>
        obtain ⟨-, rfl⟩ : true = b ∧ before ++ PPView.splice (x :: mid) seg ++
          node :: rest = r' := by
          simpa [pure, Except.pure] using h
        exact hday
      | false =>
        refine hday.trans ?_
        have := ih _ [] hy (hday.valid hr) hday.scheduled hday.all (by simpa using h)
        simpa using this
    · obtain rfl : mid = [] := by simpa using hlen
      have := ih (before ++ [x]) [] hy (by simpa using hr)
        (by simpa using hs) (by simpa using hQ) h
      simpa using this
    · have := ih before (mid ++ [node]) hx (by simpa using hr) (by simpa using hs)
        (by simpa using hQ) h
      simpa using this

/-- If the work on each stretch reschedules it, the walk reschedules the day. -/
theorem scan_spec
    (hf : ∀ i s seg s' stop seg', RouteJ.Valid seg → RouteJ.Scheduled seg → (∀ n ∈ seg, Q n) →
      f i s seg = .ok (s', stop, seg') → Refit Q seg seg')
    {s : σ} {r r' : RouteJ} {b : Bool} (hr : RouteJ.Valid r) (hs : RouteJ.Scheduled r)
    (hQ : ∀ n ∈ r, Q n) (h : scan halt f s [] [] r = .ok (b, r')) : Refit Q r r' := by
  obtain ⟨first, mid, last, rfl⟩ := hr.exists_eq
  have hx : first.isFixed := hr.first first (by simp)
  unfold scan at h
  split_ifs at h with hhalt hlen
  · obtain ⟨-, rfl⟩ : false = b ∧ first :: (mid ++ [last]) = r' := by
      simpa [pure, Except.pure] using h
    exact Refit.refl hs hQ
  · simp at hlen
  · exact scan_spec_aux hf [] [] hx hr hs hQ h

end Rule

/-! ## Stretch by stretch -/

namespace RouteJ

/-- The stretches that end in `rest`, when the current one has the nodes `cur`. -/
def stretchesFrom (cur : RouteJ) : RouteJ → List RouteJ
  | [] => []
  | n :: rest =>
    if n.isFixed then (cur ++ [n]) :: stretchesFrom [n] rest else stretchesFrom (cur ++ [n]) rest

/-- The stretches of a route from each fixed node to the next, with both ends. -/
def stretches : RouteJ → List RouteJ
  | [] => []
  | n :: rest => stretchesFrom [n] rest

theorem stretchesFrom_append {cur mid : RouteJ} (h : ∀ n ∈ mid, n.isFixed = false) (rest : RouteJ) :
    stretchesFrom cur (mid ++ rest) = stretchesFrom (cur ++ mid) rest := by
  induction mid generalizing cur with
  | nil => simp
  | cons n mid ih =>
    obtain ⟨hn, hmid⟩ := List.forall_mem_cons.mp h
    rw [List.cons_append, stretchesFrom, if_neg (by simp [hn]), ih hmid, List.append_assoc]
    rfl

theorem stretchesFrom_cons_of_isFixed {y : NodeJ} (hy : y.isFixed) (cur rest : RouteJ) :
    stretchesFrom cur (y :: rest) = (cur ++ [y]) :: stretches (y :: rest) := by
  rw [stretchesFrom, if_pos hy, stretches]

theorem stretchesFrom_cons_of_not_isFixed {n : NodeJ} (hn : ¬ n.isFixed) (cur rest : RouteJ) :
    stretchesFrom cur (n :: rest) = stretchesFrom (cur ++ [n]) rest := by
  rw [stretchesFrom, if_neg hn]

theorem stretches_cons_append {mid : RouteJ} (h : ∀ n ∈ mid, n.isFixed = false) (x : NodeJ)
    (rest : RouteJ) : stretches (x :: (mid ++ rest)) = stretchesFrom (x :: mid) rest :=
  stretchesFrom_append h rest

theorem stretches_cons_append_cons {mid : RouteJ} (h : ∀ n ∈ mid, n.isFixed = false) {y : NodeJ}
    (hy : y.isFixed) (x : NodeJ) (rest : RouteJ) :
    stretches (x :: (mid ++ y :: rest)) = (x :: (mid ++ [y])) :: stretches (y :: rest) := by
  rw [stretches_cons_append h, stretchesFrom_cons_of_isFixed hy, List.cons_append]

theorem stretchesFrom_map_skeleton (cur rest : RouteJ) :
    stretchesFrom (cur.map skeleton) (rest.map skeleton) =
      (stretchesFrom cur rest).map (List.map skeleton) := by
  induction rest generalizing cur with
  | nil => rfl
  | cons n rest ih =>
    have hcur : cur.map skeleton ++ [n.skeleton] = (cur ++ [n]).map skeleton := by simp
    rw [List.map_cons, stretchesFrom, stretchesFrom, skeleton_isFixed, hcur]
    split_ifs
    · rw [List.map_cons, ← ih [n]]
      rfl
    · exact ih (cur ++ [n])

theorem stretches_map_skeleton (r : RouteJ) :
    stretches (r.map skeleton) = (stretches r).map (List.map skeleton) := by
  cases r with
  | nil => rfl
  | cons n rest => exact stretchesFrom_map_skeleton [n] rest

/-- The stretches of a beginning of a route are stretches of the route. -/
theorem mem_stretches_of_take {r seg : RouteJ} {k : Nat} (h : seg ∈ stretches (r.take k)) :
    seg ∈ stretches r := by
  have hfrom (cur rest : RouteJ) (k : Nat) (h : seg ∈ stretchesFrom cur (rest.take k)) :
      seg ∈ stretchesFrom cur rest := by
    induction rest generalizing cur k with
    | nil => simp [stretchesFrom] at h
    | cons n rest ih =>
      cases k with
      | zero => simp [stretchesFrom] at h
      | succ k =>
        rw [List.take_succ_cons, stretchesFrom] at h
        rw [stretchesFrom]
        split_ifs at h ⊢
        · exact List.mem_cons.mpr ((List.mem_cons.mp h).imp_right (ih [n] k))
        · exact ih _ k h
  cases r with
  | nil => simpa using h
  | cons n rest =>
    cases k with
    | zero => simp [stretches] at h
    | succ k => exact hfrom [n] rest k h

/-- A stretch of a route that has the skeletons of a beginning of `r` is one of `r` up to what
planning changes. -/
theorem exists_mem_stretches {r out seg : RouteJ}
    (hskel : out.map skeleton = (r.take out.length).map skeleton) (h : seg ∈ stretches out) :
    ∃ seg' ∈ stretches r, seg'.map skeleton = seg.map skeleton := by
  have hmem : seg.map skeleton ∈ (stretches (r.take out.length)).map (List.map skeleton) := by
    rw [← stretches_map_skeleton, ← hskel, stretches_map_skeleton]
    exact List.mem_map_of_mem h
  obtain ⟨seg', hseg', heq⟩ := List.mem_map.mp hmem
  exact ⟨seg', mem_stretches_of_take hseg', heq⟩

/-- Only the ends of a stretch are fixed. -/
theorem exists_of_mem_stretchesFrom {x : NodeJ} {mid rest seg : RouteJ} (hx : x.isFixed)
    (hmid : ∀ n ∈ mid, n.isFixed = false) (h : seg ∈ stretchesFrom (x :: mid) rest) :
    ∃ x' mid' y', seg = x' :: (mid' ++ [y']) ∧ x'.isFixed ∧ y'.isFixed ∧
      (∀ n ∈ mid', n.isFixed = false) ∧ ∀ n ∈ seg, n ∈ x :: (mid ++ rest) := by
  induction rest generalizing x mid with
  | nil => simp [stretchesFrom] at h
  | cons n rest ih =>
    rw [stretchesFrom] at h
    split_ifs at h with hn
    · rcases List.mem_cons.mp h with rfl | h
      · exact ⟨x, mid, n, rfl, hx, hn, hmid, stretch_subset x n mid rest⟩
      · obtain ⟨x', mid', y', hseg, hx', hy', hmid', hmem⟩ := ih hn (by simp) h
        refine ⟨x', mid', y', hseg, hx', hy', hmid', fun m hm => ?_⟩
        have := hmem m hm
        simp only [List.mem_cons, List.nil_append, List.mem_append] at this ⊢
        tauto
    · obtain ⟨x', mid', y', hseg, hx', hy', hmid', hmem⟩ :=
        ih hx (List.forall_mem_append.mpr ⟨hmid, by simpa using hn⟩) h
      exact ⟨x', mid', y', hseg, hx', hy', hmid', fun m hm => by simpa using hmem m hm⟩

/-- A stretch has two nodes more than free ones. -/
theorem Begun.length_of_mem_stretches {r seg : RouteJ} (hr : Begun r) (h : seg ∈ stretches r) :
    seg.length = seg.countP isFree + 2 := by
  cases r with
  | nil => simp [stretches] at h
  | cons first rest =>
    obtain ⟨x, mid, y, rfl, hx, hy, hmid, hmem⟩ :=
      exists_of_mem_stretchesFrom (hr.first first (by simp)) (by simp) h
    have hsingle : ∀ n ∈ x :: (mid ++ [y]), n.Single := fun n hn =>
      checkNodeJ_xor (hr.check n (hmem n hn))
    have hall : mid.countP isFree = mid.length :=
      List.countP_eq_length.mpr fun n hn => (hsingle n (by simp [hn])).isFree (hmid n hn)
    have hx' := (hsingle x (by simp)).not_isFree hx
    have hy' := (hsingle y (by simp)).not_isFree hy
    simp [hall, hx', hy']

end RouteJ

section Forall₂

variable {σ : Type} {halt : NodeJ → Bool} {f : Nat → σ → RouteJ → Res (σ × Bool × RouteJ)}
  {P : RouteJ → Prop} {M : NodeJ → NodeJ → Prop} {R : RouteJ → RouteJ → Prop}

/-- What the work on a stretch with `P` has to meet: `M` relates the nodes strictly inside before
and after it, and `R` the whole stretch. -/
def Works (P : RouteJ → Prop) (f : Nat → σ → RouteJ → Res (σ × Bool × RouteJ))
    (M : NodeJ → NodeJ → Prop) (R : RouteJ → RouteJ → Prop) : Prop :=
  ∀ i s x mid y, RouteJ.Valid (x :: (mid ++ [y])) → RouteJ.Scheduled (x :: (mid ++ [y])) →
    P (x :: (mid ++ [y])) → ∃ s' stop x' mid' y',
      f i s (x :: (mid ++ [y])) = .ok (s', stop, x' :: (mid' ++ [y'])) ∧
      List.Forall₂ M mid mid' ∧ R (x :: (mid ++ [y])) (x :: (mid' ++ [y]))

theorem forall₂_refl_of (hMrefl : ∀ n, M n n) (r : RouteJ) :
    List.Forall₂ (fun n n' => M n n' ∧ (n.isFixed → n' = n)) r r :=
  List.forall₂_same.mpr fun n _ => ⟨hMrefl n, fun _ => rfl⟩

/-- Between two fixed nodes only free ones are treated, which stay free. -/
theorem forall₂_of_free (hM : ∀ n n', M n n' → n'.isFixed = n.isFixed) {mid mid' : RouteJ}
    (hmid : ∀ n ∈ mid, n.isFixed = false) (h : List.Forall₂ M mid mid') :
    (∀ n ∈ mid', n.isFixed = false) ∧
      List.Forall₂ (fun n n' => M n n' ∧ (n.isFixed → n' = n)) mid mid' := by
  constructor
  · intro n' hn'
    obtain ⟨n, hn, hrel⟩ := forall₂_mem_right h hn'
    rw [hM n n' hrel, hmid n hn]
  · exact ((List.forall₂_and_left _ _).mpr ⟨hmid, h⟩).imp fun n n' ⟨hfree, hrel⟩ =>
      ⟨hrel, fun hfix => absurd (hfree.symm.trans hfix) Bool.false_ne_true⟩

/-- The rest of the day follows a treated stretch. -/
theorem forall₂_stretch_append (hM : ∀ n n', M n n' → n'.isFixed = n.isFixed)
    (hMrefl : ∀ n, M n n) {x y : NodeJ} (hy : y.isFixed) {mid mid' rest rest' : RouteJ}
    (hmid : ∀ n ∈ mid, n.isFixed = false) (h : List.Forall₂ M mid mid')
    (hR : R (x :: (mid ++ [y])) (x :: (mid' ++ [y])))
    (hrest : List.Forall₂ (fun n n' => M n n' ∧ (n.isFixed → n' = n)) rest rest')
    (hRs : List.Forall₂ R (RouteJ.stretches (y :: rest)) (RouteJ.stretches (y :: rest'))) :
    List.Forall₂ (fun n n' => M n n' ∧ (n.isFixed → n' = n)) (mid ++ y :: rest)
        (mid' ++ y :: rest') ∧
      List.Forall₂ R (RouteJ.stretchesFrom (x :: mid) (y :: rest))
        (RouteJ.stretches (x :: (mid' ++ y :: rest'))) := by
  obtain ⟨hmid', hinside⟩ := forall₂_of_free hM hmid h
  refine ⟨List.rel_append hinside (.cons ⟨hMrefl y, fun _ => rfl⟩ hrest), ?_⟩
  rw [RouteJ.stretchesFrom_cons_of_isFixed hy, RouteJ.stretches_cons_append_cons hmid' hy]
  exact .cons hR hRs

theorem scan_forall₂_aux (hM : ∀ n n', M n n' → n'.isFixed = n.isFixed) (hMrefl : ∀ n, M n n)
    (hRrefl : ∀ seg, R seg seg) (hf : Works P f M R) (s : σ) (before mid : RouteJ) {rest : RouteJ}
    {x : NodeJ} (hx : x.isFixed) (hmid : ∀ n ∈ mid, n.isFixed = false)
    (hcheck : ∀ n ∈ x :: (mid ++ rest), n.checkNodeJ)
    (hs : RouteJ.Scheduled (x :: (mid ++ rest)))
    (hP : ∀ seg ∈ RouteJ.stretchesFrom (x :: mid) rest, P seg) :
    ∃ b tail, scan halt f s before (x :: mid) rest = .ok (b, before ++ x :: tail) ∧
      List.Forall₂ (fun n n' => M n n' ∧ (n.isFixed → n' = n)) (mid ++ rest) tail ∧
      List.Forall₂ R (RouteJ.stretchesFrom (x :: mid) rest) (RouteJ.stretches (x :: tail)) := by
  have hRs (rs : List RouteJ) : List.Forall₂ R rs rs :=
    List.forall₂_same.mpr fun seg _ => hRrefl seg
  induction rest generalizing s before mid x with
  | nil =>
    refine ⟨true, mid, rfl, by simpa using forall₂_refl_of hMrefl mid, ?_⟩
    rw [← RouteJ.stretches_cons_append hmid x [], List.append_nil]
    exact hRs _
  | cons node rest ih =>
    unfold scan
    split_ifs with hhalt hy hlen
    · refine ⟨false, mid ++ node :: rest, by simp [pure, Except.pure], forall₂_refl_of hMrefl _, ?_⟩
      rw [RouteJ.stretches_cons_append hmid]
      exact hRs _
    · -- the end of a stretch with something inside
      rw [RouteJ.stretchesFrom_cons_of_isFixed hy, List.forall_mem_cons] at hP
      obtain ⟨⟨hvalid, hs₁⟩, hcheck', hs₂⟩ := RouteJ.expanded_stretch hx hy hcheck hs
      obtain ⟨s', stop, x', mid', y', hseg, hM', hR⟩ :=
        hf (before.length + (x :: mid).length) s x mid node hvalid hs₁ hP.1
      have hcall : f (before.length + (x :: mid).length) s (x :: mid ++ [node]) =
          .ok (s', stop, x' :: (mid' ++ [y'])) := hseg
      rw [hcall]
      simp only [bind, Except.bind, splice_eq hM'.length_eq.symm]
      cases stop with
      | true =>
        obtain ⟨h1, h2⟩ := forall₂_stretch_append hM hMrefl hy hmid hM' hR
          (forall₂_refl_of hMrefl rest) (hRs _)
        exact ⟨true, _, by simp [pure, Except.pure], h1, h2⟩
      | false =>
        obtain ⟨b, tail, hscan, h1, h2⟩ := ih s' (before ++ x :: mid') [] hy
          (by simp) hcheck' hs₂ hP.2
        obtain ⟨h1, h2⟩ := forall₂_stretch_append hM hMrefl hy hmid hM' hR (by simpa using h1) h2
        exact ⟨b, _, by simpa using hscan, h1, h2⟩
    · -- two fixed nodes next to each other
      obtain rfl : mid = [] := by simpa using hlen
      rw [RouteJ.stretchesFrom_cons_of_isFixed hy, List.forall_mem_cons] at hP
      obtain ⟨-, hcheck', hs₂⟩ := RouteJ.expanded_stretch hx hy hcheck hs
      obtain ⟨b, tail, hscan, h1, h2⟩ := ih s (before ++ [x]) [] hy (by simp) hcheck' hs₂ hP.2
      obtain ⟨h1, h2⟩ := forall₂_stretch_append hM hMrefl hy hmid .nil (hRrefl _)
        (by simpa using h1) h2
      exact ⟨b, node :: tail, by simpa using hscan, h1, h2⟩
    · rw [RouteJ.stretchesFrom_cons_of_not_isFixed hy] at hP
      obtain ⟨b, tail, hscan, h1, h2⟩ := ih s before (mid ++ [node]) hx
        (List.forall_mem_append.mpr ⟨hmid, by simpa using hy⟩) (by simpa using hcheck)
        (by simpa using hs) hP
      refine ⟨b, tail, by simpa using hscan, by simpa using h1, ?_⟩
      rw [RouteJ.stretchesFrom_cons_of_not_isFixed hy]
      exact h2

/-- The walk over a scheduled day ends. If the work on a stretch meets `M` and `R`, then so does
the day, node by node and stretch by stretch, and its fixed nodes stay as they are. -/
theorem scan_forall₂ (hM : ∀ n n', M n n' → n'.isFixed = n.isFixed) (hMrefl : ∀ n, M n n)
    (hRrefl : ∀ seg, R seg seg) (hf : Works P f M R) {r : RouteJ} (hr : RouteJ.Begun r)
    (hP : ∀ seg ∈ r.stretches, P seg) (s : σ) :
    ∃ b r', scan halt f s [] [] r = .ok (b, r') ∧
      List.Forall₂ (fun n n' => M n n' ∧ (n.isFixed → n' = n)) r r' ∧
      List.Forall₂ R r.stretches r'.stretches := by
  cases r with
  | nil => exact ⟨true, [], rfl, .nil, .nil⟩
  | cons first rest =>
    have hx : first.isFixed := hr.first first (by simp)
    unfold scan
    split_ifs with hhalt hlen
    · exact ⟨false, _, rfl, List.forall₂_same.mpr fun n _ => ⟨hMrefl n, fun _ => rfl⟩,
        List.forall₂_same.mpr fun seg _ => hRrefl seg⟩
    · simp at hlen
    · obtain ⟨b, tail, hscan, h1, h2⟩ := scan_forall₂_aux hM hMrefl hRrefl hf s [] [] hx (by simp)
        hr.check hr.scheduled hP
      exact ⟨b, _, hscan, .cons ⟨hMrefl first, fun _ => rfl⟩ h1, h2⟩

end Forall₂

end PPView
