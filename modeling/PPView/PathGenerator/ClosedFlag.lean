import PPView.PathGenerator.DayPathExpandOpt

/-!
# The closed flag

`setNodeError` raises flag 4 on a free node that is closed at its slot, and nothing lowers it
when a later expansion moves the node to a slot at which it is open. `reopens r` is that event,
read off the route `r` before the pass; `flagExact_iff` says that it alone spoils the flags.
-/

namespace PPView

open NodeJ

/-- The flag 4 of a free node says whether it is closed at its time. -/
def NodeJ.FlagExact (n : NodeJ) : Prop :=
  n.isFree → (n.error 4 = 1 ↔ n.isOpen n.openIdx = .ok false)

namespace PathGenerator

/-- The nodes after `last` at the slots that a pass gives them, with the flags they have
before it. -/
def layOut : (last : NodeJ) → RouteJ → RouteJ
  | _, [] => []
  | last, n :: rest =>
    match last.traffic n.ident with
    | none => []
    | some traf =>
      let m := { n with time := n.slot (last.time.2 + traf) }
      m :: layOut m rest

/-- A pass over `r` moves a node that is marked closed to a slot at which it is open. -/
def reopens : RouteJ → Bool
  | [] => false
  | n :: rest => (layOut { n with time := n.session } rest).any fun m =>
      m.isFree && m.error 4 == 1 && m.openNow

theorem flagExact_arranged {g : PathGenerator} {n : NodeJ} {stime : Int} (hidx : n.idxOk) :
    (g.arranged stime n).FlagExact ↔
      ¬ (n.isFree ∧ n.error 4 = 1 ∧ ({ n with time := n.slot stime } : NodeJ).openNow) := by
  have hopen : (g.arranged stime n).isOpen (g.arranged stime n).openIdx =
      .ok ({ n with time := n.slot stime } : NodeJ).openNow :=
    isOpen_eq (n := g.arranged stime n) hidx
  have hfree : (g.arranged stime n).isFree = n.isFree := rfl
  rw [FlagExact, hopen, hfree, arranged_error]
  cases hf : n.isFree with
  | false => simp
  | true => cases ho : ({ n with time := n.slot stime } : NodeJ).openNow <;> simp [raises, hf, ho]

theorem Expansion.flagExact_iff {g : PathGenerator} {p : NodeJ} {rest tail : RouteJ} {b : Bool}
    (h : Expansion g rest tail b) (hb : b) (hnext : g.lastNode.toNext = p.toNext)
    (htime : g.lastNode.time = p.time) :
    (∀ m ∈ tail, m.FlagExact) ↔
      ((layOut p rest).any fun m => m.isFree && m.error 4 == 1 && m.openNow) = false := by
  induction h generalizing p with
  | nil => simp [layOut]
  | noEdge => simp at hb
  | @cons g n rest _ _ stime ha hidx _ ih =>
    obtain ⟨traf, htraf, rfl⟩ := Option.map_eq_some_iff.mp ha
    have htraf' : p.traffic n.ident = some traf := by
      rw [← htraf]
      simp only [traffic, members, hnext]
    have hrest := ih (p := { n with time := n.slot (p.time.2 + traf) }) hb (by simp [arranged])
      (by simp [arranged, htime])
    rw [List.forall_mem_cons, flagExact_arranged hidx, hrest]
    simp only [layOut, htraf', List.any_cons, Bool.or_eq_false_iff, htime]
    refine and_congr ?_ Iff.rfl
    simp [isFree]

/-- After a pass over a valid linked route all flags are exact iff the pass reopens no node. -/
theorem flagExact_iff {r r' : RouteJ} (hr : RouteJ.Valid r) (hl : RouteJ.Linked r)
    (h : expandCopy r = .ok r') : (∀ n ∈ r', n.FlagExact) ↔ reopens r = false := by
  obtain ⟨n, mid, last, rfl⟩ := hr.exists_eq
  obtain ⟨⟨b, g'⟩, hg', hr'⟩ := bind_ok.mp h
  obtain rfl : g'.outRouteJ = r' := by simpa [pure, Except.pure] using hr'
  have hin := create_inRouteJ hr {}
  obtain ⟨tail, htail, rfl⟩ := (dayPathExpand_eq_ok (by rwa [hin]) hin).mp hg'
  have hb : b := by
    rw [← htail.linked_iff, lastNode_append]
    exact (isChain_hasEdge_cons { n with time := n.session } n rfl).mpr hl
  have hfirst : ({ n with time := n.session } : NodeJ).FlagExact := by
    intro hf
    have hx := hr.first n (by simp)
    have hfree := (hr.single (List.mem_cons_self ..)).not_isFree hx
    exact absurd hf (by simpa [isFree] using hfree)
  have := htail.flagExact_iff (p := { n with time := n.session }) hb (by simp) (by simp)
  simp only [create, List.nil_append, List.forall_mem_cons, hfirst, true_and, this, reopens]

theorem error_of_mem_layOut {m p : NodeJ} {r : RouteJ} (h : m ∈ layOut p r) :
    ∃ n ∈ r, m.error = n.error := by
  induction r generalizing p with
  | nil => simp [layOut] at h
  | cons n rest ih =>
    rw [layOut] at h
    cases htraf : p.traffic n.ident with
    | none => simp [htraf] at h
    | some traf =>
      rw [htraf] at h
      rcases List.mem_cons.mp h with rfl | h
      · exact ⟨n, List.mem_cons_self, rfl⟩
      · obtain ⟨n', hn', herror⟩ := ih h
        exact ⟨n', List.mem_cons_of_mem n hn', herror⟩

/-- A pass that starts with all flags cleared reopens nothing. -/
theorem reopens_setDefaultError (r : RouteJ) : reopens (r.map setDefaultError) = false := by
  cases r with
  | nil => rfl
  | cons n rest =>
    rw [List.map_cons, reopens, List.any_eq_false]
    intro m hm
    obtain ⟨n', hn', herror⟩ := error_of_mem_layOut hm
    obtain ⟨n'', -, rfl⟩ := List.mem_map.mp hn'
    simp [herror, setDefaultError]

end PathGenerator

end PPView
