import Mathlib.Data.List.Infix

/-!
# Effects that may be repeated

Each element of a list has an effect on a state, which is done from then on and changes nothing when
it is repeated. A loop over such effects may do some of those that are still to come ahead of time.
-/

namespace PPView.Repeats

variable {α σ : Type*}

/-- The states are those for which `ok` holds. -/
structure Repeatable (f : α → σ → σ) (Done : α → σ → Prop) (ok : σ → Prop) : Prop where
  done : ∀ x s, Done x (f x s)
  keep : ∀ x y s, Done x s → Done x (f y s)
  noop : ∀ x s, ok s → Done x s → f x s = s
  ok_f : ∀ x s, ok s → ok (f x s)

def run (f : α → σ → σ) (l : List α) (s : σ) : σ := l.foldl (fun s x => f x s) s

/-- The loop, where `again` does what it likes behind each effect. -/
def loop (f : α → σ → σ) (again : α → σ → Option σ) : List α → σ → Option σ
  | [], s => some s
  | x :: l, s => do loop f again l (← again x (f x s))

variable {f : α → σ → σ} {Done : α → σ → Prop} {ok : σ → Prop} {l l' S : List α} {s : σ} {x : α}

@[simp] theorem run_nil (s : σ) : run f [] s = s := rfl

@[simp] theorem run_cons (x : α) (l : List α) (s : σ) : run f (x :: l) s = run f l (f x s) := rfl

theorem run_append (l l' : List α) (s : σ) : run f (l ++ l') s = run f l' (run f l s) :=
  List.foldl_append ..

theorem loop_append (again : α → σ → Option σ) (l l' : List α) (s : σ) :
    loop f again (l ++ l') s = (loop f again l s).bind (loop f again l') := by
  induction l generalizing s with
  | nil => rfl
  | cons x l ih =>
    rw [List.cons_append, loop, loop]
    cases again x (f x s) with
    | none => rfl
    | some s' => exact ih s'

namespace Repeatable

variable (h : Repeatable f Done ok)

include h

theorem ok_run (hs : ok s) : ok (run f l s) := by
  induction l generalizing s with
  | nil => exact hs
  | cons x l ih => exact ih (h.ok_f x s hs)

theorem keep_run (hx : Done x s) : Done x (run f l s) := by
  induction l generalizing s with
  | nil => exact hx
  | cons y l ih => exact ih (h.keep x y s hx)

theorem done_run (hx : x ∈ l) : Done x (run f l s) := by
  induction l generalizing s with
  | nil => contradiction
  | cons y l ih =>
    rw [run_cons]
    rcases List.mem_cons.mp hx with rfl | hx
    · exact h.keep_run (h.done x s)
    · exact ih hx

theorem run_of_done (hs : ok s) (hl : ∀ x ∈ l, Done x s) : run f l s = s := by
  induction l with
  | nil => rfl
  | cons x l ih =>
    rw [run_cons, h.noop x s hs (hl x List.mem_cons_self)]
    exact ih fun y hy => hl y (List.mem_cons_of_mem _ hy)

/-- What is done already may be left out. -/
theorem run_filter {q : α → Bool} (hs : ok s) (hl : ∀ x ∈ l, ¬ q x → Done x s) :
    run f (l.filter q) s = run f l s := by
  induction l generalizing s with
  | nil => rfl
  | cons x l ih =>
    obtain ⟨hx, hl⟩ := List.forall_mem_cons.mp hl
    by_cases hq : q x
    · rw [List.filter_cons_of_pos hq, run_cons, run_cons]
      exact ih (h.ok_f x s hs) fun y hy hqy => h.keep y x s (hl y hy hqy)
    · rw [List.filter_cons_of_neg hq, run_cons, h.noop x s hs (hx hq)]
      exact ih hs hl

theorem run_prefix (hs : ok s) (hl : l <+: S) : run f S (run f l s) = run f S s := by
  obtain ⟨rest, rfl⟩ := hl
  rw [run_append, run_append, h.run_of_done (h.ok_run hs) fun x hx => h.done_run hx]

/-- The effect of the next element, where some of those that follow may be done. -/
theorem run_step {P P' R : List α} (hs : ok s) (hP : P <+: P') (hP' : P' <+: P ++ x :: R) :
    ∃ Q, P ++ [x] <+: Q ∧ Q <+: P ++ x :: R ∧ f x (run f P' s) = run f Q s := by
  obtain ⟨M, rfl⟩ := hP
  have hM : M <+: x :: R := (List.prefix_append_right_inj P).mp hP'
  rcases List.prefix_cons_iff.mp hM with rfl | ⟨M', rfl, hM'⟩
  · refine ⟨P ++ [x], List.prefix_rfl, ⟨R, by simp⟩, ?_⟩
    rw [List.append_nil, run_append]
    rfl
  · refine ⟨P ++ x :: M', ⟨M', by simp⟩, hP', ?_⟩
    exact h.noop x _ (h.ok_run hs) (h.done_run (by simp))

/-- A loop that only does effects of its own list ahead does just those. -/
theorem loop_eq {again : α → σ → Option σ} (hs : ok s)
    (hagain : ∀ x ∈ S, ∀ P, P <+: S → x ∈ P →
      ∃ Q, P <+: Q ∧ Q <+: S ∧ again x (run f P s) = some (run f Q s)) :
    loop f again S s = some (run f S s) := by
  suffices hloop : ∀ R P P', P ++ R = S → P <+: P' → P' <+: S →
      loop f again R (run f P' s) = some (run f S s) from
        hloop S [] [] rfl List.prefix_rfl (by simp)
  intro R
  induction R with
  | nil =>
    rintro P P' rfl hP hP'
    rw [List.append_nil] at hP' ⊢
    rw [hP.eq_of_length (Nat.le_antisymm hP.length_le hP'.length_le)]
    rfl
  | cons x R ih =>
    rintro P P' rfl hP hP'
    obtain ⟨Q, hPQ, hQ, hstep⟩ := h.run_step hs hP hP'
    obtain ⟨Q', hQQ', hQ', hnext⟩ := hagain x (by simp) Q hQ (hPQ.subset (by simp))
    rw [loop, hstep, hnext]
    exact ih (P ++ [x]) Q' (by simp) (hPQ.trans hQQ') hQ'

end Repeatable

end PPView.Repeats
