import Mathlib.Data.List.Induction
import Mathlib.Tactic.TypeStar

/-!
# Systems and what they show

A system takes steps, and each step shows an event. A specification is a machine that follows the
events and says which of them may come next. A system that is simulated by a specification shows
only what it allows, in every run.
-/

namespace PPView

variable {S E Q A : Type*}

/-! ## Events and what is before them -/

theorem split_concat {trace before behind : List E} {e e' : E}
    (h : trace ++ [e'] = before ++ e :: behind) :
    (trace = before ∧ e' = e) ∨
      ∃ behind', behind = behind' ++ [e'] ∧ trace = before ++ e :: behind' := by
  rcases List.eq_nil_or_concat behind with rfl | ⟨behind, last, rfl⟩
  · exact .inl (List.append_singleton_inj.mp h)
  · rw [List.concat_eq_append, ← List.cons_append, ← List.append_assoc,
      List.append_singleton_inj] at h
    obtain ⟨htrace, rfl⟩ := h
    exact .inr ⟨behind, List.concat_eq_append, htrace⟩

/-- One more event, and what holds of each event and those before it. -/
theorem forall_split_concat {P : List E → E → Prop} {trace : List E} {e' : E} :
    (∀ before e behind, trace ++ [e'] = before ++ e :: behind → P before e) ↔
      (∀ before e behind, trace = before ++ e :: behind → P before e) ∧ P trace e' := by
  constructor
  · intro h
    refine ⟨fun before e behind heq => h before e (behind ++ [e']) ?_, h trace e' [] rfl⟩
    rw [heq, List.append_assoc, List.cons_append]
  · rintro ⟨htrace, he'⟩ before e behind heq
    rcases split_concat heq with ⟨rfl, rfl⟩ | ⟨behind', -, heq'⟩
    · exact he'
    · exact htrace before e behind' heq'

/-! ## Systems -/

structure System (S E : Type*) where
  Start : S → Prop
  Step : S → E → S → Prop

namespace System

/-- The system of a step function. An action that cannot be taken gives `none`. -/
def ofStep (Start : S → Prop) (step : S → A → Option (S × E)) : System S E where
  Start := Start
  Step s e s' := ∃ a, step s a = some (s', e)

variable {sys : System S E}

/-- The runs of a system, with the events they show, the oldest first. -/
inductive Run (sys : System S E) : S → List E → Prop
  | start {s : S} (h : sys.Start s) : Run sys s []
  | step {s s' : S} {trace : List E} {e : E} (run : Run sys s trace) (h : sys.Step s e s') :
      Run sys s' (trace ++ [e])

end System

/-! ## Specifications -/

structure Spec (Q E : Type*) where
  start : Q
  next : Q → E → Q
  Allows : Q → E → Prop

namespace Spec

variable (spec : Spec Q E)

def after (trace : List E) : Q := trace.foldl spec.next spec.start

/-- Every event is one that is allowed behind those before it. -/
def Legal (trace : List E) : Prop :=
  ∀ before e behind, trace = before ++ e :: behind → spec.Allows (spec.after before) e

variable {spec}

@[simp] theorem after_nil : spec.after [] = spec.start := rfl

@[simp] theorem after_concat (trace : List E) (e : E) :
    spec.after (trace ++ [e]) = spec.next (spec.after trace) e := by
  simp [after]

theorem legal_nil : spec.Legal [] := by
  intro before e behind h
  simp at h

theorem legal_concat {trace : List E} {e : E} :
    spec.Legal (trace ++ [e]) ↔ spec.Legal trace ∧ spec.Allows (spec.after trace) e :=
  forall_split_concat

theorem Legal.of_append {before behind : List E} (h : spec.Legal (before ++ behind)) :
    spec.Legal before := by
  intro front e back heq
  exact h front e (back ++ behind) (by simp [heq])

theorem Legal.not_mem {trace : List E} {e : E} (h : spec.Legal trace)
    (he : ∀ q, ¬spec.Allows q e) : e ∉ trace := by
  intro hmem
  obtain ⟨before, behind, heq⟩ := List.append_of_mem hmem
  exact he _ (h before e behind heq)

/-- What holds at first and is kept by every allowed event holds after every legal trace. -/
theorem Legal.invariant (Inv : Q → Prop) (hstart : Inv spec.start)
    (hnext : ∀ q e, Inv q → spec.Allows q e → Inv (spec.next q e)) {trace : List E}
    (h : spec.Legal trace) : Inv (spec.after trace) := by
  induction trace using List.reverseRecOn with
  | nil => exact hstart
  | append_singleton trace e ih =>
    obtain ⟨htrace, he⟩ := legal_concat.mp h
    rw [after_concat]
    exact hnext _ _ (ih htrace) he

end Spec

/-! ## Simulation -/

/-- Each step of the system is an event that the specification allows, and keeps the two in
step. -/
structure Simulates (sys : System S E) (spec : Spec Q E) (R : S → Q → Prop) : Prop where
  start : ∀ s, sys.Start s → R s spec.start
  step : ∀ s q e s', R s q → sys.Step s e s' → spec.Allows q e ∧ R s' (spec.next q e)

theorem Simulates.run {sys : System S E} {spec : Spec Q E} {R : S → Q → Prop}
    (h : Simulates sys spec R) {s : S} {trace : List E} (hrun : sys.Run s trace) :
    spec.Legal trace ∧ R s (spec.after trace) := by
  induction hrun with
  | start hs => exact ⟨Spec.legal_nil, h.start _ hs⟩
  | step run hstep ih =>
    obtain ⟨hallows, hrel⟩ := h.step _ _ _ _ ih.2 hstep
    rw [Spec.after_concat]
    exact ⟨Spec.legal_concat.mpr ⟨ih.1, hallows⟩, hrel⟩

end PPView
