import Mathlib.Data.List.Nodup
import Mathlib.Logic.Function.Basic

/-!
# Rings of links

Nodes with a link to the next node and one to the previous. `IsRing l head xs` says that the links
lead from `head` through `xs` and back to `head`, and the other way round. The two edits are stated
by what they have to write: `IsRing.insert` puts a node behind `head`, and `IsRing.remove` takes a
node out wherever it is. The links of nodes outside the ring do not matter.
-/

namespace PPView

structure Links (α : Type*) where
  next : α → α
  prev : α → α

namespace Links

variable {α : Type*}

section Writes

variable [DecidableEq α] (l : Links α) (n m k : α)

def setNext : Links α := { l with next := Function.update l.next n m }

def setPrev : Links α := { l with prev := Function.update l.prev n m }

@[simp] theorem setNext_next : (l.setNext n m).next k = if k = n then m else l.next k :=
  Function.update_apply _ _ _ _

@[simp] theorem setNext_prev : (l.setNext n m).prev = l.prev := rfl

@[simp] theorem setPrev_prev : (l.setPrev n m).prev k = if k = n then m else l.prev k :=
  Function.update_apply _ _ _ _

@[simp] theorem setPrev_next : (l.setPrev n m).next = l.next := rfl

end Writes

/-- `p` and `q` are neighbours. -/
def Joined (l : Links α) (p q : α) : Prop := l.next p = q ∧ l.prev q = p

/-- The links lead from `p` through `xs` to `q` and back. -/
def Path (l : Links α) : α → List α → α → Prop
  | p, [], q => l.Joined p q
  | p, x :: xs, q => l.Joined p x ∧ l.Path x xs q

structure IsRing (l : Links α) (head : α) (xs : List α) : Prop where
  nodup : (head :: xs).Nodup
  path : l.Path head xs head

variable {l l' : Links α} {p q x y node head : α} {xs ys as bs : List α}

/-! ## Paths -/

theorem path_append : l.Path p (xs ++ x :: ys) q ↔ l.Path p xs x ∧ l.Path x ys q := by
  induction xs generalizing p with
  | nil => rfl
  | cons y xs ih =>
    simp only [List.cons_append, Path, ih, and_assoc]

/-- A path reads the next links of its nodes but the last, and the previous links of those but the
first. -/
theorem Path.congr (h : l.Path p xs q) (hnext : ∀ n ∈ p :: xs, l'.next n = l.next n)
    (hprev : ∀ n ∈ xs ++ [q], l'.prev n = l.prev n) : l'.Path p xs q := by
  induction xs generalizing p with
  | nil => exact ⟨(hnext p (by simp)).trans h.1, (hprev q (by simp)).trans h.2⟩
  | cons x xs ih =>
    refine ⟨⟨(hnext p (by simp)).trans h.1.1, (hprev x (by simp)).trans h.1.2⟩, ?_⟩
    refine ih h.2 (fun n hn => hnext n ?_) fun n hn => hprev n ?_
    · exact List.mem_cons_of_mem _ hn
    · exact List.mem_cons_of_mem _ hn

theorem Path.prev_mem (h : l.Path p xs q) : l.prev q ∈ p :: xs := by
  induction xs generalizing p with
  | nil => simp [h.2]
  | cons x xs ih => exact List.mem_cons_of_mem _ (ih h.2)

/-- A path whose last node is joined to `y` instead. -/
theorem Path.redirect (h : l.Path p xs q) (hnodup : (p :: xs).Nodup)
    (hnext : l'.next (l.prev q) = y) (hprev : l'.prev y = l.prev q)
    (hnexts : ∀ n ∈ p :: xs, n ≠ l.prev q → l'.next n = l.next n)
    (hprevs : ∀ n ∈ xs, l'.prev n = l.prev n) : l'.Path p xs y := by
  induction xs generalizing p with
  | nil =>
    rw [h.2] at hnext hprev
    exact ⟨hnext, hprev⟩
  | cons x xs ih =>
    obtain ⟨hp, hxs⟩ := List.nodup_cons.mp hnodup
    have hne : p ≠ l.prev q := fun heq => hp (heq ▸ h.2.prev_mem)
    refine ⟨⟨(hnexts p (by simp) hne).trans h.1.1, (hprevs x (by simp)).trans h.1.2⟩, ?_⟩
    exact ih h.2 hxs (fun n hn => hnexts n (List.mem_cons_of_mem _ hn))
      fun n hn => hprevs n (List.mem_cons_of_mem _ hn)

theorem Path.next_eq (h : l.Path p xs q) : l.next p = xs.head?.getD q := by
  cases xs with
  | nil => exact h.1
  | cons x xs => exact h.1.1

theorem Path.prev_eq (h : l.Path p xs q) : l.prev q = xs.getLast?.getD p := by
  induction xs generalizing p with
  | nil => exact h.2
  | cons x xs ih => rw [ih h.2, List.getLast?_cons, Option.getD_some]

theorem Path.prev_next (h : l.Path p xs q) : ∀ n ∈ p :: xs, l.prev (l.next n) = n := by
  induction xs generalizing p with
  | nil =>
    intro n hn
    obtain rfl := List.mem_singleton.mp hn
    rw [h.1, h.2]
  | cons x xs ih =>
    intro n hn
    rcases List.mem_cons.mp hn with rfl | hn
    · rw [h.1.1, h.1.2]
    · exact ih h.2 n hn

theorem Path.next_prev (h : l.Path p xs q) : ∀ n ∈ xs ++ [q], l.next (l.prev n) = n := by
  induction xs generalizing p with
  | nil =>
    intro n hn
    obtain rfl := List.mem_singleton.mp hn
    rw [h.2, h.1]
  | cons x xs ih =>
    intro n hn
    rcases List.mem_cons.mp hn with rfl | hn
    · rw [h.1.2, h.1.1]
    · exact ih h.2 n hn

/-! ## Rings -/

theorem isRing_nil : l.IsRing head [] ↔ l.Joined head head :=
  ⟨fun h => h.path, fun h => ⟨by simp, h⟩⟩

/-- In a ring the two kinds of links undo each other. -/
theorem IsRing.inverse (h : l.IsRing head xs) :
    ∀ n ∈ head :: xs, l.prev (l.next n) = n ∧ l.next (l.prev n) = n := by
  intro n hn
  refine ⟨h.path.prev_next n hn, h.path.next_prev n ?_⟩
  simpa [or_comm] using hn

theorem IsRing.insert (h : l.IsRing head xs) (hnode : node ∉ head :: xs)
    (hhead : l'.Joined head node) (hnext : l'.next node = l.next head)
    (hprev : l'.prev (l.next head) = node)
    (hnexts : ∀ n, n ≠ head → n ≠ node → l'.next n = l.next n)
    (hprevs : ∀ n, n ≠ l.next head → n ≠ node → l'.prev n = l.prev n) :
    l'.IsRing head (node :: xs) := by
  have hnodup : (head :: node :: xs).Nodup := by
    have := h.nodup
    grind
  refine ⟨hnodup, hhead, ?_⟩
  cases xs with
  | nil =>
    have heq : l.next head = head := h.path.1
    exact ⟨hnext.trans heq, heq ▸ hprev⟩
  | cons x xs =>
    have heq : l.next head = x := h.path.1.1
    refine ⟨⟨hnext.trans heq, heq ▸ hprev⟩, h.path.2.congr (fun n hn => ?_) fun n hn => ?_⟩
    · apply hnexts <;> grind
    · apply hprevs <;> grind

theorem IsRing.remove (h : l.IsRing head (as ++ node :: bs))
    (hnext : l'.next (l.prev node) = l.next node) (hprev : l'.prev (l.next node) = l.prev node)
    (hnexts : ∀ n, n ≠ l.prev node → l'.next n = l.next n)
    (hprevs : ∀ n, n ≠ l.next node → l'.prev n = l.prev n) : l'.IsRing head (as ++ bs) := by
  obtain ⟨hbefore, hbehind⟩ := path_append.mp h.path
  have hnodup := h.nodup
  have hlast := hbefore.prev_mem
  have hfirst : l.next node ∈ head :: bs := by
    rw [hbehind.next_eq]
    cases bs <;> simp
  refine ⟨by grind, ?_⟩
  have hpath : l'.Path head as (l.next node) := by
    refine hbefore.redirect (by grind) hnext hprev (fun n _ hn => hnexts n hn) fun n hn => ?_
    apply hprevs
    grind
  cases bs with
  | nil =>
    have heq : l.next node = head := hbehind.1
    rw [List.append_nil]
    exact heq ▸ hpath
  | cons x bs =>
    have heq : l.next node = x := hbehind.1.1
    refine path_append.mpr ⟨heq ▸ hpath, hbehind.2.congr (fun n hn => ?_) fun n hn => ?_⟩
    · apply hnexts
      grind
    · apply hprevs
      grind

end Links

end PPView
