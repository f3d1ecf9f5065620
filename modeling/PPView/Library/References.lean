import Mathlib.Algebra.BigOperators.Group.List.Basic
import PPView.Library.Json

/-!
# References into JSON values

`j[key]` and `j[i]` of a value that is no constant refer to a member or an item, which is there from
then on. The functions here change what is referred to, and carry a state along. What each change
keeps of an item a loop keeps of all items, but for those that it creates.
-/

namespace PPView.Json

variable {σ : Type}

/-! ## Changes -/

/-- The member `key` is changed. -/
def visit (key : String) (f : Json → Option (σ × Json)) (j : Json) : Option (σ × Json) := do
  let (s, v) ← f (j.get key)
  let j ← j.put key v
  pure (s, j)

/-- The item `i` is changed. -/
def visitItem (i : ℕ) (f : Json → Option (σ × Json)) (j : Json) : Option (σ × Json) := do
  let (s, v) ← f (← j.item i)
  let j ← j.putItem i v
  pure (s, j)

def touchIf (b : Bool) (key : String) (j : Json) : Option Json := if b then j.touch key else some j

/-- A loop over the indices below a bound. -/
def visitRange (f : ℕ → σ → Json → Option (σ × Json)) (s : σ) (j : Json) : ℕ → Option (σ × Json)
  | 0 => some (s, j)
  | n + 1 => do
    let (s, j) ← visitRange f s j n
    j.visitItem n (f n s)

/-- `j[key].asInt()` -/
def readInt (key : String) (j : Json) : Option (Int × Json) :=
  j.visit key fun v => do pure (← v.asInt, v)

/-- `j[key].asString()` -/
def readString (key : String) (j : Json) : Option (String × Json) :=
  j.visit key fun v => do pure (← v.asString, v)

/-! ## Readings -/

/-- The values that have members or can get some. -/
def isRecord : Json → Bool
  | null => true
  | obj _ => true
  | _ => false

abbrev Reading := (String → Json) × Option Json

/-- What can be read from a value: its members, and of a value without members itself. -/
def reading (j : Json) : Reading := (fun key => j.get key, if j.isRecord then none else some j)

/-- What can be read from every item. -/
def project {α : Type*} (p : Json → α) (j : Json) : Option (List α) := j.items.map (List.map p)

/-- A sum over the items. -/
def total {M : Type*} [AddCommMonoid M] (c : Json → M) (j : Json) : M :=
  ((j.items.getD []).map c).sum

variable {j j' v : Json} {s s' : σ} {key : String} {f : Json → Option (σ × Json)}

theorem isRecord_put (h : j.put key v = some j') : j.isRecord ∧ j'.isRecord := by
  cases j with
  | obj members =>
    obtain rfl := Option.some.inj h
    exact ⟨rfl, rfl⟩
  | null =>
    obtain rfl := Option.some.inj h
    exact ⟨rfl, rfl⟩
  | _ => cases h

theorem get_of_not_isObject (h : ¬ j.isObject) (key : String) : j.get key = null := by
  cases j with
  | obj members => exact absurd rfl h
  | _ => rfl

theorem project_getD_of_not_isArray (h : ¬ j.isArray) {α : Type*} (p : Json → α) :
    (j.project p).getD [] = [] := by
  cases j with
  | arr items => exact absurd rfl h
  | obj members => cases members <;> rfl
  | _ => rfl

theorem isObject_put (h : j.put key v = some j') : j'.isObject := by
  cases j with
  | obj members =>
    obtain rfl := Option.some.inj h
    rfl
  | null =>
    obtain rfl := Option.some.inj h
    rfl
  | _ => cases h

theorem reading_touch (h : j.touch key = some j') : j'.reading = j.reading := by
  obtain ⟨hj, hj'⟩ := isRecord_put h
  rw [reading, reading, if_pos hj, if_pos hj']
  exact congrArg (·, none) (funext (get_touch h))

theorem get_touchIf {b : Bool} (h : j.touchIf b key = some j') (key' : String) :
    j'.get key' = j.get key' := by
  rw [touchIf] at h
  split_ifs at h
  · exact get_touch h key'
  · cases h
    rfl

theorem get_of_reading (h : j'.reading = j.reading) (key : String) : j'.get key = j.get key :=
  congrFun (congrArg Prod.fst h) key

theorem visit_eq_some (h : j.visit key f = some (s, j')) :
    ∃ v, f (j.get key) = some (s, v) ∧ j.put key v = some j' := by
  obtain ⟨⟨s₀, v⟩, hf, h⟩ := Option.bind_eq_some_iff.mp h
  obtain ⟨j₀, hput, h⟩ := Option.bind_eq_some_iff.mp h
  cases h
  exact ⟨v, hf, hput⟩

theorem readInt_eq_some {n : Int} (h : j.readInt key = some (n, j')) :
    (j.get key).asInt = some n ∧ j'.reading = j.reading := by
  obtain ⟨v, hf, hput⟩ := visit_eq_some h
  obtain ⟨m, hm, hv⟩ := Option.bind_eq_some_iff.mp hf
  cases hv
  exact ⟨hm, reading_touch hput⟩

theorem readString_eq_some {t : String} (h : j.readString key = some (t, j')) :
    (j.get key).asString = some t ∧ j'.reading = j.reading := by
  obtain ⟨v, hf, hput⟩ := visit_eq_some h
  obtain ⟨m, hm, hv⟩ := Option.bind_eq_some_iff.mp hf
  cases hv
  exact ⟨hm, reading_touch hput⟩

/-! ## Items -/

variable {i n : ℕ}

theorem size_eq_length {items : List Json} (h : j.items = some items) : j.size = items.length := by
  cases j with
  | arr items' => rw [← Option.some.inj h, size]
  | obj members =>
    cases members with
    | nil => rw [← Option.some.inj h]; rfl
    | cons m members => cases h
  | _ => rw [← Option.some.inj h]; rfl

theorem visitItem_eq_some (h : j.visitItem i f = some (s, j')) :
    ∃ items v, j.items = some items ∧ f (items.getD i null) = some (s, v) ∧
      j' = arr ((items.rightpad (i + 1) null).set i v) := by
  obtain ⟨v₀, hitem, h⟩ := Option.bind_eq_some_iff.mp h
  obtain ⟨⟨s₀, v⟩, hf, h⟩ := Option.bind_eq_some_iff.mp h
  obtain ⟨j₀, hput, h⟩ := Option.bind_eq_some_iff.mp h
  cases h
  cases j with
  | arr items =>
    cases hitem
    cases hput
    exact ⟨items, v, rfl, hf, rfl⟩
  | null =>
    cases hitem
    cases hput
    exact ⟨[], v, rfl, hf, rfl⟩
  | _ => cases hitem

theorem visitRange_induct {g : ℕ → σ → Json → Option (σ × Json)} {P : ℕ → σ → Json → Prop}
    (hinit : P 0 s j) (hstep : ∀ ⦃i s j s' j'⦄, i < n → P i s j →
      j.visitItem i (g i s) = some (s', j') → P (i + 1) s' j')
    (h : visitRange g s j n = some (s', j')) : P n s' j' := by
  induction n generalizing s' j' with
  | zero =>
    cases h
    exact hinit
  | succ n ih =>
    obtain ⟨⟨s₀, j₀⟩, hrange, h⟩ := Option.bind_eq_some_iff.mp h
    exact hstep (Nat.lt_succ_self n)
      (ih (fun i s j s' j' hi => hstep (Nat.lt_succ_of_lt hi)) hrange) h

section Projections

variable {α : Type*} {p : Json → α}

theorem set_map_rightpad (items : List Json) (hv : p v = p (items.getD i null)) :
    ((items.rightpad (i + 1) null).set i v).map p = (items.map p).rightpad (i + 1) (p null) := by
  refine List.ext_getElem (by simp [List.rightpad]) fun k hk hk' => ?_
  rw [List.getElem_map, List.getElem_set]
  simp only [List.rightpad, List.getElem_append, List.length_map, List.getElem_map,
    List.getElem_replicate]
  split_ifs with hik hlt hlt
  · subst hik
    rw [hv, List.getD_eq_getElem _ _ hlt]
  · subst hik
    rw [hv, List.getD_eq_default _ _ (not_lt.mp hlt)]
  · rfl
  · rfl

theorem rightpad_rightpad (a : α) (l : List α) (n m : ℕ) :
    (l.rightpad n a).rightpad m a = l.rightpad (max n m) a := by
  simp only [List.rightpad, List.append_assoc, List.length_append, List.length_replicate,
    List.append_cancel_left_eq, ← List.replicate_add]
  congr 1
  omega

theorem rightpad_of_le (a : α) {l : List α} (h : n ≤ l.length) : l.rightpad n a = l := by
  rw [List.rightpad, Nat.sub_eq_zero_of_le h, List.replicate_zero, List.append_nil]

theorem length_rightpad (a : α) (l : List α) (n : ℕ) :
    (l.rightpad n a).length = max l.length n := by
  rw [List.rightpad, List.length_append, List.length_replicate]
  omega

theorem project_visitItem (h : j.visitItem i f = some (s, j'))
    (hp : ∀ ⦃v s v'⦄, f v = some (s, v') → p v' = p v) :
    j'.project p = (j.project p).map (List.rightpad (i + 1) (p null)) := by
  obtain ⟨items, v, hitems, hf, rfl⟩ := visitItem_eq_some h
  rw [project, project, hitems]
  exact congrArg some (set_map_rightpad items (hp hf))

theorem project_visitRange {g : ℕ → σ → Json → Option (σ × Json)}
    (h : visitRange g s j n = some (s', j'))
    (hp : ∀ ⦃i s v s' v'⦄, g i s v = some (s', v') → p v' = p v) :
    j'.project p = (j.project p).map (List.rightpad n (p null)) := by
  refine visitRange_induct (P := fun i _ j' =>
    j'.project p = (j.project p).map (List.rightpad i (p null))) ?_ ?_ h
  · cases j.project p with
    | none => rfl
    | some l => exact congrArg some (rightpad_of_le _ (Nat.zero_le _)).symm
  · intro i s j₁ s' j₂ hi hind hitem
    rw [project_visitItem hitem fun v s v' hv => hp hv, hind, Option.map_map]
    congr 1
    funext l
    rw [Function.comp, rightpad_rightpad, Nat.max_eq_right (Nat.le_succ i)]

end Projections

/-- A loop over all items. Each item is changed once, as `t` says. -/
theorem visitRange_map {α : Type*} {p : Json → α} {t : α → α} {Q : α → Prop} {I : σ → Prop}
    {g : ℕ → σ → Json → Option (σ × Json)} {items : List Json} (hj : j.items = some items)
    (hn : n ≤ items.length) (hs : I s) (h : visitRange g s j n = some (s', j'))
    (hg : ∀ ⦃i s v s' v'⦄, I s → g i s v = some (s', v') → I s' ∧ Q (p v) ∧ p v' = t (p v)) :
    I s' ∧ (∀ a ∈ (items.map p).take n, Q a) ∧
      j'.project p = some (((items.map p).take n).map t ++ (items.map p).drop n) := by
  refine visitRange_induct (P := fun i s j' => I s ∧ (∀ a ∈ (items.map p).take i, Q a) ∧
    j'.project p = some (((items.map p).take i).map t ++ (items.map p).drop i)) ?_ ?_ h
  · exact ⟨hs, by simp, by simp [project, hj]⟩
  · rintro i s j₁ s' j₂ hi ⟨hs, hQ, hproject⟩ hitem
    obtain ⟨items₁, v, hitems₁, hv, rfl⟩ := visitItem_eq_some hitem
    have hmap : items₁.map p = ((items.map p).take i).map t ++ (items.map p).drop i := by
      rw [project, hitems₁] at hproject
      exact Option.some.inj hproject
    have hlen : items₁.length = items.length := by
      have hlen := congrArg List.length hmap
      simp only [List.length_map, List.length_append, List.length_take, List.length_drop] at hlen
      omega
    have hi₁ : i < items₁.length := by omega
    have hold : p (items₁.getD i null) = p items[i] := by
      have hbound : i < (items₁.map p).length := by simpa
      have hget : (items₁.map p)[i] = p items[i] := by
        simp only [hmap]
        rw [List.getElem_append_right (by simp), List.getElem_drop, List.getElem_map]
        congr 2
        simp only [List.length_map, List.length_take]
        omega
      rw [List.getD_eq_getElem _ _ hi₁, ← hget, List.getElem_map]
    obtain ⟨hs', hq, hv'⟩ := hg hs hv
    rw [hold] at hq hv'
    have htake : (items.map p).take (i + 1) = (items.map p).take i ++ [p items[i]] := by
      rw [List.take_add_one, List.getElem?_eq_getElem (by simpa using by omega), List.getElem_map]
      rfl
    refine ⟨hs', fun a ha => ?_, ?_⟩
    · rw [htake, List.mem_append, List.mem_singleton] at ha
      rcases ha with ha | rfl
      · exact hQ a ha
      · exact hq
    · have hdrop : (items.map p).drop i = p items[i] :: (items.map p).drop (i + 1) := by
        rw [List.drop_eq_getElem_cons (by simpa using by omega), List.getElem_map]
      rw [project, Json.items, Option.map_some, rightpad_of_le _ hi₁,
        List.map_set, hmap, hv', htake,
        hdrop, List.map_append, List.set_append_right _ _ (by simp)]
      simp [Nat.min_eq_left (show i ≤ items.length by omega)]

section Totals

variable {M : Type*} [AddCommMonoid M] {c : Json → M}

/-- Of the sum only the part of the changed item changes. -/
theorem total_visitItem (hnull : c null = 0) (h : j.visitItem i f = some (s, j')) :
    ∃ k v v', f v = some (s, v') ∧ j.total c = k + c v ∧ j'.total c = k + c v' := by
  obtain ⟨items, v, hitems, hf, rfl⟩ := visitItem_eq_some h
  have hlen : i < (items.rightpad (i + 1) null).length := by
    rw [length_rightpad]
    omega
  have hget : (items.rightpad (i + 1) null)[i] = items.getD i null := by
    simp only [List.rightpad, List.getElem_append, List.getElem_replicate]
    split_ifs with hlt
    · exact (List.getD_eq_getElem _ _ hlt).symm
    · exact (List.getD_eq_default _ _ (not_lt.mp hlt)).symm
  have hpad : ((items.rightpad (i + 1) null).map c).sum = (items.map c).sum := by
    simp [List.rightpad, hnull]
  have hsum (v : Json) : (((items.rightpad (i + 1) null).set i v).map c).sum =
      (((items.rightpad (i + 1) null).map c).take i).sum +
        (((items.rightpad (i + 1) null).map c).drop (i + 1)).sum + c v := by
    rw [List.map_set, List.sum_set, List.length_map, if_pos hlen, add_right_comm]
  refine ⟨_, _, v, hf, ?_, hsum v⟩
  rw [← hsum, ← hget, List.set_getElem_self, hpad, total, hitems, Option.getD_some]

/-- A relation between states with amounts, to which more may be added. -/
structure Moves (R : σ × M → σ × M → Prop) : Prop where
  refl : ∀ x, R x x
  trans : ∀ ⦃x y z⦄, R x y → R y z → R x z
  add : ∀ ⦃s a s' b⦄ (k : M), R (s, a) (s', b) → R (s, k + a) (s', k + b)

variable {R : σ × M → σ × M → Prop}

theorem Moves.visitItem (hR : Moves R) (hnull : c null = 0) (h : j.visitItem i f = some (s', j'))
    (hf : ∀ ⦃v s' v'⦄, f v = some (s', v') → R (s, c v) (s', c v')) :
    R (s, j.total c) (s', j'.total c) := by
  obtain ⟨k, v, v', hv, hj, hj'⟩ := total_visitItem hnull h
  rw [hj, hj']
  exact hR.add k (hf hv)

theorem Moves.visitRange {g : ℕ → σ → Json → Option (σ × Json)} (hR : Moves R) (hnull : c null = 0)
    (h : visitRange g s j n = some (s', j'))
    (hg : ∀ ⦃i s v s' v'⦄, g i s v = some (s', v') → R (s, c v) (s', c v')) :
    R (s, j.total c) (s', j'.total c) := by
  refine visitRange_induct (P := fun _ s' j' => R (s, j.total c) (s', j'.total c)) (hR.refl _) ?_ h
  intro i s₁ j₁ s₂ j₂ hi hind hitem
  exact hR.trans hind (hR.visitItem hnull hitem fun v s' v' hv => hg hv)

end Totals

end PPView.Json
