import Mathlib.Order.Lattice
import Mathlib.Tactic.Common

/-!
# Tables as lists of entries

The first entry of a key is the one that counts. When entries are added one after the other, one is
left out if the table has its key already.
-/

namespace PPView

variable {κ α ι : Type*} [DecidableEq κ]

variable {table : List (κ × α)} {entry : κ × α} {f : ι → Option (κ × α)} {l : List ι}

theorem lookup_cons_ite (k : κ) (entry : κ × α) (table : List (κ × α)) :
    (entry :: table).lookup k = if k = entry.1 then some entry.2 else table.lookup k := by
  rw [List.lookup_cons]
  split_ifs with h
  · simp [h]
  · simp [beq_eq_false_iff_ne.mpr h]

theorem lookup_isSome_iff {k : κ} : (table.lookup k).isSome ↔ k ∈ table.map Prod.fst := by
  induction table with
  | nil => simp
  | cons head table ih =>
    rw [lookup_cons_ite, List.map_cons, List.mem_cons, ← ih]
    split_ifs with h <;> simp [h]

/-- Where no key comes twice, every entry counts. -/
theorem lookup_of_mem (hnodup : (table.map Prod.fst).Nodup) (h : entry ∈ table) :
    table.lookup entry.1 = some entry.2 := by
  induction table with
  | nil => simp at h
  | cons head table ih =>
    rw [List.map_cons, List.nodup_cons] at hnodup
    rw [lookup_cons_ite]
    rcases List.mem_cons.mp h with rfl | h
    · rw [if_pos rfl]
    · have hne : entry.1 ≠ head.1 := fun heq => hnodup.1 (heq ▸ List.mem_map_of_mem h)
      rw [if_neg hne]
      exact ih hnodup.2 h

/-! ## Adding entries -/

def addFirst (table : List (κ × α)) (entry : κ × α) : List (κ × α) :=
  if (table.lookup entry.1).isSome then table else table ++ [entry]

/-- Adds the entries that the elements of a list have. -/
def addAll (f : ι → Option (κ × α)) (table : List (κ × α)) (l : List ι) : List (κ × α) :=
  l.foldl (fun table i => (f i).elim table (addFirst table)) table

theorem lookup_addFirst (k : κ) :
    (addFirst table entry).lookup k =
      (table.lookup k).or (if k = entry.1 then some entry.2 else none) := by
  unfold addFirst
  split_ifs with hmem hk hk
  · obtain ⟨a, ha⟩ := Option.isSome_iff_exists.mp hmem
    rw [hk, ha, Option.some_or]
  · rw [Option.or_none]
  · rw [List.lookup_append, lookup_cons_ite, if_pos hk]
  · rw [List.lookup_append, lookup_cons_ite, if_neg hk, List.lookup_nil]

theorem nodup_addFirst (h : (table.map Prod.fst).Nodup) (entry : κ × α) :
    ((addFirst table entry).map Prod.fst).Nodup := by
  unfold addFirst
  split_ifs with hmem
  · exact h
  · rw [List.map_append, List.nodup_append]
    refine ⟨h, by simp, ?_⟩
    rintro k hk _ hentry rfl
    rw [List.map_singleton, List.mem_singleton] at hentry
    exact hmem (lookup_isSome_iff.mpr (hentry ▸ hk))

/-- The first element with an entry for the key decides what a new key has. -/
theorem lookup_addAll (k : κ) :
    (addAll f table l).lookup k = (table.lookup k).or
      (l.findSome? fun i => (f i).bind fun entry => if k = entry.1 then some entry.2 else none) := by
  induction l generalizing table with
  | nil => simp [addAll]
  | cons i l ih =>
    unfold addAll at ih ⊢
    rw [List.foldl_cons, ih, List.findSome?_cons]
    cases f i with
    | none => rfl
    | some entry =>
      rw [Option.elim_some, lookup_addFirst, Option.or_assoc, Option.bind_some]
      split_ifs <;> rfl

theorem nodup_addAll (h : (table.map Prod.fst).Nodup) (f : ι → Option (κ × α)) (l : List ι) :
    ((addAll f table l).map Prod.fst).Nodup := by
  induction l generalizing table with
  | nil => exact h
  | cons i l ih =>
    unfold addAll at ih ⊢
    rw [List.foldl_cons]
    apply ih
    cases f i with
    | none => exact h
    | some entry => exact nodup_addFirst h entry

/-- In a sorted list, the least element with a value comes first. -/
theorem findSome?_of_least [LinearOrder ι] {g : ι → Option α} {i : ι} {a : α}
    (hsorted : l.Pairwise (· ≤ ·)) (hi : i ∈ l) (ha : g i = some a)
    (hleast : ∀ j ∈ l, (g j).isSome → i ≤ j) : l.findSome? g = some a := by
  induction l with
  | nil => simp at hi
  | cons j l ih =>
    rw [List.findSome?_cons]
    obtain ⟨hle, hsorted⟩ := List.pairwise_cons.mp hsorted
    cases hj : g j with
    | none =>
      have hne : i ≠ j := by
        rintro rfl
        rw [ha] at hj
        contradiction
      apply ih hsorted ((List.mem_cons.mp hi).resolve_left hne)
      exact fun k hk => hleast k (List.mem_cons_of_mem j hk)
    | some b =>
      have hij : i ≤ j := hleast j List.mem_cons_self (by rw [hj]; rfl)
      have hji : j ≤ i := (List.mem_cons.mp hi).elim (fun heq => heq.ge) (hle i)
      rw [le_antisymm hij hji, hj] at ha
      exact ha

end PPView
