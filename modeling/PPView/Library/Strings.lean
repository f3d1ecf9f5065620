import Mathlib.Data.List.Basic
import Mathlib.Tactic.Common

/-!
# Searching and splitting strings

`find`, `rfind` and a split at a delimiter, as for `std::string`, over any type of characters. The
lemmas walk over the parts of a concatenation in which the key does not begin.
-/

namespace PPView.Strings

variable {α : Type*} [DecidableEq α]

/-- The position of the first occurrence. -/
def find (key : List α) : List α → Option ℕ
  | [] => if key = [] then some 0 else none
  | c :: s => if key.isPrefixOf (c :: s) then some 0 else (find key s).map (· + 1)

/-- The position of the last occurrence. -/
def rfind (key : List α) : List α → Option ℕ
  | [] => if key = [] then some 0 else none
  | c :: s =>
    match rfind key s with
    | some i => some (i + 1)
    | none => if key.isPrefixOf (c :: s) then some 0 else none

/-- Every occurrence of `key` from the left replaced, behind the first `skip` characters, which are
dropped. -/
def replaceFrom (key rep : List α) : ℕ → List α → List α
  | _, [] => []
  | skip + 1, _ :: s => replaceFrom key rep skip s
  | 0, c :: s =>
    if key.isPrefixOf (c :: s) then rep ++ replaceFrom key rep (key.length - 1) s
    else c :: replaceFrom key rep 0 s

/-- Every occurrence replaced. An empty key is left alone. -/
def replace (key rep s : List α) : List α := if key = [] then s else replaceFrom key rep 0 s

/-- The parts between the delimiters. Behind a delimiter at the end there is no part. -/
def split (delim : α) (s : List α) : List (List α) :=
  if (s.splitOn delim).getLast? = some [] then (s.splitOn delim).dropLast else s.splitOn delim

variable {c : α} {k a s : List α} {delim : α}

/-! ## Finding -/

theorem find_append_of_notMem (h : c ∉ a) :
    find (c :: k) (a ++ s) = (find (c :: k) s).map (· + a.length) := by
  induction a with
  | nil => simp
  | cons d a ih =>
    obtain ⟨hd, ha⟩ : c ≠ d ∧ c ∉ a := by simpa using h
    have hpre : (c :: k).isPrefixOf (d :: (a ++ s)) = false := by
      simp [List.isPrefixOf, hd]
    rw [List.cons_append, find, hpre, ih ha, List.length_cons, Option.map_map]
    exact congrArg (Option.map · _) (funext fun i => Nat.add_assoc i _ 1)

theorem find_eq_none (h : c ∉ s) : find (c :: k) s = none := by
  simpa [find] using find_append_of_notMem (k := k) (s := []) h

theorem find_append_self : find (c :: k) (c :: k ++ s) = some 0 := by
  rw [List.cons_append, find, if_pos]
  simp

theorem find_singleton_append (h : c ∉ a) : find [c] (a ++ c :: s) = some a.length := by
  rw [find_append_of_notMem h]
  simp [find]

/-- A character that occurs has a first occurrence. -/
theorem find_singleton_eq (s : List α) :
    (find [c] s = none ∧ c ∉ s) ∨
      ∃ a b, s = a ++ c :: b ∧ c ∉ a ∧ find [c] s = some a.length := by
  by_cases h : c ∈ s
  · obtain ⟨a, b, rfl, ha⟩ := List.eq_append_cons_of_mem h
    exact .inr ⟨a, b, rfl, ha, find_singleton_append ha⟩
  · exact .inl ⟨find_eq_none h, h⟩

theorem eq_append_of_find {i : ℕ} (h : find k s = some i) :
    ∃ a b, s = a ++ k ++ b ∧ a.length = i := by
  induction s generalizing i with
  | nil =>
    rw [find] at h
    split_ifs at h with hk
    obtain rfl := Option.some.inj h
    exact ⟨[], [], by simp [hk], rfl⟩
  | cons d s ih =>
    rw [find] at h
    split_ifs at h with hpre
    · obtain rfl := Option.some.inj h
      obtain ⟨b, hb⟩ := List.isPrefixOf_iff_prefix.mp hpre
      exact ⟨[], b, hb.symm, rfl⟩
    · obtain ⟨j, hj, rfl⟩ := Option.map_eq_some_iff.mp h
      obtain ⟨a, b, rfl, rfl⟩ := ih hj
      exact ⟨d :: a, b, rfl, rfl⟩

theorem rfind_append_of_notMem (h : c ∉ a) :
    rfind (c :: k) (a ++ s) = (rfind (c :: k) s).map (· + a.length) := by
  induction a with
  | nil => simp
  | cons d a ih =>
    obtain ⟨hd, ha⟩ : c ≠ d ∧ c ∉ a := by simpa using h
    have hpre : (c :: k).isPrefixOf (d :: (a ++ s)) = false := by
      simp [List.isPrefixOf, hd]
    rw [List.cons_append, rfind, ih ha, hpre]
    cases rfind (c :: k) s with
    | none => rfl
    | some i => simp [Nat.add_assoc]

theorem rfind_eq_none (h : c ∉ s) : rfind (c :: k) s = none := by
  simpa [rfind] using rfind_append_of_notMem (k := k) (s := []) h

theorem rfind_singleton_append (h : c ∉ s) : rfind [c] (a ++ c :: s) = some a.length := by
  induction a with
  | nil => simp [rfind, rfind_eq_none h]
  | cons d a ih => rw [List.cons_append, rfind, ih, List.length_cons]

theorem rfind_singleton_concat : rfind [c] (s ++ [c]) = some s.length :=
  rfind_singleton_append List.not_mem_nil

omit [DecidableEq α] in
/-- What occurs has a last occurrence. -/
theorem eq_append_cons_of_mem_last (h : c ∈ s) : ∃ a b, s = a ++ c :: b ∧ c ∉ b := by
  obtain ⟨b, a, hrev, hb⟩ := List.eq_append_cons_of_mem (List.mem_reverse.mpr h)
  refine ⟨a.reverse, b.reverse, ?_, by simpa using hb⟩
  rw [← List.reverse_reverse s, hrev]
  simp

theorem rfind_append_of_notMem_right (h : c ∉ s) : rfind [c] (a ++ s) = rfind [c] a := by
  by_cases ha : c ∈ a
  · obtain ⟨a, b, rfl, hb⟩ := eq_append_cons_of_mem_last ha
    rw [List.append_assoc, List.cons_append, rfind_singleton_append (by simp [hb, h]),
      rfind_singleton_append hb]
  · rw [rfind_eq_none ha, rfind_eq_none (by simp [ha, h])]

/-! ## Splitting -/

@[simp] theorem split_nil : split delim ([] : List α) = [] := by
  simp [split]

omit [DecidableEq α] in
theorem mem_intercalate {items : List (List α)} (h : c ∈ [delim].intercalate items) :
    c = delim ∨ ∃ x ∈ items, c ∈ x := by
  induction items with
  | nil => simp at h
  | cons x items ih =>
    by_cases hne : items = []
    · subst hne
      exact .inr ⟨x, by simp, by simpa using h⟩
    · rw [List.intercalate_cons_of_ne_nil hne, List.append_assoc, List.mem_append,
        List.mem_append, List.mem_singleton] at h
      rcases h with h | h | h
      · exact .inr ⟨x, by simp, h⟩
      · exact .inl h
      · exact (ih h).imp_right fun ⟨y, hy, hc⟩ => ⟨y, List.mem_cons_of_mem _ hy, hc⟩

omit [DecidableEq α] in
theorem getLast?_intercalate {items : List (List α)} (hne : items ≠ [])
    (h : ∀ x ∈ items, x.getLast? = some c) : ([delim].intercalate items).getLast? = some c := by
  induction items with
  | nil => contradiction
  | cons x items ih =>
    by_cases hitems : items = []
    · subst hitems
      simpa using h
    · have hrest := ih hitems fun y hy => h y (List.mem_cons_of_mem _ hy)
      rw [List.intercalate_cons_of_ne_nil hitems, List.getLast?_append, hrest]
      rfl

/-- Joining parts that are not empty and splitting them again. -/
theorem split_intercalate {items : List (List α)} (hnotMem : ∀ x ∈ items, delim ∉ x)
    (hne : ∀ x ∈ items, x ≠ []) : split delim ([delim].intercalate items) = items := by
  cases items with
  | nil => simp
  | cons x items =>
    have hsplit := List.splitOn_intercalate delim hnotMem (List.cons_ne_nil x items)
    rw [split, hsplit, if_neg]
    intro hlast
    exact hne [] (List.mem_of_getLast? hlast) rfl

variable (delim) in
/-- The parts, but for an empty one at the end. -/
theorem splitOn_eq_split (s : List α) :
    s.splitOn delim = split delim s ∨ s.splitOn delim = split delim s ++ [[]] := by
  unfold split
  split_ifs with hlast
  · exact .inr (List.dropLast_append_getLast? _ hlast).symm
  · exact .inl rfl

omit [DecidableEq α] in
theorem intercalate_concat (items : List (List α)) (s : List α) :
    [delim].intercalate (items ++ [s]) = (items.flatMap fun x => x ++ [delim]) ++ s := by
  induction items with
  | nil => simp
  | cons x items ih =>
    rw [List.cons_append, List.intercalate_cons_of_ne_nil (by simp), ih]
    simp

theorem notMem_of_mem_splitOn {x s : List α} (hx : x ∈ s.splitOn delim) : delim ∉ x := by
  induction hn : s.length using Nat.strongRecOn generalizing s with
  | ind n ih =>
    by_cases h : delim ∈ s
    · obtain ⟨a, b, rfl, ha⟩ := List.eq_append_cons_of_mem h
      rw [List.length_append, List.length_cons] at hn
      rw [List.splitOn_append_cons_self_of_not_mem ha, List.mem_cons] at hx
      rcases hx with rfl | hx
      · exact ha
      · exact ih _ (by omega) hx rfl
    · rw [List.splitOn_eq_singleton h, List.mem_singleton] at hx
      exact hx ▸ h

/-- Splitting behind a map that treats the two sides of a delimiter apart. -/
theorem splitOn_map {g : List α → List α}
    (happend : ∀ a b, g (a ++ delim :: b) = g a ++ delim :: g b)
    (hmem : ∀ a, delim ∈ g a → delim ∈ a) (s : List α) :
    (g s).splitOn delim = (s.splitOn delim).map g := by
  induction hn : s.length using Nat.strongRecOn generalizing s with
  | ind n ih =>
    by_cases h : delim ∈ s
    · obtain ⟨a, b, rfl, -⟩ := List.eq_append_cons_of_mem h
      rw [List.length_append, List.length_cons] at hn
      rw [happend, List.splitOn_append_cons_self, List.splitOn_append_cons_self, List.map_append,
        ih _ (by omega) a rfl, ih _ (by omega) b rfl]
    · rw [List.splitOn_eq_singleton h, List.splitOn_eq_singleton fun hg => h (hmem s hg)]
      rfl

/-! ## Replacing -/

section Replace

variable {key rep : List α} {e : α} {l : List α}

theorem isPrefixOf_append (h : c ∉ key) (b : List α) :
    key.isPrefixOf (a ++ c :: b) = key.isPrefixOf a := by
  induction a generalizing key with
  | nil =>
    cases key with
    | nil => rfl
    | cons e key =>
      have hne : (e == c) = false := beq_eq_false_iff_ne.mpr fun heq => h (by simp [heq])
      simp [List.isPrefixOf, hne]
  | cons x a ih =>
    cases key with
    | nil => rfl
    | cons e key =>
      have hkey : c ∉ key := fun hmem => h (List.mem_cons_of_mem e hmem)
      simp [List.isPrefixOf, ih hkey]

/-- What is not in the key separates. -/
theorem replaceFrom_append (h : c ∉ key) (b : List α) : ∀ (skip : ℕ) (a : List α),
    skip ≤ a.length →
    replaceFrom key rep skip (a ++ c :: b) =
      replaceFrom key rep skip a ++ replaceFrom key rep 0 (c :: b)
  | 0, [], _ => by rw [replaceFrom, List.nil_append, List.nil_append]
  | skip + 1, x :: a, hle => replaceFrom_append h b skip a (Nat.le_of_succ_le_succ hle)
  | 0, x :: a, _ => by
    rw [List.cons_append, replaceFrom, replaceFrom, ← List.cons_append, isPrefixOf_append h]
    split_ifs with hkey
    · have hlen := (List.isPrefixOf_iff_prefix.mp hkey).length_le
      rw [replaceFrom_append h b _ a (by simp at hlen; omega), List.append_assoc]
    · rw [replaceFrom_append h b 0 a (Nat.zero_le _), List.cons_append]

theorem replace_append (h : c ∉ key) (a b : List α) :
    replace key rep (a ++ c :: b) = replace key rep a ++ c :: replace key rep b := by
  cases key with
  | nil => rfl
  | cons e key =>
    have hne : (e == c) = false := beq_eq_false_iff_ne.mpr fun heq => h (by simp [heq])
    simp only [replace, if_neg (List.cons_ne_nil e key)]
    rw [replaceFrom_append h b 0 a (Nat.zero_le _)]
    simp [replaceFrom, List.isPrefixOf, hne]

theorem mem_replaceFrom (hkey : c ∉ key) (hrep : c ∉ rep) : ∀ (skip : ℕ) (s : List α),
    c ∈ replaceFrom key rep skip s → c ∈ s
  | _, [], h => by simp [replaceFrom] at h
  | skip + 1, x :: s, h => List.mem_cons_of_mem x (mem_replaceFrom hkey hrep skip s h)
  | 0, x :: s, h => by
    rw [replaceFrom] at h
    split_ifs at h
    · exact List.mem_cons_of_mem x
        (mem_replaceFrom hkey hrep _ s ((List.mem_append.mp h).resolve_left hrep))
    · rcases List.mem_cons.mp h with rfl | h
      · exact List.mem_cons_self
      · exact List.mem_cons_of_mem x (mem_replaceFrom hkey hrep 0 s h)

/-- Nothing occurs that was neither there nor put in. -/
theorem mem_replace (hkey : c ∉ key) (hrep : c ∉ rep) (h : c ∈ replace key rep s) : c ∈ s := by
  unfold replace at h
  split_ifs at h
  · exact h
  · exact mem_replaceFrom hkey hrep 0 s h

theorem replace_eq_nil_iff (hrep : rep ≠ []) : replace key rep s = [] ↔ s = [] := by
  unfold replace
  split_ifs
  · rfl
  · cases s with
    | nil => simp [replaceFrom]
    | cons x s =>
      rw [replaceFrom]
      split_ifs <;> simp [hrep]

/-! ### Another key behind it -/

variable {k : List α} {e : α}

/-- The other string neither begins nor is put in within `k`. -/
theorem isPrefixOf_replaceFrom (he : e ∉ k) (hrep : ∀ x ∈ k, x ∉ rep) (hrepne : rep ≠ [])
    (s : List α) : k.isPrefixOf (replaceFrom (e :: key) rep 0 s) = k.isPrefixOf s := by
  induction s generalizing k with
  | nil => rfl
  | cons x s ih =>
    cases k with
    | nil => rfl
    | cons c k =>
      rw [replaceFrom]
      split_ifs with hpre
      · obtain ⟨r, rep, rfl⟩ := List.exists_cons_of_ne_nil hrepne
        have hx : e = x := by simpa [List.isPrefixOf] using (Bool.and_eq_true_iff.mp hpre).1
        have hcx : (c == x) = false := beq_eq_false_iff_ne.mpr fun heq => he (by simp [heq, hx])
        have hcr : (c == r) = false := beq_eq_false_iff_ne.mpr fun heq =>
          hrep c (by simp) (by simp [heq])
        simp [List.isPrefixOf, hcx, hcr]
      · rw [List.isPrefixOf, List.isPrefixOf, ih (fun hmem => he (List.mem_cons_of_mem c hmem))
          fun y hy => hrep y (List.mem_cons_of_mem c hy)]

theorem find_replaceFrom (hc : c ∉ e :: key) (he : e ∉ c :: k) (hrep : ∀ x ∈ c :: k, x ∉ rep)
    (hrepne : rep ≠ []) : ∀ (skip : ℕ) (s : List α), (∀ x ∈ s.take skip, x ∈ e :: key) →
    (find (c :: k) (replaceFrom (e :: key) rep skip s)).isSome = (find (c :: k) s).isSome
  | _, [], _ => by simp [replaceFrom]
  | skip + 1, x :: s, hskip => by
    rw [List.take_succ_cons, List.forall_mem_cons] at hskip
    have hcx : (c == x) = false := beq_eq_false_iff_ne.mpr fun heq => hc (heq ▸ hskip.1)
    rw [replaceFrom, find_replaceFrom hc he hrep hrepne skip s hskip.2]
    simp [find, List.isPrefixOf, hcx]
  | 0, x :: s, _ => by
    have hpre : (c :: k).isPrefixOf (replaceFrom (e :: key) rep 0 (x :: s)) =
        (c :: k).isPrefixOf (x :: s) := isPrefixOf_replaceFrom he hrep hrepne (x :: s)
    rw [replaceFrom] at hpre ⊢
    split_ifs at hpre ⊢ with hmatch
    · obtain ⟨hx, s', rfl⟩ : e = x ∧ key <+: s := by
        simpa [List.isPrefixOf_iff_prefix] using hmatch
      have hcx : (c == x) = false := beq_eq_false_iff_ne.mpr fun heq => hc (by simp [heq, hx])
      have ih := find_replaceFrom hc he hrep hrepne key.length (key ++ s')
        (by simpa using fun y hy => Or.inr hy)
      rw [find_append_of_notMem (hrep c List.mem_cons_self), Option.isSome_map, List.length_cons,
        Nat.add_sub_cancel, ih]
      simp [find, List.isPrefixOf, hcx]
    · rw [find, find, hpre]
      split_ifs
      · rfl
      · simpa using find_replaceFrom hc he hrep hrepne 0 s (by simp)

/-- A key that the replaced string cannot overlap occurs as before. -/
theorem find_replace (hc : c ∉ e :: key) (he : e ∉ c :: k) (hrep : ∀ x ∈ c :: k, x ∉ rep)
    (hrepne : rep ≠ []) (s : List α) :
    (find (c :: k) (replace (e :: key) rep s)).isSome = (find (c :: k) s).isSome := by
  rw [replace, if_neg (List.cons_ne_nil e key)]
  exact find_replaceFrom hc he hrep hrepne 0 s (by simp)

end Replace

end PPView.Strings
