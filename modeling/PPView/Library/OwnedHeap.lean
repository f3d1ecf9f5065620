import Mathlib.Data.Finset.Insert
import Mathlib.Data.Finset.Card
import Mathlib.Order.Nat
import Mathlib.Tactic.Common

/-!
# A map that owns its items

A map from keys to pointers, where each key has an item of its own. Items may refer to other items
by their pointers, also to items that are gone. A pointer is never used again.
-/

namespace PPView

/-- `refs` are the pointers in an item. -/
structure OwnedHeap (κ α : Type*) (refs : α → List ℕ) where
  keys : Finset κ
  ptr : κ → Option ℕ
  cell : ℕ → Option α
  next : ℕ
  mem_keys : ∀ k, k ∈ keys ↔ (ptr k).isSome
  live : ∀ k p, ptr k = some p → (cell p).isSome
  owner : ∀ k k' p, ptr k = some p → ptr k' = some p → k = k'
  fresh : ∀ p, next ≤ p → cell p = none
  refs_lt : ∀ p a, cell p = some a → ∀ q ∈ refs a, q < next

namespace OwnedHeap

variable {κ α : Type*} {refs : α → List ℕ} (h : OwnedHeap κ α refs)

instance : EmptyCollection (OwnedHeap κ α refs) where
  emptyCollection :=
    { keys := ∅
      ptr _ := none
      cell _ := none
      next := 0
      mem_keys _ := by simp
      live _ _ h := by simp at h
      owner _ _ _ h := by simp at h
      fresh _ _ := rfl
      refs_lt _ _ h := by simp at h }

def size : ℕ := h.keys.card

/-- The item of a key. -/
def item (k : κ) : Option α := (h.ptr k).bind h.cell

theorem lt_next {p : ℕ} (hp : (h.cell p).isSome) : p < h.next := by
  by_contra hle
  rw [h.fresh p (not_lt.mp hle)] at hp
  contradiction

theorem ptr_lt_next {k : κ} {p : ℕ} (hp : h.ptr k = some p) : p < h.next := h.lt_next (h.live k p hp)

theorem exists_item {k : κ} (hk : (h.ptr k).isSome) :
    ∃ p a, h.ptr k = some p ∧ h.cell p = some a ∧ h.item k = some a := by
  obtain ⟨p, hp⟩ := Option.isSome_iff_exists.mp hk
  obtain ⟨a, ha⟩ := Option.isSome_iff_exists.mp (h.live k p hp)
  exact ⟨p, a, hp, ha, by rw [item, hp, Option.bind_some, ha]⟩

/-! ## Changing an item -/

/-- The item of the key gets pointers to items that have been made. -/
def modify (k : κ) (f : α → α) (hf : ∀ a, ∀ q ∈ refs (f a), q ∈ refs a ∨ q < h.next) :
    OwnedHeap κ α refs where
  keys := h.keys
  ptr := h.ptr
  cell p := if h.ptr k = some p then (h.cell p).map f else h.cell p
  next := h.next
  mem_keys := h.mem_keys
  live k' p hp := by
    have hlive := h.live k' p hp
    split_ifs
    · rwa [Option.isSome_map]
    · exact hlive
  owner := h.owner
  fresh p hp := by
    rw [h.fresh p hp, Option.map_none, ite_self]
  refs_lt p a ha q hq := by
    split_ifs at ha
    · obtain ⟨b, hb, rfl⟩ := Option.map_eq_some_iff.mp ha
      exact (hf b q hq).elim (h.refs_lt p b hb q) fun hlt => hlt
    · exact h.refs_lt p a ha q hq

section

variable {h} {k : κ} {p : ℕ} {f : α → α} {hf : ∀ a, ∀ q ∈ refs (f a), q ∈ refs a ∨ q < h.next}

@[simp] theorem keys_modify : (h.modify k f hf).keys = h.keys := rfl

@[simp] theorem ptr_modify : (h.modify k f hf).ptr = h.ptr := rfl

@[simp] theorem next_modify : (h.modify k f hf).next = h.next := rfl

theorem cell_modify (p : ℕ) :
    (h.modify k f hf).cell p = if h.ptr k = some p then (h.cell p).map f else h.cell p := rfl

end

/-! ## Changing all items -/

/-- Every item that a key has is changed, but for what it refers to. -/
def modifyAll (f : α → α) (hf : ∀ a, refs (f a) = refs a) : OwnedHeap κ α refs where
  keys := h.keys
  ptr := h.ptr
  cell p := if ∃ k ∈ h.keys, h.ptr k = some p then (h.cell p).map f else h.cell p
  next := h.next
  mem_keys := h.mem_keys
  live k p hp := by
    have hlive := h.live k p hp
    split_ifs
    · rwa [Option.isSome_map]
    · exact hlive
  owner := h.owner
  fresh p hp := by
    rw [h.fresh p hp, Option.map_none, ite_self]
  refs_lt p a ha := by
    split_ifs at ha
    · obtain ⟨b, hb, rfl⟩ := Option.map_eq_some_iff.mp ha
      rw [hf b]
      exact h.refs_lt p b hb
    · exact h.refs_lt p a ha

@[simp] theorem keys_modifyAll {f : α → α} {hf : ∀ a, refs (f a) = refs a} :
    (h.modifyAll f hf).keys = h.keys := rfl

/-! ## Loops -/

section

variable {ι : Type*} {step : OwnedHeap κ α refs → ι → OwnedHeap κ α refs} {l : List ι} {i : ι}

/-- A loop loses no key if no step does. -/
theorem keys_subset_foldl (hstep : ∀ h, ∀ i ∈ l, h.keys ⊆ (step h i).keys)
    (h : OwnedHeap κ α refs) : h.keys ⊆ (l.foldl step h).keys := by
  induction l generalizing h with
  | nil => exact Finset.Subset.refl _
  | cons i l ih =>
    obtain ⟨hi, hl⟩ : (∀ h, h.keys ⊆ (step h i).keys) ∧ ∀ h, ∀ j ∈ l, h.keys ⊆ (step h j).keys :=
      ⟨fun h => hstep h i (by simp), fun h j hj => hstep h j (by simp [hj])⟩
    exact (hi h).trans (ih hl _)

/-- A step is taken with all the keys there, and the keys that it leaves stay. -/
theorem exists_step_subset_foldl (hstep : ∀ h, ∀ i ∈ l, h.keys ⊆ (step h i).keys) (hi : i ∈ l)
    (h : OwnedHeap κ α refs) :
    ∃ h' : OwnedHeap κ α refs, h.keys ⊆ h'.keys ∧ (step h' i).keys ⊆ (l.foldl step h).keys := by
  obtain ⟨before, after, rfl⟩ := List.append_of_mem hi
  rw [List.foldl_append, List.foldl_cons]
  refine ⟨before.foldl step h, keys_subset_foldl ?_ h, keys_subset_foldl ?_ _⟩
  · intro h j hj
    exact hstep h j (by simp [hj])
  · intro h j hj
    exact hstep h j (by simp [hj])

end

/-! ## Deleting and making an item -/

variable [DecidableEq κ]

def delete (k : κ) : OwnedHeap κ α refs where
  keys := h.keys.erase k
  ptr := Function.update h.ptr k none
  cell p := if h.ptr k = some p then none else h.cell p
  next := h.next
  mem_keys k' := by
    rcases eq_or_ne k' k with rfl | hne
    · simp
    · rw [Finset.mem_erase, Function.update_of_ne hne, h.mem_keys]
      simp [hne]
  live k' p hp := by
    rcases eq_or_ne k' k with rfl | hne
    · simp at hp
    · rw [Function.update_of_ne hne] at hp
      rw [if_neg fun hk => hne (h.owner k' k p hp hk)]
      exact h.live k' p hp
  owner k₁ k₂ p h₁ h₂ := by
    have hkey : ∀ k', Function.update h.ptr k none k' = some p → h.ptr k' = some p := by
      intro k' hk'
      rcases eq_or_ne k' k with rfl | hne
      · simp at hk'
      · rwa [Function.update_of_ne hne] at hk'
    exact h.owner k₁ k₂ p (hkey k₁ h₁) (hkey k₂ h₂)
  fresh p hp := by
    split_ifs
    · rfl
    · exact h.fresh p hp
  refs_lt p a ha := by
    split_ifs at ha
    exact h.refs_lt p a ha

/-- The old item of the key stays, without an owner. -/
def alloc (k : κ) (a : α) (hrefs : refs a = []) : OwnedHeap κ α refs where
  keys := insert k h.keys
  ptr := Function.update h.ptr k (some h.next)
  cell := Function.update h.cell h.next (some a)
  next := h.next + 1
  mem_keys k' := by
    rcases eq_or_ne k' k with rfl | hne
    · simp
    · rw [Finset.mem_insert, Function.update_of_ne hne, h.mem_keys]
      simp [hne]
  live k' p hp := by
    rcases eq_or_ne k' k with rfl | hne
    · rw [Function.update_self] at hp
      obtain rfl := Option.some.inj hp
      rw [Function.update_self]
      rfl
    · rw [Function.update_of_ne hne] at hp
      rw [Function.update_of_ne (h.ptr_lt_next hp).ne]
      exact h.live k' p hp
  owner k₁ k₂ p h₁ h₂ := by
    rw [Function.update_apply] at h₁ h₂
    split_ifs at h₁ h₂ with hk₁ hk₂ hk₂
    · exact hk₁.trans hk₂.symm
    · exact absurd (Option.some.inj h₁) (h.ptr_lt_next h₂).ne'
    · exact absurd (Option.some.inj h₂) (h.ptr_lt_next h₁).ne'
    · exact h.owner k₁ k₂ p h₁ h₂
  fresh p hp := by
    rw [Function.update_of_ne (by omega)]
    exact h.fresh p (by omega)
  refs_lt p b hb q hq := by
    rcases eq_or_ne p h.next with rfl | hne
    · rw [Function.update_self] at hb
      rw [← Option.some.inj hb, hrefs] at hq
      simp at hq
    · rw [Function.update_of_ne hne] at hb
      exact Nat.lt_succ_of_lt (h.refs_lt p b hb q hq)

variable {h} {k : κ} {p : ℕ}

@[simp] theorem keys_delete : (h.delete k).keys = h.keys.erase k := rfl

@[simp] theorem ptr_delete_self : (h.delete k).ptr k = none := Function.update_self ..

theorem ptr_delete_of_ne {k' : κ} (hne : k' ≠ k) : (h.delete k).ptr k' = h.ptr k' :=
  Function.update_of_ne hne ..

theorem cell_delete_of_ptr (hp : h.ptr k = some p) : (h.delete k).cell p = none := if_pos hp

theorem cell_delete_of_ne (hp : h.ptr k ≠ some p) : (h.delete k).cell p = h.cell p := if_neg hp

section

variable {a : α} {hrefs : refs a = []}

@[simp] theorem keys_alloc : (h.alloc k a hrefs).keys = insert k h.keys := rfl

@[simp] theorem ptr_alloc_self : (h.alloc k a hrefs).ptr k = some h.next := Function.update_self ..

theorem ptr_alloc_of_ne {k' : κ} (hne : k' ≠ k) : (h.alloc k a hrefs).ptr k' = h.ptr k' :=
  Function.update_of_ne hne ..

@[simp] theorem cell_alloc_next : (h.alloc k a hrefs).cell h.next = some a :=
  Function.update_self ..

theorem cell_alloc_of_lt (hp : p < h.next) : (h.alloc k a hrefs).cell p = h.cell p :=
  Function.update_of_ne hp.ne ..

end

end OwnedHeap

end PPView
