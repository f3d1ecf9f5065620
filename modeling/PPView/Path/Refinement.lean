import Mathlib.Data.List.Nodup
import PPView.Path.PathView

/-!
# Views are lists

A view stands for the list of the items that it shows. `Inv` keeps the slots of all views
different objects, so that writing through one view is not seen through another.
-/

namespace PPView.Path

variable {ι : Type} {toDate : Int → Rat → String}

namespace World

/-- The items that a view shows. -/
def list (w : World ι) (i : ι) : List Item :=
  ((w.view i).itemList.take (w.view i).len.toNat).map w.heap

/-- The item in the slot behind those that are shown, which the next call that adds an item takes;
a new one where the buffer ends there. -/
def spare (w : World ι) (i : ι) : Item :=
  ((w.view i).itemList[(w.view i).len.toNat]?).elim {} w.heap

structure Inv (w : World ι) : Prop where
  len_nonneg : ∀ i, 0 ≤ (w.view i).len
  len_le : ∀ i, (w.view i).len ≤ (w.view i).capacity
  nodup : ∀ i, (w.view i).itemList.Nodup
  lt_next : ∀ i, ∀ p ∈ (w.view i).itemList, p < w.next
  disjoint : ∀ i j, i ≠ j → List.Disjoint (w.view i).itemList (w.view j).itemList

variable {w : World ι} {i j : ι}

/-! ## Views and items -/

theorem length_list (h : w.Inv) (i : ι) : ((w.list i).length : Int) = (w.view i).len := by
  have := h.len_nonneg i
  have := h.len_le i
  simp only [View.capacity] at this
  simp only [list, List.length_map, List.length_take]
  omega

theorem slot_eq {v : View} {k : ℕ} (h : k < v.itemList.length) : v.slot k = .ok v.itemList[k] := by
  rw [View.slot, if_neg (by omega)]
  simp [h, pure, Except.pure]

theorem Inv.write (h : w.Inv) (p : ℕ) (x : Item) : (w.write p x).Inv :=
  ⟨h.len_nonneg, h.len_le, h.nodup, h.lt_next, h.disjoint⟩

theorem map_update_of_notMem {heap : ℕ → Item} {p : ℕ} {x : Item} {l : List ℕ} (h : p ∉ l) :
    l.map (Function.update heap p x) = l.map heap := by
  refine List.map_congr_left fun q hq => Function.update_of_ne ?_ _ _
  rintro rfl
  exact h hq

/-- The rest of the slots is behind those that are shown. -/
theorem list_eq_of_append {P R : List ℕ} (h : (w.view i).itemList = P ++ R)
    (hlen : (w.view i).len = P.length) : w.list i = P.map w.heap := by
  rw [list, h, hlen, Int.toNat_natCast, List.take_left]

theorem getItemIndex_eq (h : w.Inv) (i : ι) (index : Int) :
    (w.getItemIndex i index = .ok none ∧ (index < 0 ∨ (w.list i)[index.toNat]? = none)) ∨
      ∃ k : ℕ, ∃ hk : k < (w.view i).itemList.length, index = k ∧ k < (w.view i).len ∧
        w.getItemIndex i index = .ok (some (w.view i).itemList[k]) ∧
        (w.list i)[k]? = some (w.heap (w.view i).itemList[k]) := by
  have hlen := length_list h i
  have hle := h.len_le i
  simp only [View.capacity] at hle
  rw [getItemIndex]
  by_cases hout : index < 0 ∨ index ≥ (w.view i).len
  · refine .inl ⟨by rw [if_pos hout]; rfl, hout.imp_right fun hge => ?_⟩
    exact List.getElem?_eq_none (by omega)
  · obtain ⟨k, rfl⟩ := Int.eq_ofNat_of_zero_le (show 0 ≤ index by omega)
    have hk : k < (w.view i).itemList.length := by omega
    refine .inr ⟨k, hk, rfl, by omega, by rw [if_neg hout, slot_eq hk]; rfl, ?_⟩
    rw [list, List.getElem?_map, List.getElem?_take_of_lt (by omega), List.getElem?_eq_getElem hk]
    rfl

/-- A read of an item that is shown. -/
theorem getItemIndex_of_lt (h : w.Inv) {i : ι} {k : ℕ} (hk : k < (w.list i).length) :
    ∃ hslot : k < (w.view i).itemList.length,
      w.getItemIndex i k = .ok (some (w.view i).itemList[k]) ∧
      (w.list i)[k]? = some (w.heap (w.view i).itemList[k]) := by
  rcases getItemIndex_eq h i k with ⟨-, hnone⟩ | ⟨k', hslot, hkk, -, hget, hsome⟩
  · have hle := List.getElem?_eq_none_iff.mp (hnone.resolve_left (by omega))
    omega
  · obtain rfl : k = k' := by omega
    exact ⟨hslot, hget, hsome⟩

/-- The slot behind the items that are shown. -/
theorem exists_slot (h : w.Inv) {i : ι} (hlt : (w.view i).len < (w.view i).capacity) :
    ∃ k : ℕ, (w.view i).len = k ∧ ∃ hk : k < (w.view i).itemList.length,
      (w.view i).slot (w.view i).len = .ok (w.view i).itemList[k] ∧
      w.spare i = w.heap (w.view i).itemList[k] := by
  obtain ⟨k, hk⟩ := Int.eq_ofNat_of_zero_le (h.len_nonneg i)
  simp only [View.capacity] at hlt
  have hklt : k < (w.view i).itemList.length := by omega
  refine ⟨k, hk, hklt, hk ▸ slot_eq hklt, ?_⟩
  rw [spare, hk, Int.toNat_natCast, List.getElem?_eq_getElem hklt]
  rfl

variable [DecidableEq ι]

theorem list_setView (v : View) : (w.setView i v).list =
    Function.update w.list i ((v.itemList.take v.len.toNat).map w.heap) := by
  funext j
  by_cases hj : j = i
  · subst hj
    simp [list, setView]
  · simp [list, setView, hj]

theorem Inv.setView (h : w.Inv) {v : View} (hperm : v.itemList.Perm (w.view i).itemList)
    (hnonneg : 0 ≤ v.len) (hle : v.len ≤ v.capacity) : (w.setView i v).Inv := by
  have hmem (j : ι) : ((w.setView i v).view j).itemList.Perm (w.view j).itemList := by
    by_cases hj : j = i
    · subst hj
      simpa [World.setView] using hperm
    · simp [World.setView, hj]
  refine ⟨fun j => ?_, fun j => ?_, fun j => (hmem j).nodup_iff.mpr (h.nodup j),
    fun j p hp => h.lt_next j p ((hmem j).subset hp), fun j k hjk p hp hp' =>
      h.disjoint j k hjk ((hmem j).subset hp) ((hmem k).subset hp')⟩
  · by_cases hj : j = i
    · subst hj
      simpa [World.setView] using hnonneg
    · simpa [World.setView, hj] using h.len_nonneg j
  · by_cases hj : j = i
    · subst hj
      simpa [World.setView] using hle
    · simpa [World.setView, hj] using h.len_le j

/-- Writing through a slot that is shown is seen at its position, and through no other view. -/
theorem list_write (h : w.Inv) {k : ℕ} (hk : k < (w.view i).itemList.length)
    (hlen : k < (w.view i).len) (x : Item) :
    (w.write (w.view i).itemList[k] x).list = Function.update w.list i ((w.list i).set k x) := by
  funext j
  by_cases hj : j = i
  · subst hj
    rw [Function.update_self]
    refine List.ext_getElem (by simp [list, World.write]) fun m hm _ => ?_
    have hm' : m < (w.view j).itemList.length := by
      simp [list, World.write] at hm
      omega
    simp only [list, World.write, List.getElem_map, List.getElem_take, List.getElem_set,
      Function.update_apply, (h.nodup j).getElem_inj_iff]
    simp only [eq_comm (a := k)]
  · have hnot : (w.view i).itemList[k] ∉ (w.view j).itemList.take (w.view j).len.toNat :=
      fun hmem => h.disjoint i j (Ne.symm hj) (List.getElem_mem hk) (List.mem_of_mem_take hmem)
    simp only [list, World.write, Function.update_of_ne hj]
    exact map_update_of_notMem hnot

/-! ## Growing -/

/-- The slots that the view `j` gets when `i` grows. -/
def fresh (w : World ι) (i : ι) (length : Int) (j : ι) : List ℕ :=
  if j = i then List.range' w.next length.toNat else []

theorem lt_of_mem_fresh {length : Int} {p : ℕ} (h : p ∈ w.fresh i length j) :
    w.next ≤ p ∧ p < w.next + length.toNat := by
  rw [fresh] at h
  split_ifs at h
  · exact List.mem_range'_1.mp h
  · contradiction

theorem view_increaseCapacity {length : Int} (hpos : ¬ length ≤ 0) (j : ι) :
    (w.increaseCapacity i length).view j =
      { w.view j with itemList := (w.view j).itemList ++ w.fresh i length j } := by
  rw [increaseCapacity, if_neg hpos, fresh]
  by_cases hj : j = i
  · subst hj
    simp
  · simp [hj]

theorem Inv.increaseCapacity (h : w.Inv) (length : Int) : (w.increaseCapacity i length).Inv := by
  by_cases hpos : length ≤ 0
  · rwa [World.increaseCapacity, if_pos hpos]
  · have hold (j k : ι) : List.Disjoint (w.view j).itemList (w.fresh i length k) := fun p hp hp' =>
      absurd (h.lt_next j p hp) (lt_of_mem_fresh hp').1.not_gt
    have hnext : (w.increaseCapacity i length).next = w.next + length.toNat := by
      rw [World.increaseCapacity, if_neg hpos]
    refine ⟨fun j => ?_, fun j => ?_, fun j => ?_, fun j p hp => ?_, fun j k hjk => ?_⟩
    · rw [view_increaseCapacity hpos]
      exact h.len_nonneg j
    · have := h.len_le j
      rw [view_increaseCapacity hpos]
      simp only [View.capacity, List.length_append] at this ⊢
      omega
    · rw [view_increaseCapacity hpos]
      refine (h.nodup j).append ?_ (hold j j)
      rw [fresh]
      split_ifs
      · exact List.nodup_range'
      · exact List.nodup_nil
    · rw [view_increaseCapacity hpos] at hp
      rw [hnext]
      rcases List.mem_append.mp hp with hp | hp
      · exact Nat.lt_add_right _ (h.lt_next j p hp)
      · exact (lt_of_mem_fresh hp).2
    · rw [view_increaseCapacity hpos, view_increaseCapacity hpos]
      have hfresh : List.Disjoint (w.fresh i length j) (w.fresh i length k) := by
        rw [fresh, fresh]
        split_ifs with hj hk
        · exact absurd (hj.trans hk.symm) hjk
        all_goals simp
      exact List.disjoint_append_left.mpr
        ⟨List.disjoint_append_right.mpr ⟨h.disjoint j k hjk, hold j k⟩,
          List.disjoint_append_right.mpr ⟨fun p hp hp' => hold k j hp' hp, hfresh⟩⟩

theorem list_increaseCapacity (h : w.Inv) (length : Int) :
    (w.increaseCapacity i length).list = w.list := by
  by_cases hpos : length ≤ 0
  · rw [increaseCapacity, if_pos hpos]
  · funext j
    have hlen : (w.view j).len.toNat ≤ (w.view j).itemList.length := by
      have := h.len_le j
      simp only [View.capacity] at this
      omega
    rw [list, list, view_increaseCapacity hpos, List.take_append_of_le_length hlen]
    refine List.map_congr_left fun p hp => ?_
    have := h.lt_next j p (List.mem_of_mem_take hp)
    rw [increaseCapacity, if_neg hpos]
    exact if_neg fun hmem => by
      have := List.mem_range'_1.mp hmem
      omega

/-- A new slot has a new item. -/
theorem spare_increaseCapacity {length : Int} (hpos : ¬ length ≤ 0)
    (hfull : (w.view i).len = (w.view i).capacity) :
    (w.increaseCapacity i length).spare i = {} := by
  have hlen : (w.view i).len.toNat = (w.view i).itemList.length := by
    rw [hfull, View.capacity, Int.toNat_natCast]
  have hnil : List.range' w.next length.toNat ≠ [] := by
    simp
    omega
  obtain ⟨p, fresh, hfresh⟩ := List.exists_cons_of_ne_nil hnil
  rw [spare, view_increaseCapacity hpos, hlen, World.fresh, if_pos rfl, hfresh,
    List.getElem?_append_right le_rfl, Nat.sub_self, List.getElem?_cons_zero, Option.elim_some,
    increaseCapacity, if_neg hpos]
  exact if_pos (by simp [hfresh])

/-- Behind `grow` there is a slot that is not shown, and nothing else is different. -/
theorem grow_spec (h : w.Inv) (i : ι) : (w.grow i).Inv ∧ (w.grow i).list = w.list ∧
    ((w.grow i).view i).len = (w.view i).len ∧ (w.grow i).spare i = w.spare i ∧
    ((w.grow i).view i).len < ((w.grow i).view i).capacity := by
  rw [grow]
  by_cases hfull : (w.view i).len ≥ (w.view i).capacity
  · have hcap : 0 ≤ (w.view i).capacity := Int.natCast_nonneg _
    have hpos : ¬ (w.view i).len - (w.view i).capacity +
      max 1 (3 * (w.view i).capacity / 10) ≤ 0 := by
      omega
    rw [if_pos hfull]
    refine ⟨h.increaseCapacity _, list_increaseCapacity h _, ?_, ?_, ?_⟩
    · rw [view_increaseCapacity hpos]
    · have heq : (w.view i).len = (w.view i).capacity := Int.le_antisymm (h.len_le i) hfull
      have hnone : (w.view i).itemList[(w.view i).len.toNat]? = none := by
        rw [heq, View.capacity, Int.toNat_natCast, List.getElem?_eq_none le_rfl]
      rw [spare_increaseCapacity hpos heq, spare, hnone]
      rfl
    · rw [view_increaseCapacity hpos]
      simp only [View.capacity, List.length_append, fresh, if_true, List.length_range'] at hfull ⊢
      omega
  · rw [if_neg hfull]
    exact ⟨h, rfl, rfl, rfl, by omega⟩

/-! ## Operations -/

/-- An item of `i` is written and the slots of `i` are arranged anew. -/
theorem list_write_setView (h : w.Inv) {p : ℕ} (hp : p ∈ (w.view i).itemList) (x : Item)
    (v : View) : ((w.write p x).setView i v).list = Function.update w.list i
      ((v.itemList.take v.len.toNat).map (Function.update w.heap p x)) := by
  rw [list_setView]
  funext j
  by_cases hj : j = i
  · subst hj
    rw [Function.update_self, Function.update_self]
    rfl
  · rw [Function.update_of_ne hj, Function.update_of_ne hj]
    exact map_update_of_notMem fun hmem =>
      h.disjoint i j (Ne.symm hj) hp (List.mem_of_mem_take hmem)

theorem append_spec (h : w.Inv) (i : ι) (f : Item → Item) :
    ∃ w', w.append i f = .ok (0, w') ∧ w'.Inv ∧
      w'.list = Function.update w.list i (w.list i ++ [f (w.spare i)]) := by
  obtain ⟨hinv, hlist, -, hspare, hlt⟩ := grow_spec h i
  rw [append, ← hlist, ← hspare]
  generalize w.grow i = w at hinv hlt
  have hnonneg := hinv.len_nonneg i
  obtain ⟨k, hk, hklt, hslot, hspare⟩ := exists_slot hinv hlt
  rw [hspare]
  have hnotMem : (w.view i).itemList[k] ∉ (w.view i).itemList.take k := by
    rw [List.mem_take_iff_getElem]
    rintro ⟨m, hm, heq⟩
    have := (hinv.nodup i).getElem_inj_iff.mp heq
    omega
  refine ⟨_, by simp only [hslot]; rfl, ?_, ?_⟩
  · refine (hinv.write _ _).setView (.refl _) (by dsimp only; omega) ?_
    simp only [View.capacity] at hlt ⊢
    omega
  · rw [list_write_setView hinv (List.getElem_mem hklt)]
    congr 1
    have htake : ((w.view i).len + 1).toNat = k + 1 := by omega
    rw [list, htake, List.take_succ_eq_append_getElem hklt, List.map_append,
      map_update_of_notMem hnotMem, show (w.view i).len.toNat = k by omega]
    simp

theorem exists_split {l : List ℕ} {m n : ℕ} (hmn : m ≤ n) (hn : n < l.length) :
    ∃ P M R, l = P ++ (M ++ l[n] :: R) ∧ P.length = m ∧ M.length = n - m := by
  refine ⟨l.take m, (l.take n).drop m, l.drop (n + 1), ?_, by simp; omega, by simp; omega⟩
  have hP : l.take m = (l.take n).take m := by
    rw [List.take_take, Nat.min_eq_left hmn]
  rw [hP, ← List.append_assoc, List.take_append_drop, ← List.drop_eq_getElem_cons hn,
    List.take_append_drop]

/-- The entry at `m`, before what else is in front of `n`. -/
theorem exists_split_of_lt {l : List ℕ} {m n : ℕ} (hmn : m < n) (hn : n ≤ l.length) :
    ∃ P M R, l = P ++ (l[m] :: M ++ R) ∧ P.length = m ∧ M.length = n - 1 - m := by
  refine ⟨l.take m, (l.drop (m + 1)).take (n - 1 - m), (l.drop (m + 1)).drop (n - 1 - m), ?_,
    by simp; omega, by simp; omega⟩
  rw [List.cons_append, List.take_append_drop, ← List.drop_eq_getElem_cons (by omega),
    List.take_append_drop]

theorem insertIdx_length {α : Type} (P M : List α) (x : α) :
    (P ++ M).insertIdx P.length x = P ++ x :: M := by
  induction P with
  | nil => simp
  | cons y P ih => simpa using ih

theorem eraseIdx_length {α : Type} (P M : List α) (x : α) :
    (P ++ x :: M).eraseIdx P.length = P ++ M := by
  simp [List.eraseIdx_append]

theorem insert_spec (h : w.Inv) (i : ι) {index : ℕ} (hindex : index < (w.list i).length)
    (fields : Fields) :
    ∃ w', w.insert toDate i index fields = .ok (0, w') ∧ w'.Inv ∧
      w'.list = Function.update w.list i
        ((w.list i).insertIdx index (Item.fill toDate fields (w.spare i))) := by
  have hlen := length_list h i
  obtain ⟨hinv, hlist, hsame, hspare, hlt⟩ := grow_spec h i
  rw [insert, if_neg (by omega), ← hlist, ← hspare]
  rw [← hsame] at hlen
  generalize w.grow i = w at hinv hlt hlist hlen
  obtain ⟨k, hk, hklt, hslot, hspare⟩ := exists_slot hinv hlt
  rw [hspare]
  obtain ⟨P, M, R, hsplit, hP, hM⟩ := exists_split (show index ≤ k by omega) hklt
  generalize (w.view i).itemList[k] = p at hslot hsplit
  have hmem : p ∈ (w.view i).itemList := by simp [hsplit]
  have hset : (Shift.up (index : Int).toNat ((w.view i).len - index).toNat
      (w.view i).itemList).set (index : Int).toNat p = P ++ (p :: M ++ R) := by
    have hup := Shift.set_up P M p p R
    rwa [hP, hM, ← hsplit, show k - index = ((w.view i).len - index).toNat by omega] at hup
  have hperm : (P ++ (p :: M ++ R)).Perm (w.view i).itemList := by
    rw [hsplit]
    exact List.perm_middle.symm.append_left P
  refine ⟨_, by simp only [hslot]; rfl, ?_, ?_⟩
  · rw [hset]
    refine (hinv.write _ _).setView hperm (by dsimp only; omega) ?_
    have := hperm.length_eq
    simp only [View.capacity] at this ⊢
    omega
  · have hlist' : w.list i = (P ++ M).map w.heap :=
      list_eq_of_append (by rw [hsplit, List.append_assoc]) (by rw [List.length_append]; omega)
    have hnotMem : p ∉ P ++ M := by
      have hnodup := hsplit ▸ hinv.nodup i
      rw [← List.append_assoc] at hnodup
      exact fun hp => (List.nodup_append.mp hnodup).2.2 p hp p (by simp) rfl
    have htake : (P ++ (p :: M ++ R)).take ((w.view i).len + 1).toNat = P ++ p :: M := by
      rw [show P ++ (p :: M ++ R) = (P ++ p :: M) ++ R by simp]
      exact List.take_left' (by simp; omega)
    rw [hset, list_write_setView hinv hmem, hlist', htake]
    congr 1
    simp only [List.mem_append, not_or] at hnotMem
    rw [List.map_append, List.map_cons, map_update_of_notMem hnotMem.1,
      map_update_of_notMem hnotMem.2, Function.update_self, List.map_append,
      show index = (P.map w.heap).length by simp [hP], insertIdx_length]

theorem erase_spec (h : w.Inv) (i : ι) {index : ℕ} (hindex : index < (w.list i).length) :
    ∃ w', w.erase i index = .ok (0, w') ∧ w'.Inv ∧
      w'.list = Function.update w.list i ((w.list i).eraseIdx index) := by
  have hlen := length_list h i
  have hle := h.len_le i
  simp only [View.capacity] at hle
  have hlt : index < (w.view i).itemList.length := by omega
  rw [erase, if_neg (by omega), slot_eq hlt]
  obtain ⟨P, M, R, hsplit, hP, hM⟩ := exists_split_of_lt hindex
    (show (w.list i).length ≤ (w.view i).itemList.length by omega)
  generalize (w.view i).itemList[index] = p at hsplit
  have hset : (Shift.down ((w.view i).len - 1 - index).toNat (index : Int).toNat
      (w.view i).itemList).set ((w.view i).len - 1).toNat p = P ++ (M ++ p :: R) := by
    have hdown := Shift.set_down P p p M R
    rwa [hP, hM, ← hsplit, show (w.list i).length - 1 - index = ((w.view i).len - 1 - index).toNat
      by omega, show index + ((w.view i).len - 1 - index).toNat = ((w.view i).len - 1).toNat
      by omega] at hdown
  have hperm : (P ++ (M ++ p :: R)).Perm (w.view i).itemList := by
    rw [hsplit]
    exact List.perm_middle.append_left P
  have hlist : w.list i = (P ++ p :: M).map w.heap :=
    list_eq_of_append (show _ = (P ++ p :: M) ++ R by rw [hsplit]; simp) (by simp; omega)
  refine ⟨_, rfl, ?_, ?_⟩
  · rw [hset]
    refine h.setView hperm (by dsimp only; omega) ?_
    have := hperm.length_eq
    simp only [View.capacity] at this ⊢
    omega
  · have htake : (P ++ (M ++ p :: R)).take ((w.view i).len - 1).toNat = P ++ M := by
      rw [← List.append_assoc]
      exact List.take_left' (by simp; omega)
    rw [hset, list_setView, htake, hlist, List.map_append, List.map_append, List.map_cons,
      show index = (P.map w.heap).length by simp [hP], eraseIdx_length]

theorem erase_of_ge (i : ι) {index : Int} (hindex : (w.view i).len ≤ index) :
    w.erase i index = .ok (1, w) := by
  rw [erase, if_pos hindex]
  rfl

theorem erase_of_neg (h : w.Inv) (i : ι) {index : Int} (hindex : index < 0) :
    w.erase i index = .error .arrayBound := by
  have := h.len_nonneg i
  rw [erase, if_neg (by omega), View.slot, if_pos hindex]
  rfl

theorem resetLen_spec (h : w.Inv) (i : ι) (newLen : Int) :
    (w.resetLen i newLen).Inv ∧ (w.resetLen i newLen).list = Function.update w.list i
      (if 0 ≤ newLen then (w.list i).take newLen.toNat else w.list i) := by
  have hlen := length_list h i
  have hle := h.len_le i
  rw [resetLen]
  by_cases hcut : newLen ≥ 0 ∧ (w.view i).len > newLen
  · rw [if_pos hcut, if_pos hcut.1]
    refine ⟨h.setView (.refl _) hcut.1 (by simp only [View.capacity] at hle ⊢; omega), ?_⟩
    rw [list_setView]
    simp only [list, ← List.map_take, List.take_take]
    rw [Nat.min_eq_left (by omega)]
  · rw [if_neg hcut]
    refine ⟨h, ?_⟩
    split_ifs with hnonneg
    · rw [List.take_of_length_le (by omega), Function.update_eq_self]
    · rw [Function.update_eq_self]

theorem reset_spec (h : w.Inv) (i : ι) :
    (w.reset i).Inv ∧ (w.reset i).list = Function.update w.list i [] := by
  refine ⟨h.setView (.refl _) (Int.le_refl 0) (Int.natCast_nonneg _), ?_⟩
  rw [reset, list_setView]
  rfl

/-! ## Reading another view -/

/-- The item at a position, if there is one. -/
def itemAt (l : List Item) (index : Int) : Option Item :=
  if index < 0 then none else l[index.toNat]?

/-- The items from the position `begIdx` to `endIdx`, as far as there are any. -/
def slice (l : List Item) (begIdx endIdx : Int) : List Item :=
  (l.drop begIdx.toNat).take (endIdx + 1 - max begIdx 0).toNat

theorem filterMap_itemAt_range (l : List Item) (begIdx : Int) (n : ℕ) :
    ((List.range n).map fun k : ℕ => begIdx + k).filterMap (itemAt l) =
      (l.drop begIdx.toNat).take (n + min begIdx 0).toNat := by
  induction n with
  | zero =>
    rw [show ((0 : ℕ) + min begIdx 0).toNat = 0 by omega]
    simp
  | succ n ih =>
    rw [List.range_succ, List.map_append, List.filterMap_append, ih, List.map_singleton]
    by_cases hneg : begIdx + n < 0
    · rw [List.filterMap_cons_none (by rw [itemAt, if_pos hneg]),
        show (n + min begIdx 0).toNat = ((n + 1 : ℕ) + min begIdx 0).toNat by omega]
      simp
    · have hat : itemAt l (begIdx + n) =
          (l.drop begIdx.toNat)[(n + min begIdx 0).toNat]? := by
        rw [itemAt, if_neg hneg, List.getElem?_drop]
        congr 1
        omega
      rw [show ((n + 1 : ℕ) + min begIdx 0).toNat = (n + min begIdx 0).toNat + 1 by omega,
        List.take_add_one, ← hat]
      cases hitem : itemAt l (begIdx + n) <;> simp [hitem]

theorem filterMap_positions (l : List Item) (begIdx endIdx : Int) :
    (positions begIdx endIdx).filterMap (itemAt l) = slice l begIdx endIdx := by
  rw [positions, filterMap_itemAt_range, slice]
  congr 1
  omega

/-- The loop of `copyN`, from any state of the target. -/
theorem copyN_loop {src : ι} (hsrc : src ≠ i) (ps : List Int) (h : w.Inv) :
    ∃ w', ps.foldlM (copyNRound i src) w = .ok w' ∧ w'.Inv ∧
      w'.list = Function.update w.list i
        (w.list i ++ ps.filterMap (itemAt (w.list src))) := by
  induction ps generalizing w with
  | nil => exact ⟨w, rfl, h, by simp⟩
  | cons index ps ih =>
    rw [List.foldlM_cons]
    rcases getItemIndex_eq h src index with ⟨hget, hnone⟩ | ⟨k, hk, rfl, hlt, hget, hsome⟩
    · obtain ⟨w', hloop, hinv, hlist⟩ := ih h
      have hat : itemAt (w.list src) index = none := by
        rw [itemAt]
        split_ifs with hneg
        · rfl
        · exact hnone.resolve_left hneg
      refine ⟨w', by rw [copyNRound, hget]; exact hloop, hinv, ?_⟩
      rw [hlist, List.filterMap_cons_none hat]
    · obtain ⟨w₁, happend, hinv₁, hlist₁⟩ :=
        append_spec h i fun _ => w.heap (w.view src).itemList[k]
      obtain ⟨w', hloop, hinv, hlist⟩ := ih hinv₁
      have hat : itemAt (w.list src) k = some (w.heap (w.view src).itemList[k]) := by
        rw [itemAt, if_neg (by omega)]
        exact hsome
      refine ⟨w', ?_, hinv, ?_⟩
      · rw [copyNRound, hget]
        simp only [bind, Except.bind, happend]
        exact hloop
      · rw [hlist, List.filterMap_cons_some hat, hlist₁, Function.update_idem,
          Function.update_self, Function.update_of_ne hsrc, List.append_assoc]
        rfl

theorem copyN_spec (h : w.Inv) {src : ι} (hsrc : src ≠ i) (begIdx endIdx : Int) :
    ∃ w', w.copyN i src begIdx endIdx = .ok (0, w') ∧ w'.Inv ∧
      w'.list = Function.update w.list i (slice (w.list src) begIdx endIdx) := by
  obtain ⟨hinv, hlist⟩ := reset_spec h i
  obtain ⟨w', hloop, hinv', hlist'⟩ := copyN_loop hsrc (positions begIdx endIdx) hinv
  refine ⟨w', by rw [copyN, hloop]; rfl, hinv', ?_⟩
  rw [hlist', hlist, Function.update_idem, Function.update_self, Function.update_of_ne hsrc,
    List.nil_append, filterMap_positions]

theorem set_overwrite {T S : List Item} {b n : ℕ} {x : Item} (hn : b + (n + 1) ≤ T.length)
    (hx : S[n]? = some x) : (T.take b ++ S.take n ++ T.drop (b + n)).set (b + n) x =
      T.take b ++ S.take (n + 1) ++ T.drop (b + (n + 1)) := by
  obtain ⟨hlt, rfl⟩ := List.getElem?_eq_some_iff.mp hx
  have hlen : (T.take b ++ S.take n).length = b + n := by
    simp
    omega
  rw [List.set_append_right _ _ hlen.le, hlen, Nat.sub_self,
    List.drop_eq_getElem_cons (show b + n < T.length by omega), List.set_cons_zero,
    List.take_succ_eq_append_getElem hlt]
  simp only [List.append_assoc, List.singleton_append, Nat.add_assoc]

/-- A loop that writes the items of `src` one by one over those of `i` from `b` on. -/
theorem overwrite_loop {src : ι} (hsrc : src ≠ i) {step : World ι → ℕ → Res (World ι)} {b n : ℕ}
    (h : w.Inv) (hn : b + n ≤ (w.list i).length)
    (hstep : ∀ (w' : World ι) (k : ℕ), w'.Inv → w'.view = w.view → k < n →
      ∃ x, ∃ hb : b + k < (w'.view i).itemList.length, (w'.list src)[k]? = some x ∧
        step w' k = .ok (w'.write (w'.view i).itemList[b + k] x)) :
    ∃ w', (List.range n).foldlM step w = .ok w' ∧ w'.Inv ∧ w'.view = w.view ∧
      w'.list = Function.update w.list i
        ((w.list i).take b ++ (w.list src).take n ++ (w.list i).drop (b + n)) := by
  induction n with
  | zero => exact ⟨w, rfl, h, rfl, by simp⟩
  | succ n ih =>
    obtain ⟨w₁, hloop, hinv, hview, hlist⟩ := ih (by omega) fun w' k hw' hv hk =>
      hstep w' k hw' hv (by omega)
    obtain ⟨x, hb, hx, heq⟩ := hstep w₁ n hinv hview (by omega)
    have hlen := length_list h i
    refine ⟨_, ?_, hinv.write (w₁.view i).itemList[b + n] x, hview, ?_⟩
    · rw [List.range_succ, List.foldlM_append, hloop]
      simp only [bind, Except.bind, List.foldlM_cons, heq, List.foldlM_nil]
      rfl
    · rw [hlist, Function.update_of_ne hsrc] at hx
      rw [list_write hinv hb (by rw [hview]; omega), hlist, Function.update_idem,
        Function.update_self]
      exact congrArg _ (set_overwrite hn hx)

theorem subN_spec (h : w.Inv) {src : ι} (hsrc : src ≠ i) {begIdx endIdx : Int}
    (hbeg : 0 ≤ begIdx) (hend : 0 ≤ endIdx) (hbeg' : begIdx < (w.list i).length)
    (hend' : endIdx < (w.list i).length) (hlen : (w.list src).length = endIdx - begIdx + 1) :
    ∃ w', w.subN i src begIdx endIdx = .ok (0, w') ∧ w'.Inv ∧
      w'.list = Function.update w.list i ((w.list i).take begIdx.toNat ++ w.list src ++
        (w.list i).drop (begIdx.toNat + (w.list src).length)) := by
  have hli := length_list h i
  have hlsrc := length_list h src
  obtain ⟨b, rfl⟩ := Int.eq_ofNat_of_zero_le hbeg
  have hround (w' : World ι) (k : ℕ) (hw' : w'.Inv) (hview : w'.view = w.view)
      (hk : k < (w.list src).length) :
      ∃ x, ∃ hb : b + k < (w'.view i).itemList.length, (w'.list src)[k]? = some x ∧
        subNRound i src b w' k = .ok (w'.write (w'.view i).itemList[b + k] x) := by
    have hlen' (j : ι) : ((w'.list j).length : Int) = (w.view j).len := by
      rw [length_list hw', hview]
    have hlsrc' := hlen' src
    have hli' := hlen' i
    obtain ⟨hlt, hget, hsome⟩ := getItemIndex_of_lt hw' (i := src) (k := k) (by omega)
    obtain ⟨hm, hget', -⟩ := getItemIndex_of_lt hw' (i := i) (k := b + k) (by omega)
    rw [Int.natCast_add] at hget'
    exact ⟨_, hm, hsome, by rw [subNRound, hget, hget']; rfl⟩
  obtain ⟨w', hloop, hinv, -, hlist⟩ := overwrite_loop hsrc h (by omega) hround
  refine ⟨w', ?_, hinv, by rw [hlist, List.take_length]; rfl⟩
  have hround : (w.view src).len.toNat = (w.list src).length := by omega
  rw [subN, if_neg (by omega), if_neg (by omega), hround, hloop]
  rfl

theorem copy_spec (h : w.Inv) {src : ι} (hsrc : src ≠ i) :
    ∃ w', w.copy i src = .ok (0, w') ∧ w'.Inv ∧
      w'.list = Function.update w.list i (w.list src) := by
  have hroom : ∃ w₁ : World ι, (if (w.view i).capacity < (w.view src).len then
      w.increaseCapacity i ((w.view src).len - (w.view i).capacity) else w) = w₁ ∧ w₁.Inv ∧
      w₁.list = w.list ∧ (w₁.view src).len ≤ (w₁.view i).capacity := by
    by_cases hcap : (w.view i).capacity < (w.view src).len
    · refine ⟨_, if_pos hcap, h.increaseCapacity _, list_increaseCapacity h _, ?_⟩
      rw [view_increaseCapacity (by omega), view_increaseCapacity (by omega)]
      simp only [View.capacity, List.length_append, fresh, if_true, List.length_range'] at hcap ⊢
      omega
    · exact ⟨w, if_neg hcap, h, rfl, by omega⟩
  obtain ⟨w₁, hw₁, hinv₁, hlist₁, hcap⟩ := hroom
  rw [copy, hw₁, ← hlist₁]
  have hlen₁ := length_list hinv₁ src
  have hinv₂ := hinv₁.setView (i := i)
    (v := ⟨(w₁.view i).itemList, (w₁.view src).len, (w₁.view src).stat⟩) (.refl _)
    (hinv₁.len_nonneg src) hcap
  have hlist₂ := list_setView (w := w₁) (i := i)
    ⟨(w₁.view i).itemList, (w₁.view src).len, (w₁.view src).stat⟩
  have hview₂ : ((w₁.setView i ⟨(w₁.view i).itemList, (w₁.view src).len,
      (w₁.view src).stat⟩).view i).len = (w₁.view src).len := by simp [setView]
  have hsrc₂ : ((w₁.setView i ⟨(w₁.view i).itemList, (w₁.view src).len,
      (w₁.view src).stat⟩).view src).len = (w₁.view src).len := by simp [setView, hsrc]
  dsimp only
  generalize w₁.setView i ⟨(w₁.view i).itemList, (w₁.view src).len, (w₁.view src).stat⟩ = w₂
    at hinv₂ hlist₂ hview₂ hsrc₂ ⊢
  have hround (w' : World ι) (k : ℕ) (hw' : w'.Inv) (hview : w'.view = w₂.view)
      (hk : k < (w₁.list src).length) :
      ∃ x, ∃ hb : 0 + k < (w'.view i).itemList.length, (w'.list src)[k]? = some x ∧
        copyRound i src w' k = .ok (w'.write (w'.view i).itemList[0 + k] x) := by
    have hlsrc := length_list hw' src
    have hli := hw'.len_le i
    rw [hview] at hlsrc hli
    simp only [View.capacity] at hli
    obtain ⟨hlt, hget, hsome⟩ := getItemIndex_of_lt hw' (i := src) (k := k) (by omega)
    have hki : k < (w'.view i).itemList.length := by
      rw [hview]
      omega
    refine ⟨_, by omega, hsome, ?_⟩
    simp only [copyRound, hget, bind, Except.bind, slot_eq hki, Nat.zero_add]
    rfl
  have hli := length_list hinv₂ i
  obtain ⟨w', hloop, hinv, -, hlist⟩ := overwrite_loop hsrc hinv₂ (by omega) hround
  refine ⟨w', ?_, hinv, ?_⟩
  · rw [show (w₂.view i).len.toNat = (w₁.list src).length by omega, hloop]
    rfl
  · rw [hlist, hlist₂, Function.update_idem, Function.update_self, Function.update_of_ne hsrc,
      List.take_length, List.take_zero, List.nil_append, List.drop_eq_nil_of_le, List.append_nil]
    rw [hlist₂, Function.update_self] at hli
    omega

end World

end PPView.Path
