import Mathlib.Data.BitVec
import Mathlib.Data.Finset.Card
import Mathlib.Data.List.Nodup
import PPView.Library.Tables

/-!
# Numbers for keys, and sets of keys as bits

A table gives each key of a list a number when it comes up first. The keys whose numbers fit into
a word of bits are told apart there, so a word determines which of them it was made from.
-/

namespace PPView

variable {κ : Type*} [DecidableEq κ]

/-- Enters a key that has no number with the next one. -/
def addNumber (first : ℕ) (table : List (κ × ℕ)) (k : κ) : List (κ × ℕ) :=
  if (table.lookup k).isSome then table else (k, first + table.length) :: table

/-- The numbers from `first` on for the keys of a list. -/
def numbers (first : ℕ) (l : List κ) : List (κ × ℕ) := l.foldl (addNumber first) []

/-- Different keys have different numbers, one behind the other. -/
structure IsNumbering (first : ℕ) (table : List (κ × ℕ)) : Prop where
  nodup : (table.map Prod.fst).Nodup
  lt : ∀ k n, table.lookup k = some n → n < first + table.length
  inj : ∀ k k' n, table.lookup k = some n → table.lookup k' = some n → k = k'

variable {first : ℕ} {table : List (κ × ℕ)} {k : κ} {l : List κ}

theorem isNumbering_nil (first : ℕ) : IsNumbering first ([] : List (κ × ℕ)) :=
  ⟨List.nodup_nil, by simp, by simp⟩

theorem IsNumbering.addNumber (h : IsNumbering first table) (k : κ) :
    IsNumbering first (addNumber first table k) := by
  unfold PPView.addNumber
  split_ifs with hsome
  · exact h
  · have hnew : k ∉ table.map Prod.fst := fun hmem => hsome (lookup_isSome_iff.mpr hmem)
    refine ⟨List.nodup_cons.mpr ⟨hnew, h.nodup⟩, fun k' n hn => ?_, fun k' k'' n hn hn' => ?_⟩
    · rw [lookup_cons_ite] at hn
      rw [List.length_cons]
      split_ifs at hn with heq
      · have := Option.some.inj hn
        dsimp only at this
        omega
      · have := h.lt k' n hn
        omega
    · rw [lookup_cons_ite] at hn hn'
      split_ifs at hn hn' with heq heq'
      · rw [heq, heq']
      · have := Option.some.inj hn
        have := h.lt k'' n hn'
        omega
      · have := Option.some.inj hn'
        have := h.lt k' n hn
        omega
      · exact h.inj k' k'' n hn hn'

theorem isNumbering_foldl (h : IsNumbering first table) (l : List κ) :
    IsNumbering first (l.foldl (PPView.addNumber first) table) := by
  induction l generalizing table with
  | nil => exact h
  | cons k l ih => exact ih (h.addNumber k)

theorem isNumbering_numbers (first : ℕ) (l : List κ) : IsNumbering first (numbers first l) :=
  isNumbering_foldl (isNumbering_nil first) l

theorem mem_addNumber {k' : κ} :
    k' ∈ (addNumber first table k).map Prod.fst ↔ k' = k ∨ k' ∈ table.map Prod.fst := by
  unfold addNumber
  split_ifs with hsome
  · refine ⟨.inr, fun h => h.elim (fun heq => ?_) id⟩
    rw [heq]
    exact lookup_isSome_iff.mp hsome
  · simp

theorem mem_foldl_addNumber :
    k ∈ (l.foldl (addNumber first) table).map Prod.fst ↔ k ∈ l ∨ k ∈ table.map Prod.fst := by
  induction l generalizing table with
  | nil => simp
  | cons k' l ih =>
    rw [List.foldl_cons, ih, mem_addNumber, List.mem_cons]
    tauto

theorem mem_numbers : k ∈ (numbers first l).map Prod.fst ↔ k ∈ l := by
  unfold numbers
  rw [mem_foldl_addNumber]
  simp

/-- There is one number for each different key. -/
theorem length_numbers : (numbers first l).length = l.toFinset.card := by
  have hnodup := (isNumbering_numbers first l).nodup
  rw [← List.length_map Prod.fst, ← List.toFinset_card_of_nodup hnodup]
  congr 1
  ext k
  simp only [List.mem_toFinset, mem_numbers]

theorem lookup_numbers (first : ℕ) (h : k ∈ l) :
    ∃ n, (numbers first l).lookup k = some n ∧ n < first + l.toFinset.card := by
  obtain ⟨n, hn⟩ := Option.isSome_iff_exists.mp (lookup_isSome_iff.mpr (mem_numbers.mpr h))
  have hlt := (isNumbering_numbers first l).lt k n hn
  rw [length_numbers] at hlt
  exact ⟨n, hn, hlt⟩

/-! ## Bits -/

variable {w : ℕ}

/-- Sets the bit of a key, if it has one. -/
def setKey (table : List (κ × ℕ)) (bits : BitVec w) (k : κ) : BitVec w :=
  match table.lookup k with
  | some n => if n < w then bits ||| BitVec.twoPow w n else bits
  | none => bits

/-- The bits of the keys of a list. -/
def keyBits (table : List (κ × ℕ)) (l : List κ) : BitVec w := l.foldl (setKey table) 0

theorem getLsbD_setKey (bits : BitVec w) (n : ℕ) :
    (setKey table bits k).getLsbD n = true ↔
      bits.getLsbD n = true ∨ n < w ∧ table.lookup k = some n := by
  unfold setKey
  cases hlookup : table.lookup k with
  | none => simp
  | some m =>
    dsimp only
    split_ifs with hm
    · rw [BitVec.getLsbD_or, BitVec.getLsbD_twoPow, Bool.or_eq_true, Bool.and_eq_true,
        decide_eq_true_eq, decide_eq_true_eq, Option.some_inj]
      exact or_congr_right ⟨fun h => ⟨h.2 ▸ h.1, h.2⟩, fun h => ⟨hm, h.2⟩⟩
    · rw [Option.some_inj]
      exact ⟨.inl, fun h => h.resolve_right fun ⟨hn, heq⟩ => hm (heq ▸ hn)⟩

theorem getLsbD_foldl_setKey (bits : BitVec w) (n : ℕ) :
    (l.foldl (setKey table) bits).getLsbD n = true ↔
      bits.getLsbD n = true ∨ n < w ∧ ∃ k ∈ l, table.lookup k = some n := by
  induction l generalizing bits with
  | nil => simp
  | cons k l ih =>
    rw [List.foldl_cons, ih, getLsbD_setKey]
    simp only [List.exists_mem_cons_iff]
    tauto

theorem getLsbD_keyBits (n : ℕ) :
    (keyBits table l : BitVec w).getLsbD n = true ↔ n < w ∧ ∃ k ∈ l, table.lookup k = some n := by
  unfold keyBits
  rw [getLsbD_foldl_setKey]
  simp

/-- Every key of the list has a number that fits. -/
def FitsKeys (w : ℕ) (table : List (κ × ℕ)) (l : List κ) : Prop :=
  ∀ k ∈ l, ∃ n, table.lookup k = some n ∧ n < w

theorem fitsKeys_numbers {keys : List κ} (hw : first + keys.toFinset.card ≤ w) (hl : l ⊆ keys) :
    FitsKeys w (numbers first keys) l := by
  intro k hk
  obtain ⟨n, hn, hlt⟩ := lookup_numbers first (hl hk)
  exact ⟨n, hn, by omega⟩

theorem mem_of_getLsbD_keyBits (htable : IsNumbering first table) {n : ℕ}
    (hn : table.lookup k = some n) (h : (keyBits table l : BitVec w).getLsbD n = true) : k ∈ l := by
  obtain ⟨-, k', hk', hn'⟩ := (getLsbD_keyBits n).mp h
  rwa [htable.inj k k' n hn hn']

/-- The bits tell which keys they are made from. -/
theorem keyBits_eq_iff {l' : List κ} (htable : IsNumbering first table)
    (hl : FitsKeys w table l) (hl' : FitsKeys w table l') :
    (keyBits table l : BitVec w) = keyBits table l' ↔ ∀ k, k ∈ l ↔ k ∈ l' := by
  constructor
  · intro heq k
    constructor
    · intro hk
      obtain ⟨n, hn, hlt⟩ := hl k hk
      refine mem_of_getLsbD_keyBits (w := w) htable hn ?_
      rw [← heq]
      exact (getLsbD_keyBits n).mpr ⟨hlt, k, hk, hn⟩
    · intro hk
      obtain ⟨n, hn, hlt⟩ := hl' k hk
      refine mem_of_getLsbD_keyBits (w := w) htable hn ?_
      rw [heq]
      exact (getLsbD_keyBits n).mpr ⟨hlt, k, hk, hn⟩
  · intro hmem
    apply BitVec.eq_of_getLsbD_eq
    intro n _
    rw [Bool.eq_iff_iff, getLsbD_keyBits, getLsbD_keyBits]
    simp only [hmem]

/-- The bits of lists that are joined. -/
theorem foldl_or_keyBits {α : Type*} (f : α → List κ) (as : List α) :
    as.foldl (fun bits a => bits ||| keyBits table (f a)) 0 =
      (keyBits table (as.flatMap f) : BitVec w) := by
  have hbits : ∀ (as : List α) (bits : BitVec w) (n : ℕ),
      (as.foldl (fun bits a => bits ||| keyBits table (f a)) bits).getLsbD n = true ↔
        bits.getLsbD n = true ∨ ∃ a ∈ as, (keyBits table (f a) : BitVec w).getLsbD n = true := by
    intro as
    induction as with
    | nil => simp
    | cons a as ih =>
      intro bits n
      rw [List.foldl_cons, ih, BitVec.getLsbD_or, Bool.or_eq_true]
      simp only [List.exists_mem_cons_iff]
      tauto
  apply BitVec.eq_of_getLsbD_eq
  intro n _
  rw [Bool.eq_iff_iff, hbits, getLsbD_keyBits]
  simp only [getLsbD_keyBits, List.mem_flatMap]
  constructor
  · rintro (hzero | ⟨a, ha, hlt, k, hk, hn⟩)
    · simp at hzero
    · exact ⟨hlt, k, ⟨a, ha, hk⟩, hn⟩
  · rintro ⟨hlt, k, ⟨a, ha, hk⟩, hn⟩
    exact .inr ⟨a, ha, hlt, k, hk, hn⟩

end PPView
