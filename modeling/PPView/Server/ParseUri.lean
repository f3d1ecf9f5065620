import Mathlib.Data.List.Induction
import PPView.Library.Strings
import PPView.Server.AuxTools

/-!
# The items of a request

`MQQueryProcessor::ParseUri` walks over a request from its end, from one `&` to the one before it,
and makes a key and a value of what it has passed as soon as there is a `=` in it. So an item of a
request is a key with its value, and a `&` with no `=` up to the next one belongs to the value.

The loop ends after one round for each `&`, unless the request begins with one: below the
position zero is `npos`, and the search begins again at the end.
-/

namespace PPView.MQQueryProcessor

open Str Strings

abbrev amp : UInt8 := '&'.toUInt8

abbrev eql : UInt8 := '='.toUInt8

/-! ## The code -/

/-- `pos - 1`, with `none` for `npos`. -/
def before : ℕ → Option ℕ
  | 0 => none
  | pos + 1 => some pos

/-- `uri.rfind("&", pos)`. -/
def rfindAmp (uri : Str) : Option ℕ → Option ℕ
  | none => rfind [amp] uri
  | some pos => rfind [amp] (uri.take (pos + 1))

/-- `uri.substr(posB + 1, posE - posB - 1)`. A length below zero is larger than every string. -/
def itemAt (uri : Str) (posB : ℕ) : Option ℕ → Str
  | none => uri.drop (posB + 1)
  | some posE =>
    if posE ≤ posB then uri.drop (posB + 1) else (uri.drop (posB + 1)).take (posE - posB - 1)

/-- `uri.substr(0, posE)`. -/
def itemBefore (uri : Str) : Option ℕ → Str
  | none => uri
  | some posE => uri.take posE

/-- What an item adds to the list. -/
def keyValue (itemS : Str) : Option (Str × Str) :=
  (find [eql] itemS).map fun pos => (itemS.take pos, itemS.drop (pos + 1))

/-- The loop, with the position where it left. -/
def ParseUri.loop (uri : Str) :
    ℕ → Option ℕ → Option ℕ → List (Str × Str) → Option (Option ℕ × List (Str × Str))
  | _, posE, none, retList => some (posE, retList)
  | 0, _, some _, _ => none
  | fuel + 1, posE, some posB, retList =>
    match keyValue (itemAt uri posB posE) with
    | some item => loop uri fuel (some posB) (rfindAmp uri (before posB)) (retList ++ [item])
    | none => loop uri fuel posE (rfindAmp uri (before posB)) retList

def ParseUri (fuel : ℕ) (uri : Str) : Option (List (Str × Str)) := do
  let (posE, retList) ← ParseUri.loop uri fuel none (rfindAmp uri none) []
  pure (retList ++ (keyValue (itemBefore uri posE)).toList)

/-! ## The items -/

/-- The items of a request. Each begins with a key, but for the first, which may have none. -/
structure IsItems (uri : Str) (items : List Str) : Prop where
  join : [amp].intercalate items = uri
  key : ∀ item ∈ items.tail, ∃ a b, item = a ++ eql :: b ∧ amp ∉ a
  value : ∀ item ∈ items, ∀ a b, item = a ++ amp :: b → eql ∉ b

variable {uri item a b s rest : Str} {items : List Str} {posE : Option ℕ}
  {retList : List (Str × Str)} {fuel : ℕ}

theorem keyValue_eq_none (h : eql ∉ item) : keyValue item = none := by
  rw [keyValue, find_eq_none h, Option.map_none]

theorem keyValue_append (h : eql ∉ a) : keyValue (a ++ eql :: b) = some (a, b) := by
  have hdrop : (a ++ eql :: b).drop (a.length + 1) = b := by simp [← List.drop_drop]
  rw [keyValue, find_singleton_append h, Option.map_some, List.take_left' rfl, hdrop]

theorem keyValue_isSome (h : eql ∈ item) : ∃ a b, keyValue item = some (a, b) := by
  obtain ⟨a, b, rfl, ha⟩ := List.eq_append_cons_of_mem h
  exact ⟨a, b, keyValue_append ha⟩

theorem intercalate_append {items : List Str} (hne : items ≠ []) (s : Str) :
    [amp].intercalate (items ++ [s]) = [amp].intercalate items ++ amp :: s := by
  induction items with
  | nil => contradiction
  | cons x items ih =>
    rcases eq_or_ne items [] with rfl | hitems
    · simp [List.intercalate, List.intersperse]
    · rw [List.cons_append, List.intercalate_cons_of_ne_nil (by simp), ih hitems,
        List.intercalate_cons_of_ne_nil hitems]
      simp

/-- An item behind the others. -/
theorem IsItems.concat (h : IsItems uri items) (hne : items ≠ []) (ha : amp ∉ a)
    (hvalue : ∀ c d, a ++ eql :: b = c ++ amp :: d → eql ∉ d) :
    IsItems (uri ++ amp :: (a ++ eql :: b)) (items ++ [a ++ eql :: b]) := by
  refine ⟨by rw [intercalate_append hne, h.join], ?_, ?_⟩
  · intro item hitem
    rw [List.tail_append_of_ne_nil hne] at hitem
    rcases List.mem_append.mp hitem with hitem | hitem
    · exact h.key item hitem
    · exact ⟨a, b, List.mem_singleton.mp hitem, ha⟩
  · intro item hitem
    rcases List.mem_append.mp hitem with hitem | hitem
    · exact h.value item hitem
    · rw [List.mem_singleton.mp hitem]
      exact hvalue

/-- More of the value of the last item. -/
theorem IsItems.extend (h : IsItems uri (items ++ [item])) (heq : eql ∉ s) :
    IsItems (uri ++ amp :: s) (items ++ [item ++ amp :: s]) := by
  obtain ⟨hjoin, hkey, hvalue⟩ := h
  refine ⟨?_, fun x hx => ?_, fun x hx a b hab => ?_⟩
  · rcases eq_or_ne items [] with rfl | hne
    · simpa using hjoin
    · rw [intercalate_append hne] at hjoin ⊢
      simp [← hjoin]
  · rcases eq_or_ne items [] with rfl | hne
    · simp at hx
    · rw [List.tail_append_of_ne_nil hne, List.mem_append, List.mem_singleton] at hx
      rw [List.tail_append_of_ne_nil hne] at hkey
      rcases hx with hx | rfl
      · exact hkey x (List.mem_append_left _ hx)
      · obtain ⟨a, b, rfl, ha⟩ := hkey item (by simp)
        exact ⟨a, b ++ amp :: s, by simp, ha⟩
  · rcases List.mem_append.mp hx with hx | hx
    · exact hvalue x (List.mem_append_left _ hx) a b hab
    · rw [List.mem_singleton.mp hx] at hab
      rcases List.append_eq_append_iff.mp hab with ⟨c, rfl, hc⟩ | ⟨c, rfl, hc⟩
      · intro hb
        rcases List.cons_eq_append_iff.mp hc with ⟨rfl, hc⟩ | ⟨c, rfl, rfl⟩
        · exact heq ((List.cons.inj hc).2 ▸ hb)
        · exact heq (by simp [hb])
      · rcases List.cons_eq_append_iff.mp hc with ⟨rfl, hc⟩ | ⟨c, rfl, rfl⟩
        · exact (List.cons.inj hc).2 ▸ heq
        · have hc := hvalue _ (by simp) a c rfl
          have hamp : eql ≠ amp := by decide
          simp [hc, heq, hamp]

/-- Every request has items. -/
theorem exists_isItems (uri : Str) : ∃ items item, IsItems uri (items ++ [item]) := by
  induction hn : uri.length using Nat.strongRecOn generalizing uri with
  | ind n ih =>
    by_cases hamp : amp ∈ uri
    · obtain ⟨u, p, rfl, hp⟩ := eq_append_cons_of_mem_last hamp
      rw [List.length_append, List.length_cons] at hn
      obtain ⟨items, item, h⟩ := ih u.length (by omega) u rfl
      by_cases heq : eql ∈ p
      · obtain ⟨a, b, rfl⟩ := List.append_of_mem heq
        have ha : amp ∉ a := fun ha => hp (List.mem_append_left _ ha)
        exact ⟨items ++ [item], _, h.concat (by simp) ha fun c d hcd => absurd (by simp [hcd]) hp⟩
      · exact ⟨items, _, h.extend heq⟩
    · refine ⟨[], uri, by simp, by simp, fun item hitem a b hab => ?_⟩
      rw [List.nil_append, List.mem_singleton] at hitem
      exact (hamp (by simp [← hitem, hab])).elim

/-- The items before the last one. -/
theorem IsItems.init (h : IsItems uri (items ++ [item])) (hne : items ≠ []) :
    ∃ s a b, IsItems s items ∧ uri = s ++ amp :: item ∧ item = a ++ eql :: b ∧ amp ∉ a ∧
      ∀ c d, item = c ++ amp :: d → eql ∉ d := by
  obtain ⟨hjoin, hkey, hvalue⟩ := h
  rw [intercalate_append hne] at hjoin
  rw [List.tail_append_of_ne_nil hne] at hkey
  obtain ⟨a, b, hab, ha⟩ := hkey item (by simp)
  refine ⟨_, a, b, ⟨rfl, fun x hx => ?_, fun x hx => ?_⟩, hjoin.symm, hab, ha, ?_⟩
  · exact hkey x (List.mem_append_left _ hx)
  · exact hvalue x (List.mem_append_left _ hx)
  · exact hvalue item (by simp)

/-- The value of a key has no `=` behind a `&`. -/
def Clean (value : Str) : Prop := ∀ a b, value = a ++ amp :: b → eql ∉ b

theorem clean_of_notMem (h : amp ∉ s) : Clean s := fun a b hab => absurd (by simp [hab]) h

theorem Clean.of_append (h : Clean (a ++ b)) : Clean a := fun c d hcd hd =>
  h c (d ++ b) (by simp [hcd]) (List.mem_append_left b hd)

theorem keyValue_eq_some {kv : Str × Str} (h : keyValue item = some kv) :
    item = kv.1 ++ eql :: kv.2 ∧ eql ∉ kv.1 := by
  by_cases heq : eql ∈ item
  · obtain ⟨a, b, rfl, ha⟩ := List.eq_append_cons_of_mem heq
    obtain rfl := Option.some.inj ((keyValue_append ha).symm.trans h)
    exact ⟨rfl, ha⟩
  · rw [keyValue_eq_none heq] at h
    exact absurd h (by simp)

theorem IsItems.clean (h : IsItems uri items) {kv : Str × Str}
    (hkv : kv ∈ items.filterMap keyValue) : Clean kv.2 := by
  obtain ⟨item, hitem, hkv⟩ := List.mem_filterMap.mp hkv
  obtain ⟨rfl, -⟩ := keyValue_eq_some hkv
  exact fun a b hab => h.value _ hitem (kv.1 ++ eql :: a) b (by simp [hab])

/-- Keys with their values, as they stand in a request. -/
def format (kvs : List (Str × Str)) : Str :=
  [amp].intercalate (kvs.map fun kv => kv.1 ++ eql :: kv.2)

theorem isItems_format {kvs : List (Str × Str)} (hkey : ∀ kv ∈ kvs, amp ∉ kv.1)
    (hvalue : ∀ kv ∈ kvs, Clean kv.2) :
    IsItems (format kvs) (kvs.map fun kv => kv.1 ++ eql :: kv.2) := by
  refine ⟨rfl, fun item hitem => ?_, fun item hitem a b hab => ?_⟩
  · obtain ⟨kv, hkv, rfl⟩ := List.mem_map.mp (List.mem_of_mem_tail hitem)
    exact ⟨kv.1, kv.2, rfl, hkey kv hkv⟩
  · obtain ⟨kv, hkv, rfl⟩ := List.mem_map.mp hitem
    rcases List.append_eq_append_iff.mp hab with ⟨c, -, hc⟩ | ⟨c, hc, hc'⟩
    · rcases List.cons_eq_append_iff.mp hc with ⟨-, hc⟩ | ⟨c, -, hc⟩
      · exact absurd (List.cons.inj hc).1 (by decide)
      · exact hvalue kv hkv c b hc
    · rcases List.cons_eq_append_iff.mp hc' with ⟨-, hc'⟩ | ⟨c, rfl, -⟩
      · exact absurd (List.cons.inj hc').1 (by decide)
      · exact absurd (by simp [hc]) (hkey kv hkv)

theorem filterMap_keyValue_format {kvs : List (Str × Str)} (hkey : ∀ kv ∈ kvs, eql ∉ kv.1) :
    (kvs.map fun kv => kv.1 ++ eql :: kv.2).filterMap keyValue = kvs := by
  induction kvs with
  | nil => rfl
  | cons kv kvs ih =>
    rw [List.forall_mem_cons] at hkey
    rw [List.map_cons, List.filterMap_cons, keyValue_append hkey.1, ih hkey.2]

/-! ## The loop -/

/-- The `&` before one that is not at the beginning. -/
theorem rfindAmp_before (huri : uri.head? ≠ some amp) (h : uri = a ++ amp :: s) :
    rfindAmp uri (before a.length) = rfind [amp] a := by
  subst h
  cases a with
  | nil => simp at huri
  | cons c a => simp [before, rfindAmp]

/-- `posE` is where `s` ends in `uri`. -/
def EndsAt (uri s : Str) (posE : Option ℕ) : Prop :=
  ∃ rest, uri = s ++ rest ∧ (posE = none ∧ rest = [] ∨ posE = some s.length)

theorem EndsAt.itemAt_eq (h : EndsAt uri (a ++ amp :: b) posE) : itemAt uri a.length posE = b := by
  obtain ⟨rest, rfl, ⟨rfl, rfl⟩ | rfl⟩ := h
  · simp [itemAt, ← List.drop_drop]
  · have hle : ¬(a ++ amp :: b).length ≤ a.length := by simp
    have hlen : (a ++ amp :: b).length - a.length - 1 = b.length := by simp
    rw [itemAt, if_neg hle, hlen, List.append_assoc]
    simp [← List.drop_drop]

theorem EndsAt.prefix (h : EndsAt uri (a ++ s) posE) : EndsAt uri a (some a.length) := by
  obtain ⟨rest, rfl, -⟩ := h
  exact ⟨s ++ rest, by simp, .inr rfl⟩

theorem EndsAt.itemBefore_eq (h : EndsAt uri s posE) : itemBefore uri posE = s := by
  obtain ⟨rest, rfl, ⟨rfl, rfl⟩ | rfl⟩ := h <;> simp [itemBefore]

variable (fuel retList) in
/-- Within an item nothing is found, and all that was passed stays. -/
theorem loop_scan (huri : uri.head? ≠ some amp) (p : Str) :
    ∀ a b, EndsAt uri (p ++ (a ++ b)) posE → (∀ c d, a ++ b = c ++ amp :: d → eql ∉ d) →
      ParseUri.loop uri (fuel + a.count amp) posE (rfind [amp] (p ++ a)) retList =
        ParseUri.loop uri fuel posE (rfind [amp] p) retList := by
  intro a
  induction hn : a.length using Nat.strongRecOn generalizing a with
  | ind n ih =>
    intro b hend hvalue
    by_cases hamp : amp ∈ a
    · obtain ⟨a, c, rfl, hc⟩ := eq_append_cons_of_mem_last hamp
      have hcount : (a ++ amp :: c).count amp = a.count amp + 1 := by
        simp [List.count_append, List.count_eq_zero_of_not_mem hc]
      have hassoc : p ++ (a ++ amp :: c ++ b) = (p ++ a) ++ amp :: (c ++ b) := by simp
      rw [hassoc] at hend
      have hnext : rfindAmp uri (before (p ++ a).length) = rfind [amp] (p ++ a) := by
        obtain ⟨rest, hrest, -⟩ := hend
        exact rfindAmp_before huri (by rw [hrest, List.append_assoc, List.cons_append])
      rw [hcount, ← Nat.add_assoc, ← List.append_assoc, rfind_singleton_append hc,
        ParseUri.loop, hend.itemAt_eq, keyValue_eq_none (hvalue a (c ++ b) (by simp)), hnext]
      refine ih a.length (by simp at hn; omega) a rfl (amp :: (c ++ b)) ?_ fun c' d hd => ?_
      · rwa [List.append_assoc] at hend
      · exact hvalue c' d (by simpa using hd)
    · rw [List.count_eq_zero_of_not_mem hamp, rfind_append_of_notMem_right hamp, Nat.add_zero]

variable (fuel retList) in
/-- The loop finds the items from the last to the second and stops behind the first. -/
theorem loop_isItems (huri : uri.head? ≠ some amp) {first : Str} (h : IsItems s (first :: items))
    (hend : EndsAt uri s posE) :
    ∃ posE', EndsAt uri first posE' ∧
      ParseUri.loop uri (fuel + s.count amp) posE (rfind [amp] s) retList =
        some (posE', retList ++ items.reverse.filterMap keyValue) := by
  induction items using List.reverseRecOn generalizing s posE retList with
  | nil =>
    obtain rfl : first = s := by simpa using h.join
    refine ⟨posE, hend, ?_⟩
    have hscan := loop_scan retList fuel huri [] first []
      (by simpa using hend) fun c d hcd => h.value first (by simp) c d (by simpa using hcd)
    simpa [rfind, ParseUri.loop] using hscan
  | append_singleton items item ih =>
    have hinit : IsItems s ((first :: items) ++ [item]) := h
    obtain ⟨s, a, b, hs, rfl, hitem, ha, hvalue⟩ := hinit.init (by simp)
    obtain ⟨kv, hkv⟩ : ∃ kv, keyValue item = some kv := by
      obtain ⟨k, v, hkv⟩ := keyValue_isSome (show eql ∈ item by simp [hitem])
      exact ⟨(k, v), hkv⟩
    obtain ⟨posE', hend', hloop⟩ := @ih s _ (retList ++ [kv]) hs hend.prefix
    refine ⟨posE', hend', ?_⟩
    have hnext : rfindAmp uri (before s.length) = rfind [amp] s := by
      obtain ⟨rest, hrest, -⟩ := hend
      exact rfindAmp_before huri (by rw [hrest, List.append_assoc, List.cons_append])
    have hscan := loop_scan retList (fuel + s.count amp + 1) huri (s ++ [amp]) item []
      (by simpa using hend) (by simpa using hvalue)
    have hcount : fuel + (s ++ amp :: item).count amp =
        fuel + s.count amp + 1 + item.count amp := by
      rw [List.count_append, List.count_cons_self]
      omega
    rw [hcount, List.append_cons s amp item, hscan, rfind_singleton_concat, ParseUri.loop,
      hend.itemAt_eq, hkv, hnext]
    simpa [hkv] using hloop

/-- Below a `&` at the beginning there is always another one. -/
theorem loop_eq_none (huri : uri.head? = some amp) (posE : Option ℕ) (pos : Option ℕ) :
    ParseUri.loop uri fuel posE (rfindAmp uri pos) retList = none := by
  obtain ⟨s, rfl⟩ : ∃ s, uri = amp :: s := List.head?_eq_some_iff.mp huri
  have hfind (pos : Option ℕ) : ∃ posB, rfindAmp (amp :: s) pos = some posB := by
    have hmem (t : Str) : ∃ posB, rfind [amp] (amp :: t) = some posB := by
      obtain ⟨a, b, hab, hb⟩ := eq_append_cons_of_mem_last (List.mem_cons_self (a := amp) (l := t))
      exact ⟨a.length, by rw [hab, rfind_singleton_append hb]⟩
    cases pos with
    | none => exact hmem s
    | some pos => exact hmem (s.take pos)
  induction fuel generalizing posE pos retList with
  | zero =>
    obtain ⟨posB, hposB⟩ := hfind pos
    rw [hposB, ParseUri.loop]
  | succ fuel ih =>
    obtain ⟨posB, hposB⟩ := hfind pos
    rw [hposB, ParseUri.loop]
    split
    · exact ih _ _
    · exact ih _ _

theorem ParseUri_eq_of_isItems (huri : uri.head? ≠ some amp) (h : IsItems uri items)
    (hfuel : uri.count amp ≤ fuel) :
    ParseUri fuel uri = some (items.reverse.filterMap keyValue) := by
  obtain ⟨fuel, rfl⟩ := Nat.exists_eq_add_of_le' hfuel
  cases items with
  | nil =>
    obtain rfl : [] = uri := h.join
    simp [ParseUri, ParseUri.loop, rfindAmp, itemBefore, rfind, keyValue, find]
  | cons first items =>
    obtain ⟨posE, hend, hloop⟩ := loop_isItems [] fuel huri h
      (show EndsAt uri uri none from ⟨[], by simp, .inl ⟨rfl, rfl⟩⟩)
    rw [ParseUri, rfindAmp, hloop]
    simp only [Option.bind_eq_bind, Option.bind_some, List.nil_append, hend.itemBefore_eq]
    cases hkv : keyValue first <;> simp [hkv]

theorem head?_format {kvs : List (Str × Str)} (hkey : ∀ kv ∈ kvs, amp ∉ kv.1) :
    (format kvs).head? ≠ some amp := by
  have hitem {kv : Str × Str} (hkv : amp ∉ kv.1) (s : Str) :
      (kv.1 ++ eql :: kv.2 ++ s).head? ≠ some amp := by
    cases hk : kv.1 with
    | nil => simp; decide
    | cons c k =>
      rw [hk, List.mem_cons, not_or] at hkv
      simpa using hkv.1 ∘ Eq.symm
  match kvs with
  | [] => simp [format]
  | [kv] => simpa [format] using hitem (hkey kv (by simp)) []
  | kv :: kv' :: kvs =>
    rw [format, List.map_cons, List.intercalate_cons_of_ne_nil (by simp), List.append_assoc]
    exact hitem (hkey kv (by simp)) _

/-- Keys and values are read back, the last first. -/
theorem ParseUri_format {kvs : List (Str × Str)} (hkey : ∀ kv ∈ kvs, amp ∉ kv.1 ∧ eql ∉ kv.1)
    (hvalue : ∀ kv ∈ kvs, Clean kv.2) (hfuel : (format kvs).count amp ≤ fuel) :
    ParseUri fuel (format kvs) = some kvs.reverse := by
  have hamp := fun kv hkv => (hkey kv hkv).1
  rw [ParseUri_eq_of_isItems (head?_format hamp) (isItems_format hamp hvalue) hfuel,
    List.filterMap_reverse, filterMap_keyValue_format fun kv hkv => (hkey kv hkv).2]

theorem ParseUri_eq_none (huri : uri.head? = some amp) (fuel : ℕ) : ParseUri fuel uri = none := by
  rw [ParseUri, loop_eq_none huri]
  rfl

/-- What the code does with any request. -/
theorem ParseUri_isItems (uri : Str) :
    (uri.head? = some amp → ∀ fuel, ParseUri fuel uri = none) ∧
      (∃ items, IsItems uri items) ∧
      (uri.head? ≠ some amp → ∀ items, IsItems uri items → ∀ fuel, uri.count amp ≤ fuel →
        ParseUri fuel uri = some (items.reverse.filterMap keyValue)) := by
  obtain ⟨items, item, h⟩ := exists_isItems uri
  exact ⟨ParseUri_eq_none, ⟨_, h⟩, fun huri items h fuel => ParseUri_eq_of_isItems huri h⟩

end PPView.MQQueryProcessor
