import Mathlib.Data.List.Basic
import Mathlib.Tactic.Common
import PPView.MyTime

/-!
# Strings in a message

`UrlEncode` and `UrlDecode` of `AuxTools.cpp`, over byte strings.
-/

namespace PPView

namespace Str

/-- The bytes of a string constant of the source. -/
def bytes (s : String) : Str := s.toUTF8.data.toList

/-- `isalnum` in the C locale. -/
def isAlnum (c : UInt8) : Bool := isDigit c || (65 ≤ c && c ≤ 90) || (97 ≤ c && c ≤ 122)

/-- `isxdigit` in the C locale. -/
def isXdigit (c : UInt8) : Bool := isDigit c || (65 ≤ c && c ≤ 70) || (97 ≤ c && c ≤ 102)

/-- `c_str()` behind a function that reads to the first NUL. -/
def cStr (s : Str) : Str := s.takeWhile (· ≠ 0)

end Str

namespace AuxTools

open Str

def ToHex (x : UInt8) : UInt8 := if x > 9 then x + 55 else x + 48

def FromHex (x : UInt8) : UInt8 :=
  if 65 ≤ x ∧ x ≤ 90 then x - 65 + 10
  else if 97 ≤ x ∧ x ≤ 122 then x - 97 + 10
  else if 48 ≤ x ∧ x ≤ 57 then x - 48
  else 0

/-- The characters that stand for themselves. -/
def unreserved (c : UInt8) : Bool :=
  isAlnum c || c == '-'.toUInt8 || c == '_'.toUInt8 || c == '.'.toUInt8 || c == '~'.toUInt8

def UrlEncodeChar (c : UInt8) : Str :=
  if unreserved c then [c]
  else if c = ' '.toUInt8 then ['+'.toUInt8]
  else ['%'.toUInt8, ToHex (c >>> 4), ToHex (c % 16)]

def UrlEncode (str : Str) : Str := str.flatMap UrlEncodeChar

def UrlDecode : Str → Str
  | [] => []
  | c :: high :: low :: s =>
    if c = '+'.toUInt8 then ' '.toUInt8 :: UrlDecode (high :: low :: s)
    else if c = '%'.toUInt8 ∧ isXdigit high ∧ isXdigit low then
      (FromHex high * 16 + FromHex low) :: UrlDecode s
    else c :: UrlDecode (high :: low :: s)
  | c :: s => (if c = '+'.toUInt8 then ' '.toUInt8 else c) :: UrlDecode s

variable {c : UInt8} {s : Str}

/-! ## Hexadecimal digits -/

theorem ToHex_spec (hc : c < 16) : isXdigit (ToHex c) ∧ FromHex (ToHex c) = c := by
  have h : ∀ x : Fin 16, isXdigit (ToHex (.ofNat x)) ∧ FromHex (ToHex (.ofNat x)) = .ofNat x := by
    decide
  have hlt : c.toNat < 16 := UInt8.lt_iff_toNat_lt.mp hc
  simpa using h ⟨c.toNat, hlt⟩

theorem shiftRight_lt (c : UInt8) : c >>> 4 < 16 := by
  rw [UInt8.lt_iff_toNat_lt]
  have := c.toNat_lt
  simp
  omega

theorem mod_lt (c : UInt8) : c % 16 < 16 := by
  rw [UInt8.lt_iff_toNat_lt]
  simp
  omega

theorem shiftRight_mul_add_mod (c : UInt8) : (c >>> 4) * 16 + c % 16 = c := by
  have := c.toNat_lt
  apply UInt8.toNat_inj.mp
  simp
  omega

/-! ## Decoding what was encoded -/

theorem UrlDecode_plus : UrlDecode ('+'.toUInt8 :: s) = ' '.toUInt8 :: UrlDecode s := by
  match s with
  | [] | [_] | _ :: _ :: _ => simp [UrlDecode]

theorem UrlDecode_cons (hplus : c ≠ '+'.toUInt8) (hpercent : c ≠ '%'.toUInt8) :
    UrlDecode (c :: s) = c :: UrlDecode s := by
  match s with
  | [] | [_] | _ :: _ :: _ => simp [UrlDecode, hplus, hpercent]

theorem UrlDecode_UrlEncodeChar (c : UInt8) (s : Str) :
    UrlDecode (UrlEncodeChar c ++ s) = c :: UrlDecode s := by
  unfold UrlEncodeChar
  split_ifs with hun hspace
  · refine UrlDecode_cons ?_ ?_ <;> rintro rfl <;> revert hun <;> decide
  · rw [hspace]
    exact UrlDecode_plus
  · obtain ⟨hhigh, hhigh'⟩ := ToHex_spec (shiftRight_lt c)
    obtain ⟨hlow, hlow'⟩ := ToHex_spec (mod_lt c)
    simp only [List.cons_append, List.nil_append, UrlDecode]
    rw [if_neg (by decide), if_pos ⟨trivial, hhigh, hlow⟩, hhigh', hlow', shiftRight_mul_add_mod]

theorem UrlDecode_append (a s : Str) : UrlDecode (UrlEncode a ++ s) = a ++ UrlDecode s := by
  induction a with
  | nil => rfl
  | cons c a ih =>
    rw [UrlEncode, List.flatMap_cons, List.append_assoc, UrlDecode_UrlEncodeChar]
    exact congrArg (c :: ·) ih

theorem UrlDecode_UrlEncode (str : Str) : UrlDecode (UrlEncode str) = str := by
  simpa [UrlDecode] using UrlDecode_append str []

/-! ## What an encoded string is made of -/

theorem unreserved_ToHex (hc : c < 16) : unreserved (ToHex c) := by
  have h : ∀ x : Fin 16, unreserved (ToHex (.ofNat x)) := by decide
  have hlt : c.toNat < 16 := UInt8.lt_iff_toNat_lt.mp hc
  simpa using h ⟨c.toNat, hlt⟩

theorem mem_UrlEncode (hc : c ∈ UrlEncode s) :
    unreserved c ∨ c = '+'.toUInt8 ∨ c = '%'.toUInt8 := by
  obtain ⟨d, -, hc⟩ := List.mem_flatMap.mp hc
  unfold UrlEncodeChar at hc
  split_ifs at hc with hun hspace
  · rw [List.mem_singleton.mp hc]
    exact .inl hun
  · exact .inr (.inl (List.mem_singleton.mp hc))
  · rcases List.mem_cons.mp hc with rfl | hc
    · exact .inr (.inr rfl)
    · rcases List.mem_cons.mp hc with rfl | hc
      · exact .inl (unreserved_ToHex (shiftRight_lt d))
      · rw [List.mem_singleton.mp hc]
        exact .inl (unreserved_ToHex (mod_lt d))

theorem notMem_UrlEncode (h : ¬unreserved c) (hplus : c ≠ '+'.toUInt8)
    (hpercent : c ≠ '%'.toUInt8) : c ∉ UrlEncode s := fun hc =>
  (mem_UrlEncode hc).elim h fun hc => hc.elim hplus hpercent

end AuxTools

end PPView
