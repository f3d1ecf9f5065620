import Mathlib.Data.List.Dedup
import Mathlib.Data.List.GetD
import Mathlib.Data.List.Sort
import Mathlib.Data.Rat.Floor
import Mathlib.Data.String.Basic
import PPView.Library.Tables

/-!
# JSON values

Values as jsoncpp has them. A read through a constant reference gives null where there is nothing;
a read through another one creates the member or the item that it names. `none` is a failed
assertion of the library.
-/

namespace PPView

/-- The members of an object are in the order of their names. A double comes with its text. -/
inductive Json where
  | null
  | bool (b : Bool)
  | int (n : Int)
  | real (r : Rat) (text : String)
  | str (s : String)
  | arr (items : List Json)
  | obj (members : List (String × Json))

namespace Json

/-! ## Reading -/

def isNull : Json → Bool
  | null => true
  | _ => false

def isString : Json → Bool
  | str _ => true
  | _ => false

def isArray : Json → Bool
  | arr _ => true
  | _ => false

def isObject : Json → Bool
  | obj _ => true
  | _ => false

/-- The range of `Int`. -/
def inRange (r : Rat) : Bool := -2 ^ 31 ≤ r ∧ r ≤ 2 ^ 31 - 1

def isInt : Json → Bool
  | int n => inRange n
  | real r _ => inRange r ∧ r.den = 1
  | _ => false

/-- A double loses its fraction. -/
def asInt : Json → Option Int
  | int n => if inRange n then some n else none
  | real r _ => if inRange r then some (if 0 ≤ r then ⌊r⌋ else ⌈r⌉) else none
  | null => some 0
  | bool b => some b.toInt
  | _ => none

def isDouble : Json → Bool
  | int _ => true
  | real _ _ => true
  | _ => false

def asDouble : Json → Option Rat
  | null => some 0
  | bool b => some (if b then 1 else 0)
  | int n => some n
  | real r _ => some r
  | _ => none

def asString : Json → Option String
  | null => some ""
  | str s => some s
  | bool b => some (if b then "true" else "false")
  | int n => some (toString n)
  | real _ text => some text
  | _ => none

def size : Json → ℕ
  | arr items => items.length
  | obj members => members.length
  | _ => 0

/-- `Value::find` has its assertion commented out, so a value that is no object has no members. -/
def isMember (key : String) : Json → Bool
  | obj members => (members.lookup key).isSome
  | _ => false

/-- `operator[]` of a constant value, with a name. -/
def get (key : String) : Json → Json
  | obj members => (members.lookup key).getD null
  | _ => null

/-- `operator[]` of a constant value, with an index. -/
def item (i : ℕ) : Json → Option Json
  | arr items => some (items.getD i null)
  | null => some null
  | _ => none

/-- The items at the indices below `size`, which are read one after the other. -/
def items : Json → Option (List Json)
  | arr items => some items
  | obj (_ :: _) => none
  | _ => some []

/-- The names of the members, in their order. -/
def memberNames : Json → Option (List String)
  | obj members => some ((members.map Prod.fst).dedup.insertionSort (· ≤ ·))
  | null => some []
  | _ => none

/-! ## Writing -/

/-- A member of a map gets a value. -/
def insertMember (key : String) (v : Json) : List (String × Json) → List (String × Json)
  | [] => [(key, v)]
  | m :: members =>
    if key = m.1 then (key, v) :: members
    else if key < m.1 then (key, v) :: m :: members
    else m :: insertMember key v members

/-- The member `key` is set. -/
def put (key : String) (j v : Json) : Option Json :=
  match j with
  | obj members => some (obj (insertMember key v members))
  | null => some (obj [(key, v)])
  | _ => none

/-- The member `key` is there from now on. -/
def touch (key : String) (j : Json) : Option Json := j.put key (j.get key)

/-- `operator[]` of a value that can change, with a name. -/
def field (key : String) (j : Json) : Option Json := (j.touch key).map (get key)

/-- The item `i` is set, and what is missing in front of it is null. -/
def putItem (i : ℕ) (j v : Json) : Option Json :=
  match j with
  | arr items => some (arr ((items.rightpad (i + 1) null).set i v))
  | null => some (arr (([].rightpad (i + 1) null).set i v))
  | _ => none

def append (j v : Json) : Option Json := j.putItem j.size v

/-- The other members. -/
def without (keys : List String) : Json → Json
  | obj members => obj (members.filter fun m => m.1 ∉ keys)
  | j => j

theorem inRange_int {n : Int} (h : -2 ^ 31 ≤ n) (h' : n < 2 ^ 31) : inRange (n : Rat) = true := by
  rw [inRange, decide_eq_true_eq]
  constructor
  · exact_mod_cast h
  · exact_mod_cast Int.le_sub_one_of_lt h'

/-! ## Members -/

theorem lookup_insertMember (key : String) (v : Json) (members : List (String × Json))
    (key' : String) : (insertMember key v members).lookup key' =
      if key' = key then some v else members.lookup key' := by
  induction members with
  | nil => rw [insertMember, lookup_cons_ite]
  | cons m members ih =>
    rw [insertMember]
    by_cases hm : key = m.1
    · rw [if_pos hm, lookup_cons_ite, lookup_cons_ite, ← hm]
      split_ifs <;> rfl
    · rw [if_neg hm]
      by_cases hlt : key < m.1
      · rw [if_pos hlt, lookup_cons_ite]
      · rw [if_neg hlt, lookup_cons_ite, lookup_cons_ite, ih]
        by_cases h : key' = key
        · rw [if_pos h, if_pos h, if_neg (h ▸ hm)]
        · rw [if_neg h, if_neg h]

theorem mem_insertMember {key : String} {v : Json} {m : String × Json}
    {members : List (String × Json)} (h : m ∈ insertMember key v members) :
    m = (key, v) ∨ m ∈ members := by
  induction members with
  | nil => exact .inl (List.mem_singleton.mp h)
  | cons head members ih =>
    rw [insertMember] at h
    split_ifs at h
    · exact (List.mem_cons.mp h).imp_right (List.mem_cons_of_mem _)
    · exact List.mem_cons.mp h
    · rcases List.mem_cons.mp h with rfl | h
      · exact .inr List.mem_cons_self
      · exact (ih h).imp_right (List.mem_cons_of_mem _)

variable {j j' v : Json} {key : String}

theorem get_of_not_isMember (h : ¬ j.isMember key) : j.get key = null := by
  cases j with
  | obj members =>
    rw [isMember, Bool.not_eq_true, Option.isSome_eq_false_iff, Option.isNone_iff_eq_none] at h
    rw [get, h, Option.getD_none]
  | _ => rfl

theorem get_put (h : j.put key v = some j') (key' : String) :
    j'.get key' = if key' = key then v else j.get key' := by
  cases j with
  | obj members =>
    obtain rfl := Option.some.inj h
    rw [get, lookup_insertMember, get]
    split_ifs <;> rfl
  | null =>
    obtain rfl := Option.some.inj h
    rw [get, lookup_cons_ite]
    split_ifs <;> rfl
  | _ => cases h

theorem get_touch (h : j.touch key = some j') (key' : String) : j'.get key' = j.get key' := by
  rw [get_put h]
  split_ifs with hkey
  · rw [hkey]
  · rfl

theorem get_of_field (h : j.field key = some v) : v = j.get key := by
  obtain ⟨j', hj', rfl⟩ := Option.map_eq_some_iff.mp h
  exact get_touch hj' key

theorem isMember_put (h : j.put key v = some j') (key' : String) :
    j'.isMember key' ↔ key' = key ∨ j.isMember key' := by
  cases j with
  | obj members =>
    obtain rfl := Option.some.inj h
    rw [isMember, lookup_insertMember, isMember]
    split_ifs with hkey <;> simp [hkey]
  | null =>
    obtain rfl := Option.some.inj h
    rw [isMember, lookup_cons_ite]
    split_ifs with hkey <;> simp [hkey, isMember]
  | _ => cases h

theorem isMember_obj {members : List (String × Json)} :
    (obj members).isMember key ↔ key ∈ members.map Prod.fst :=
  lookup_isSome_iff

theorem mem_memberNames {names : List String} (h : j.memberNames = some names) :
    key ∈ names ↔ j.isMember key := by
  cases j with
  | obj members =>
    obtain rfl := Option.some.inj h
    rw [List.mem_insertionSort, List.mem_dedup, isMember_obj]
  | null =>
    obtain rfl := Option.some.inj h
    simp [isMember]
  | _ => cases h

theorem pairwise_memberNames {names : List String} (h : j.memberNames = some names) :
    names.Pairwise (· ≤ ·) := by
  cases j with
  | obj members =>
    obtain rfl := Option.some.inj h
    exact List.pairwise_insertionSort (· ≤ ·) _
  | null =>
    obtain rfl := Option.some.inj h
    exact .nil
  | _ => cases h

theorem put_of_isObject (hj : j.isObject) (key : String) (v : Json) :
    ∃ j', j.put key v = some j' ∧ j'.isObject := by
  cases j with
  | obj members => exact ⟨_, rfl, rfl⟩
  | _ => cases hj

theorem without_insertMember {keys : List String} (hkey : key ∈ keys)
    (members : List (String × Json)) :
    (insertMember key v members).filter (fun m => m.1 ∉ keys) =
      members.filter fun m => m.1 ∉ keys := by
  induction members with
  | nil => simp [insertMember, hkey]
  | cons m members ih =>
    rw [insertMember]
    split_ifs with heq
    · simp [← heq, hkey]
    · simp [hkey]
    · simp only [List.filter_cons, ih]

theorem without_put {keys : List String} (hkey : key ∈ keys) (hj : j.isObject)
    (h : j.put key v = some j') : j'.without keys = j.without keys := by
  cases j with
  | obj members =>
    obtain rfl := Option.some.inj h
    exact congrArg obj (without_insertMember hkey members)
  | _ => cases hj

end Json
end PPView
