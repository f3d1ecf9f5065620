import Mathlib.Data.Nat.Notation

/-!
# Types of places

The types of places in `define.h`. A type is a set of bits.
-/

namespace PPView

def LY_PLACE_TYPE_CITY : ℕ := 0x1
def LY_PLACE_TYPE_VIEW : ℕ := 0x2
def LY_PLACE_TYPE_HOTEL : ℕ := 0x4
def LY_PLACE_TYPE_RESTAURANT : ℕ := 0x8
def LY_PLACE_TYPE_CAR_STORE : ℕ := 0x40
def LY_PLACE_TYPE_ARRIVE : ℕ := 0x10 ||| 0x20 ||| 0x80 ||| 0x2000
def LY_PLACE_TYPE_SHOP : ℕ := 0x100
def LY_PLACE_TYPE_VIEWTICKET : ℕ := 0x4000
def LY_PLACE_TYPE_TOURALL : ℕ := 0x4000 ||| 0x8000 ||| 0x10000
def LY_PLACE_TYPE_VAR_PLACE : ℕ :=
  LY_PLACE_TYPE_VIEW ||| LY_PLACE_TYPE_RESTAURANT ||| LY_PLACE_TYPE_SHOP ||| LY_PLACE_TYPE_TOURALL

end PPView
