import Mathlib.Order.Defs.LinearOrder
import Mathlib.Data.Int.Notation
import Mathlib.Data.String.Basic
import Mathlib.Order.RelClasses
import Taiyi.Library.OrderedMap

set_option autoImplicit false

namespace Taiyi.Lua

open Library

/-- `lua_key_variant`. A number is never NaN, which is no key of a table. -/
inductive LuaKey (Number : Type)
  | int (v : ℤ)
  | number (v : Number)
  | string (v : String)
  | bool (v : Bool)
  deriving DecidableEq

/-- `lua_types`, of which the map of a table is the list of its entries. -/
inductive LuaTypes (Number Userdata : Type)
  | int (v : ℤ)
  | number (v : Number)
  | string (v : String)
  | bool (v : Bool)
  | table (v : List (LuaKey Number × LuaTypes Number Userdata))
  | function (isVarArg : Bool) (arglist : List String)
  | userdata (v : Userdata)

abbrev LuaMap (Number Userdata : Type) := List (LuaKey Number × LuaTypes Number Userdata)

variable {Number Userdata : Type}

namespace LuaKey

def which : LuaKey Number → ℕ
  | int _ => 0
  | number _ => 1
  | string _ => 2
  | bool _ => 3

variable [LinearOrder Number]

/-- `operator<`. -/
def lt : LuaKey Number → LuaKey Number → Bool
  | int a, int b => a < b
  | number a, number b => a < b
  | string a, string b => a < b
  | bool _, bool _ => false
  | a, b => a.which < b.which

/-- `operator==`. -/
def eq : LuaKey Number → LuaKey Number → Bool
  | int a, int b => a = b
  | number a, number b => a = b
  | string a, string b => a = b
  | _, _ => false

/-- The key that stands for all keys the order does not tell apart. -/
def normal : LuaKey Number → LuaKey Number
  | bool _ => bool false
  | k => k

theorem equiv_lt_iff {a b : LuaKey Number} :
    OrderedMap.equiv lt a b = true ↔ a.normal = b.normal := by
  rw [OrderedMap.equiv_iff]
  cases a <;> cases b
  all_goals simp only [lt, normal, which, decide_eq_true_eq, not_lt, reduceCtorEq]
  case int.int => rw [int.injEq, le_antisymm_iff, and_comm]
  case number.number => rw [number.injEq, le_antisymm_iff, and_comm]
  case string.string => rw [string.injEq, le_antisymm_iff, and_comm]
  all_goals simp

instance : IsStrictWeakOrder (LuaKey Number) fun a b ↦ lt a b = true where
  irrefl a := by cases a <;> simp [lt]
  trans a b c := by
    cases a <;> cases b <;> cases c <;> simp only [lt, which, decide_eq_true_eq]
    case int.int.int => exact lt_trans
    case number.number.number => exact lt_trans
    case string.string.string => exact lt_trans
    all_goals simp
  incomp_trans a b c := by
    rw [← OrderedMap.equiv_iff, ← OrderedMap.equiv_iff, ← OrderedMap.equiv_iff, equiv_lt_iff,
      equiv_lt_iff, equiv_lt_iff]
    exact Eq.trans

end LuaKey

namespace LuaMap

variable [LinearOrder Number]

def find (m : LuaMap Number Userdata) (k : LuaKey Number) : Option (LuaTypes Number Userdata) :=
  OrderedMap.find LuaKey.lt m k

/-- `m[k] = v`. -/
def assign (m : LuaMap Number Userdata) (k : LuaKey Number) (v : LuaTypes Number Userdata) :
    LuaMap Number Userdata :=
  OrderedMap.assign LuaKey.lt m k v

def erase (m : LuaMap Number Userdata) (k : LuaKey Number) : LuaMap Number Userdata :=
  OrderedMap.erase LuaKey.lt m k

end LuaMap

end Taiyi.Lua
