import Taiyi.Library.Attempt
import Taiyi.Lua.Types

set_option autoImplicit false

namespace Taiyi.Lua

open Library

/-- A key in a table of the VM. A float with the value of an integer is that integer, and objects are not
told apart here, as none of them can be read as a key. -/
inductive VmKey (Number : Type)
  | int (v : ℤ)
  | float (v : Number)
  | string (v : String)
  | bool (v : Bool)
  | object
  deriving DecidableEq

/-- A value of the VM. A function has what is read of a closure, if it is one. -/
inductive VmValue (Number Userdata : Type)
  | int (v : ℤ)
  | float (v : Number)
  | string (v : String)
  | bool (v : Bool)
  | table (entries : List (VmKey Number × VmValue Number Userdata))
  | function (summary : Option (Bool × List String))
  | userdata (v : Userdata)
  | other

/-- The entries of a table, in no order that the VM promises. -/
abbrev VmTable (Number Userdata : Type) := List (VmKey Number × VmValue Number Userdata)

/-- The conversions of the VM: `lua_tointegerx` on floats, and the others on what is a number. -/
structure Coercions (Number : Type) where
  toInteger : Number → Option ℤ
  ofInteger : ℤ → Number
  integerText : ℤ → String
  numberText : Number → String

variable {Number Userdata : Type} (coerce : Coercions Number)

namespace VmValue

/-! The readers of the single alternatives. -/

def readInt : VmValue Number Userdata → Option ℤ
  | int v => some v
  | float v => coerce.toInteger v
  | _ => none

def readNumber : VmValue Number Userdata → Option Number
  | int v => some (coerce.ofInteger v)
  | float v => some v
  | _ => none

def readString : VmValue Number Userdata → Option String
  | int v => some (coerce.integerText v)
  | float v => some (coerce.numberText v)
  | string v => some v
  | _ => none

def readBool : VmValue Number Userdata → Option Bool
  | bool v => some v
  | _ => none

def readFunction : VmValue Number Userdata → Option (Bool × List String)
  | function summary => summary
  | _ => none

def readUserdata : VmValue Number Userdata → Option Userdata
  | userdata v => some v
  | _ => none

/-- The first alternative that can be read, `readTable` being the reader of tables. -/
def readTypes (readTable : VmTable Number Userdata → Option (LuaMap Number Userdata)) (v : VmValue Number Userdata) :
    Option (LuaTypes Number Userdata) :=
  (v.readInt coerce).map .int <|> (v.readNumber coerce).map .number <|> (v.readString coerce).map .string <|>
    v.readBool.map .bool <|>
    (match v with
      | table entries => (readTable entries).map .table
      | _ => none) <|>
    v.readFunction.map (fun f ↦ .function f.1 f.2) <|> v.readUserdata.map .userdata

end VmValue

namespace VmKey

/-- The key as a value on the stack. -/
def value : VmKey Number → VmValue Number Userdata
  | int v => .int v
  | float v => .float v
  | string v => .string v
  | bool v => .bool v
  | object => .other

/-- A value as the key of an entry. -/
def ofValue : VmValue Number Userdata → VmKey Number
  | .int v => int v
  | .float v =>
    match coerce.toInteger v with
    | some n => int n
    | none => float v
  | .string v => string v
  | .bool v => bool v
  | _ => object

/-- The reader of `lua_key`. -/
def read (k : VmKey Number) : Option (LuaKey Number) :=
  let v : VmValue Number Unit := k.value
  (v.readInt coerce).map .int <|> (v.readNumber coerce).map .number <|> (v.readString coerce).map .string <|>
    v.readBool.map .bool

end VmKey

variable [LinearOrder Number]

def maxReaderReadDepth : ℕ := 10

/-- The reader of maps, of which `next` is the order in which `lua_next` goes through a table, and `depth` how
many tables may still be entered. -/
def readMap (next : VmTable Number Userdata → VmTable Number Userdata) :
    ℕ → VmTable Number Userdata → Option (LuaMap Number Userdata)
  | 0, _ => none
  | depth + 1, entries =>
    (next entries).foldlM (fun result e ↦ do
      let key ← e.1.read coerce
      let value ← e.2.readTypes coerce (readMap next depth)
      return OrderedMap.insert LuaKey.lt result key value) []

def readLuaMap (next : VmTable Number Userdata → VmTable Number Userdata) :
    VmValue Number Userdata → Option (LuaMap Number Userdata)
  | .table entries => readMap coerce next maxReaderReadDepth entries
  | _ => none

/-! Pushing, on a stack with its top first. -/

def pushKey : LuaKey Number → VmValue Number Userdata
  | .int v => .int v
  | .number v => .float v
  | .string v => .string v
  | .bool v => .bool v

/-- `t[k] = v` in the VM; an object is a key of its own. -/
def setEntry (k : VmKey Number) (v : VmValue Number Userdata) : VmTable Number Userdata → VmTable Number Userdata
  | [] => [(k, v)]
  | e :: entries => if e.1 = k ∧ k ≠ .object then (k, v) :: entries else e :: setEntry k v entries

/-- `lua_settable(state, -3)`. What is no table cannot be indexed. -/
def setTable : List (VmValue Number Userdata) → Option (List (VmValue Number Userdata))
  | v :: k :: .table entries :: stack => some (.table (setEntry (VmKey.ofValue coerce k) v entries) :: stack)
  | _ => none

mutual

/-- The loop over the entries of a map. -/
def pushEntries (stack : List (VmValue Number Userdata)) :
    LuaMap Number Userdata → Option (List (VmValue Number Userdata))
  | [] => some stack
  | e :: es => do
    let stack ← pushEntry stack e
    let stack ← setTable coerce stack
    pushEntries stack es
  termination_by structural l => l

def pushEntry (stack : List (VmValue Number Userdata)) :
    LuaKey Number × LuaTypes Number Userdata → Option (List (VmValue Number Userdata))
  | (k, v) => pushTypes (pushKey k :: stack) v
  termination_by structural e => e

def pushTypes (stack : List (VmValue Number Userdata)) :
    LuaTypes Number Userdata → Option (List (VmValue Number Userdata))
  | .int v => some (.int v :: stack)
  | .number v => some (.float v :: stack)
  | .string v => some (.string v :: stack)
  | .bool v => some (.bool v :: stack)
  | .table m => pushEntries (.table [] :: stack) m
  -- the summary of a function is not pushed
  | .function _ _ => some stack
  | .userdata v => some (.userdata v :: stack)
  termination_by structural v => v

end

def pushLuaMap (stack : List (VmValue Number Userdata)) (m : LuaMap Number Userdata) :
    Option (List (VmValue Number Userdata)) :=
  pushEntries coerce (.table [] :: stack) m

end Taiyi.Lua
