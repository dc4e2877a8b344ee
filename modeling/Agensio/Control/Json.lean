/-
  Agensio.Control.Json — the JSON value the control plane reads and stores.

  Model of `json::Value` (`services/json.hpp`): an object keeps its members
  in the order they were set, a member is read by the first with its name,
  and what is not there reads as null.  A number is a double of the source,
  so a rational.  Member names are compared with literals only and are kept
  as strings; the text of a value is a byte string.

  Main results:
    * `field_set_self`, `field_set_ne` — a member set is the member read, and
      no other one changes;
    * `field_setIf_ne` — the same where it is only set on a condition.
-/
import Agensio.Bytes
import Mathlib.Data.Rat.Floor

namespace Agensio.Control.Json

inductive Value
  | null
  | boolean (b : Bool)
  | number (q : ℚ)
  | text (s : Bytes)
  | array (items : List Value)
  | object (members : List (String × Value))

namespace Value

/-! ## §1. Reading. -/

def isNull : Value → Bool
  | null => true
  | _ => false

def isText : Value → Bool
  | text _ => true
  | _ => false

def isObject : Value → Bool
  | object _ => true
  | _ => false

/-- `str()`: of anything but a string, the empty one. -/
def str : Value → Bytes
  | text s => s
  | _ => []

/-- `boolean()`: of anything but a boolean, false. -/
def isTrue : Value → Bool
  | boolean b => b
  | _ => false

def items : Value → List Value
  | array items => items
  | _ => []

def members : Value → List (String × Value)
  | object members => members
  | _ => []

/-- The first member with a name. -/
def find (key : String) : List (String × Value) → Value
  | [] => null
  | (k, v) :: rest => if k = key then v else find key rest

/-- `operator[]`. -/
def field (v : Value) (key : String) : Value := find key v.members

/-- `get`: the string of a key, `""` when absent. -/
def get (v : Value) (key : String) : Bytes := (v.field key).str

/-- `has_key` (`control/sites.cpp`). -/
def hasKey (v : Value) (key : String) : Bool := !(v.field key).isNull

@[simp] theorem str_text (s : Bytes) : (text s).str = s := rfl
@[simp] theorem isTrue_boolean (b : Bool) : (boolean b).isTrue = b := rfl
@[simp] theorem isText_text (s : Bytes) : (text s).isText = true := rfl
@[simp] theorem isText_null : null.isText = false := rfl
@[simp] theorem isTrue_null : null.isTrue = false := rfl
@[simp] theorem isTrue_text (s : Bytes) : (text s).isTrue = false := rfl

@[simp] theorem str_textIf (c : Prop) [Decidable c] (s : Bytes) :
    (if c then text s else null).str = if c then s else [] := by
  split <;> rfl

@[simp] theorem isTrue_booleanIf (b : Bool) :
    (if b = true then boolean true else null).isTrue = b := by
  cases b <;> rfl

/-! ## §2. Setting. -/

/-- The loop of `set`: the member's value is replaced where it stands. -/
def setIn (key : String) (x : Value) : List (String × Value) → List (String × Value)
  | [] => [(key, x)]
  | (k, v) :: rest => if k = key then (k, x) :: rest else (k, v) :: setIn key x rest

/-- `set`. -/
def set (v : Value) (key : String) (x : Value) : Value := object (setIn key x v.members)

/-- `if (c) v.set(key, x);` -/
def setIf (v : Value) (c : Bool) (key : String) (x : Value) : Value :=
  if c then v.set key x else v

theorem find_setIn_self (key : String) (x : Value) (ms : List (String × Value)) :
    find key (setIn key x ms) = x := by
  induction ms with
  | nil => simp [setIn, find]
  | cons m rest ih =>
    obtain ⟨k, v⟩ := m
    by_cases hk : k = key
    · simp [setIn, find, hk]
    · simp [setIn, find, hk, ih]

variable {key key' : String}

theorem find_setIn_ne (h : key' ≠ key) (x : Value)
    (ms : List (String × Value)) : find key' (setIn key x ms) = find key' ms := by
  induction ms with
  | nil => simp [setIn, find, Ne.symm h]
  | cons m rest ih =>
    obtain ⟨k, v⟩ := m
    by_cases hk : k = key
    · subst hk
      simp [setIn, find, Ne.symm h]
    · simp [setIn, find, hk, ih]

@[simp] theorem field_set_self (v : Value) (key : String) (x : Value) : (v.set key x).field key = x :=
  find_setIn_self key x v.members

theorem field_set_ne (h : key' ≠ key) (v : Value) (x : Value) : (v.set key x).field key' = v.field key' :=
  find_setIn_ne h x v.members

@[simp] theorem field_setIf_self (v : Value) (c : Bool) (key : String) (x : Value) :
    (v.setIf c key x).field key = if c then x else v.field key := by
  unfold setIf
  split
  · exact field_set_self v key x
  · rfl

theorem field_setIf_ne (h : key' ≠ key) (v : Value) (c : Bool) (x : Value) :
    (v.setIf c key x).field key' = v.field key' := by
  unfold setIf
  split
  · exact field_set_ne h v x
  · rfl

end Value

end Agensio.Control.Json
