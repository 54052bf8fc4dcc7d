import AgentsCanCommunicate.Library.Utf16

/-!
# Parsed JSON

The values that `JSON.parse` gives, with the questions that programs ask of them.  A
number is a double; the finite ones are rational.
-/

namespace Library

inductive JsonValue where
  | null
  | bool (value : Bool)
  | number (value : ℚ)
  /-- What a number too large for a double is read as.  It is written as `null`. -/
  | infinity
  | string (value : Utf16)
  | array (values : List JsonValue)
  /-- Each key once. -/
  | object (members : List (Utf16 × JsonValue))

namespace JsonValue

/-- A member, or undefined. -/
def get (key : String) : JsonValue → Option JsonValue
  | object members => (members.find? fun member => member.1 = Utf16.ofString key).map Prod.snd
  | _ => none

def isNull : JsonValue → Bool
  | null => true
  | _ => false

def isString : JsonValue → Bool
  | string _ => true
  | _ => false

def isNumber : JsonValue → Bool
  | number _ => true
  | infinity => true
  | _ => false

/-- An object that is no array. -/
def isObject : JsonValue → Bool
  | object _ => true
  | _ => false

def isArray : JsonValue → Bool
  | array _ => true
  | _ => false

def truthy : JsonValue → Bool
  | null => false
  | bool value => value
  | number value => value ≠ 0
  | string value => !value.isEmpty
  | _ => true

end JsonValue

end Library
