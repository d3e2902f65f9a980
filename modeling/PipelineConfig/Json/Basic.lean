import PipelineConfig.Binary64.Spelling

/-!
# JSON values

Integers and floating-point numbers are two kinds of number and never equal to
each other. An object keeps its members in the order in which they were written,
but two objects are the same when they hold the same members in any order.
-/

namespace PipelineConfig

/-- A JSON number: an integer as written without point and exponent, or a
floating-point number. -/
inductive Number where
  /-- A whole number. -/
  | integer (n : Int)
  /-- A floating-point number, whole or not. -/
  | float (x : Binary64)
  deriving DecidableEq, Repr

/-- A JSON value. -/
inductive Json where
  /-- The null value. -/
  | null
  /-- A truth value. -/
  | bool (b : Bool)
  /-- A number. -/
  | number (n : Number)
  /-- A text. -/
  | string (s : String)
  /-- Elements in order. -/
  | array (elements : List Json)
  /-- Members in the order written. -/
  | object (members : List (String × Json))
  deriving Repr, Inhabited

namespace Number

/-- Equality within a kind; an integer is never a floating-point number. -/
def same : Number → Number → Bool
  | .integer m, .integer n => m == n
  | .float x, .float y => x.same y
  | _, _ => false

/-- The signed rank of the binary64 number nearest to the value. Numbers of both
kinds are compared by it, so integers that round alike compare as equal. -/
def order : Number → Int
  | .integer n =>
    if n < 0 then -(Binary64.nearestRank n.natAbs 1 : Int)
    else Binary64.nearestRank n.natAbs 1
  | .float x => x.order

/-- Whether the number is whole, however it is written. -/
def isWhole : Number → Bool
  | .integer _ => true
  | .float x => x.isWhole

/-- The number as JSON text. -/
def text : Number → String
  | .integer n => toString n
  | .float x => x.text

end Number

namespace Members

variable {α : Type}

/-- Gives a key a value: in place if the key is there, else at the end. -/
def insert (key : String) (value : α) : List (String × α) → List (String × α)
  | [] => [(key, value)]
  | (k, v) :: rest =>
    if k = key then (key, value) :: rest else (k, v) :: insert key value rest

/-- Members with each key once: where it was first written, with its last value. -/
def collect (members : List (String × α)) : List (String × α) :=
  members.foldl (fun kept (key, value) => insert key value kept) []

end Members

namespace Json

mutual

/-- Equality of values, blind to the order of object members. -/
def same : Json → Json → Bool
  | .null, .null => true
  | .bool a, .bool b => a == b
  | .number a, .number b => a.same b
  | .string a, .string b => a == b
  | .array as, .array bs => sameElements as bs
  | .object as, .object bs => as.length == bs.length && sameMembers as bs
  | _, _ => false

/-- Equality of arrays, element by element. -/
def sameElements : List Json → List Json → Bool
  | [], [] => true
  | a :: as, b :: bs => same a b && sameElements as bs
  | _, _ => false

/-- Whether every member on the left has an equal value on the right. -/
def sameMembers : List (String × Json) → List (String × Json) → Bool
  | [], _ => true
  | (key, a) :: as, bs =>
    (match bs.lookup key with
      | some b => same a b
      | none => false) && sameMembers as bs

end

mutual

/-- How many levels of values lie inside a value; an empty container holds none. -/
def height : Json → Nat
  | .array elements => heightOfElements elements
  | .object members => heightOfMembers members
  | _ => 0

/-- The levels of an array: one more than those of its highest element. -/
def heightOfElements : List Json → Nat
  | [] => 0
  | v :: rest => max (height v + 1) (heightOfElements rest)

/-- The levels of an object: one more than those of its highest member. -/
def heightOfMembers : List (String × Json) → Nat
  | [] => 0
  | (_, v) :: rest => max (height v + 1) (heightOfMembers rest)

end

/-- Whether the value is null. -/
def isNull : Json → Bool
  | .null => true
  | _ => false

/-- The name of the value's type. Only integers written as such are `integer`. -/
def typeName : Json → String
  | .null => "null"
  | .bool _ => "boolean"
  | .number (.integer _) => "integer"
  | .number (.float _) => "number"
  | .string _ => "string"
  | .array _ => "array"
  | .object _ => "object"

end Json

end PipelineConfig
