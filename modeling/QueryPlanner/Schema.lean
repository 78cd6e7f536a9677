import QueryPlanner.Text.Quoted

/-!
# Row types

A schema is the ordered list of the fields of a row. Names may repeat; only a reference to a
repeated name is refused.
-/

namespace QueryPlanner

inductive DataType where
  | null
  | boolean
  | int8
  | int16
  | int32
  | int64
  | uint8
  | uint16
  | uint32
  | uint64
  | float32
  | float64
  | utf8
deriving DecidableEq, Repr, Inhabited

namespace DataType

def text : DataType → String
  | null => "Null"
  | boolean => "Boolean"
  | int8 => "Int8"
  | int16 => "Int16"
  | int32 => "Int32"
  | int64 => "Int64"
  | uint8 => "UInt8"
  | uint16 => "UInt16"
  | uint32 => "UInt32"
  | uint64 => "UInt64"
  | float32 => "Float32"
  | float64 => "Float64"
  | utf8 => "Utf8"

/-- The numeric types, those that keep the most of an operand first. -/
def numeric : List DataType :=
  [float64, float32, int64, int32, int16, int8, uint64, uint32, uint16, uint8]

def isNumeric (t : DataType) : Bool := numeric.contains t

/-- The type in which numbers of two types are added: the first numeric type that either side has.
A null counts with a number, not with another null. -/
def common? (a b : DataType) : Option DataType :=
  if (a.isNumeric || a = null) && (b.isNumeric || b = null) then
    numeric.find? fun t => t = a || t = b
  else none

/-- Values of the two types can be compared: equal types, two numbers, a number and a text, or a
null with anything. -/
def comparable (a b : DataType) : Bool :=
  a = b || a = null || b = null || (a.isNumeric && b.isNumeric) ||
    (a.isNumeric && b = utf8) || (a = utf8 && b.isNumeric)

end DataType

structure Field where
  name : String
  type : DataType
  nullable : Bool
deriving DecidableEq, Repr, Inhabited

structure Schema where
  fields : List Field
deriving DecidableEq, Repr, Inhabited

namespace Schema

def empty : Schema := ⟨[]⟩

def width (s : Schema) : Nat := s.fields.length

def types (s : Schema) : List DataType := s.fields.map Field.type

/-- All fields of the schema that have this name. -/
def named (s : Schema) (name : String) : List Field := s.fields.filter (·.name = name)

/-- The structure of the schema spelled out, as it appears in complaints about field numbers. -/
def outline (s : Schema) : String :=
  let field (f : Field) : String :=
    "Field \x7b name: " ++ Text.quoted f.name ++ ", data_type: " ++ f.type.text ++
      ", nullable: " ++ toString f.nullable ++
      ", dict_id: 0, dict_is_ordered: false, metadata: \x7b\x7d \x7d"
  "Schema \x7b fields: " ++ Text.bracketed (s.fields.map field) ++ ", metadata: \x7b\x7d \x7d"

end Schema

end QueryPlanner
