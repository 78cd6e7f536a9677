import QueryPlanner.Text.Quoted

/-!
# Traits

A trait is a physical property of an expression. There are two dimensions, the convention, which
says how an expression is implemented, and the collation, the order of its rows. A trait set holds
one trait of each dimension.
-/

namespace QueryPlanner

/-- Calling convention of an expression. -/
structure Convention where
  name : String
deriving DecidableEq, Repr

namespace Convention

/-- Convention of expressions that have no implementation yet. -/
def none : Convention := ⟨"NONE"⟩

instance : Inhabited Convention := ⟨none⟩

/-- Conventions have no refinements, only the required one will do. -/
def satisfies (provided required : Convention) : Bool := provided = required

end Convention

/-- Order by one field. -/
structure FieldOrder where
  field : Nat
  ascending : Bool
  nullsFirst : Bool
deriving DecidableEq, Repr

def FieldOrder.text (o : FieldOrder) : String :=
  toString o.field ++ (if o.ascending then " ASC" else " DESC") ++
    (if o.nullsFirst then " NULLS FIRST" else "")

/-- Order of a stream of rows, empty if there is none. -/
structure Collation where
  orders : List FieldOrder
deriving DecidableEq, Repr, Inhabited

namespace Collation

def unordered : Collation := ⟨[]⟩

def isEmpty (c : Collation) : Bool := c.orders.isEmpty

/-- Rows ordered by `a, b` are also ordered by `a`. -/
def satisfies (provided required : Collation) : Bool :=
  required.orders.isPrefixOf provided.orders

def text (c : Collation) : String := Text.bracketed (c.orders.map FieldOrder.text)

end Collation

/-- Dimensions of a trait set, in the order in which they are converted. -/
inductive Dimension where
  | convention
  | collation
deriving DecidableEq, Repr

namespace Dimension

def all : List Dimension := [convention, collation]

def text : Dimension → String
  | convention => "Convention"
  | collation => "Collation"

end Dimension

/-- A trait of either dimension. -/
inductive Trait where
  | convention (value : Convention)
  | collation (value : Collation)
deriving DecidableEq, Repr

namespace Trait

def dimension : Trait → Dimension
  | convention _ => .convention
  | collation _ => .collation

/-- Traits of different dimensions never satisfy each other. -/
def satisfies : Trait → Trait → Bool
  | convention a, convention b => a.satisfies b
  | collation a, collation b => a.satisfies b
  | _, _ => false

def text : Trait → String
  | convention c => c.name
  | collation c => c.text

end Trait

structure TraitSet where
  convention : Convention
  collation : Collation
deriving DecidableEq, Repr, Inhabited

namespace TraitSet

/-- Unimplemented and unordered. -/
def default : TraitSet := ⟨.none, .unordered⟩

def get (t : TraitSet) : Dimension → Trait
  | .convention => .convention t.convention
  | .collation => .collation t.collation

/-- The set with the trait of one dimension replaced. -/
def replace (t : TraitSet) : Trait → TraitSet
  | .convention c => { t with convention := c }
  | .collation c => { t with collation := c }

def contains (t : TraitSet) (trait : Trait) : Bool := t.get trait.dimension = trait

def satisfies (provided required : TraitSet) : Bool :=
  provided.convention.satisfies required.convention &&
    provided.collation.satisfies required.collation

def toList (t : TraitSet) : List Trait := Dimension.all.map t.get

/-- The convention, followed by the collation if there is one. -/
def text (t : TraitSet) : String :=
  t.convention.name ++ if t.collation.isEmpty then "" else "." ++ t.collation.text

end TraitSet

end QueryPlanner
