import ConstPool.Constant.Scalar
import ConstPool.Constant.Shape

/-!
# Pooled constants

A constant in the pool is a `Value`: a scalar, or a shape whose parts are atoms. An atom is a
scalar kept in place or the identity of another pooled constant; the arguments of a type are
always identities.

* `children`: the identities a value refers to.
* `Value.object`: the value of an object, with its fields in the order of their names.
-/

namespace ConstPool

/-- The identity of a pooled constant: its place in the pool. -/
structure ValueId where
  index : Nat
  deriving DecidableEq

/-- An identity as it is shown. -/
def ValueId.text (id : ValueId) : String := "#" ++ toString id.index

/-- A part of a pooled constant: a scalar kept in place, or the identity of another constant. -/
inductive Atom where
  | scalar (s : Scalar)
  | ref (id : ValueId)
  deriving DecidableEq

namespace Atom

/-- An atom as it is shown. -/
def text : Atom → String
  | .scalar s => s.text
  | .ref id => id.text

/-- The identity that an atom holds, as a list of at most one. -/
def refs : Atom → List ValueId
  | .scalar _ => []
  | .ref id => [id]

end Atom

/-- A pooled constant. -/
inductive Value where
  | scalar (s : Scalar)
  | shape (layer : Shape Atom ValueId)
  deriving DecidableEq

namespace Value

/-- The value of a text. -/
def string (content : String) : Value := .shape (.text content)

/-- The value of a type with its arguments. -/
def type (name : String) (args : List ValueId) : Value := .shape (.type name args)

/-- The value of an object. Its fields are put in the order of their names, so that the order
in which they were given is no part of the constant. -/
def object (className : String) (fields : List (String × Atom)) : Value :=
  .shape (.object className (Shape.sortFields fields))

/-- The name of the kind of a value. -/
def kindName : Value → String
  | .scalar s => s.typeName
  | .shape layer => layer.kindName

/-- The identities that a value refers to, from left to right and with repetitions. -/
def children : Value → List ValueId
  | .scalar _ => []
  | .shape layer => layer.parts Atom.refs fun id => [id]

/-- Whether a value has a place for parts. -/
def isComposite : Value → Bool
  | .scalar _ => false
  | .shape (.text _) => false
  | .shape _ => true

/-- A value as it is shown, with identities in place of the constants it refers to. -/
def text : Value → String
  | .scalar s => s.text
  | .shape layer => (layer.mapParts Atom.text ValueId.text).render

end Value

end ConstPool
