import ConstPool.Pool

/-!
# Drafts

A draft is a constant as a running body handles it: an atom, which is a scalar or a constant of the
pool, or a shape that has not been pooled yet and whose parts are drafts again. Drafts are pooled
only when they leave the body, so intermediate results never enter the pool.

`Draft.contents` looks at a draft one layer deep. Its parts are left as they are kept, so that a
large constant of the pool can be asked for one part or for its length alone; `Contents.shape?`
takes all of them as drafts.
-/

namespace ConstPool

/-- A constant within a running body. -/
inductive Draft where
  | atom (a : Atom)
  | fresh (layer : Shape Draft Draft)

/-- What is found when a draft is opened: a scalar or a shape that was pooled, or a shape that was
not. -/
inductive Contents where
  | scalar (s : Scalar)
  | pooled (layer : Shape Atom ValueId)
  | fresh (layer : Shape Draft Draft)

namespace Draft

/-- The draft of a scalar. -/
@[match_pattern] def scalar (s : Scalar) : Draft := .atom (.scalar s)

/-- The draft of a constant of the pool. -/
@[match_pattern] def pooled (id : ValueId) : Draft := .atom (.ref id)

/-- The draft of nothing. -/
def null : Draft := .scalar .null

/-- The draft of a truth value. -/
def bool (b : Bool) : Draft := .scalar (.bool b)

/-- The draft of an integer. -/
def int (n : Int64) : Draft := .scalar (.int n)

/-- The draft of a double. -/
def double (d : Double) : Draft := .scalar (.double d)

/-- The draft of a text. -/
def text (content : String) : Draft := .fresh (.text content)

/-- The draft of a list. -/
def list (items : Array Draft) : Draft := .fresh (.list items)

/-- The draft of a type. -/
def type (name : String) (args : List Draft) : Draft := .fresh (.type name args)

/-- The draft of an object, with its fields in the order of their names. -/
def object (className : String) (fields : List (String × Draft)) : Draft :=
  .fresh (.object className (Shape.sortFields fields))

/-- The scalar that a draft is, if it is held in place. -/
def scalar? : Draft → Option Scalar
  | .scalar s => some s
  | _ => none

end Draft

/-- The contents of a pooled value. -/
def Value.contents : Value → Contents
  | .scalar s => .scalar s
  | .shape layer => .pooled layer

namespace Contents

/-- The name of the type of what was found. -/
def typeName : Contents → String
  | .scalar s => s.typeName
  | .pooled layer => layer.typeName
  | .fresh layer => layer.typeName

/-- The shape that was found, if it is one, with drafts for parts. -/
def shape? : Contents → Option (Shape Draft Draft)
  | .scalar _ => none
  | .pooled layer => some (layer.mapParts Draft.atom Draft.pooled)
  | .fresh layer => some layer

end Contents

namespace Draft

/-- Opens a draft: a scalar in place has no contents. -/
def contents (pool : Pool) : Draft → Except Fault (Option Contents)
  | .scalar _ => .ok none
  | .pooled id => do return some (← pool.get id).contents
  | .fresh layer => .ok (some (.fresh layer))

/-- The shape of a draft, if it has one. -/
def shape? (pool : Pool) (d : Draft) : Except Fault (Option (Shape Draft Draft)) := do
  return (← d.contents pool).bind Contents.shape?

/-- The name of the type of a draft, for messages. -/
def typeName (pool : Pool) : Draft → String
  | .scalar s => s.typeName
  | d =>
    match d.contents pool with
    | .ok (some contents) => contents.typeName
    | _ => "<unknown>"

end Draft

end ConstPool
