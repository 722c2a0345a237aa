import ConstPool.Constant.Value
import ConstPool.Key
import ConstPool.Span

/-!
# Call sites

A call site is a place of the compiled program where a function is called and its result is
wanted as a constant. Sites are numbered in the order in which they are handed in.

Only a site that names a function can have a constant. The others can be handed in all the same: a
call of a method, of a value or of a tear-off is reported for what it is. An argument is a constant
of the pool, or something that is known only when the program runs, and then the site is reported
for this argument.
-/

namespace ConstPool

/-- The number of a call site. -/
structure SiteId where
  index : Nat
  deriving DecidableEq

instance : Key SiteId := .via SiteId.index fun {x y} h => by
  cases x
  cases y
  exact congrArg SiteId.mk h

/-- The number of a site as it is shown. -/
def SiteId.text (id : SiteId) : String := "site" ++ toString id.index

/-- What is called at a site. Only a call by the name of a function can be constant. -/
inductive Target where
  | function (name : String)
  | method (receiver name : String)
  | dynamic (description : String)
  | tearOff (name : String)
  deriving DecidableEq

/-- The name of a target in messages. -/
def Target.name : Target → String
  | .function name => name
  | .method receiver name => receiver ++ "." ++ name
  | .dynamic description => description
  | .tearOff name => name

/-- An argument at a site: a pooled constant, an expression that is only known when the program
runs, or a type parameter of the surrounding code. -/
inductive Argument where
  | const (id : ValueId)
  | runtime (description : String)
  | typeParam (name : String)
  deriving DecidableEq

/-- A call site. -/
structure Site where
  target : Target
  types : List Argument
  args : List Argument
  span : Span

end ConstPool
