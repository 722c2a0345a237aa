import ConstPool.Constant.Scalar
import ConstPool.Syntax.Operator

/-!
# Expressions and statements

The bodies of constant functions and the initial values of constant variables. Names are
resolved when a body is vetted and when it runs, so a name may stand for a local, a parameter
or a constant variable.
-/

namespace ConstPool

/-- A type as it is written: a named type with arguments, or a type parameter of the function. -/
inductive TypeExpr where
  | named (name : String) (args : List TypeExpr)
  | param (name : String)

/-- What can be asked about a type. -/
inductive Query where
  | fieldNames
  | fieldTypes
  | typeName
  deriving DecidableEq, Repr

mutual

/-- An expression. -/
inductive Expr where
  | scalar (s : Scalar)
  | text (content : String)
  | name (name : String)
  | unary (op : UnaryOperator) (operand : Expr)
  | binary (op : BinaryOperator) (left right : Expr)
  | and (left right : Expr)
  | or (left right : Expr)
  /-- The left operand, or the right one if the left one is null. -/
  | ifNull (left right : Expr)
  | cond (condition onTrue onFalse : Expr)
  /-- Statements in a scope of their own, and the value after them. -/
  | block (body : List Stmt) (result : Expr)
  | list (items : List Expr)
  | map (entries : List (Expr × Expr))
  | object (className : String) (fields : List (String × Expr))
  /-- The list of `item` for each element of `source` that passes the filter. -/
  | collect (binder : String) (source : Expr) (filter : Option Expr) (item : Expr)
  /-- The integers from `start` up to and without `stop`. -/
  | range (start stop : Expr)
  | index (target position : Expr)
  | field (target : Expr) (name : String)
  | type (t : TypeExpr)
  | query (q : Query) (t : TypeExpr)
  | throw (message : Expr)
  | call (function : String) (types : List TypeExpr) (args : List Expr)
  /-- A call on a receiver, which is never constant. -/
  | method (receiver : Expr) (name : String) (types : List TypeExpr) (args : List Expr)
  /-- A function used as a value, which is never constant. -/
  | tearOff (function : String)

/-- A statement. -/
inductive Stmt where
  | declare (name : String) (value : Expr)
  | assign (name : String) (value : Expr)
  | evaluate (e : Expr)
  | branch (condition : Expr) (onTrue onFalse : List Stmt)
  | loop (condition : Expr) (body : List Stmt)
  | forEach (binder : String) (source : Expr) (body : List Stmt)
  | leaveLoop
  | nextRound
  | giveBack (value : Expr)

end

end ConstPool
