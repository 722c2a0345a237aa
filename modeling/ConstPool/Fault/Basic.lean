import ConstPool.Site
import ConstPool.Syntax.Operator

/-!
# Faults

Everything that can go wrong while declarations are checked, constants are computed and the table
is selected. A fault names its cause; its wording is in `ConstPool.Fault.Message`. Each group of
causes has a case `other` for a fault that is handed in from outside with a wording of its own.

Every kind of fault but one can be reported and worked around. A `breach` says that the parts of
the library do not fit together, and ends the work (`Fault.isFatal`).
-/

namespace ConstPool

/-- Why a call is not decided by the text of the program. -/
inductive IndirectCause where
  | declaredTwice
  | functionAsValue
  | instanceMethod
  | tearOff
  | dynamicDispatch
  | tearOffAtSite
  | other (text : String)

/-- Why an argument at a call site is no constant. -/
inductive ArgumentCause where
  | runtimeValue (description : String)
  | runtimeType (description : String)
  | openTypeParam (name : String)
  | notAType (kind : String)
  | other (text : String)

/-- Why a name stands for nothing that a constant may use. -/
inductive UnresolvedCause where
  | noSuchName
  | undeclaredAssignment
  | noSuchType
  | noTypeParam (owner : String)
  | noSuchClass
  | noSuchFunction
  | notConstFunction
  | noSuchVariable
  | notDeclared
  | nothingToQuery
  | other (text : String)

/-- Why a declaration is no constant one. -/
inductive ImpureCause where
  | repeatedParameter (parameter owner : String)
  | readsVariable (owner name : String)
  | writesVariable (owner name : String)
  | assignsParameter (owner name : String)
  | assignsConstant (owner name : String)
  | callsFunction (owner name : String)
  | jumpOutsideLoop (owner : String)
  | jumpOutOfBody (owner : String)
  | recursive (name : String)
  | selfDependent (name : String)
  | other (text : String)

/-- What is counted when an evaluation takes too long. -/
inductive Limit where
  | steps
  | nestedCalls
  deriving DecidableEq

/-- A place of an expression or statement that wants a truth value or an integer. -/
inductive Role where
  | leftOfAnd
  | rightOfAnd
  | leftOfOr
  | rightOfOr
  | condition
  | loopCondition
  | filter
  | rangeStart
  | rangeStop
  deriving DecidableEq

/-- Why a computation has no result. -/
inductive RuntimeCause where
  | overflow (op : BinaryOperator) (left right : Int64)
  | negateOverflow (operand : Int64)
  | divisionByZero (op : BinaryOperator) (left : Int64)
  | shiftAmount (amount : Int64)
  | quotientRange (left right : Double)
  | operand (symbol : String) (type : String)
  | operands (symbol : String) (left right : String)
  | wrongType (role : Role) (found : String)
  | duplicateKey (key : String)
  | noField (className field : String)
  | noMember (type field : String)
  | repeatedField (field className : String)
  | missingField (field className : String)
  | notIterable (type : String)
  | listIndex (index : Int64) (length : Nat)
  | textIndex (index : Int64) (length : Nat)
  | notAType (type : String)
  | thrown (owner message : String)
  | other (text : String)

/-- How the parts of the library fail to fit together. -/
inductive BreachCause where
  | danglingReference (value : Value) (missing : ValueId)
  | unknownValue (id : ValueId)
  | scalarAsType (s : Scalar)
  | outsideCallGraph (name : String) (depth : Nat)
  | computedTwice (name : String)
  | unrecordedUse (site : SiteId) (id : ValueId)
  | liveOutsidePool (id : ValueId)
  | discardedPart (id part : ValueId)
  | laterPart (id part : ValueId)
  | other (text : String)

/-- What went wrong. -/
inductive Fault where
  | indirect (target : String) (cause : IndirectCause)
  | argument (target : String) (index : Nat) (cause : ArgumentCause)
  | unresolved (name : String) (cause : UnresolvedCause)
  | impure (cause : ImpureCause)
  | endless (name : String) (bound : Nat) (limit : Limit)
  | runtime (cause : RuntimeCause)
  | arity (name : String) (expected found : Nat)
  | breach (cause : BreachCause)

/-- The kinds of faults. -/
inductive FaultKind where
  | indirect
  | argument
  | unresolved
  | impure
  | endless
  | runtime
  | arity
  | breach
  deriving DecidableEq, Repr

namespace Fault

/-- The kind of a fault. -/
def kind : Fault → FaultKind
  | .indirect _ _ => .indirect
  | .argument _ _ _ => .argument
  | .unresolved _ _ => .unresolved
  | .impure _ => .impure
  | .endless _ _ _ => .endless
  | .runtime _ => .runtime
  | .arity _ _ _ => .arity
  | .breach _ => .breach

/-- Whether a fault ends the work: only a breach does. -/
def isFatal (fault : Fault) : Bool := fault.kind == .breach

/-- A breach ends the work. -/
@[simp] theorem isFatal_breach (cause : BreachCause) : (breach cause).isFatal = true := rfl

end Fault

end ConstPool
