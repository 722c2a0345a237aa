import ConstPool.Fault.Basic

/-!
# The wording of faults

The message of a fault, and the code and the advice that belong to its kind.
-/

namespace ConstPool

/-- The reason why a call is not decided by the text. -/
def IndirectCause.text : IndirectCause → String
  | .declaredTwice => "the name is declared more than once"
  | .functionAsValue => "functions cannot be used as values"
  | .instanceMethod => "instance methods cannot be const"
  | .tearOff => "tear-offs are not static invocations"
  | .dynamicDispatch => "dynamically dispatched calls cannot be resolved statically"
  | .tearOffAtSite => "a tear-off is a function value, not an invocation"
  | .other text => text

/-- The reason why an argument is no constant. -/
def ArgumentCause.text : ArgumentCause → String
  | .runtimeValue description => "'" ++ description ++ "' is not a constant expression"
  | .runtimeType description => "type argument '" ++ description ++ "' is not a constant type"
  | .openTypeParam name =>
    "type parameter '" ++ name ++ "' is unresolved in a non-const context"
  | .notAType kind => "type argument is a " ++ kind ++ " value, not a type"
  | .other text => text

/-- The reason why a name stands for nothing. -/
def UnresolvedCause.text : UnresolvedCause → String
  | .noSuchName => "no local, parameter or const variable with this name"
  | .undeclaredAssignment => "assignment to an undeclared variable"
  | .noSuchType => "no such type"
  | .noTypeParam owner => "not a type parameter of '" ++ owner ++ "'"
  | .noSuchClass => "no such class"
  | .noSuchFunction => "no such const function"
  | .notConstFunction => "declared without the const qualifier"
  | .noSuchVariable => "no such const variable"
  | .notDeclared => "not a declared const function or variable"
  | .nothingToQuery => "no declaration to reflect on"
  | .other text => text

/-- The reason why a declaration is no constant one. -/
def ImpureCause.text : ImpureCause → String
  | .repeatedParameter parameter owner =>
    "parameter '" ++ parameter ++ "' of '" ++ owner ++ "' is declared more than once"
  | .readsVariable owner name => "'" ++ owner ++ "' reads non-const variable '" ++ name ++ "'"
  | .writesVariable owner name => "'" ++ owner ++ "' writes non-const variable '" ++ name ++ "'"
  | .assignsParameter owner name => "'" ++ owner ++ "' assigns to parameter '" ++ name ++ "'"
  | .assignsConstant owner name => "'" ++ owner ++ "' assigns to const variable '" ++ name ++ "'"
  | .callsFunction owner name => "'" ++ owner ++ "' calls non-const function '" ++ name ++ "'"
  | .jumpOutsideLoop owner => "'" ++ owner ++ "' uses break or continue outside of a loop"
  | .jumpOutOfBody owner => "break or continue escaped the body of '" ++ owner ++ "'"
  | .recursive name => "'" ++ name ++ "' is recursive"
  | .selfDependent name => "const variable '" ++ name ++ "' depends on itself"
  | .other text => text

/-- What is counted, in words. -/
def Limit.text : Limit → String
  | .steps => "steps"
  | .nestedCalls => "nested calls"

/-- A place that wants a certain type, in words. -/
def Role.text : Role → String
  | .leftOfAnd => "left operand of '&&'"
  | .rightOfAnd => "right operand of '&&'"
  | .leftOfOr => "left operand of '||'"
  | .rightOfOr => "right operand of '||'"
  | .condition => "condition"
  | .loopCondition => "loop condition"
  | .filter => "comprehension filter"
  | .rangeStart => "range start"
  | .rangeStop => "range end"

/-- The type that a place wants, with its article. -/
def Role.wanted : Role → String
  | .rangeStart | .rangeStop => "an int"
  | _ => "a bool"

/-- The reason why a computation has no result. -/
def RuntimeCause.text : RuntimeCause → String
  | .overflow op left right =>
    "integer overflow in " ++ toString left.toInt ++ " " ++ op.symbol ++ " " ++
      toString right.toInt
  | .negateOverflow n => "integer overflow in -(" ++ toString n.toInt ++ ")"
  | .divisionByZero op left =>
    "integer division by zero in " ++ toString left.toInt ++ " " ++ op.symbol ++ " 0"
  | .shiftAmount amount => "shift amount " ++ toString amount.toInt ++ " is out of range"
  | .quotientRange left right =>
    "result of " ++ left.text .inMessage ++ " ~/ " ++ right.text .inMessage ++
      " is not a representable int"
  | .operand symbol type => "operator '" ++ symbol ++ "' cannot be applied to " ++ type
  | .operands symbol left right =>
    "operator '" ++ symbol ++ "' cannot be applied to " ++ left ++ " and " ++ right
  | .wrongType role found => role.text ++ " must be " ++ role.wanted ++ ", found " ++ found
  | .duplicateKey key => "duplicate key " ++ key ++ " in const map"
  | .noField className field => "'" ++ className ++ "' has no field '" ++ field ++ "'"
  | .noMember type field => type ++ " has no field '" ++ field ++ "'"
  | .repeatedField field className =>
    "field '" ++ field ++ "' of '" ++ className ++ "' is given more than once"
  | .missingField field className =>
    "missing field '" ++ field ++ "' in const construction of '" ++ className ++ "'"
  | .notIterable type => "cannot iterate over " ++ type
  | .listIndex index length =>
    "index " ++ toString index.toInt ++ " is out of range for a list of length " ++
      toString length
  | .textIndex index length =>
    "index " ++ toString index.toInt ++ " is out of range for a string of length " ++
      toString length
  | .notAType type => type ++ " is not a type"
  | .thrown owner message => "'" ++ owner ++ "' threw: " ++ message
  | .other text => text

/-- How the parts fail to fit together, in words. -/
def BreachCause.text : BreachCause → String
  | .danglingReference value missing =>
    "value " ++ value.text ++ " references " ++ missing.text ++ " which has not been interned"
  | .unknownValue id => "unknown value id " ++ id.text
  | .scalarAsType s => s.text ++ " used as a type argument"
  | .outsideCallGraph name depth =>
    "'" ++ name ++ "' reached at depth " ++ toString depth ++ " outside the static call graph"
  | .computedTwice name => "'" ++ name ++ "' is needed to compute itself"
  | .unrecordedUse site id =>
    site.text ++ " resolved to " ++ id.text ++ " but no use edge records it"
  | .liveOutsidePool id => "live value " ++ id.text ++ " is not in the store"
  | .discardedPart id part => "emitted " ++ id.text ++ " references discarded " ++ part.text
  | .laterPart id part => id.text ++ " references later value " ++ part.text
  | .other text => text

/-- The message of a fault. -/
def Fault.message : Fault → String
  | .indirect target cause =>
    "call to '" ++ target ++ "' is not a static invocation: " ++ cause.text
  | .argument target index cause =>
    "argument " ++ toString index ++ " of '" ++ target ++ "' is not a constant: " ++ cause.text
  | .unresolved name cause => "unresolved const target '" ++ name ++ "': " ++ cause.text
  | .impure cause => "expression is not const-evaluable: " ++ cause.text
  | .endless name bound limit =>
    "evaluation of '" ++ name ++ "' did not terminate within " ++ toString bound ++ " " ++
      limit.text
  | .runtime cause => "constant evaluation failed: " ++ cause.text
  | .arity name expected found =>
    "'" ++ name ++ "' expects " ++ toString expected ++ " argument(s), found " ++ toString found
  | .breach cause => "internal consistency fault: " ++ cause.text

namespace FaultKind

/-- The code of a kind of fault, which stays the same when wordings change. -/
def code : FaultKind → String
  | .indirect => "C0001"
  | .argument => "C0002"
  | .unresolved => "C0003"
  | .impure => "C0004"
  | .endless => "C0005"
  | .runtime => "C0006"
  | .arity => "C0007"
  | .breach => "C0008"

/-- What can be done about a kind of fault. -/
def advice : FaultKind → String
  | .indirect =>
    "const functions must be called directly by name; instance methods, dynamic calls and " ++
      "tear-offs are not allowed"
  | .argument => "pass only constant values and resolved types to a const function"
  | .unresolved => "declare the referenced function or variable with the const qualifier"
  | .impure => "const function bodies may only use const-safe operations"
  | .endless => "make sure every loop in the const function terminates"
  | .runtime => "the constant expression would throw when evaluated"
  | .arity => "check the number of arguments passed to the const function"
  | .breach => "this is a bug in the constant evaluation engine"

end FaultKind

end ConstPool
