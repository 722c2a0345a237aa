import ConstPool.Fault.Message
import ConstPool.Span

/-!
# Diagnostics

What is reported about a call site that has no constant: a code, a message, advice, and the place
of the site if it is known. Every diagnostic is an error.
-/

namespace ConstPool

/-- A report about the compiled program. -/
structure Diagnostic where
  code : String
  message : String
  /-- Advice; empty if there is none. -/
  help : String := ""
  span : Option Span := none
  deriving DecidableEq, Repr

namespace Diagnostic

/-- The diagnostic with a place, unless the place is unknown. -/
def located (d : Diagnostic) (span : Span) : Diagnostic :=
  { d with span := if span.isUnknown then none else some span }

/-- The report of a fault at a place. -/
def ofFault (fault : Fault) (span : Span) : Diagnostic :=
  Diagnostic.located
    { code := fault.kind.code, message := fault.message, help := fault.kind.advice } span

/-- A diagnostic in one line. -/
def headline (d : Diagnostic) : String := "error[" ++ d.code ++ "]: " ++ d.message

end Diagnostic

end ConstPool
