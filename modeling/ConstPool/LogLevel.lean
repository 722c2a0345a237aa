/-!
# Levels of logging

The names of the levels of logging, read without regard to the case of ASCII letters.
-/

namespace ConstPool

/-- A level of logging. -/
inductive LogLevel where
  | trace
  | debug
  | info
  | warn
  | error
  deriving DecidableEq, Repr

namespace LogLevel

/-- The level of a name, or a message about an unknown name. A warning has two names. -/
def ofName (name : String) : Except String LogLevel :=
  let lower := name.map Char.toLower
  if lower = "trace" then .ok .trace
  else if lower = "debug" then .ok .debug
  else if lower = "info" then .ok .info
  else if lower = "warn" ∨ lower = "warning" then .ok .warn
  else if lower = "error" then .ok .error
  else .error ("unknown log level: " ++ lower)

end LogLevel

end ConstPool
