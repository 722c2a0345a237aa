import ConstPool.Settings.Basic
import ConstPool.Text.Blank

/-!
# Overriding settings

Settings may be overridden one by one by named texts. A text is read without the blanks around
it, a count as decimal digits with or without a plus sign. The overrides are read in a fixed
order, and the settings are validated once all are read.

A text that is no count or no truth value is a fault that names the setting and shows the text. The
first such fault ends the reading, so what is reported does not depend on the settings after it.
-/

namespace ConstPool

namespace Settings

/-- A count of at most sixty-four bits, as decimal digits with or without a plus sign. -/
def readCount? (text : String) : Option Nat :=
  let digits :=
    match text.toList with
    | '+' :: rest => rest
    | cs => cs
  if digits.isEmpty || !digits.all fun c => '0' ≤ c && c ≤ '9' then none
  else
    let n := digits.foldl (fun acc c => 10 * acc + (c.toNat - '0'.toNat)) 0
    if n < UInt64.size then some n else none

/-- A truth value by its name. -/
def readFlag? (text : String) : Option Bool :=
  if text = "true" then some true else if text = "false" then some false else none

/-- The value that overrides a setting, if one is given. -/
def readOverride {α : Type} (read? : String → Option α) (lookup : String → Option String)
    (key : String) : Except SettingsError (Option α) :=
  match lookup key with
  | none => .ok none
  | some raw =>
    match read? (Text.trimBlanks raw) with
    | some a => .ok (some a)
    | none => .error (.unreadable key raw)

/-- The settings with what is overridden. -/
def override (s : Settings) (lookup : String → Option String) :
    Except SettingsError Settings := do
  let stepBudget ← readOverride readCount? lookup "CONSTEVAL_STEP_BUDGET"
  let maxCallDepth ← readOverride readCount? lookup "CONSTEVAL_MAX_CALL_DEPTH"
  let parallel ← readOverride readFlag? lookup "CONSTEVAL_PARALLEL"
  let workers ← readOverride readCount? lookup "CONSTEVAL_WORKERS"
  validated
    { stepBudget := stepBudget.getD s.stepBudget
      maxCallDepth := maxCallDepth.getD s.maxCallDepth
      parallel := parallel.getD s.parallel
      workers := workers.or s.workers }

end Settings

end ConstPool
