import ConstPool.Number.Integer
import ConstPool.Settings.Basic
import ConstPool.Toml.Document

/-!
# Settings in TOML

The settings of a project stand in the table `const_eval` of its settings file. What is missing
has its default, and what is unknown is passed over. Instead of a table, the values may also be
given as an array in the order of the fields.

* `Settings.ofToml`: reads and validates settings.
* `Settings.toToml`: writes them.
-/

namespace ConstPool

namespace Settings

/-! ### Reading -/

/-- A number that counts something. -/
def countOf : Toml.Value → Except SettingsError Nat
  | .integer n => if 0 ≤ n then .ok n.toNat else .error .parse
  | _ => .error .parse

/-- A truth value. -/
def flagOf : Toml.Value → Except SettingsError Bool
  | .boolean b => .ok b
  | _ => .error .parse

/-- Reads a value if there is one, and else takes the default. -/
def readOr {α : Type} (read : Toml.Value → Except SettingsError α) (default : α) :
    Option Toml.Value → Except SettingsError α
  | none => .ok default
  | some v => read v

/-- Settings from the values of the four fields, where they are given. -/
def ofFields (field : Fin 4 → Option Toml.Value) : Except SettingsError Settings := do
  let default : Settings := {}
  return {
    stepBudget := ← readOr countOf default.stepBudget (field 0)
    maxCallDepth := ← readOr countOf default.maxCallDepth (field 1)
    parallel := ← readOr flagOf default.parallel (field 2)
    workers := ← readOr (fun v => (countOf v).map some) default.workers (field 3) }

/-- The names of the fields in order. -/
def fieldName : Fin 4 → String
  | 0 => "step_budget"
  | 1 => "max_call_depth"
  | 2 => "parallel"
  | 3 => "workers"

/-- Settings from the value of the table. A time has no field that is known. -/
def ofValue : Toml.Value → Except SettingsError Settings
  | .table _ entries => ofFields fun i => entries.lookup (fieldName i)
  | .array items => ofFields fun i => items[i.val]?
  | .tables last before =>
    let items := (last :: before).reverse
    ofFields fun i => items[i.val]?.map (.table .header)
  | .time => .ok {}
  | _ => .error .parse

/-- The settings in a document, if it could be read. -/
def ofDocument : Option Toml.Table → Except SettingsError Settings
  | none => .error .parse
  | some document =>
    match document.get? "const_eval" with
    | none => validated {}
    | some v => (ofValue v).bind validated

/-- Reads the settings of a project. -/
def ofToml (text : String) : Except SettingsError Settings := ofDocument (Toml.parse? text)

/-! ### Writing -/

/-- The numeral of a count, if it is an integer of sixty-four bits. -/
def numeral (n : Nat) : Except SettingsError String :=
  if n < Integer.limit then .ok (toString n) else .error .write

/-- The settings as the text of a settings file. -/
def toToml (s : Settings) : Except SettingsError String := do
  let stepBudget ← numeral s.stepBudget
  let maxCallDepth ← numeral s.maxCallDepth
  let workers ←
    match s.workers with
    | none => pure ""
    | some n => do pure ("workers = " ++ (← numeral n) ++ "\n")
  return "[const_eval]\n" ++
    "step_budget = " ++ stepBudget ++ "\n" ++
    "max_call_depth = " ++ maxCallDepth ++ "\n" ++
    "parallel = " ++ (if s.parallel then "true" else "false") ++ "\n" ++ workers

end Settings

end ConstPool
