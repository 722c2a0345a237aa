/-!
# Settings

The bounds on a computation and the wish to compute independent call sites side by side. The
latter changes how fast results come and not what they are.

Validation refuses a bound of zero: with no steps no body could run, with no depth no call could be
answered, and without workers no site could be evaluated. The number of workers may be left out.
Settings that are valid are left as they are.
-/

namespace ConstPool

/-- The bounds on a computation, and how call sites are worked off. -/
structure Settings where
  /-- How many steps the body of one function may take. -/
  stepBudget : Nat := 1000000
  /-- How many calls may be nested. -/
  maxCallDepth : Nat := 256
  /-- Whether independent call sites may be worked off side by side. -/
  parallel : Bool := false
  /-- How many of them at a time. -/
  workers : Option Nat := none
  deriving DecidableEq, Repr

/-- What is wrong with settings. -/
inductive SettingsError where
  /-- The text is not of the expected form. -/
  | parse
  /-- The settings have no text, because a number is too large for it. -/
  | write
  /-- A bound is zero. -/
  | zero (key : String)
  /-- The text of an override is no value of its kind. -/
  | unreadable (key text : String)
  deriving DecidableEq, Repr

/-- The message of a settings error; the first two kinds have none of their own. -/
def SettingsError.message : SettingsError → String
  | .parse => ""
  | .write => ""
  | .zero key => "Invalid config value for '" ++ key ++ "': must be greater than zero"
  | .unreadable key text =>
    "Invalid config value for '" ++ key ++ "': cannot parse '" ++ text ++ "'"

namespace Settings

/-- The key of the first bound that is zero. -/
def zeroKey? (s : Settings) : Option String :=
  if s.stepBudget = 0 then some "step_budget"
  else if s.maxCallDepth = 0 then some "max_call_depth"
  else if s.workers = some 0 then some "workers"
  else none

/-- The settings, unless a bound is zero. -/
def validated (s : Settings) : Except SettingsError Settings :=
  match s.zeroKey? with
  | some key => .error (.zero key)
  | none => .ok s

/-- Settings are valid exactly if none of their bounds is zero, and validation does not change them.
-/
theorem validated_eq_ok_iff {s t : Settings} :
    s.validated = .ok t ↔
      s = t ∧ s.stepBudget ≠ 0 ∧ s.maxCallDepth ≠ 0 ∧ s.workers ≠ some 0 := by
  unfold validated zeroKey?
  by_cases h1 : s.stepBudget = 0 <;> by_cases h2 : s.maxCallDepth = 0 <;>
    by_cases h3 : s.workers = some 0 <;> simp [h1, h2, h3]

end Settings

end ConstPool
