import ConstPool.Vetting
import ConstPool.CallGraph
import ConstPool.Settings.Basic

/-!
# The analysis of a program

What is known about a program before anything is computed: the call graph, and for each constant
function and variable a verdict. A declaration is refused if its body does not pass, if it needs
itself, or if the calls below it would be nested too deeply. So what is left and has a place in the
order always ends, and never nests more calls than the settings allow.

The verdicts are found in three steps. Each declaration is vetted on its own, and the needs that
come of it make up the call graph. The graph says which nodes need themselves, and how high the
others stand. A verdict then puts these together: recursion first, then the fault of the text, then
the height.
-/

namespace ConstPool

/-- Whether a declaration may be used, and if not, why. -/
abbrev Verdict := Except Fault Unit

/-- A program with its types, the settings, and what follows from them. -/
structure Analysis where
  program : Program
  /-- The types that objects can be made of and that can be asked about. -/
  types : Types
  settings : Settings
  graph : CallGraph
  verdicts : OrderedMap Node Verdict

/-- The outcome of vetting every declaration: functions first, then variables, each in the order
of declaration. -/
def Program.vetAll (p : Program) (types : Types) : List (Node × Except Fault (List Node)) :=
  (p.functions.entries.map fun e => (.function e.1, e.2.vet p types)) ++
    p.globals.entries.map fun e => (.variable e.1, e.2.vet p types)

namespace Analysis

/-- The direct needs of the vetted declarations. One that did not pass needs nothing. -/
def needsOf (vetted : List (Node × Except Fault (List Node))) : Needs :=
  .ofList (vetted.map fun e => (e.1, e.2.toOption.getD []))

/-- Why a declaration that needs itself is refused. -/
def selfNeed : Node → ImpureCause
  | .function name => .recursive name
  | .variable name => .selfDependent name

/-- The verdict on a declaration: an offence in its body is outweighed by a need for itself, and
only a declaration without fault is refused for its height. -/
def verdictOf (graph : CallGraph) (maxCallDepth : Nat) (node : Node)
    (vetted : Except Fault (List Node)) : Verdict :=
  if graph.isCyclic node then .error (.impure (selfNeed node))
  else
    match vetted with
    | .error fault => .error fault
    | .ok _ =>
      if graph.layers.contains node && maxCallDepth ≤ graph.height node then
        .error (.endless node.name maxCallDepth .nestedCalls)
      else .ok ()

/-- The analysis of a program with given types under given settings. -/
def build (program : Program) (types : Types) (settings : Settings) : Analysis :=
  let vetted := program.vetAll types
  let graph := CallGraph.build (needsOf vetted)
  let verdict (e : Node × Except Fault (List Node)) :=
    (e.1, verdictOf graph settings.maxCallDepth e.1 e.2)
  { program, types, settings, graph, verdicts := .ofList (vetted.map verdict) }

/-- The verdict on a node; what was not declared is refused. -/
def verdict (a : Analysis) (node : Node) : Verdict :=
  (a.verdicts.get? node).getD (.error (.unresolved node.name .notDeclared))

end Analysis

end ConstPool
