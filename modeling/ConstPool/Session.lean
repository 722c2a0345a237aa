import ConstPool.Eval.Resolve
import ConstPool.Diagnostic.Basic
import ConstPool.Table.Select

/-!
# Sessions

A session accompanies the compilation of one program. Call sites are handed in, evaluated in
waves, and in the end the table of the constants that are still needed is selected.

The sites that wait are evaluated in the order of the heights of their functions in the call
graph, so that what a function needs has been computed before; sites of one height form a wave and
keep the order in which they were handed in. A wave is computed as a whole and its outcomes are
then settled one by one. A fault is recorded as the outcome of its site and reported as a
diagnostic. A breach is recorded too, ends the evaluation, and leaves the sites after it waiting.
-/

namespace ConstPool

/-- What an evaluation did. -/
structure EvaluationReport where
  evaluated : Nat := 0
  succeeded : Nat := 0
  failed : Nat := 0
  waves : Nat := 0
  deriving DecidableEq, Repr

/-- A session: what is known about the program, the stock, the sites in the order in which they
were handed in, the outcomes of the settled ones, and the diagnostics. -/
structure Session where
  analysis : Analysis
  stock : Stock := {}
  sites : List Site := []
  outcomes : OrderedMap SiteId Outcome := .empty
  diagnostics : List Diagnostic := []

namespace Session

/-- A new session for a program whose types are those of `types`. -/
def start (program : Program) (types : Types) (settings : Settings) : Session :=
  { analysis := .build program types settings }

/-- Performs a computation on the stock. -/
def perform {α : Type} (s : Session) (work : Work α) : Except Fault α × Session :=
  let (result, stock) := work.outcome s.stock
  (result, { s with stock })

/-! ### Sites -/

/-- Hands in a site. Its number is that of the sites before it. Numbers of sites are natural
numbers: where they have 32 bits they begin again after `2 ^ 32` sites, so what is said about
sessions is said of those with fewer sites. -/
def submit (s : Session) (site : Site) : SiteId × Session :=
  (⟨s.sites.length⟩, { s with sites := s.sites ++ [site] })

/-- A site by its number. -/
def site? (s : Session) (id : SiteId) : Option Site := s.sites[id.index]?

/-- The sites in the order of their numbers. -/
def numbered (s : Session) : List (SiteId × Site) :=
  s.sites.zipIdx.map fun e => (⟨e.2⟩, e.1)

/-- The sites without an outcome. -/
def pending (s : Session) : List (SiteId × Site) :=
  s.numbered.filter fun e => !s.outcomes.contains e.1

/-- The height at which a site is evaluated. -/
def heightOf (s : Session) (site : Site) : Nat :=
  match site.target with
  | .function name => s.analysis.graph.height (.function name)
  | _ => 0

/-- Adds a site to the wave of its height. Waves are kept ascending by height. -/
def addToWave (height : Nat) (e : SiteId × Site) :
    List (Nat × List (SiteId × Site)) → List (Nat × List (SiteId × Site))
  | [] => [(height, [e])]
  | (h, wave) :: rest =>
    if height < h then (height, [e]) :: (h, wave) :: rest
    else if height = h then (h, wave ++ [e]) :: rest
    else (h, wave) :: addToWave height e rest

/-- The waiting sites in waves. -/
def waves (s : Session) : List (List (SiteId × Site)) :=
  (s.pending.foldl (fun acc e => addToWave (s.heightOf e.2) e acc) []).map Prod.snd

/-! ### Evaluation -/

/-- Computes the outcomes of a wave. -/
def runWave (a : Analysis) : List (SiteId × Site) → Stock →
    List (SiteId × Site × Outcome) × Stock
  | [], stock => ([], stock)
  | (id, site) :: rest, stock =>
    let (outcome, stock) := (a.resolveSite site).outcome stock
    let (outcomes, stock) := runWave a rest stock
    ((id, site, outcome) :: outcomes, stock)

/-- Records the outcome of a site: a constant is used by the site, a fault is reported, and a
breach is only kept. -/
def settle (s : Session) (id : SiteId) (site : Site) (outcome : Outcome) : Session :=
  let recorded := { s with outcomes := s.outcomes.insert id outcome }
  match outcome with
  | .ok value =>
    { recorded with
      stock := { s.stock with uses := s.stock.uses.record (.site id) value } }
  | .error fault =>
    if fault.isFatal then recorded
    else { recorded with diagnostics := s.diagnostics ++ [.ofFault fault site.span] }

/-- The report with one more outcome. -/
def EvaluationReport.count (report : EvaluationReport) (outcome : Outcome) : EvaluationReport :=
  match outcome with
  | .ok _ =>
    { report with evaluated := report.evaluated + 1, succeeded := report.succeeded + 1 }
  | .error _ => { report with evaluated := report.evaluated + 1, failed := report.failed + 1 }

/-- Settles outcomes one by one, up to and with the first breach. -/
def settleAll : List (SiteId × Site × Outcome) → EvaluationReport → Session →
    Except Fault EvaluationReport × Session
  | [], report, s => (.ok report, s)
  | (id, site, outcome) :: rest, report, s =>
    let s := s.settle id site outcome
    match outcome with
    | .error fault =>
      if fault.isFatal then (.error fault, s)
      else settleAll rest (EvaluationReport.count report outcome) s
    | .ok _ => settleAll rest (EvaluationReport.count report outcome) s

/-- Evaluates waves one after another, up to the first breach. -/
def evaluateWaves : List (List (SiteId × Site)) → EvaluationReport → Session →
    Except Fault EvaluationReport × Session
  | [], report, s => (.ok report, s)
  | wave :: rest, report, s =>
    let (outcomes, stock) := runWave s.analysis wave s.stock
    match settleAll outcomes report { s with stock } with
    | (.ok report, s) => evaluateWaves rest report s
    | (.error fault, s) => (.error fault, s)

/-- Evaluates all sites that wait. -/
def evaluate (s : Session) : Except Fault EvaluationReport × Session :=
  evaluateWaves s.waves { waves := s.waves.length } s

/-- The constant of a site that has one. -/
def valueOf? (s : Session) (id : SiteId) : Option ValueId :=
  match s.outcomes.get? id with
  | some (.ok value) => some value
  | _ => none

/-! ### The end of a session -/

/-- Evaluates what waits, and selects the constants that the retained sites need. -/
def finish (s : Session) (retained : List SiteId) : Except Fault Selection × Session :=
  let (evaluated, s) := if s.pending.isEmpty then (.ok {}, s) else s.evaluate
  match evaluated with
  | .error fault => (.error fault, s)
  | .ok _ => (select s.stock.pool s.stock.uses s.outcomes retained, s)

/-- Ends a session with all sites retained. -/
def finishAll (s : Session) : Except Fault Selection × Session :=
  s.finish (s.numbered.map Prod.fst)

end Session

end ConstPool
