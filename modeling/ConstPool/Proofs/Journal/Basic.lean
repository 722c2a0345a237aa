import Mathlib.Logic.Relation
import ConstPool.Eval.Resolve
import ConstPool.Eval.Interpretation

/-!
# Which bodies are run, and whose results are returned

A request that passes its checks comes down to a body. Either the body is run and its outcome is
kept in the cache, or the cache has an outcome already and that is returned. Which of the two it was
is written into a journal, for the requests that come from outside and for those that bodies issue.
The journal is kept beside the stock and has no influence on what happens.

The checks look up a verdict by name, and the cache is asked by name and arguments, but the body
that is run is that of the definition in the request. So the journal names the definition.

* `Entry`, `Journal`: what has become of a request, and of all requests so far.
* `Env.journal`, `Analysis.journal`: the entries that a body makes, and those of a request.
* `Noted.Step`: what may be asked of a context from outside, in any order.
* `Journal.Lawful`: only bodies that pass the check are run, and only their own results are
  returned.
-/

namespace ConstPool

/-- What has become of a request that passed its checks. -/
inductive Entry where
  /-- The body was run and came to this outcome. -/
  | ran (r : Request ValueId Atom) (o : Outcome)
  /-- The cache had this outcome. -/
  | found (r : Request ValueId Atom) (o : Outcome)

/-- The request of an entry. -/
def Entry.request : Entry → Request ValueId Atom
  | .ran r _ => r
  | .found r _ => r

/-- What has become of requests, the latest last. -/
abbrev Journal := List Entry

/-- A stock with a journal of the requests that it has answered. -/
structure Noted where
  stock : Stock := {}
  journal : Journal := []

/-! ### Bodies -/

/-- A step on the stock. The entries that it makes depend on the stock before it. -/
def Eval.note {β : Type} (work : Work β) (entries : Stock → Journal) : Eval Noted Draft β :=
  fun ⟨⟨stock, journal⟩, scopes, left⟩ =>
    match work stock with
    | .ok b stock' => .ok b ⟨⟨stock', journal ++ entries stock⟩, scopes, left⟩
    | .error f stock' => .error (.fault f) ⟨⟨stock', journal ++ entries stock⟩, scopes, left⟩

/-- A step on the stock that makes no entry. -/
def Eval.quiet {β : Type} (work : Work β) : Eval Noted Draft β := Eval.note work fun _ => []

namespace Env

-- The entries that are made while a request is answered are told by `within`.
variable (env : Env) (within : Request ValueId Atom → Stock → Journal)

/-- A constant from outside. -/
def notedFetch (r : Request ValueId Atom) : Eval Noted Draft Draft := do
  let id ← Eval.note (env.request r) (within r)
  return .atom (← Eval.quiet (Work.askPool fun pool => pool.atomOf id))

/-- The value of a name: a local, a parameter, or a constant variable. -/
def notedLookup (name : String) : Eval Noted Draft Draft := do
  match (← get).scopes.find? name with
  | some d => return d
  | none =>
    match env.params.get? name with
    | some a => return .atom a
    | none =>
      if env.analysis.program.globals.contains name then env.notedFetch within (.read name)
      else Eval.raise (env.analysis.noValue env.owner name)

/-- The integers from `start` up to and without `stop`, a step for each. -/
def notedRange (start stop : Int64) : Eval Noted Draft Draft := do
  let count := (stop.toInt - start.toInt).toNat
  Eval.spend env.exhausted count
  return .list ((Array.range count).map fun (i : Nat) => .int (.ofInt (start.toInt + i)))

/-- The steps of a body of which a journal is kept. -/
def noting : Interpretation (Eval Noted Draft) Draft ValueId Atom where
  toControl := Eval.control env.exhausted
  analysis := env.analysis
  owner := env.owner
  scalar := .scalar
  layer := .fresh
  isNull := Draft.isNull
  lookup := env.notedLookup within
  range := env.notedRange
  ask q := Eval.quiet (Work.askPool (q.onDrafts env.analysis))
  type t := Eval.ofExcept (t.draft env)
  poolType d := Eval.quiet d.internType
  pool d := Eval.quiet d.intern
  call f types args := env.notedFetch within (.call f types args)

/-- The stock and the journal after a body, before its value is pooled. -/
def noted (body : Expr) (stock : Stock) : Noted :=
  match body.evalIn (env.noting within)
      ⟨⟨stock, []⟩, [.empty], env.analysis.settings.stepBudget⟩ with
  | .ok _ m => m.stock
  | .error _ m => m.stock

/-- The entries that a body and those nested in it make. -/
def journal (body : Expr) (stock : Stock) : Journal := (env.noted within body stock).journal

end Env

/-! ### Requests -/

namespace Analysis

/-- The entries that a request makes, after those of the bodies nested in its own. There is none if
the request fails before the cache is asked, or if its result is being computed. -/
def journal (a : Analysis) :
    (callsLeft : Nat) → Option Chain → Request ValueId Atom → Stock → Journal
  | 0, _, _, _ => []
  | callsLeft + 1, parent, r, stock =>
    match a.bodyOf r with
    | .error _ => []
    | .ok body =>
      if parent.any fun c => c.contains r.node.name then []
      else
        match stock.memo.cells.get? r.key with
        | some (.done o) => [.found r o]
        | some .running => []
        | none =>
          let chain := Chain.extend parent r.node.name
          let env : Env := ⟨a, chain, r.params .ref, a.resolve callsLeft (some chain)⟩
          let start : Stock := { stock with memo := stock.memo.start r.key }
          env.journal (a.journal callsLeft (some chain)) body start ++
            [.ran r ((env.run body).outcome start).1]

/-- The entries of a request that no body has issued. -/
def journalOf (a : Analysis) (r : Request ValueId Atom) (stock : Stock) : Journal :=
  a.journal a.settings.maxCallDepth none r stock

/-- The entries of an expression that runs as the body at the head of a given chain. -/
def journalIn (a : Analysis) (chain : Chain) (params : Dict String Atom) (body : Expr)
    (stock : Stock) : Journal :=
  Env.journal ⟨a, chain, params, a.resolve (a.callsBelow chain) (some chain)⟩
    (a.journal (a.callsBelow chain) (some chain)) body stock

/-- The entries of a call site. -/
def siteJournal (a : Analysis) (site : Site) (stock : Stock) : Journal :=
  match (a.siteRequest site).outcome stock with
  | (.ok r, stock) => a.journalOf r stock
  | (.error _, _) => []

end Analysis

/-! ### Histories -/

/-- One step of the history of a context. Values are handed in, uses are recorded, call sites are
resolved, expressions are run without a check, and functions are called: those that are declared,
and other definitions with `D`. -/
inductive Noted.Step (a : Analysis) (D : FunctionDecl → Prop) : Noted → Noted → Prop
  | intern (n : Noted) (value : Value) :
    Step a D n ⟨((Work.intern value).outcome n.stock).2, n.journal⟩
  | use (n : Noted) (user : User) (id : ValueId) :
    Step a D n ⟨{ n.stock with uses := n.stock.uses.record user id }, n.journal⟩
  | site (n : Noted) (site : Site) :
    Step a D n ⟨((a.resolveSite site).outcome n.stock).2, n.journal ++ a.siteJournal site n.stock⟩
  | run (n : Noted) (chain : Chain) (params : Dict String Atom) (body : Expr) :
    Step a D n ⟨((a.runIn chain params body).outcome n.stock).2,
      n.journal ++ a.journalIn chain params body n.stock⟩
  | call (n : Noted) {f : FunctionDecl} (types : List ValueId) (args : List Atom) :
    a.program.functions.get? f.qualifiedName = some f ∨ D f →
      Step a D n ⟨((a.invoke (.call f types args)).outcome n.stock).2,
        n.journal ++ a.journalOf (.call f types args) n.stock⟩

/-- A context that has a history. -/
abbrev Noted.Reached (a : Analysis) (D : FunctionDecl → Prop) (n : Noted) : Prop :=
  Relation.ReflTransGen (Noted.Step a D) {} n

/-! ### The law -/

/-- The definition that is requested passes the check of constant expressions: the function of the
request itself, or the variable that is declared by the name. -/
def Request.Checked {τ ρ : Type} (p : Program) (types : Types) : Request τ ρ → Prop
  | .call f _ _ => ∃ needs, f.vet p types = .ok needs
  | .read name => ∃ v needs, p.globals.get? name = some v ∧ v.vet p types = .ok needs

/-- What is asked of an entry, given those before it: what is run or returned belongs to a
definition that passes the check, and a result that is returned is that of running this very
definition with these arguments. -/
def Entry.Lawful (p : Program) (types : Types) (before : Journal) : Entry → Prop
  | .ran r _ => r.Checked p types
  | .found r o => r.Checked p types ∧ .ran r o ∈ before

/-- The last entry is that of a request, with its outcome. -/
def Journal.EndsWith (j : Journal) (r : Request ValueId Atom) (o : Outcome) : Prop :=
  ∃ nested, j = nested ++ [.ran r o] ∨ j = nested ++ [.found r o]

/-- Every entry is as asked, given those before it. -/
def Journal.Each (Q : Journal → Entry → Prop) (j : Journal) : Prop :=
  ∀ before e after, j = before ++ e :: after → Q before e

/-- Nothing is run or returned but what belongs to a definition that passes the check, and no result
of one definition is returned for another one. -/
def Journal.Lawful (p : Program) (types : Types) (j : Journal) : Prop :=
  j.Each (Entry.Lawful p types)

end ConstPool
