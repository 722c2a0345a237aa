import ConstPool.Table.Basic
import ConstPool.OrderedMap
import ConstPool.Memo

/-!
# Selecting the constants to keep

Of all constants in the pool, only those are written that the results of the retained call sites
need. `select` divides the pool into kept and dropped constants, gives every retained site that
has a result its constant, and builds the table of the kept ones.

What is live is found from the recorded uses, with the constants that the retained sites use for
roots. Two things may be amiss with the uses: a result of a retained site may not be live, and a
live identity may not be in the pool. Each of them is a breach. Neither happens in a session, whose
uses are complete. The constants that are kept stand in the table in ascending order of their
identities, so every part of a constant has its slot before the constant has one.
-/

namespace ConstPool

/-- What a selection amounts to, in numbers. -/
structure SelectionStats where
  total : Nat
  kept : Nat
  dropped : Nat
  retainedSites : Nat
  roots : Nat
  uses : Nat
  maxDepth : Option Nat

/-- The share of constants that are dropped; zero for an empty pool. -/
def SelectionStats.dropRate (s : SelectionStats) : Double := .ofQuotient s.dropped s.total

/-- The numbers of a selection as a report for people. The rate is a percentage with one
place. -/
def SelectionStats.report (s : SelectionStats) : String :=
  let percentage := (s.dropRate.mul (.ofInt 100)).fixedText 1
  let depth :=
    match s.maxDepth with
    | none => "None"
    | some n => "Some(" ++ toString n ++ ")"
  "\n".intercalate
    ["Constant Table Statistics:",
      "- Total values: " ++ toString s.total,
      "- Kept: " ++ toString s.kept,
      "- Eliminated: " ++ toString s.dropped ++ " (" ++ percentage ++ "%)",
      "- Retained sites: " ++ toString s.retainedSites,
      "- Roots: " ++ toString s.roots,
      "- Use edges: " ++ toString s.uses,
      "- Max depth: " ++ depth]

/-- The outcome of a selection. -/
structure Selection where
  /-- The constants to keep, ascending. -/
  kept : List ValueId
  /-- The others, ascending. -/
  dropped : List ValueId
  /-- The constants of the retained sites that have a result. -/
  results : OrderedMap SiteId ValueId
  /-- The table of the kept constants. -/
  table : Table
  stats : SelectionStats

/-- The position in the table of the result of a site. -/
def Selection.slotFor? (s : Selection) (site : SiteId) : Option Nat :=
  (s.results.get? site).bind s.table.slotOf?

/-- The results of the given sites. A site without a result has none, and a site that is given
twice has one. -/
def resultsOf (outcomes : OrderedMap SiteId Outcome) (retained : List SiteId) :
    OrderedMap SiteId ValueId :=
  retained.foldl (fun acc site =>
    match outcomes.get? site with
    | some (.ok id) => acc.insert site id
    | _ => acc) .empty

/-- The first site whose result is not live, although the site is retained. -/
def unrecorded? (live : Live) (results : OrderedMap SiteId ValueId) : Option (SiteId × ValueId) :=
  results.entries.find? fun e => !live.contains e.2

/-- The greatest live constant, if it is not in the pool. -/
def outside? (pool : Pool) (live : Live) : Option ValueId :=
  match (live.distances.map fun e => e.1.index).max? with
  | some greatest => if pool.size ≤ greatest then some ⟨greatest⟩ else none
  | none => none

/-- Selects the constants that the retained sites need. It is a breach if the uses do not record
the result of a site, or lead to constants that are not in the pool, or lack a use. -/
def select (pool : Pool) (uses : Uses) (outcomes : OrderedMap SiteId Outcome)
    (retained : List SiteId) : Except Fault Selection := do
  let results := resultsOf outcomes retained
  let roots := uses.rootsOf results.keys
  let live := uses.live roots
  if let some (site, id) := unrecorded? live results then
    throw (.breach (.unrecordedUse site id))
  if let some id := outside? pool live then
    throw (.breach (.liveOutsidePool id))
  let ids := (List.range pool.size).map ValueId.mk
  let kept := ids.filter live.contains
  let dropped := ids.filter fun id => !live.contains id
  let table ← Table.build pool live kept
  let stats : SelectionStats :=
    { total := pool.size
      kept := kept.length
      dropped := dropped.length
      retainedSites := retained.length
      roots := roots.length
      uses := uses.edges.size
      maxDepth := live.maxDepth? }
  return { kept, dropped, results, table, stats }

end ConstPool
