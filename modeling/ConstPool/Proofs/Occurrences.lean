import Mathlib.Data.Set.Insert
import Mathlib.Logic.Relation
import ConstPool.Vetting

/-!
# Safe bodies

A body is made of expressions, statements and types, each of which stands at a point: some locals
are visible there, and it lies in the body of a loop or not. Whether one of them may stand there is
a question about it alone and not about its parts. A body is safe if nothing that occurs in it, at
whatever depth, is out of place.

Reading a body finds out just that. What it lists are the functions that are called anywhere in the
body and the variables that a name anywhere in it stands for.

The reading of a body goes from left to right and stops at the first piece that is out of place;
the semantics of occurrences knows no order and looks at each piece where it stands. To bring the
two together, reading is split into tests of single pieces. For each test there is a lemma that it
passes exactly if the piece is safe, and then lists what the piece needs. `Judges` puts tests in
sequence, so the proof for an expression follows its syntax, with one case for each kind of piece.

* `Occurrence.parts`, `Occurs`: what a piece is made of, and what occurs in it.
* `Occurrence.Safe`, `Occurrence.Needs`: what is asked of one occurrence, and what it needs.
* `Expr.judges`: reading an expression, at any point.
* `FunctionDecl.vet_exact`, `VariableDecl.vet_value_exact`: reading a declaration.
-/

namespace ConstPool

open Relation

/-! ### Occurrences -/

/-- A piece of a body. -/
inductive Piece where
  | expr (e : Expr)
  | stmt (stmt : Stmt)
  | type (t : TypeExpr)

/-- Where a piece stands. -/
structure Point where
  /-- The locals that are visible. -/
  locals : Set String
  /-- Whether it lies in the body of a loop. -/
  inLoop : Bool

namespace Point

/-- The point at the start of a body. -/
def start : Point := ⟨∅, false⟩

/-- The point behind some statements in the same block: what they declare is visible. -/
def behind (p : Point) (body : List Stmt) : Point :=
  { p with locals := {name | name ∈ p.locals ∨ ∃ value, Stmt.declare name value ∈ body} }

/-- The point where a binder is visible in addition. -/
def under (p : Point) (binder : String) : Point := { p with locals := insert binder p.locals }

/-- The point in the body of a loop. -/
def looping (p : Point) : Point := { p with inLoop := true }

end Point

/-- A piece at a point. -/
structure Occurrence where
  piece : Piece
  point : Point

/-- Expressions at the same point. -/
def expressions (es : List Expr) (p : Point) : List Occurrence := es.map fun e => ⟨.expr e, p⟩

/-- Types at the same point. -/
def typesIn (ts : List TypeExpr) (p : Point) : List Occurrence := ts.map fun t => ⟨.type t, p⟩

/-- The statements of a block, each behind those before it. -/
def statements (body : List Stmt) (p : Point) : List Occurrence :=
  body.mapIdx fun i stmt => ⟨.stmt stmt, p.behind (body.take i)⟩

/-- The parts of an expression. The statements of a block have a scope of their own together with
its result, and so have the filter and the item of a collection. -/
def Expr.parts (p : Point) : Expr → List Occurrence
  | .scalar _ | .text _ | .name _ | .tearOff _ => []
  | .unary _ e | .field e _ | .throw e => expressions [e] p
  | .binary _ left right | .and left right | .or left right | .ifNull left right =>
    expressions [left, right] p
  | .cond condition onTrue onFalse => expressions [condition, onTrue, onFalse] p
  | .block body result => statements body p ++ expressions [result] (p.behind body)
  | .list items => expressions items p
  | .map entries => expressions (entries.flatMap fun entry => [entry.1, entry.2]) p
  | .object _ fields => expressions (fields.map Prod.snd) p
  | .collect binder source filter item =>
    expressions [source] p ++ expressions (filter.toList ++ [item]) (p.under binder)
  | .range start stop => expressions [start, stop] p
  | .index target position => expressions [target, position] p
  | .type t | .query _ t => typesIn [t] p
  | .call _ types args => typesIn types p ++ expressions args p
  | .method receiver _ types args =>
    expressions [receiver] p ++ typesIn types p ++ expressions args p

/-- The parts of a statement. Every body has a scope of its own. -/
def Stmt.parts (p : Point) : Stmt → List Occurrence
  | .declare _ e | .assign _ e | .evaluate e | .giveBack e => expressions [e] p
  | .branch condition onTrue onFalse =>
    expressions [condition] p ++ statements onTrue p ++ statements onFalse p
  | .loop condition body => expressions [condition] p ++ statements body p.looping
  | .forEach binder source body =>
    expressions [source] p ++ statements body (p.looping.under binder)
  | .leaveLoop | .nextRound => []

/-- The parts of a type. -/
def TypeExpr.parts (p : Point) : TypeExpr → List Occurrence
  | .named _ args => typesIn args p
  | .param _ => []

/-- The parts of which a piece is made directly, each at its own point. -/
def Occurrence.parts : Occurrence → List Occurrence
  | ⟨.expr e, p⟩ => e.parts p
  | ⟨.stmt stmt, p⟩ => stmt.parts p
  | ⟨.type t, p⟩ => t.parts p

/-- What occurs in a piece, at whatever depth, the piece itself included. -/
def Occurs : Occurrence → Occurrence → Prop := ReflTransGen fun o part => part ∈ o.parts

/-! ### What is asked of an occurrence -/

/-- What the names in a body may stand for, beside the locals. -/
structure Rules where
  program : Program
  types : Types
  typeParams : List String
  params : List String

/-- Whether an expression may stand at a point, whatever its parts are. -/
def Expr.Safe (R : Rules) (p : Point) : Expr → Prop
  | .name x =>
    x ∈ p.locals ∨ x ∈ R.params ∨ x ∈ R.typeParams ∨ ∃ v, R.program.globals.get? x = some v
  | .object className _ => ∃ t, R.types.get? className = some t
  | .call function types args =>
    ∃ f, R.program.functions.get? function = some f ∧
      f.arity = args.length ∧ f.typeArity = types.length
  | .method _ _ _ _ => False
  | .tearOff _ => False
  | _ => True

/-- Whether a statement may stand at a point. -/
def Stmt.Safe (p : Point) : Stmt → Prop
  | .assign name _ => name ∈ p.locals
  | .leaveLoop => p.inLoop
  | .nextRound => p.inLoop
  | _ => True

/-- Whether a type may be mentioned. -/
def TypeExpr.Safe (R : Rules) : TypeExpr → Prop
  | .named name _ => name ∈ builtinTypes ∨ ∃ t, R.types.get? name = some t
  | .param name => name ∈ R.typeParams

/-- Whether a piece may stand where it stands. -/
def Occurrence.Safe (R : Rules) : Occurrence → Prop
  | ⟨.expr e, p⟩ => e.Safe R p
  | ⟨.stmt stmt, p⟩ => stmt.Safe p
  | ⟨.type t, _⟩ => t.Safe R

/-- What an expression needs, whatever its parts are: the function that it calls, or the variable
that it reads because no local and no parameter has its name. -/
def Expr.Needs (R : Rules) (p : Point) : Expr → Node → Prop
  | .name x, node =>
    node = .variable x ∧ (∃ v, R.program.globals.get? x = some v) ∧
      x ∉ p.locals ∧ x ∉ R.params ∧ x ∉ R.typeParams
  | .call function _ _, node =>
    node = .function function ∧ ∃ f, R.program.functions.get? function = some f
  | _, _ => False

/-- What a piece needs, whatever its parts are. -/
def Occurrence.Needs (R : Rules) : Occurrence → Node → Prop
  | ⟨.expr e, p⟩, node => e.Needs R p node
  | ⟨.stmt _, _⟩, _ => False
  | ⟨.type _, _⟩, _ => False

/-! ### Blocks -/

namespace Point

/-- No statement precedes the point. -/
theorem behind_nil (p : Point) : p.behind [] = p := by
  simp [behind]

/-- The statements that precede a point do so one after the other. -/
theorem behind_cons (p : Point) (stmt : Stmt) (body : List Stmt) :
    p.behind (stmt :: body) = (p.behind [stmt]).behind body := by
  simp only [behind, List.mem_cons, List.not_mem_nil, or_false, Set.mem_ofPred_eq, exists_or,
    or_assoc]

end Point

/-- The statements of a body occur where those before them leave off. -/
theorem statements_cons (stmt : Stmt) (body : List Stmt) (p : Point) :
    statements (stmt :: body) p = ⟨.stmt stmt, p⟩ :: statements body (p.behind [stmt]) := by
  simp only [statements, List.mapIdx_cons, List.take_zero, List.take_succ_cons, p.behind_nil,
    ← p.behind_cons]

namespace Surroundings

/-- What a point allows, from the surroundings there. -/
def point (s : Surroundings) : Point := ⟨{name | name ∈ s.locals}, s.inLoop⟩

/-- What the names stand for, from the surroundings. -/
def rules (s : Surroundings) : Rules := ⟨s.program, s.types, s.typeParams, s.params⟩

/-- Declaring a name in the surroundings is standing under that name. -/
theorem point_declare (s : Surroundings) (name : String) :
    (s.declare name).point = s.point.under name := by
  simp [point, declare, Point.under, Set.insert_def]

/-- What a statement leaves in scope is what it leaves at the point. -/
theorem point_after (s : Surroundings) (stmt : Stmt) :
    (s.after stmt).point = s.point.behind [stmt] := by
  cases stmt with
  | declare name value => simp [after, point, declare, Point.behind, or_comm, eq_comm]
  | _ => simp [after, point, Point.behind]

/-- What a body leaves in scope is what it leaves at the point. -/
theorem point_afterAll (s : Surroundings) (body : List Stmt) :
    (s.afterAll body).point = s.point.behind body := by
  induction body generalizing s with
  | nil => exact s.point.behind_nil.symm
  | cons stmt body ih => rw [Point.behind_cons, ← s.point_after, ← ih]; rfl

/-- A statement changes the names in scope, not what the text is judged by. -/
theorem rules_after (s : Surroundings) (stmt : Stmt) : (s.after stmt).rules = s.rules := by
  cases stmt <;> rfl

/-- Neither does a body. -/
theorem rules_afterAll (s : Surroundings) (body : List Stmt) :
    (s.afterAll body).rules = s.rules := by
  induction body generalizing s with
  | nil => rfl
  | cons stmt body ih => exact (ih _).trans (s.rules_after stmt)

end Surroundings

/-! ### What occurs -/

/-- Everything that occurs in a piece may stand where it stands. -/
def Occurrence.Sound (R : Rules) (o : Occurrence) : Prop := ∀ q, Occurs o q → q.Safe R

/-- Something that occurs in a piece needs the node. -/
def Occurrence.Reaches (R : Rules) (o : Occurrence) (node : Node) : Prop :=
  ∃ q, Occurs o q ∧ q.Needs R node

namespace Occurrence

variable {R : Rules} {o : Occurrence}

/-- What occurs in a piece is the piece, or occurs in a part of it. -/
theorem occurs_iff {q : Occurrence} : Occurs o q ↔ q = o ∨ ∃ part ∈ o.parts, Occurs part q := by
  rw [Occurs, ReflTransGen.cases_head_iff, eq_comm]

/-- An occurrence is sound exactly if it is safe itself and so are its parts, all the way down. -/
theorem sound_iff : o.Sound R ↔ o.Safe R ∧ ∀ part ∈ o.parts, part.Sound R := by
  simp only [Sound, occurs_iff (o := o)]
  constructor
  · intro h
    exact ⟨h o (.inl rfl), fun part hpart q hq => h q (.inr ⟨part, hpart, hq⟩)⟩
  · rintro ⟨ho, hparts⟩ q (rfl | ⟨part, hpart, hq⟩)
    · exact ho
    · exact hparts part hpart q hq

/-- A node is reached from an occurrence exactly if the occurrence needs it, or one of its parts
reaches it. -/
theorem reaches_iff {node : Node} :
    o.Reaches R node ↔ o.Needs R node ∨ ∃ part ∈ o.parts, part.Reaches R node := by
  simp only [Reaches, occurs_iff (o := o)]
  constructor
  · rintro ⟨q, rfl | ⟨part, hpart, hq⟩, hneeds⟩
    · exact .inl hneeds
    · exact .inr ⟨part, hpart, q, hq, hneeds⟩
  · rintro (hneeds | ⟨part, hpart, q, hq, hneeds⟩)
    · exact ⟨o, .inl rfl, hneeds⟩
    · exact ⟨q, .inr ⟨part, hpart, hq⟩, hneeds⟩

end Occurrence

/-! ### Reading -/

/-- A reading of some pieces: it comes to an end exactly if nothing in them is out of place, and
then it lists what they need. -/
structure Judges (R : Rules) (reading : Except Fault (List Node)) (os : List Occurrence) :
    Prop where
  ok_iff : (∃ needs, reading = .ok needs) ↔ ∀ o ∈ os, o.Sound R
  mem_iff : ∀ needs, reading = .ok needs → ∀ n, n ∈ needs ↔ ∃ o ∈ os, o.Reaches R n

namespace Judges

variable {R : Rules} {x y : Except Fault (List Node)} {os os' : List Occurrence} {o : Occurrence}

/-- Nothing to judge, nothing needed. -/
theorem nil : Judges R (.ok []) [] where
  ok_iff := by simp
  mem_iff := by simp

/-- Two readings, one after the other. -/
theorem append (h : Judges R x os) (h' : Judges R y os') :
    Judges R (do return (← x) ++ (← y)) (os ++ os') where
  ok_iff := by
    rw [List.forall_mem_append, ← h.ok_iff, ← h'.ok_iff]
    rcases x with f | a <;> rcases y with g | b <;> simp [bind, Except.bind, pure, Except.pure]
  mem_iff := by
    intro needs hneeds n
    rcases x with f | a
    · cases hneeds
    · rcases y with g | b
      · cases hneeds
      · cases hneeds
        simp only [List.mem_append, or_and_right, exists_or, h.mem_iff a rfl, h'.mem_iff b rfl]

/-- Three judgements in a row, of which the first failure is the verdict. -/
theorem append₃ {z : Except Fault (List Node)} {os'' : List Occurrence} (h : Judges R x os)
    (h' : Judges R y os') (h'' : Judges R z os'') :
    Judges R (do return (← x) ++ (← y) ++ (← z)) (os ++ os' ++ os'') := by
  have hsame : (do return (← x) ++ (← y) ++ (← z) : Except Fault (List Node)) =
      (do return (← (do return (← x) ++ (← y))) ++ (← z)) := by
    rcases x with f | a <;> rcases y with g | b <;> rfl
  rw [hsame]
  exact (h.append h').append h''

/-- A piece that needs something of its own: its own reading comes before that of its parts. -/
theorem owned (hsafe : (∃ needs, x = .ok needs) ↔ o.Safe R)
    (hneeds : ∀ needs, x = .ok needs → ∀ n, n ∈ needs ↔ o.Needs R n) (h : Judges R y o.parts) :
    Judges R (do return (← x) ++ (← y)) [o] where
  ok_iff := by
    rw [List.forall_mem_singleton, Occurrence.sound_iff, ← hsafe, ← h.ok_iff]
    rcases x with f | a <;> rcases y with g | b <;> simp [bind, Except.bind, pure, Except.pure]
  mem_iff := by
    intro needs hok n
    rcases x with f | a
    · cases hok
    · rcases y with g | b
      · cases hok
      · cases hok
        simp only [List.mem_append, List.mem_singleton, exists_eq_left, hneeds a rfl,
          h.mem_iff b rfl]
        exact Occurrence.reaches_iff.symm

/-- A piece that needs nothing of its own, behind a test of the piece. -/
theorem tested {c : Except Fault Unit} (hsafe : c = .ok () ↔ o.Safe R)
    (hneeds : ∀ n, ¬ o.Needs R n) (h : Judges R y o.parts) : Judges R (do c; y) [o] where
  ok_iff := by
    rw [List.forall_mem_singleton, Occurrence.sound_iff, ← hsafe, ← h.ok_iff]
    rcases c with f | ⟨⟩ <;> simp [bind, Except.bind]
  mem_iff := by
    intro needs hok n
    rcases c with f | ⟨⟩
    · cases hok
    · simp only [List.mem_singleton, exists_eq_left]
      rw [Occurrence.reaches_iff, or_iff_right (hneeds n)]
      exact h.mem_iff needs hok n

/-- A piece that may stand anywhere and needs nothing of its own. -/
theorem whole (hsafe : o.Safe R) (hneeds : ∀ n, ¬ o.Needs R n) (h : Judges R y o.parts) :
    Judges R y [o] :=
  tested (c := .ok ()) (iff_of_true rfl hsafe) hneeds h

/-- A piece that may not stand anywhere. -/
theorem refused {f : Fault} (hsafe : ¬ o.Safe R) : Judges R (.error f) [o] where
  ok_iff := by
    rw [List.forall_mem_singleton, Occurrence.sound_iff]
    exact iff_of_false (by simp) fun h => hsafe h.1
  mem_iff := by simp

/-- A piece without parts that may stand where it stands. -/
theorem leaf {needs : List Node} (hsafe : o.Safe R) (hneeds : ∀ n, n ∈ needs ↔ o.Needs R n)
    (hparts : o.parts = []) : Judges R (.ok needs) [o] where
  ok_iff := by
    rw [List.forall_mem_singleton, Occurrence.sound_iff, hparts]
    exact iff_of_true ⟨needs, rfl⟩ ⟨hsafe, List.forall_mem_nil _⟩
  mem_iff := by
    intro needs' hok n
    cases hok
    simp only [List.mem_singleton, exists_eq_left]
    rw [Occurrence.reaches_iff, hparts, hneeds]
    simp

/-- A reading that lists nothing, before another one. -/
theorem before {c : Except Fault Unit} (h : Judges R (do c; return []) os) (h' : Judges R y os') :
    Judges R (do c; y) (os ++ os') := by
  have hsame : (do c; y : Except Fault (List Node)) =
      (do return (← (do c; return [] : Except Fault (List Node))) ++ (← y)) := by
    rcases c with f | ⟨⟩ <;> rcases y with g | b <;> rfl
  rw [hsame]
  exact h.append h'

end Judges

/-! ### The tests of a reading -/

namespace Surroundings

variable (s : Surroundings)

/-- A map has a key exactly if the key leads to a value. -/
theorem contains_iff_exists {β : Type} {m : OrderedMap String β} {name : String} :
    m.contains name ↔ ∃ v, m.get? name = some v := by
  rw [OrderedMap.contains_eq, Option.isSome_iff_exists]

/-- The verdict over a name is the one over its occurrence as an expression. -/
theorem judges_name (x : String) :
    Judges s.rules (s.vetName x) [⟨.expr (.name x), s.point⟩] := by
  unfold vetName
  split
  · next hparam =>
    simp only [Bool.or_eq_true, List.contains_iff_mem, or_assoc] at hparam
    refine .leaf ?_ (fun n => ?_) rfl
    · rcases hparam with hlocal | hvalue | htype
      · exact .inl hlocal
      · exact .inr (.inl hvalue)
      · exact .inr (.inr (.inl htype))
    · refine iff_of_false List.not_mem_nil ?_
      rintro ⟨-, -, hlocal, hvalue, htype⟩
      rcases hparam with h | h | h
      · exact hlocal h
      · exact hvalue h
      · exact htype h
  · next hfree =>
    simp only [Bool.or_eq_true, List.contains_iff_mem, or_assoc, not_or] at hfree
    obtain ⟨hlocal, hvalue, htype⟩ := hfree
    split
    · next hglobal =>
      have hglobal := contains_iff_exists.1 hglobal
      refine .leaf (.inr (.inr (.inr hglobal))) (fun n => ?_) rfl
      rw [List.mem_singleton]
      exact ⟨fun h => ⟨h, hglobal, hlocal, hvalue, htype⟩, fun h => h.1⟩
    · next hglobal =>
      -- none of the ways in which a name may be bound is left
      have hunsafe : ¬ (Expr.name x).Safe s.rules s.point := by
        rintro (h | h | h | h)
        · exact hlocal h
        · exact hvalue h
        · exact htype h
        · exact hglobal (contains_iff_exists.2 h)
      split
      · exact .refused hunsafe
      · split <;> exact .refused hunsafe

/-- An assignment passes exactly if its target is a local name at this point. -/
theorem vetTarget_eq_ok_iff (x : String) (e : Expr) :
    s.vetTarget x = .ok () ↔ (Stmt.assign x e).Safe s.point := by
  unfold vetTarget
  split
  · next hlocal => exact iff_of_true rfl (List.contains_iff_mem.1 hlocal)
  · next hlocal =>
    refine iff_of_false ?_ fun h => hlocal (List.contains_iff_mem.2 h)
    split
    · simp
    · split
      · simp
      · split <;> simp

/-- A call passes exactly if a function of the name takes this many arguments and this many types.
It then needs that function. -/
theorem vetCallee_eq_ok_iff {name : String} {types args : Nat} {needs : List Node} :
    s.vetCallee name types args = .ok needs ↔
      needs = [.function name] ∧
        ∃ f, s.program.functions.get? name = some f ∧ f.arity = args ∧ f.typeArity = types := by
  unfold vetCallee
  split
  · next f hf =>
    simp only [hf, Option.some.injEq, exists_eq_left']
    split
    · next harity => exact iff_of_false (by simp) fun h => harity h.2.1
    · next harity =>
      split
      · next htypes => exact iff_of_false (by simp) fun h => htypes h.2.2
      · next htypes =>
        rw [and_iff_left ⟨not_not.1 harity, not_not.1 htypes⟩, Except.ok.injEq, eq_comm]
  · next hnone =>
    refine iff_of_false ?_ ?_
    · split <;> simp
    · rintro ⟨-, f, hf, -⟩
      cases hnone.symm.trans hf

/-- The class of an object literal passes exactly if the literal is safe, its values apart. -/
theorem vetClass_eq_ok_iff (name : String) (fields : List (String × Expr)) :
    s.vetClass name = .ok () ↔ (Expr.object name fields).Safe s.rules s.point := by
  have hdeclared : (Expr.object name fields).Safe s.rules s.point ↔ s.types.contains name :=
    contains_iff_exists.symm
  rw [hdeclared]
  unfold vetClass
  split <;> simp_all

/-- A jump passes exactly within a loop. -/
theorem vetJump_eq_ok_iff : s.vetJump = .ok () ↔ s.point.inLoop := by
  have hloop : s.point.inLoop = s.inLoop := rfl
  rw [hloop]
  unfold vetJump
  split <;> simp_all

/-- The name of a type is known exactly if the type is safe, its arguments apart. -/
theorem isKnownType_iff (name : String) (args : List TypeExpr) :
    isKnownType s.types name ↔ (TypeExpr.named name args).Safe s.rules := by
  rw [isKnownType, Bool.or_eq_true, List.contains_iff_mem, contains_iff_exists]
  rfl

/-- A call needs the function beside what its arguments need. -/
theorem judges_call (name : String) {types : List TypeExpr} {args : List Expr}
    {y : Except Fault (List Node)}
    (h : Judges s.rules y (typesIn types s.point ++ expressions args s.point)) :
    Judges s.rules (do return (← s.vetCallee name types.length args.length) ++ (← y))
      [⟨.expr (.call name types args), s.point⟩] := by
  refine .owned ?_ (fun needs hok n => ?_) h
  · simp only [vetCallee_eq_ok_iff, exists_and_right, exists_eq, true_and]
    rfl
  · obtain ⟨rfl, f, hf, -⟩ := s.vetCallee_eq_ok_iff.1 hok
    rw [List.mem_singleton]
    exact ⟨fun hn => ⟨hn, f, hf⟩, fun hn => hn.1⟩

end Surroundings

/-! ### Types, expressions and statements -/

mutual

/-- A type, at any point. -/
theorem TypeExpr.judges (s : Surroundings) (p : Point) :
    (t : TypeExpr) → Judges s.rules (do t.vet s; return []) [⟨.type t, p⟩]
  | .named name args => by
    have hargs := vetTypes_judges s p args
    rw [TypeExpr.vet]
    by_cases hknown : isKnownType s.types name
    · rw [hknown]
      exact .whole ((s.isKnownType_iff name args).1 hknown) (fun _ h => h) hargs
    · rw [Bool.eq_false_iff.2 hknown]
      exact .refused fun h => hknown ((s.isKnownType_iff name args).2 h)
  | .param name => by
    rw [TypeExpr.vet]
    by_cases hparam : s.typeParams.contains name
    · rw [if_pos hparam]
      exact .whole (List.contains_iff_mem.1 hparam) (fun _ h => h) .nil
    · rw [if_neg hparam]
      exact .refused fun h => hparam (List.contains_iff_mem.2 h)

/-- A list of types. -/
theorem vetTypes_judges (s : Surroundings) (p : Point) :
    (ts : List TypeExpr) → Judges s.rules (do vetTypes s ts; return []) (typesIn ts p)
  | [] => .nil
  | t :: rest => by
    rw [vetTypes, bind_assoc]
    exact (TypeExpr.judges s p t).before (vetTypes_judges s p rest)

end

mutual

/-- An expression. -/
theorem Expr.judges : (e : Expr) → (s : Surroundings) →
    Judges s.rules (e.vet s) [⟨.expr e, s.point⟩]
  | .scalar _, _ => .whole trivial (fun _ h => h) .nil
  | .text _, _ => .whole trivial (fun _ h => h) .nil
  | .name x, s => s.judges_name x
  | .unary _ e, s => .whole trivial (fun _ h => h) (e.judges s)
  | .binary _ left right, s =>
    .whole trivial (fun _ h => h) ((left.judges s).append (right.judges s))
  | .and left right, s =>
    .whole trivial (fun _ h => h) ((left.judges s).append (right.judges s))
  | .or left right, s =>
    .whole trivial (fun _ h => h) ((left.judges s).append (right.judges s))
  | .ifNull left right, s =>
    .whole trivial (fun _ h => h) ((left.judges s).append (right.judges s))
  | .cond condition onTrue onFalse, s =>
    .whole trivial (fun _ h => h)
      ((condition.judges s).append₃ (onTrue.judges s) (onFalse.judges s))
  | .block body result, s => by
    have hresult := result.judges (s.afterAll body)
    rw [s.rules_afterAll, s.point_afterAll] at hresult
    exact .whole trivial (fun _ h => h) ((vetBody_judges body s).append hresult)
  | .list items, s => .whole trivial (fun _ h => h) (vetList_judges items s)
  | .map entries, s => .whole trivial (fun _ h => h) (vetEntries_judges entries s)
  | .object className fields, s =>
    .tested (s.vetClass_eq_ok_iff className fields) (fun _ h => h) (vetFields_judges fields s)
  | .collect binder source none item, s => by
    have hitem := item.judges (s.declare binder)
    rw [s.point_declare] at hitem
    exact .whole trivial (fun _ h => h) ((source.judges s).append hitem)
  | .collect binder source (some filter) item, s => by
    have hfilter := filter.judges (s.declare binder)
    have hitem := item.judges (s.declare binder)
    rw [s.point_declare] at hfilter hitem
    have hparts := (source.judges s).append₃ hfilter hitem
    exact .whole trivial (fun _ h => h) hparts
  | .range start stop, s =>
    .whole trivial (fun _ h => h) ((start.judges s).append (stop.judges s))
  | .index target position, s =>
    .whole trivial (fun _ h => h) ((target.judges s).append (position.judges s))
  | .field target _, s => .whole trivial (fun _ h => h) (target.judges s)
  | .type t, s => .whole trivial (fun _ h => h) (TypeExpr.judges s s.point t)
  | .query _ t, s => .whole trivial (fun _ h => h) (TypeExpr.judges s s.point t)
  | .throw message, s => .whole trivial (fun _ h => h) (message.judges s)
  | .call name types args, s => by
    have hcall := s.judges_call name
      ((vetTypes_judges s s.point types).before (vetList_judges args s))
    rw [Expr.vet]
    simpa only [bind_assoc] using hcall
  | .method _ _ _ _, _ => .refused fun h => h
  | .tearOff _, _ => .refused fun h => h

/-- A list of expressions. -/
theorem vetList_judges : (es : List Expr) → (s : Surroundings) →
    Judges s.rules (vetList es s) (expressions es s.point)
  | [], _ => .nil
  | e :: rest, s => (e.judges s).append (vetList_judges rest s)

/-- The entries of a map. -/
theorem vetEntries_judges : (entries : List (Expr × Expr)) → (s : Surroundings) →
    Judges s.rules (vetEntries entries s)
      (expressions (entries.flatMap fun entry => [entry.1, entry.2]) s.point)
  | [], _ => .nil
  | (key, value) :: rest, s =>
    (key.judges s).append₃ (value.judges s) (vetEntries_judges rest s)

/-- The fields of an object. -/
theorem vetFields_judges : (fields : List (String × Expr)) → (s : Surroundings) →
    Judges s.rules (vetFields fields s) (expressions (fields.map Prod.snd) s.point)
  | [], _ => .nil
  | (_, value) :: rest, s => (value.judges s).append (vetFields_judges rest s)

/-- A statement. -/
theorem Stmt.judges : (stmt : Stmt) → (s : Surroundings) →
    Judges s.rules (stmt.vet s) [⟨.stmt stmt, s.point⟩]
  | .declare _ value, s => .whole trivial (fun _ h => h) (value.judges s)
  | .assign x value, s => .tested (s.vetTarget_eq_ok_iff x value) (fun _ h => h) (value.judges s)
  | .evaluate e, s => .whole trivial (fun _ h => h) (e.judges s)
  | .branch condition onTrue onFalse, s =>
    .whole trivial (fun _ h => h)
      ((condition.judges s).append₃ (vetBody_judges onTrue s) (vetBody_judges onFalse s))
  | .loop condition body, s =>
    .whole trivial (fun _ h => h)
      ((condition.judges s).append (vetBody_judges body s.enterLoop))
  | .forEach binder source body, s => by
    have hbody := vetBody_judges body (s.enterLoop.declare binder)
    rw [s.enterLoop.point_declare] at hbody
    exact .whole trivial (fun _ h => h) ((source.judges s).append hbody)
  | .leaveLoop, s => .tested s.vetJump_eq_ok_iff (fun _ h => h) .nil
  | .nextRound, s => .tested s.vetJump_eq_ok_iff (fun _ h => h) .nil
  | .giveBack value, s => .whole trivial (fun _ h => h) (value.judges s)

/-- The statements of a body. -/
theorem vetBody_judges : (body : List Stmt) → (s : Surroundings) →
    Judges s.rules (vetBody body s) (statements body s.point)
  | [], _ => .nil
  | stmt :: rest, s => by
    have hrest := vetBody_judges rest (s.after stmt)
    rw [s.rules_after, s.point_after] at hrest
    rw [statements_cons]
    exact (stmt.judges s).append hrest

end

/-! ### Declarations -/

/-- A reading of which the list has no duplicates any more. -/
theorem Judges.exact {R : Rules} {x : Except Fault (List Node)} {o : Occurrence}
    (h : Judges R x [o]) :
    ((∃ needs, x.map Graph.distinct = .ok needs) ↔ ∀ q, Occurs o q → q.Safe R) ∧
      ∀ needs, x.map Graph.distinct = .ok needs →
        needs.Nodup ∧ ∀ n, n ∈ needs ↔ ∃ q, Occurs o q ∧ q.Needs R n := by
  have hok := h.ok_iff
  have hmem := h.mem_iff
  rw [List.forall_mem_singleton] at hok
  simp only [List.mem_singleton, exists_eq_left] at hmem
  rcases x with f | found
  · refine ⟨?_, fun needs hneeds => nomatch hneeds⟩
    rw [← Occurrence.Sound, ← hok]
    exact iff_of_false (by simp [Except.map]) (by simp)
  · refine ⟨iff_of_true ⟨_, rfl⟩ (hok.1 ⟨found, rfl⟩), fun needs hneeds => ?_⟩
    cases hneeds
    refine ⟨Graph.nodup_distinct found, fun n => ?_⟩
    rw [Graph.mem_distinct]
    exact hmem found rfl n

/-- The body of a function as it occurs in the function. -/
def FunctionDecl.occurrence (f : FunctionDecl) : Occurrence := ⟨.expr f.body, .start⟩

/-- What the names in the body of a function may stand for. -/
def FunctionDecl.rules (f : FunctionDecl) (p : Program) (types : Types) : Rules where
  program := p
  types := types
  typeParams := f.typeParams
  params := f.valueParams

/-- The value of a variable as it occurs in the variable. -/
def VariableDecl.occurrence (v : VariableDecl) : Occurrence := ⟨.expr v.value, .start⟩

/-- What the names in the value of a variable may stand for. -/
def VariableDecl.rules (p : Program) (types : Types) : Rules where
  program := p
  types := types
  typeParams := []
  params := []

/-- The reading of the body of a function. -/
theorem FunctionDecl.judges (f : FunctionDecl) (p : Program) (types : Types) :
    Judges (f.rules p types) (f.body.vet (f.surroundings p types)) [f.occurrence] := by
  have hpoint : (f.surroundings p types).point = .start := by
    simp [surroundings, Surroundings.point, Point.start]
  have hbody := f.body.judges (f.surroundings p types)
  rw [hpoint] at hbody
  exact hbody

/-- The reading of the value of a variable. -/
theorem VariableDecl.judges (v : VariableDecl) (p : Program) (types : Types) :
    Judges (rules p types) (v.value.vet (v.surroundings p types)) [v.occurrence] := by
  have hpoint : (v.surroundings p types).point = .start := by
    simp [surroundings, Surroundings.point, Point.start]
  have hvalue := v.value.judges (v.surroundings p types)
  rw [hpoint] at hvalue
  exact hvalue

/-- A function passes exactly if everything that occurs in its body may stand where it stands, and
then what it needs are the functions that are called anywhere in the body and the variables that a
name anywhere in it stands for, each once. -/
theorem FunctionDecl.vet_exact (f : FunctionDecl) (p : Program) (types : Types) :
    ((∃ needs, f.vet p types = .ok needs) ↔
        ∀ o, Occurs f.occurrence o → o.Safe (f.rules p types)) ∧
      ∀ needs, f.vet p types = .ok needs →
        needs.Nodup ∧
          ∀ n, n ∈ needs ↔ ∃ o, Occurs f.occurrence o ∧ o.Needs (f.rules p types) n :=
  (f.judges p types).exact

/-- The same holds of a variable, which has no parameters. -/
theorem VariableDecl.vet_value_exact (v : VariableDecl) (p : Program) (types : Types) :
    ((∃ needs, v.vet p types = .ok needs) ↔
        ∀ o, Occurs v.occurrence o → o.Safe (rules p types)) ∧
      ∀ needs, v.vet p types = .ok needs →
        needs.Nodup ∧ ∀ n, n ∈ needs ↔ ∃ o, Occurs v.occurrence o ∧ o.Needs (rules p types) n :=
  (v.judges p types).exact

end ConstPool
