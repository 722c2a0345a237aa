import ConstPool.Eval.Interpretation
import ConstPool.Proofs.Scopes.Basic

/-!
# What a body writes into its scopes

A body may be run with a transcript of what it writes into its scopes. The transcript has no
influence on what happens. It tells which locals a part of the body has written, so it is known what
the part leaves of the scopes that were there before it, whether it comes to a value, jumps, gives
back a value early or fails.

The body with a transcript is another interpretation of the same syntax. Most of its steps leave the
scopes as they are, and these are the steps of the plain body with nothing written down. Two of them
write, a declaration and an assignment, and they note what they write beside the scopes before it.
So the two bodies are compared step by step, and a step says three things at once: that the machine
does the same, that the scopes afterwards are those before with the writes in them, and which names
have been declared in the scope in which the step stands.

* `Transcript`, `Env.transcriber`: bodies of which a transcript is kept.
* `Eval.Still`: steps that leave the scopes as they are.
* `Eval.Transcribes`: a run and the same run with a transcript.
* `Expr.transcribed`, `Stmt.transcribed`: one expression or statement.
-/

namespace ConstPool

/-- A stock, and what has been written into the scopes of the running body so far. -/
structure Transcript where
  stock : Stock
  writes : List (Write Draft)

/-- The machine with a transcript. -/
def Machine.transcribed (m : Machine Stock Draft) (writes : List (Write Draft)) :
    Machine Transcript Draft := ⟨⟨m.stock, writes⟩, m.scopes, m.left⟩

namespace Eval

variable {β γ : Type}

/-- How a run ends, with a transcript. -/
def transcribed (writes : List (Write Draft)) :
    EStateM.Result (Stop Draft) (Machine Stock Draft) β →
      EStateM.Result (Stop Draft) (Machine Transcript Draft) β
  | .ok b m => .ok b (m.transcribed writes)
  | .error stop m => .error stop (m.transcribed writes)

/-- The scopes with which a run ends. -/
def scopesAfter : EStateM.Result (Stop Draft) (Machine Stock Draft) β → Scopes Draft
  | .ok _ m => m.scopes
  | .error _ m => m.scopes

/-- A step that writes nothing. -/
def silently (step : Run β) : Eval Transcript Draft β := fun ⟨⟨stock, writes⟩, scopes, left⟩ =>
  transcribed writes (step ⟨stock, scopes, left⟩)

/-- Notes a write. -/
def transcribe (w : Write Draft) : Eval Transcript Draft Unit :=
  fun ⟨⟨stock, writes⟩, scopes, left⟩ => .ok () ⟨⟨stock, writes ++ [w]⟩, scopes, left⟩

end Eval

/-- The steps of a body of which a transcript is kept. -/
def Env.transcriber (env : Env) : Interpretation (Eval Transcript Draft) Draft ValueId Atom where
  toControl := { Eval.control env.exhausted with
    declare := fun name d => do
      let scopes := (← get).scopes
      Eval.declare name d
      Eval.transcribe (.declared name d scopes)
    assign := fun name d => do
      let scopes := (← get).scopes
      Eval.assign (.unresolved name .undeclaredAssignment) name d
      Eval.transcribe (.assigned name d scopes) }
  analysis := env.analysis
  owner := env.owner
  scalar := .scalar
  layer := .fresh
  isNull := Draft.isNull
  lookup name := Eval.silently (env.lookup name)
  range a b := Eval.silently (env.range a b)
  ask q := Eval.silently (Eval.ask (q.onDrafts env.analysis))
  type t := Eval.ofExcept (t.draft env)
  poolType d := Eval.silently (Eval.onStock d.internType)
  pool d := Eval.silently (Eval.onStock d.intern)
  call f types args := Eval.silently (env.fetch (.call f types args))

/-! ### Runs with a transcript -/

namespace Eval

variable {β γ : Type} {x : Run β} {f : β → Run γ} {y : Eval Transcript Draft β}
  {g : β → Eval Transcript Draft γ} {names names' : List String}

/-- A run that leaves the scopes as they are. -/
def Still (x : Run β) : Prop := ∀ m, scopesAfter (x m) = m.scopes

namespace Still

/-- Returning a value leaves the scopes alone. -/
theorem pure (b : β) : Still (Pure.pure b) := fun _ => rfl

/-- So does a fault. -/
theorem raise (f : Fault) : Still (Eval.raise f : Run β) := fun _ => rfl

/-- Two still computations in sequence. -/
theorem bind (h : Still x) (hnext : ∀ b, Still (f b)) : Still (x >>= f) := by
  intro m
  have hx := h m
  show scopesAfter (EStateM.bind x f m) = m.scopes
  unfold EStateM.bind
  generalize x m = r at hx ⊢
  cases r with
  | ok b m' => exact (hnext b m').trans hx
  | error stop m' => exact hx

/-- What happens to the pool and the memo does not show in the scopes. -/
theorem onStock (work : Work β) : Still (Eval.onStock work) := by
  rintro ⟨stock, scopes, left⟩
  unfold Eval.onStock
  dsimp only
  cases work stock <;> rfl

/-- Nor does a question to the pool. -/
theorem ask (question : Pool → Except Fault β) : Still (Eval.ask question) := by
  intro m
  unfold Eval.ask
  split <;> rfl

/-- Nor does the step counter. -/
theorem spend (exhausted : Fault) (steps : Nat) : Still (Eval.spend exhausted steps) := by
  intro m
  unfold Eval.spend
  split <;> rfl

/-- Nor does a request to another node, which has scopes of its own. -/
theorem fetch (env : Env) (r : Request ValueId Atom) : Still (env.fetch r) :=
  (onStock _).bind fun _ => (ask _).bind fun _ => pure _

/-- A name is read from the scopes or the parameters, or else requested. -/
theorem lookup (env : Env) (name : String) : Still (env.lookup name) := by
  refine bind (x := get) (fun _ => rfl) fun m => ?_
  split
  · exact pure _
  · split
    · exact pure _
    · split
      · exact fetch env _
      · exact raise _

/-- The integers of a range cost steps, and touch no scope. -/
theorem range (env : Env) (start stop : Int64) : Still (env.range start stop) :=
  (spend _ _).bind fun _ => pure _

end Still

/-- A run does the same with a transcript as without one. What it writes is what has become of the
scopes, and the names of locals that it declares in the innermost one are among `names`. -/
def Transcribes (names : List String) (x : Run β) (y : Eval Transcript Draft β) : Prop :=
  ∀ m writes, ∃ more, y (m.transcribed writes) = transcribed (writes ++ more) (x m) ∧
    Scopes.After names m.scopes more (scopesAfter (x m))

namespace Transcribes

/-- In sequence: the second computation is transcribed behind the first. -/
theorem bind (h : Transcribes names x y) (hnext : ∀ b, Transcribes names' (f b) (g b)) :
    Transcribes (names ++ names') (x >>= f) (y >>= g) := by
  intro m writes
  obtain ⟨more, heq, hafter⟩ := h m writes
  show ∃ more, EStateM.bind y g (m.transcribed writes) =
    transcribed (writes ++ more) (EStateM.bind x f m) ∧
      Scopes.After (names ++ names') m.scopes more (scopesAfter (EStateM.bind x f m))
  unfold EStateM.bind
  rw [heq]
  generalize x m = r at hafter ⊢
  cases r with
  | ok b m' =>
    obtain ⟨more', heq', hafter'⟩ := hnext b m' (writes ++ more)
    refine ⟨more ++ more', ?_, hafter.trans hafter'⟩
    rw [← List.append_assoc]
    exact heq'
  | error stop m' => exact ⟨more, rfl, hafter.mono fun _ => List.mem_append_left _⟩

/-- What comes after a run that declares nothing in the innermost scope. -/
theorem andThen (h : Transcribes [] x y) (hnext : ∀ b, Transcribes names (f b) (g b)) :
    Transcribes names (x >>= f) (y >>= g) := h.bind hnext

/-- A run that writes nothing. -/
theorem still (h : Still x)
    (hsame : ∀ m writes, y (m.transcribed writes) = transcribed writes (x m)) :
    Transcribes [] x y := by
  intro m writes
  refine ⟨[], ?_, ?_⟩
  · rw [List.append_nil]
    exact hsame m writes
  · rw [h m]
    exact .refl _

/-- A still computation writes nothing into the transcript. -/
theorem silently (h : Still x) : Transcribes [] x (Eval.silently x) := still h fun _ _ => rfl

/-- A value that is returned leaves no trace. -/
theorem pure (b : β) : Transcribes [] (Pure.pure b) (Pure.pure b) :=
  still (.pure b) fun _ _ => rfl

/-- Neither does a stop, whichever it is. -/
theorem stop (s : Stop Draft) : Transcribes [] (throw s : Run β) (throw s) :=
  still (fun _ => rfl) fun _ _ => rfl

/-- Neither does a result that is known in advance. -/
theorem ofExcept (result : Except Fault β) :
    Transcribes [] (Eval.ofExcept result) (Eval.ofExcept result) := by
  cases result with
  | ok b => exact pure b
  | error f => exact stop _

/-- Neither does a step. -/
theorem spend (exhausted : Fault) (steps : Nat) :
    Transcribes [] (Eval.spend exhausted steps) (Eval.spend exhausted steps) := by
  refine still (.spend _ _) fun m writes => ?_
  unfold Eval.spend Machine.transcribed
  dsimp only
  split <;> rfl

/-- A local is declared in the innermost scope. -/
theorem declare (env : Env) (name : String) (d : Draft) :
    Transcribes [name] (env.interpretation.declare name d) (env.transcriber.declare name d) :=
  fun m _ => ⟨[.declared name d m.scopes], rfl, .declare name d m.scopes⟩

/-- A local is given another value. -/
theorem assign (env : Env) (name : String) (d : Draft) :
    Transcribes [] (env.interpretation.assign name d) (env.transcriber.assign name d) := by
  intro m writes
  have hsteps : env.transcriber.assign name d (m.transcribed writes) =
      EStateM.bind (Eval.assign (.unresolved name .undeclaredAssignment) name d)
        (fun _ => Eval.transcribe (.assigned name d m.scopes)) (m.transcribed writes) := rfl
  have hplain : env.interpretation.assign name d m =
      Eval.assign (.unresolved name .undeclaredAssignment) name d m := rfl
  rw [hsteps, hplain, EStateM.bind]
  unfold Eval.assign
  have hscopes : (m.transcribed writes).scopes = m.scopes := rfl
  rw [hscopes]
  cases hassign : m.scopes.assign? name d with
  | none =>
    refine ⟨[], ?_, .refl _⟩
    rw [List.append_nil]
    rfl
  | some after => exact ⟨[.assigned name d m.scopes], rfl, .assign hassign⟩

/-- A scope is opened, and closed however the run in it ends. -/
theorem inScope (h : Transcribes names x y) (scope : Dict String Draft) :
    Transcribes [] (Eval.inScope scope x) (Eval.inScope scope y) := by
  intro m writes
  obtain ⟨more, heq, hafter⟩ := h { m with scopes := scope :: m.scopes } writes
  refine ⟨more, ?_⟩
  have hstart : { m.transcribed writes with scopes := scope :: (m.transcribed writes).scopes } =
      Machine.transcribed { m with scopes := scope :: m.scopes } writes := rfl
  unfold Eval.inScope
  rw [hstart, heq]
  generalize x { m with scopes := scope :: m.scopes } = r at hafter ⊢
  cases r with
  | ok b m' => exact ⟨rfl, hafter.closed⟩
  | error stop m' => exact ⟨rfl, hafter.closed⟩

/-- A round of a loop. -/
theorem round {x : Run Unit} {y : Eval Transcript Draft Unit} (h : Transcribes names x y)
    (scope : Dict String Draft) : Transcribes [] (Eval.round scope x) (Eval.round scope y) := by
  intro m writes
  obtain ⟨more, heq, hafter⟩ := h.inScope scope m writes
  refine ⟨more, ?_⟩
  unfold Eval.round
  rw [heq]
  generalize Eval.inScope scope x m = r at hafter ⊢
  rcases r with ⟨b, m'⟩ | ⟨_ | _ | _ | _, m'⟩ <;> exact ⟨rfl, hafter⟩

/-- What comes after a truth value declares nothing in either case. -/
theorem ite {x x' : Run β} {y y' : Eval Transcript Draft β} (b : Bool) (h : Transcribes names x y)
    (h' : Transcribes names x' y') :
    Transcribes names (if b = true then x else x') (if b = true then y else y') := by
  cases b
  · exact h'
  · exact h

/-- A loop with a condition. The induction is on the number of rounds. -/
theorem loop (exhausted : Fault) {test : Run Bool} {test' : Eval Transcript Draft Bool}
    {body : Run Unit} {body' : Eval Transcript Draft Unit} (htest : Transcribes [] test test')
    (hbody : Transcribes names body body') (rounds : Nat) :
    Transcribes [] (Eval.loop exhausted test body rounds)
      (Eval.loop exhausted test' body' rounds) := by
  induction rounds with
  | zero => exact stop _
  | succ rounds ih =>
    rw [Eval.loop, Eval.loop]
    exact (spend exhausted 1).andThen fun _ => htest.andThen fun b => .ite b
      ((hbody.round .empty).andThen fun b => .ite b ih (pure _)) (pure _)

/-- A loop through the elements of a list. -/
theorem forEach (env : Env) (binder : String) {body : Run Unit}
    {body' : Eval Transcript Draft Unit} (hbody : Transcribes names body body') (ds : List Draft) :
    Transcribes [] (env.interpretation.forEach binder body ds)
      (env.transcriber.forEach binder body' ds) := by
  induction ds with
  | nil => exact pure _
  | cons d ds ih =>
    rw [Interpretation.forEach, Interpretation.forEach]
    exact (spend env.exhausted 1).andThen fun _ => (hbody.round (.one binder d)).andThen fun b =>
      .ite b ih (pure _)

/-- What is produced for the elements of a list. -/
theorem collect (env : Env) (binder : String) {produce : Run (Option Draft)}
    {produce' : Eval Transcript Draft (Option Draft)} (hproduce : Transcribes [] produce produce')
    (ds : List Draft) (done : Array Draft) :
    Transcribes [] (env.interpretation.collect binder produce ds done)
      (env.transcriber.collect binder produce' ds done) := by
  induction ds generalizing done with
  | nil => exact pure _
  | cons d ds ih =>
    rw [Interpretation.collect, Interpretation.collect]
    refine (spend env.exhausted 1).andThen fun _ =>
      (hproduce.inScope (.one binder d)).andThen fun produced => ?_
    cases produced with
    | none => exact ih done
    | some d => exact ih (done.push d)

end Transcribes

end Eval

/-! ### Expressions and statements -/

/-- The name that a statement declares in the scope in which it stands. -/
def Stmt.declared : Stmt → List String
  | .declare name _ => [name]
  | _ => []

section Syntax

open Eval (Transcribes Still)

variable (env : Env)

/-- A step of the run is a step of the transcribed run. -/
theorem Env.transcribes_step : Transcribes [] env.interpretation.step env.transcriber.step :=
  .spend _ _

/-- A question to the pool is put in both runs, and written down in neither. -/
theorem Env.transcribes_ask {β : Type} (q : Question Draft β) :
    Transcribes [] (env.interpretation.ask q) (env.transcriber.ask q) := .silently (.ask _)

/-- What is known in advance comes out alike in both runs. -/
theorem Env.transcribes_known {β : Type} (result : Except Fault β) :
    Transcribes [] (env.interpretation.known result) (env.transcriber.known result) := by
  cases result with
  | ok b => exact .pure b
  | error f => exact .stop _

/-- Type arguments are evaluated without a look at the scopes. -/
theorem Env.transcribes_types (ts : List TypeExpr) :
    Transcribes [] (env.interpretation.types ts) (env.transcriber.types ts) := by
  induction ts with
  | nil => exact .pure _
  | cons t ts ih =>
    rw [Interpretation.types, Interpretation.types]
    exact (Transcribes.ofExcept _).andThen fun d =>
      (Transcribes.silently (.onStock d.internType)).andThen fun _ => ih.andThen fun _ => .pure _

variable {env}

mutual

/-- An expression declares nothing in the innermost scope before it. -/
theorem Expr.transcribed :
    (e : Expr) → Transcribes [] (e.evalIn env.interpretation) (e.evalIn env.transcriber)
  | .scalar s => by
    rw [Expr.evalIn, Expr.evalIn]
    exact env.transcribes_step.andThen fun _ => .pure _
  | .text content => by
    rw [Expr.evalIn, Expr.evalIn]
    exact env.transcribes_step.andThen fun _ => .pure _
  | .name name => by
    rw [Expr.evalIn, Expr.evalIn]
    exact env.transcribes_step.andThen fun _ => .silently (.lookup env name)
  | .unary op operand => by
    rw [Expr.evalIn, Expr.evalIn]
    exact env.transcribes_step.andThen fun _ => (Expr.transcribed operand).andThen fun _ =>
      env.transcribes_ask _
  | .binary op left right => by
    rw [Expr.evalIn, Expr.evalIn]
    exact env.transcribes_step.andThen fun _ => (Expr.transcribed left).andThen fun _ =>
      (Expr.transcribed right).andThen fun _ => env.transcribes_ask _
  | .and left right => by
    rw [Expr.evalIn, Expr.evalIn]
    refine env.transcribes_step.andThen fun _ => (Expr.transcribed left).andThen fun _ =>
      (env.transcribes_ask _).andThen fun b => .ite b ?_ (.pure _)
    exact (Expr.transcribed right).andThen fun _ => (env.transcribes_ask _).andThen fun _ => .pure _
  | .or left right => by
    rw [Expr.evalIn, Expr.evalIn]
    refine env.transcribes_step.andThen fun _ => (Expr.transcribed left).andThen fun _ =>
      (env.transcribes_ask _).andThen fun b => .ite b (.pure _) ?_
    exact (Expr.transcribed right).andThen fun _ => (env.transcribes_ask _).andThen fun _ => .pure _
  | .ifNull left right => by
    rw [Expr.evalIn, Expr.evalIn]
    exact env.transcribes_step.andThen fun _ => (Expr.transcribed left).andThen fun d =>
      .ite _ (Expr.transcribed right) (.pure d)
  | .cond condition onTrue onFalse => by
    rw [Expr.evalIn, Expr.evalIn]
    exact env.transcribes_step.andThen fun _ => (Expr.transcribed condition).andThen fun _ =>
      (env.transcribes_ask _).andThen fun b =>
        .ite b (Expr.transcribed onTrue) (Expr.transcribed onFalse)
  | .block body result => by
    rw [Expr.evalIn, Expr.evalIn]
    exact env.transcribes_step.andThen fun _ =>
      ((bodyTranscribed body).bind fun _ => Expr.transcribed result).inScope .empty
  | .list items => by
    rw [Expr.evalIn, Expr.evalIn]
    exact env.transcribes_step.andThen fun _ => (itemsTranscribed items _).andThen fun _ => .pure _
  | .map entries => by
    rw [Expr.evalIn, Expr.evalIn]
    exact env.transcribes_step.andThen fun _ => (entriesTranscribed entries _).andThen fun _ =>
      .pure _
  | .object className fields => by
    rw [Expr.evalIn, Expr.evalIn]
    have hanalysis : env.transcriber.analysis = env.interpretation.analysis := rfl
    rw [hanalysis]
    refine env.transcribes_step.andThen fun _ => ?_
    cases env.interpretation.analysis.types.get? className with
    | none => exact .stop _
    | some t =>
      exact (fieldsTranscribed t className fields _).andThen fun _ =>
        (env.transcribes_known _).andThen fun _ => .pure _
  | .collect binder source none item => by
    rw [Expr.evalIn, Expr.evalIn]
    have hproduce := (Expr.transcribed item).andThen fun d => .pure (some d)
    exact env.transcribes_step.andThen fun _ => (Expr.transcribed source).andThen fun _ =>
      (env.transcribes_ask _).andThen fun ds => (hproduce.collect env binder ds _).andThen fun _ =>
        .pure _
  | .collect binder source (some filter) item => by
    rw [Expr.evalIn, Expr.evalIn]
    have hitem := (Expr.transcribed item).andThen fun d => .pure (some d)
    have hproduce := (Expr.transcribed filter).andThen fun d =>
      (env.transcribes_ask (.truth .filter d)).andThen fun b => .ite b hitem (.pure none)
    exact env.transcribes_step.andThen fun _ => (Expr.transcribed source).andThen fun _ =>
      (env.transcribes_ask _).andThen fun ds => (hproduce.collect env binder ds _).andThen fun _ =>
        .pure _
  | .range start stop => by
    rw [Expr.evalIn, Expr.evalIn]
    exact env.transcribes_step.andThen fun _ => (Expr.transcribed start).andThen fun _ =>
      (env.transcribes_ask _).andThen fun a => (Expr.transcribed stop).andThen fun _ =>
        (env.transcribes_ask _).andThen fun b => .silently (.range env a b)
  | .index target position => by
    rw [Expr.evalIn, Expr.evalIn]
    exact env.transcribes_step.andThen fun _ => (Expr.transcribed target).andThen fun _ =>
      (Expr.transcribed position).andThen fun _ => env.transcribes_ask _
  | .field target name => by
    rw [Expr.evalIn, Expr.evalIn]
    exact env.transcribes_step.andThen fun _ => (Expr.transcribed target).andThen fun _ =>
      env.transcribes_ask _
  | .type t => by
    rw [Expr.evalIn, Expr.evalIn]
    exact env.transcribes_step.andThen fun _ => .ofExcept _
  | .query q t => by
    rw [Expr.evalIn, Expr.evalIn]
    exact env.transcribes_step.andThen fun _ => (Transcribes.ofExcept _).andThen fun _ =>
      env.transcribes_ask _
  | .throw message => by
    rw [Expr.evalIn, Expr.evalIn]
    exact env.transcribes_step.andThen fun _ => (Expr.transcribed message).andThen fun _ =>
      (env.transcribes_ask _).andThen fun _ => .stop _
  | .call function types args => by
    rw [Expr.evalIn, Expr.evalIn]
    exact env.transcribes_step.andThen fun _ => (env.transcribes_known _).andThen fun f =>
      (env.transcribes_types types).andThen fun _ => (argsTranscribed args).andThen fun _ =>
        .silently (.fetch env _)
  | .method target name types args => by
    rw [Expr.evalIn, Expr.evalIn]
    exact env.transcribes_step.andThen fun _ => .stop _
  | .tearOff function => by
    rw [Expr.evalIn, Expr.evalIn]
    exact env.transcribes_step.andThen fun _ => .stop _

/-- A list of expressions. -/
theorem itemsTranscribed : (items : List Expr) → (done : Array Draft) →
    Transcribes [] (itemsIn env.interpretation items done) (itemsIn env.transcriber items done)
  | [], done => by
    rw [itemsIn, itemsIn]
    exact .pure done
  | item :: rest, done => by
    rw [itemsIn, itemsIn]
    exact (Expr.transcribed item).andThen fun _ => itemsTranscribed rest _

/-- The entries of a map. -/
theorem entriesTranscribed : (entries : List (Expr × Expr)) → (done : Array (Draft × Draft)) →
    Transcribes [] (entriesIn env.interpretation entries done)
      (entriesIn env.transcriber entries done)
  | [], done => by
    rw [entriesIn, entriesIn]
    exact .pure done
  | (key, value) :: rest, done => by
    rw [entriesIn, entriesIn]
    exact (Expr.transcribed key).andThen fun _ => (Expr.transcribed value).andThen fun _ =>
      (env.transcribes_ask _).andThen fun _ => entriesTranscribed rest _

/-- The fields of an object. -/
theorem fieldsTranscribed (t : TypeDecl) (className : String) :
    (fields : List (String × Expr)) → (done : OrderedMap String Draft) →
      Transcribes [] (fieldsIn env.interpretation t className fields done)
        (fieldsIn env.transcriber t className fields done)
  | [], done => by
    rw [fieldsIn, fieldsIn]
    exact .pure done
  | (name, value) :: rest, done => by
    rw [fieldsIn, fieldsIn]
    exact (env.transcribes_known _).andThen fun _ => (Expr.transcribed value).andThen fun _ =>
      fieldsTranscribed t className rest _

/-- The arguments of a call. -/
theorem argsTranscribed : (args : List Expr) →
    Transcribes [] (argsIn env.interpretation args) (argsIn env.transcriber args)
  | [] => by
    rw [argsIn, argsIn]
    exact .pure _
  | arg :: rest => by
    rw [argsIn, argsIn]
    exact (Expr.transcribed arg).andThen fun d =>
      (Transcribes.silently (.onStock d.intern)).andThen fun _ =>
        (argsTranscribed rest).andThen fun _ => .pure _

/-- A statement declares nothing but its own name in the innermost scope before it. -/
theorem Stmt.transcribed : (stmt : Stmt) →
    Transcribes stmt.declared (stmt.execIn env.interpretation) (stmt.execIn env.transcriber)
  | .declare name value => by
    rw [Stmt.execIn, Stmt.execIn]
    exact (Expr.transcribed value).andThen fun d => .declare env name d
  | .assign name value => by
    rw [Stmt.execIn, Stmt.execIn]
    exact (Expr.transcribed value).andThen fun d => .assign env name d
  | .evaluate e => by
    rw [Stmt.execIn, Stmt.execIn]
    exact (Expr.transcribed e).andThen fun _ => .pure ()
  | .branch condition onTrue onFalse => by
    rw [Stmt.execIn, Stmt.execIn]
    exact (Expr.transcribed condition).andThen fun _ => (env.transcribes_ask _).andThen fun b =>
      .ite b ((bodyTranscribed onTrue).inScope .empty) ((bodyTranscribed onFalse).inScope .empty)
  | .loop condition body => by
    rw [Stmt.execIn, Stmt.execIn]
    have htest := (Expr.transcribed condition).andThen fun d =>
      env.transcribes_ask (.truth .loopCondition d)
    exact fun m => Transcribes.loop env.exhausted htest (bodyTranscribed body) m.left m
  | .forEach binder source body => by
    rw [Stmt.execIn, Stmt.execIn]
    exact (Expr.transcribed source).andThen fun _ => (env.transcribes_ask _).andThen fun ds =>
      (bodyTranscribed body).forEach env binder ds
  | .leaveLoop => by
    rw [Stmt.execIn, Stmt.execIn]
    exact .stop _
  | .nextRound => by
    rw [Stmt.execIn, Stmt.execIn]
    exact .stop _
  | .giveBack value => by
    rw [Stmt.execIn, Stmt.execIn]
    exact (Expr.transcribed value).andThen fun _ => .stop _

/-- Statements one after another. -/
theorem bodyTranscribed : (body : List Stmt) →
    Transcribes (body.flatMap Stmt.declared) (bodyIn env.interpretation body)
      (bodyIn env.transcriber body)
  | [] => by
    rw [bodyIn, bodyIn]
    exact .pure ()
  | stmt :: rest => by
    rw [bodyIn, bodyIn, List.flatMap_cons]
    exact (Stmt.transcribed stmt).bind fun _ => bodyTranscribed rest

end

end Syntax

end ConstPool
