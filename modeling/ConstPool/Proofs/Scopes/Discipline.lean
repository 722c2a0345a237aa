import ConstPool.Proofs.Scopes.Run

/-!
# The discipline of scopes

Whatever a part of a body comes to, a value, a jump, a value given back early or a fault, it leaves
as many scopes as there were before it. The scopes around the innermost one have the same locals,
and the innermost one has got those that statements have declared directly in it. A local from
before has another value only if an assignment has gone to it, since it was the innermost local of
its name. Parameters are no locals, and nothing is assigned to them.

To say this a transcript is kept beside the run, which notes every declaration and every assignment
with the scopes at that time. A run with a transcript does what the run without it does: this is
the first half of the statement, and it makes the second half one about the program. The discipline
is a relation between the scopes before, the transcript and the scopes after. It is proved for the
steps of a body, and the transcripts of parts are appended where the parts follow each other.

* `Scopes.Disciplined`: what a part of a body leaves of the scopes before it.
* `Env.scopes_disciplined`: expressions, statements and bodies are disciplined.
-/

namespace ConstPool

/-- What a part of a body leaves of the scopes before it, where `writes` is what it has written into
them and into those that it has opened. The names that its statements declare in the scope in which
they stand are `names`. -/
structure Scopes.Disciplined (env : Env) (names : List String) (before : Scopes Draft)
    (writes : List (Write Draft)) (after : Scopes Draft) : Prop where
  depth : after.length = before.length
  /-- The scopes around the innermost one have the locals that they had. -/
  outer : ∀ {level name}, level + 1 < before.length →
    (after.at? level name).isSome = (before.at? level name).isSome
  /-- The innermost scope has the locals that it had, and others only by declarations in it. -/
  innermost : ∀ {level name}, level + 1 = before.length →
    ((before.at? level name).isSome → (after.at? level name).isSome) ∧
      ((after.at? level name).isSome → (before.at? level name).isSome ∨
        name ∈ names ∧ ∃ d scopes, .declared name d scopes ∈ writes ∧ scopes.length = before.length)
  /-- A local that is not declared anew has the value that it had, or one that was assigned to it as
  the innermost local of its name. -/
  values : ∀ {level name}, level + 1 < before.length ∨ name ∉ names →
    after.at? level name = before.at? level name ∨
      ∃ d scopes, .assigned name d scopes ∈ writes ∧ scopes.home? name = some level ∧
        after.at? level name = some d
  /-- Whatever is assigned is assigned to a local. -/
  assigned : ∀ {name d scopes}, .assigned name d scopes ∈ writes →
    ∃ level, scopes.home? name = some level
  /-- A parameter that is not hidden by a local is not hidden afterwards, and has its value. -/
  params : ∀ {name a}, name ∉ names → before.find? name = none → env.params.get? name = some a →
    ∀ stock left, env.lookup name ⟨stock, before, left⟩ = .ok (.atom a) ⟨stock, before, left⟩ ∧
      env.lookup name ⟨stock, after, left⟩ = .ok (.atom a) ⟨stock, after, left⟩

/-- The value of a parameter that is not hidden by a local. -/
theorem Env.lookup_of_param {env : Env} {name : String} {a : Atom} {scopes : Scopes Draft}
    (hlocal : scopes.find? name = none) (hparam : env.params.get? name = some a) (stock : Stock)
    (left : Nat) : env.lookup name ⟨stock, scopes, left⟩ = .ok (.atom a) ⟨stock, scopes, left⟩ := by
  have hget : (get : Run _) ⟨stock, scopes, left⟩ =
      .ok ⟨stock, scopes, left⟩ ⟨stock, scopes, left⟩ := rfl
  unfold Env.lookup
  simp only [bind, EStateM.bind, hget, hlocal, hparam]
  rfl

namespace Scopes.After

variable {names : List String} {before after : Scopes Draft} {writes : List (Write Draft)}

/-- A new local has a name that may be declared. -/
theorem mem_names (h : After names before writes after) {level : Nat} {name : String}
    (hafter : (after.at? level name).isSome = true) :
    (before.at? level name).isSome = true ∨ level + 1 = before.length ∧ name ∈ names ∧
      ∃ d scopes, .declared name d scopes ∈ writes ∧ scopes.length = before.length := by
  refine (h.new hafter).imp_right fun ⟨hlevel, d, scopes, hmem, hlength⟩ => ?_
  rcases h.declared hmem with hlt | ⟨-, hname⟩
  · omega
  · exact ⟨hlevel, hname, d, scopes, hmem, hlength⟩

/-- What is known of the writes of a part of a body tells what it leaves of the scopes. -/
theorem disciplined (h : After names before writes after) (env : Env) :
    Disciplined env names before writes after where
  depth := h.depth
  outer {level name} hlevel := by
    rw [Bool.eq_iff_iff]
    refine ⟨fun hafter => (h.mem_names hafter).resolve_right fun ⟨hinner, _⟩ => ?_, h.kept⟩
    omega
  innermost _ := ⟨h.kept, fun hafter => (h.mem_names hafter).imp_right And.right⟩
  values {level name} hother := by
    rcases Nat.lt_or_ge level before.length with hlevel | hlevel
    · rw [h.values hlevel]
      refine (Write.foldl_leave level name _ writes).imp_right fun ⟨w, hmem, hhits, heq⟩ => ?_
      cases w with
      | assigned n d scopes =>
        obtain ⟨rfl, hhome⟩ := hhits
        exact ⟨d, scopes, hmem, hhome, heq⟩
      | declared n d scopes =>
        obtain ⟨rfl, hinner⟩ := hhits
        rcases h.declared hmem with hlt | ⟨hlength, hname⟩
        · omega
        · exact absurd hother (by rw [not_or, not_not]; exact ⟨by omega, hname⟩)
    · rw [at?_of_length_le hlevel, at?_of_length_le (h.depth ▸ hlevel)]
      exact .inl rfl
  assigned := h.assigned
  -- a parameter is looked up only where no local has its name, and no local with this name was
  -- declared
  params {name a} hname hlocal hparam stock left := by
    have hlocal' : after.find? name = none := by
      refine find?_eq_none_iff.2 fun level => ?_
      rw [← Option.not_isSome_iff_eq_none]
      intro hafter
      rcases h.mem_names hafter with hbefore | ⟨-, hmem, -⟩
      · rw [find?_eq_none_iff.1 hlocal level] at hbefore
        cases hbefore
      · exact hname hmem
    exact ⟨Env.lookup_of_param hlocal hparam stock left,
      Env.lookup_of_param hlocal' hparam stock left⟩

end Scopes.After

/-- The steps of a run with a transcript are those that the run takes anyway, and the run leaves the
scopes as its transcript tells. -/
theorem Eval.Transcribes.disciplined {β : Type} {names : List String} {x : Run β}
    {y : Eval Transcript Draft β} (h : Transcribes names x y) (env : Env)
    (m : Machine Stock Draft) :
    ∃ writes, y (m.transcribed []) = transcribed writes (x m) ∧
      Scopes.Disciplined env names m.scopes writes (scopesAfter (x m)) :=
  have ⟨writes, heq, hafter⟩ := h m []
  ⟨writes, heq, hafter.disciplined env⟩

/-- From every machine on and however they end, expressions, statements and bodies are disciplined.
An expression declares nothing in the innermost scope before it, a statement nothing but its own
name, and a body nothing but the names of its own statements. -/
theorem Env.scopes_disciplined (env : Env) (m : Machine Stock Draft) :
    (∀ e : Expr, ∃ writes,
      e.evalIn env.transcriber (m.transcribed []) = Eval.transcribed writes (e.eval env m) ∧
        Scopes.Disciplined env [] m.scopes writes (Eval.scopesAfter (e.eval env m))) ∧
      (∀ stmt : Stmt, ∃ writes,
        stmt.execIn env.transcriber (m.transcribed []) =
            Eval.transcribed writes (stmt.exec env m) ∧
          Scopes.Disciplined env stmt.declared m.scopes writes
            (Eval.scopesAfter (stmt.exec env m))) ∧
      ∀ body : List Stmt, ∃ writes,
        bodyIn env.transcriber body (m.transcribed []) =
            Eval.transcribed writes (execBody env body m) ∧
          Scopes.Disciplined env (body.flatMap Stmt.declared) m.scopes writes
            (Eval.scopesAfter (execBody env body m)) := by
  refine ⟨fun e => ?_, fun stmt => ?_, fun body => ?_⟩
  · rw [← Expr.eval_eq]
    exact (Expr.transcribed e).disciplined env m
  · rw [← Stmt.exec_eq]
    exact (Stmt.transcribed stmt).disciplined env m
  · rw [← bodyEq]
    exact (bodyTranscribed body).disciplined env m

end ConstPool
