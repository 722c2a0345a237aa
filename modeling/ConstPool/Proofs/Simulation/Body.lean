import ConstPool.Proofs.Simulation.Env

/-!
# A body does on drafts what it does on trees

Every expression and every statement of a vetted body runs on drafts as it runs on trees. The
proof goes along the syntax: a step of the run on drafts is a step of the run on trees, or it
pools something, which does not concern trees.

What goes together is the whole end of a run: the value, or the fault with its message, and the
steps that are left. A fault is excused only where a request has failed with the breach of a chain
that is too long, which trees know nothing of.

* `Vetted`: a part of a body passed and needs nothing but certain declarations.
* `Expr.described`, `Stmt.described`: one expression or statement.
* `EnvRel.run`: a whole body.
-/

namespace ConstPool

open Draft

/-! ### Vetted parts -/

/-- Something that was vetted passed, and what it needs is among the given needs. -/
def Vetted (needs : List Node) (x : Except Fault (List Node)) : Prop :=
  ∃ ns, x = .ok ns ∧ ∀ n ∈ ns, n ∈ needs

/-- The first of two computations that succeed together. -/
theorem ok_of_bind {β γ : Type} {x : Except Fault β} {f : β → Except Fault γ} {c : γ}
    (h : x >>= f = .ok c) : ∃ b, x = .ok b ∧ f b = .ok c := by
  rcases x with e | b
  · cases h
  · exact ⟨b, rfl, h⟩

namespace Vetted

variable {needs : List Node} {x y z : Except Fault (List Node)}

/-- Two parts pass one after the other. -/
theorem append (h : Vetted needs (do return (← x) ++ (← y))) : Vetted needs x ∧ Vetted needs y := by
  obtain ⟨ns, h, hneeds⟩ := h
  obtain ⟨xs, hx, h₁⟩ := ok_of_bind h
  obtain ⟨ys, hy, h₂⟩ := ok_of_bind h₁
  cases h₂
  exact ⟨⟨xs, hx, fun n hn => hneeds n (List.mem_append_left _ hn)⟩,
    ⟨ys, hy, fun n hn => hneeds n (List.mem_append_right _ hn)⟩⟩

/-- Three parts pass one after the other. -/
theorem append₃ (h : Vetted needs (do return (← x) ++ (← y) ++ (← z))) :
    Vetted needs x ∧ Vetted needs y ∧ Vetted needs z := by
  obtain ⟨ns, h, hneeds⟩ := h
  obtain ⟨xs, hx, h₁⟩ := ok_of_bind h
  obtain ⟨ys, hy, h₂⟩ := ok_of_bind h₁
  obtain ⟨zs, hz, h₃⟩ := ok_of_bind h₂
  cases h₃
  simp only [List.mem_append] at hneeds
  exact ⟨⟨xs, hx, fun n hn => hneeds n (.inl (.inl hn))⟩,
    ⟨ys, hy, fun n hn => hneeds n (.inl (.inr hn))⟩, ⟨zs, hz, fun n hn => hneeds n (.inr hn)⟩⟩

/-- A part passes after a check. -/
theorem after_check {check : Except Fault Unit} (h : Vetted needs (do check; x)) :
    Vetted needs x := by
  obtain ⟨ns, h, hneeds⟩ := h
  obtain ⟨-, -, hx⟩ := ok_of_bind h
  exact ⟨ns, hx, hneeds⟩

/-- A check before a part passes. -/
theorem check {check : Except Fault Unit} (h : Vetted needs (do check; x)) : check = .ok () := by
  obtain ⟨ns, h, -⟩ := h
  obtain ⟨_, hcheck, _⟩ := ok_of_bind h
  exact hcheck

/-- A call passes if its function is known and takes so many arguments, and if its types and its
arguments pass. -/
theorem of_call {s : Surroundings} {function : String} {types : List TypeExpr} {args : List Expr}
    (h : Vetted needs (Expr.vet (.call function types args) s)) :
    (∃ f, s.program.functions.get? function = some f ∧ f.arity = args.length ∧
        f.typeArity = types.length) ∧
      .function function ∈ needs ∧ vetTypes s types = .ok () ∧ Vetted needs (vetList args s) := by
  obtain ⟨ns, h, hneeds⟩ := h
  rw [Expr.vet] at h
  obtain ⟨callee, hcallee, h₁⟩ := ok_of_bind h
  obtain ⟨_, htypes, h₂⟩ := ok_of_bind h₁
  obtain ⟨as, has, h₃⟩ := ok_of_bind h₂
  cases h₃
  simp only [List.mem_append] at hneeds
  have hrest : Vetted needs (vetList args s) := ⟨as, has, fun n hn => hneeds n (.inr hn)⟩
  unfold Surroundings.vetCallee at hcallee
  split at hcallee
  · next f hf =>
    split at hcallee
    · cases hcallee
    · next harity =>
      split at hcallee
      · cases hcallee
      · next htypeArity =>
        cases hcallee
        exact ⟨⟨f, hf, not_ne_iff.1 harity, not_ne_iff.1 htypeArity⟩,
          hneeds _ (.inl (List.mem_singleton_self _)), htypes, hrest⟩
  · split at hcallee <;> cases hcallee

end Vetted

/-! ### Steps -/

section Steps

variable {α : Type} [Leaf α] {I : Stock → Prop} {E B : Fault → Prop} {w : Pool}
  {names names' names'' : List String} {needs : List Node} {s : Surroundings} {env : Env}
  {env' : TreeEnv α} {β γ : Type} {V : Pool → β → γ → Prop}

/-- A known result is known step by step. -/
theorem Eval.ofExcept_bind {σ δ : Type} (x : Except Fault β) (f : β → Except Fault γ) :
    (Eval.ofExcept (x >>= f) : Eval σ δ γ) = Eval.ofExcept x >>= fun b => Eval.ofExcept (f b) := by
  cases x <;> rfl

variable [DecidableEq α]

/-- Every expression begins with a step. -/
theorem EnvRel.step (h : EnvRel I E B needs s w env env') {x : Run β} {y : TreeRun α γ}
    (hnext : ∀ w', EnvRel I E B needs s w' env env' →
      Sim (Stock.correspondence α I E B) w' names names' V x y) :
    Sim (Stock.correspondence α I E B) w names names' V (Eval.spend env.exhausted 1 >>= fun _ => x)
      (Eval.spend env'.exhausted 1 >>= fun _ => y) := by
  rw [h.exhausted_eq]
  exact (Sim.spend h.shared_exhausted 1).bind fun w' _ _ h' _ => hnext w' (h.mono h')

/-- A question to the pool within the body. -/
theorem EnvRel.ask {w₀ : Pool} (h : EnvRel I E B needs s w₀ env env')
    {question : Pool → Except Fault β} {p : Except Fault γ}
    (hagree : ∀ q, w.Grows α q → q.Sound → Agree Fault.Benign (V q) (question q) p) :
    Sim (Stock.correspondence α I E B) w names names V (Eval.ask question) (Eval.ofExcept p) :=
  Sim.ask h.invariant h.benign hagree

/-- What comes after a truth value depends on it alone. -/
theorem EnvRel.test {w₀ : Pool} (h : EnvRel I E B needs s w₀ env env') (role : Role)
    {x : Run Draft} {y : TreeRun α (Tree α)} {f : Bool → Run β} {g : Bool → TreeRun α γ}
    (hx : Sim (Stock.correspondence α I E B) w names names' (fun w d t => Draft.Means w d t) x y)
    (hnext : ∀ w' b, w.Grows α w' →
      Sim (Stock.correspondence α I E B) w' names' names'' V (f b) (g b)) :
    Sim (Stock.correspondence α I E B) w names names'' V
      (x >>= fun d => Eval.ask (Draft.asBool role d) >>= f)
      (y >>= fun t => Eval.ofExcept (Tree.asBool role t) >>= g) := by
  refine hx.bind fun w₁ d t (h₁ : w.Grows α w₁) hd => ?_
  refine Sim.bind_eq (h.ask fun q hq _ => (hd.mono hq.keeps).asBool role) ?_
  exact fun w₂ b (h₂ : w₁.Grows α w₂) => hnext w₂ b (h₁.trans h₂)

/-- The type arguments of a call are pooled. -/
theorem EnvRel.evalTypes (h : EnvRel I E B needs s w env env') (types : List TypeExpr) :
    Sim (Stock.correspondence α I E B) w names names
      (fun w => List.Forall₂ fun id t => Draft.Means w (.atom (.ref id)) t)
      (ConstPool.evalTypes env types) (Eval.ofExcept (typeTrees env' types)) := by
  induction types generalizing w with
  | nil =>
    rw [ConstPool.evalTypes, typeTrees]
    exact .pure fun _ _ => .nil
  | cons t rest ih =>
    rw [ConstPool.evalTypes, typeTrees, Eval.ofExcept_bind]
    refine Sim.bind (.ofExcept fun w' (hw' : w.Grows α w') =>
      (TypeExpr.agree (h.mono hw') t).imp h.benign fun _ _ hd => hd)
      fun w₁ d u (h₁ : w.Grows α w₁) hd => ?_
    refine Sim.onStock_bind h.invariant (hd.1.internType hd.2) fun w₂ id h₂ hid => ?_
    rw [Eval.ofExcept_bind]
    refine (ih (h.mono (h₁.trans h₂))).bind fun w₃ ids us (h₃ : w₂.Grows α w₃) hids => ?_
    exact .pure fun w₄ (h₄ : w₃.Grows α w₄) =>
      .cons (hid.mono (h₃.trans h₄).keeps) (hids.imp fun _ _ => .mono h₄.keeps)

end Steps

/-! ### Expressions and statements -/

section Syntax

variable {α : Type} [Leaf α] [DecidableEq α] {I : Stock → Prop} {E B : Fault → Prop}
  {needs : List Node} {env : Env} {env' : TreeEnv α}

/-- Runs of parts of a body that correspond at a point with the surroundings `s`. -/
abbrev Described {β γ : Type} (I : Stock → Prop) (E B : Fault → Prop) (s : Surroundings) (w : Pool)
    (V : Pool → β → γ → Prop) (x : Run β) (y : TreeRun α γ) : Prop :=
  Sim (Stock.correspondence α I E B) w s.locals s.locals V x y

mutual

/-- An expression. -/
theorem Expr.described {s : Surroundings} {w : Pool} (h : EnvRel I E B needs s w env env') :
    (e : Expr) → Vetted needs (e.vet s) →
      Described I E B s w (fun w d t => Draft.Means w d t) (e.eval env) (e.evalTree env')
  | .scalar v, _ => by
    rw [Expr.eval, Expr.evalTree]
    exact h.step fun w₁ _ => .pure fun w₂ _ => .scalar v
  | .text content, _ => by
    rw [Expr.eval, Expr.evalTree]
    exact h.step fun w₁ _ => .pure fun w₂ _ => .text content
  | .name name, hvet => by
    rw [Expr.eval, Expr.evalTree]
    obtain ⟨ns, hns, hneeds⟩ := hvet
    exact h.step fun w₁ h => h.lookup hns hneeds
  | .unary op operand, hvet => by
    rw [Expr.eval, Expr.evalTree]
    refine h.step fun w₁ h => ?_
    refine (Expr.described h operand hvet).bind fun w₂ d t _ hd => ?_
    exact h.ask fun q hq _ => (hd.mono hq.keeps).unary op
  | .binary op left right, hvet => by
    rw [Expr.eval, Expr.evalTree]
    obtain ⟨hleft, hright⟩ := hvet.append
    refine h.step fun w₁ h => ?_
    refine (Expr.described h left hleft).bind fun w₂ d t h₂ hd => ?_
    refine (Expr.described (h.mono h₂) right hright).bind fun w₃ e u (h₃ : w₂.Grows α w₃) he => ?_
    exact h.ask fun q hq hsound =>
      (hd.mono (h₃.trans hq).keeps).binary hsound op (he.mono hq.keeps)
  | .and left right, hvet => by
    rw [Expr.eval, Expr.evalTree]
    obtain ⟨hleft, hright⟩ := hvet.append
    refine h.step fun w₁ h => ?_
    refine h.test .leftOfAnd (Expr.described h left hleft) fun w₂ b h₂ => ?_
    cases b
    · exact .pure fun _ _ => .scalar _
    · exact h.test .rightOfAnd (Expr.described (h.mono h₂) right hright) fun w₃ b _ =>
        .pure fun _ _ => .scalar _
  | .or left right, hvet => by
    rw [Expr.eval, Expr.evalTree]
    obtain ⟨hleft, hright⟩ := hvet.append
    refine h.step fun w₁ h => ?_
    refine h.test .leftOfOr (Expr.described h left hleft) fun w₂ b h₂ => ?_
    cases b
    · exact h.test .rightOfOr (Expr.described (h.mono h₂) right hright) fun w₃ b _ =>
        .pure fun _ _ => .scalar _
    · exact .pure fun _ _ => .scalar _
  | .ifNull left right, hvet => by
    rw [Expr.eval, Expr.evalTree]
    obtain ⟨hleft, hright⟩ := hvet.append
    refine h.step fun w₁ h => ?_
    refine (Expr.described h left hleft).bind fun w₂ d t h₂ hd => ?_
    have hkeep : Described I E B s w₂ (fun w d t => Draft.Means w d t)
        (pure d : Run Draft) (pure t : TreeRun α (Tree α)) :=
      .pure fun _ (h₃ : w₂.Grows α _) => hd.mono h₃.keeps
    rw [← hd.scalar?]
    -- only null goes on to the right operand
    rcases d with ⟨(_ | b | i | x) | id⟩ | l
    all_goals first
      | exact hkeep
      | exact Expr.described (h.mono h₂) right hright
  | .cond condition onTrue onFalse, hvet => by
    rw [Expr.eval, Expr.evalTree]
    obtain ⟨hcondition, htrue, hfalse⟩ := hvet.append₃
    refine h.step fun w₁ h => ?_
    refine h.test .condition (Expr.described h condition hcondition) fun w₂ b h₂ => ?_
    cases b
    · exact Expr.described (h.mono h₂) onFalse hfalse
    · exact Expr.described (h.mono h₂) onTrue htrue
  | .block body result, hvet => by
    rw [Expr.eval, Expr.evalTree]
    obtain ⟨hbody, hresult⟩ := hvet.append
    refine h.step fun w₁ h => ?_
    -- the result stands in the scope of the block, with all that its statements declare
    have hpart : Sim (Stock.correspondence α I E B) w₁ s.locals (s.afterAll body).locals
        (fun w d t => Draft.Means w d t) (do execBody env body; result.eval env)
        (do execTreeBody env' body; result.evalTree env') :=
      (bodyDescribed h body hbody).bind fun w₂ _ _ h₂ _ =>
        Expr.described ((h.mono h₂).afterAll body) result hresult
    exact hpart.inScope .empty fun _ hname => .inl hname
  | .list items, hvet => by
    rw [Expr.eval, Expr.evalTree]
    refine h.step fun w₁ h => ?_
    refine (itemsDescribed h items hvet .nil).bind fun w₂ ds ts _ hds => ?_
    exact .pure fun _ (h₃ : w₂.Grows α _) => .list (hds.imp fun _ _ => .mono h₃.keeps)
  | .map entries, hvet => by
    rw [Expr.eval, Expr.evalTree]
    refine h.step fun w₁ h => ?_
    refine (entriesDescribed h entries hvet .nil).bind fun w₂ ds ts _ hds => ?_
    exact .pure fun _ (h₃ : w₂.Grows α _) => .of_fresh trivial (.map (hds.imp fun _ _ he =>
      ⟨he.1.mono h₃.keeps, he.2.mono h₃.keeps⟩))
  | .object className fields, hvet => by
    rw [Expr.eval, Expr.evalTree, h.analysis]
    have hfields : Vetted needs (vetFields fields s) := hvet.after_check
    refine h.step fun w₁ h => ?_
    cases env.analysis.types.get? className with
    | none => exact .raise (h.benign _ rfl)
    | some t =>
      refine (fieldsDescribed h t className fields hfields .empty).bind fun w₂ ds ts _ hds => ?_
      have hcomplete : Described I E B s w₂
          (fun w fs fs' => (fs.map Prod.fst).Nodup ∧
            List.Forall₂ (fun e e' => e.1 = e'.1 ∧ Draft.Means w e.2 e'.2) fs fs')
          (Eval.ofExcept (t.complete className ds))
          (Eval.ofExcept (t.complete className ts) : TreeRun α (List (String × Tree α))) := by
        refine .ofExcept fun w₃ (h₃ : w₂.Grows α w₃) => ?_
        have hgiven : FieldsRel (Draft.Means w₃) ds ts := hds.imp fun _ _ => .mono h₃.keeps
        exact (hgiven.complete t className).imp h.benign fun _ _ he => he
      refine hcomplete.bind fun w₃ fs fs' _ hfs => ?_
      exact .pure fun _ (h₄ : w₃.Grows α _) => .object className hfs.1
        (hfs.2.imp fun _ _ he => ⟨he.1, he.2.mono h₄.keeps⟩)
  | .collect binder source none item, hvet => by
    rw [Expr.eval, Expr.evalTree]
    obtain ⟨hsource, hitem⟩ := hvet.append
    refine h.step fun w₁ h => ?_
    refine (Expr.described h source hsource).bind fun w₂ d t h₂ hd => ?_
    refine Sim.bind (h.ask fun q hq _ => (hd.mono hq.keeps).elements) fun w₃ ds ts h₃ hds => ?_
    have hpiece : Described I E B (s.declare binder) w₃ (fun w => Option.Rel (Draft.Means w))
        (do return some (← item.eval env)) (do return some (← item.evalTree env')) :=
      (Expr.described (((h.mono h₂).mono h₃).declare binder) item hitem).bind
        fun w₄ d t _ hd => .pure fun _ (h₅ : w₄.Grows α _) => .some (hd.mono h₅.keeps)
    rw [h.exhausted_eq]
    refine (Sim.collect h.shared_exhausted hpiece hds .nil).bind fun w₄ ds ts _ hds => ?_
    exact .pure fun _ (h₅ : w₄.Grows α _) => .list (hds.imp fun _ _ => .mono h₅.keeps)
  | .collect binder source (some filter) item, hvet => by
    rw [Expr.eval, Expr.evalTree]
    obtain ⟨hsource, hfilter, hitem⟩ := hvet.append₃
    refine h.step fun w₁ h => ?_
    refine (Expr.described h source hsource).bind fun w₂ d t h₂ hd => ?_
    refine Sim.bind (h.ask fun q hq _ => (hd.mono hq.keeps).elements) fun w₃ ds ts h₃ hds => ?_
    have h' := ((h.mono h₂).mono h₃).declare binder
    have hpiece : Described I E B (s.declare binder) w₃ (fun w => Option.Rel (Draft.Means w))
        (do
          if ← Eval.ask (Draft.asBool .filter (← filter.eval env)) then
            return some (← item.eval env)
          else return none)
        (do
          if ← Eval.ofExcept (Tree.asBool .filter (← filter.evalTree env')) then
            return some (← item.evalTree env')
          else return none) := by
      refine h.test .filter (Expr.described h' filter hfilter) fun w₄ b h₄ => ?_
      cases b
      · exact .pure fun _ _ => .none
      · exact (Expr.described (h'.mono h₄) item hitem).bind fun w₅ d t _ hd =>
          .pure fun _ (h₆ : w₅.Grows α _) => .some (hd.mono h₆.keeps)
    rw [h.exhausted_eq]
    refine (Sim.collect h.shared_exhausted hpiece hds .nil).bind fun w₄ ds ts _ hds => ?_
    exact .pure fun _ (h₅ : w₄.Grows α _) => .list (hds.imp fun _ _ => .mono h₅.keeps)
  | .range start stop, hvet => by
    rw [Expr.eval, Expr.evalTree]
    obtain ⟨hstart, hstop⟩ := hvet.append
    refine h.step fun w₁ h => ?_
    refine (Expr.described h start hstart).bind fun w₂ d t h₂ hd => ?_
    refine Sim.bind_eq (h.ask fun q hq _ => (hd.mono hq.keeps).asInt .rangeStart)
      fun w₃ a h₃ => ?_
    have h' := (h.mono h₂).mono h₃
    refine (Expr.described h' stop hstop).bind fun w₄ e u h₄ he => ?_
    refine Sim.bind_eq (h.ask fun q hq _ => (he.mono hq.keeps).asInt .rangeStop)
      fun w₅ b h₅ => ?_
    exact ((h'.mono h₄).mono h₅).range a b
  | .index target position, hvet => by
    rw [Expr.eval, Expr.evalTree]
    obtain ⟨htarget, hposition⟩ := hvet.append
    refine h.step fun w₁ h => ?_
    refine (Expr.described h target htarget).bind fun w₂ d t h₂ hd => ?_
    refine (Expr.described (h.mono h₂) position hposition).bind
      fun w₃ e u (h₃ : w₂.Grows α w₃) he => ?_
    exact h.ask fun q hq hsound =>
      (hd.mono (h₃.trans hq).keeps).index hsound (he.mono hq.keeps)
  | .field target name, hvet => by
    rw [Expr.eval, Expr.evalTree]
    refine h.step fun w₁ h => ?_
    refine (Expr.described h target hvet).bind fun w₂ d t _ hd => ?_
    exact h.ask fun q hq _ => (hd.mono hq.keeps).member name
  | .type t, _ => by
    rw [Expr.eval, Expr.evalTree]
    refine h.step fun w₁ h => .ofExcept fun w₂ h₂ => ?_
    exact (TypeExpr.agree (h.mono h₂) t).imp h.benign fun _ _ hd => hd.1
  | .query q t, _ => by
    rw [Expr.eval, Expr.evalTree]
    refine h.step fun w₁ h => ?_
    refine Sim.bind (.ofExcept fun w₂ h₂ =>
      (TypeExpr.agree (h.mono h₂) t).imp h.benign fun _ _ hd => hd) fun w₂ d u h₂ hd => ?_
    exact h.ask fun p hp hsound =>
      ((h.mono h₂).mono hp).queryType hsound q (hd.1.mono hp.keeps)
  | .throw message, hvet => by
    rw [Expr.eval, Expr.evalTree, h.owner]
    refine h.step fun w₁ h => ?_
    refine (Expr.described h message hvet).bind fun w₂ d t _ hd => ?_
    have hmessage : Described I E B s w₂ (fun _ b c => b = c)
        (Eval.ask fun pool => d.message pool) (pure t.message : TreeRun α String) :=
      .ask_ok h.invariant h.benign fun q hq hsound => ⟨_, (hd.mono hq.keeps).message hsound, rfl⟩
    rw [← pure_bind t.message fun text => Eval.raise (.runtime (.thrown env.owner text))]
    exact hmessage.bind_eq fun w₃ text _ => .raise (h.benign _ rfl)
  | .call function types args, hvet => by
    rw [Expr.eval, Expr.evalTree, h.analysis, h.owner]
    obtain ⟨⟨f, hf, -, -⟩, hneeds, -, hargs⟩ := hvet.of_call
    rw [h.program] at hf
    -- vetting has found the function, so the call comes down to one request
    have hcallee : env.analysis.callee env.owner function = .ok f := by
      rw [Analysis.callee, hf]
    have hnode : .function f.qualifiedName ∈ needs := by
      rwa [h.named hf]
    have hdeclared : env.analysis.program.functions.get? f.qualifiedName = some f := by
      rwa [h.named hf]
    rw [hcallee]
    refine h.step fun w₁ h => ?_
    refine (h.evalTypes types).bind fun w₂ ids us h₂ hids => ?_
    refine (argsDescribed (h.mono h₂) args hargs).bind fun w₃ as ts (h₃ : w₂.Grows α w₃) has => ?_
    exact ((h.mono h₂).mono h₃).fetch hnode hdeclared
      (.call f (hids.imp fun _ _ => .mono h₃.keeps) has)
  | .method _ name _ _, _ => by
    rw [Expr.eval, Expr.evalTree]
    exact h.step fun w₁ _ => .raise (h.benign _ rfl)
  | .tearOff function, _ => by
    rw [Expr.eval, Expr.evalTree]
    exact h.step fun w₁ _ => .raise (h.benign _ rfl)

/-- A list of expressions. -/
theorem itemsDescribed {s : Surroundings} {w : Pool} (h : EnvRel I E B needs s w env env') :
    (items : List Expr) → Vetted needs (vetList items s) → {done : Array Draft} →
      {done' : Array (Tree α)} → List.Forall₂ (Draft.Means w) done.toList done'.toList →
        Described I E B s w (fun w ds ts => List.Forall₂ (Draft.Means w) ds.toList ts.toList)
          (evalItems env items done) (evalTreeItems env' items done')
  | [], _, _, _, hdone => by
    rw [evalItems, evalTreeItems]
    exact .pure fun _ (h₁ : w.Grows α _) => hdone.imp fun _ _ => .mono h₁.keeps
  | item :: rest, hvet, _, _, hdone => by
    rw [evalItems, evalTreeItems]
    obtain ⟨hitem, hrest⟩ := hvet.append
    refine (Expr.described h item hitem).bind fun w₁ d t (h₁ : w.Grows α w₁) hd => ?_
    refine itemsDescribed (h.mono h₁) rest hrest ?_
    rw [Array.toList_push, Array.toList_push]
    exact List.rel_append (hdone.imp fun _ _ => .mono h₁.keeps) (.cons hd .nil)

/-- The entries of a map. -/
theorem entriesDescribed {s : Surroundings} {w : Pool} (h : EnvRel I E B needs s w env env') :
    (entries : List (Expr × Expr)) → Vetted needs (vetEntries entries s) →
      {done : Array (Draft × Draft)} → {done' : Array (Tree α × Tree α)} →
      List.Forall₂ (fun e e' => Draft.Means w e.1 e'.1 ∧ Draft.Means w e.2 e'.2) done.toList
          done'.toList →
        Described I E B s w
          (fun w ds ts => List.Forall₂
            (fun e e' => Draft.Means w e.1 e'.1 ∧ Draft.Means w e.2 e'.2) ds.toList ts.toList)
          (evalEntries env entries done) (evalTreeEntries env' entries done')
  | [], _, _, _, hdone => by
    rw [evalEntries, evalTreeEntries]
    exact .pure fun _ (h₁ : w.Grows α _) => hdone.imp fun _ _ he =>
      ⟨he.1.mono h₁.keeps, he.2.mono h₁.keeps⟩
  | (key, value) :: rest, hvet, _, _, hdone => by
    rw [evalEntries, evalTreeEntries]
    obtain ⟨hkey, hvalue, hrest⟩ := hvet.append₃
    refine (Expr.described h key hkey).bind fun w₁ k t (h₁ : w.Grows α w₁) hk => ?_
    refine (Expr.described (h.mono h₁) value hvalue).bind
      fun w₂ v u (h₂ : w₁.Grows α w₂) hv => ?_
    have hgiven := hdone.imp fun _ _ he =>
      And.intro (he.1.mono (h₁.trans h₂).keeps) (he.2.mono (h₁.trans h₂).keeps)
    refine Sim.bind_eq (h.ask fun q hq hsound =>
      (hk.mono (h₂.trans hq).keeps).ensureNewKey hsound (hgiven.imp fun _ _ he =>
        ⟨he.1.mono hq.keeps, he.2.mono hq.keeps⟩)) fun w₃ _ (h₃ : w₂.Grows α w₃) => ?_
    refine entriesDescribed (((h.mono h₁).mono h₂).mono h₃) rest hrest ?_
    rw [Array.toList_push, Array.toList_push]
    refine List.rel_append (hgiven.imp fun _ _ he => ⟨he.1.mono h₃.keeps, he.2.mono h₃.keeps⟩) ?_
    exact .cons ⟨hk.mono (h₂.trans h₃).keeps, hv.mono h₃.keeps⟩ .nil

/-- The fields of an object. -/
theorem fieldsDescribed {s : Surroundings} {w : Pool} (h : EnvRel I E B needs s w env env')
    (t : TypeDecl) (className : String) :
    (fields : List (String × Expr)) → Vetted needs (vetFields fields s) →
      {done : OrderedMap String Draft} → {done' : OrderedMap String (Tree α)} →
      FieldsRel (Draft.Means w) done done' →
        Described I E B s w (fun w => FieldsRel (Draft.Means w))
          (evalFields env t className fields done) (evalTreeFields env' t className fields done')
  | [], _, _, _, hdone => by
    rw [evalFields, evalTreeFields]
    exact .pure fun _ (h₁ : w.Grows α _) => hdone.imp fun _ _ => .mono h₁.keeps
  | (name, value) :: rest, hvet, done, done', hdone => by
    rw [evalFields, evalTreeFields, ← hdone.ensureNewField_eq]
    obtain ⟨hvalue, hrest⟩ := hvet.append
    rcases hnew : t.ensureNewField className name done with f | _
    · exact .raise (h.benign _ (FieldsRel.benign_of_ensureNewField hnew))
    · refine (Expr.described h value hvalue).bind fun w₁ d u (h₁ : w.Grows α w₁) hd => ?_
      refine fieldsDescribed (h.mono h₁) t className rest hrest ?_
      exact (hdone.imp fun _ _ => .mono h₁.keeps).insert (FieldsRel.new_of_ensureNewField hnew) hd

/-- The arguments of a call are pooled. -/
theorem argsDescribed {s : Surroundings} {w : Pool} (h : EnvRel I E B needs s w env env') :
    (args : List Expr) → Vetted needs (vetList args s) →
      Described I E B s w (fun w => List.Forall₂ fun a t => Draft.Means w (.atom a) t)
        (evalArgs env args) (evalTreeArgs env' args)
  | [], _ => by
    rw [evalArgs, evalTreeArgs]
    exact .pure fun _ _ => .nil
  | arg :: rest, hvet => by
    rw [evalArgs, evalTreeArgs]
    obtain ⟨harg, hrest⟩ := hvet.append
    refine (Expr.described h arg harg).bind fun w₁ d t h₁ hd => ?_
    refine Sim.onStock_bind h.invariant hd.intern fun w₂ a h₂ ha => ?_
    refine (argsDescribed ((h.mono h₁).mono h₂) rest hrest).bind
      fun w₃ as ts (h₃ : w₂.Grows α w₃) has => ?_
    exact .pure fun _ (h₄ : w₃.Grows α _) =>
      .cons (ha.1.mono (h₃.trans h₄).keeps) (has.imp fun _ _ => .mono h₄.keeps)

/-- A statement. -/
theorem Stmt.described {s : Surroundings} {w : Pool} (h : EnvRel I E B needs s w env env') :
    (stmt : Stmt) → Vetted needs (stmt.vet s) →
      Sim (Stock.correspondence α I E B) w s.locals (s.after stmt).locals (fun _ _ _ => True)
        (stmt.exec env) (stmt.execTree env')
  | .declare name value, hvet => by
    rw [Stmt.exec, Stmt.execTree]
    refine (Expr.described h value hvet).bind fun w₁ d t _ hd => ?_
    exact Sim.declare name hd
  | .assign name value, hvet => by
    rw [Stmt.exec, Stmt.execTree]
    have hvalue : Vetted needs (value.vet s) := hvet.after_check
    have hshared : E (.unresolved name .undeclaredAssignment) := h.benign _ rfl
    refine (Expr.described h value hvalue).bind fun w₁ d t _ hd => ?_
    exact Sim.assign name hd hshared
  | .evaluate e, hvet => by
    rw [Stmt.exec, Stmt.execTree]
    exact (Expr.described h e hvet).bind fun w₁ _ _ _ _ => .pure fun _ _ => trivial
  | .branch condition onTrue onFalse, hvet => by
    rw [Stmt.exec, Stmt.execTree]
    obtain ⟨hcondition, htrue, hfalse⟩ := hvet.append₃
    refine h.test .condition (Expr.described h condition hcondition) fun w₁ b h₁ => ?_
    cases b
    · exact (bodyDescribed (h.mono h₁) onFalse hfalse).inScope .empty fun _ hname => .inl hname
    · exact (bodyDescribed (h.mono h₁) onTrue htrue).inScope .empty fun _ hname => .inl hname
  | .loop condition body, hvet => by
    rw [Stmt.exec, Stmt.execTree, h.exhausted_eq]
    obtain ⟨hcondition, hbody⟩ := hvet.append
    have htest : Described I E B s w (fun _ b c => b = c)
        (do Eval.ask (Draft.asBool .loopCondition (← condition.eval env)))
        (do Eval.ofExcept (Tree.asBool .loopCondition (← condition.evalTree env'))) :=
      (Expr.described h condition hcondition).bind fun w₁ d t _ hd =>
        h.ask fun q hq _ => (hd.mono hq.keeps).asBool .loopCondition
    have hround := bodyDescribed h.enterLoop body hbody
    refine Sim.get_bind fun m n hn => ?_
    rw [← hn.left]
    exact Sim.loop h.shared_exhausted htest hround m.left m n hn
  | .forEach binder source body, hvet => by
    rw [Stmt.exec, Stmt.execTree, h.exhausted_eq]
    obtain ⟨hsource, hbody⟩ := hvet.append
    refine (Expr.described h source hsource).bind fun w₁ d t h₁ hd => ?_
    refine Sim.bind (h.ask fun q hq _ => (hd.mono hq.keeps).elements) fun w₂ ds ts h₂ hds => ?_
    have h' := (((h.mono h₁).mono h₂).enterLoop).declare binder
    exact Sim.forEach h.shared_exhausted (bodyDescribed h' body hbody) hds
  | .leaveLoop, _ => by
    rw [Stmt.exec, Stmt.execTree]
    exact .stop fun _ _ => .leaveLoop
  | .nextRound, _ => by
    rw [Stmt.exec, Stmt.execTree]
    exact .stop fun _ _ => .nextRound
  | .giveBack value, hvet => by
    rw [Stmt.exec, Stmt.execTree]
    refine (Expr.described h value hvet).bind fun w₁ d t _ hd => ?_
    exact .stop fun _ (h₂ : w₁.Grows α _) => .result (hd.mono h₂.keeps)

/-- Statements one after another. -/
theorem bodyDescribed {s : Surroundings} {w : Pool} (h : EnvRel I E B needs s w env env') :
    (body : List Stmt) → Vetted needs (vetBody body s) →
      Sim (Stock.correspondence α I E B) w s.locals (s.afterAll body).locals (fun _ _ _ => True)
        (execBody env body) (execTreeBody env' body)
  | [], _ => by
    rw [execBody, execTreeBody]
    exact .pure fun _ _ => trivial
  | stmt :: rest, hvet => by
    rw [execBody, execTreeBody]
    obtain ⟨hstmt, hrest⟩ := hvet.append
    refine (Stmt.described h stmt hstmt).bind fun w₁ _ _ h₁ _ => ?_
    exact bodyDescribed ((h.mono h₁).after stmt) rest hrest

end

end Syntax

/-! ### Computations on the stock -/

/-- How a computation on the stock that began with `s` compares to a known result: the stock has
grown and is still in order, and the results correspond, unless a fault is excused. -/
inductive Work.Ends {β γ : Type} (α : Type) [Leaf α] (I : Stock → Prop) (E B : Fault → Prop)
    (V : Pool → β → γ → Prop) (s : Stock) : EStateM.Result Fault Stock β → Except Fault γ → Prop
  | ok {b : β} {c : γ} {s' : Stock} : s.pool.Grows α s'.pool → I s' → V s'.pool b c →
    Work.Ends α I E B V s (.ok b s') (.ok c)
  | error {f : Fault} {s' : Stock} : s.pool.Grows α s'.pool → I s' → E f →
    Work.Ends α I E B V s (.error f s') (.error f)
  | excused {f : Fault} {s' : Stock} {r : Except Fault γ} : s.pool.Grows α s'.pool → I s' → B f →
    Work.Ends α I E B V s (.error f s') r

/-- How a computation ends, in terms of its outcome. -/
theorem Work.ends_iff {β γ : Type} {α : Type} [Leaf α] {I : Stock → Prop} {E B : Fault → Prop}
    {V : Pool → β → γ → Prop} {s : Stock} {work : Work β} {p : Except Fault γ} :
    Work.Ends α I E B V s (work s) p ↔
      s.pool.Grows α (work.outcome s).2.pool ∧ I (work.outcome s).2 ∧
        (Agree E (V (work.outcome s).2.pool) (work.outcome s).1 p ∨
          ∃ f, B f ∧ (work.outcome s).1 = .error f) := by
  unfold Work.outcome
  generalize work s = x
  constructor
  · intro h
    cases h with
    | ok hgrows hholds hV => exact ⟨hgrows, hholds, .inl (.ok hV)⟩
    | error hgrows hholds hf => exact ⟨hgrows, hholds, .inl (.error hf)⟩
    | excused hgrows hholds hf => exact ⟨hgrows, hholds, .inr ⟨_, hf, rfl⟩⟩
  · rintro ⟨hgrows, hholds, hagree | ⟨f, hf, heq⟩⟩
    · cases x with
      | ok b s' =>
        cases hagree with
        | ok hV => exact .ok hgrows hholds hV
      | error f s' =>
        cases hagree with
        | error hf => exact .error hgrows hholds hf
    · cases x with
      | ok b s' => cases heq
      | error f' s' =>
        cases heq
        exact .excused hgrows hholds hf

section Whole

variable {α : Type} [Leaf α] {I : Stock → Prop} {E B : Fault → Prop} {w : Pool}

/-- A computation on the stock as a step of a body. -/
theorem Sim.onStock {β γ : Type} {V : Pool → β → γ → Prop} {names : List String} {work : Work β}
    {p : Except Fault γ}
    (h : ∀ s : Stock, w.Grows α s.pool → I s → Work.Ends α I E B V s (work s) p) :
    Sim (Stock.correspondence α I E B) w names names V (Eval.onStock work)
      (Eval.ofExcept p) := by
  rintro ⟨stock, scopes, left⟩ n hn
  have hends := h stock hn.later hn.holds
  have hafter : ∀ {s : Stock}, stock.pool.Grows α s.pool → I s →
      After (Stock.correspondence α I E B) ⟨stock, scopes, left⟩ ⟨s, scopes, left⟩ n :=
    fun hgrows hholds => ⟨hgrows, hholds, hn.scopes.imp fun _ _ hd =>
      hd.imp fun _ _ => .mono hgrows.keeps, hn.left, .refl _⟩
  simp only [Eval.onStock]
  generalize work stock = r at hends ⊢
  cases hends with
  | ok hgrows hholds hV => exact .ok (hafter hgrows hholds) hn.binds hV
  | error hgrows hholds hf => exact .stop (hafter hgrows hholds) (.fault hf)
  | excused hgrows hholds hf => exact .excused (u := ()) hgrows hholds hf

/-- The atom with which a body ends is handed in: a scalar becomes a constant of its own, and
anything else is in the pool already. -/
theorem Draft.Means.internAtom {pool : Pool} {x : Atom} {t : Tree α}
    (h : Draft.Means pool (.atom x) t) :
    (∃ v id q, pool.internAtom x = (.ok id, q) ∧ Pool.Interned pool q (.scalar v) id ∧
        t.settled = .leaf (Leaf.inPlace v)) ∨
      ∃ id, pool.internAtom x = (.ok id, pool) ∧ pool.Denotes id t.settled := by
  cases x with
  | scalar v =>
    have hknown : ∀ child ∈ (Value.scalar v).children, child.index < pool.size := by
      simp [Value.children]
    obtain ⟨id, q, hintern, hq⟩ := Pool.intern_of_known hknown
    refine .inl ⟨v, id, q, hintern, hq, ?_⟩
    rw [scalar_iff.1 h, Tree.settled, Leaf.content_inPlace, Tree.scalar]
  | ref id =>
    obtain ⟨value, hvalue⟩ := Option.isSome_iff_exists.1 (Pool.get?_isSome_iff.2 h.known)
    refine .inr ⟨id, ?_, ?_⟩
    · simp only [Pool.internAtom, Pool.get_eq_ok_iff.2 hvalue, Except.map]
    · rcases h.of_ref with ⟨v, a, hscalar, ha, rfl⟩ | ⟨l, m, hshape, -, rfl⟩
      · rw [Tree.settled, (Leaf.byReference_eq_iff.1 ha).2]
        exact .of_scalar hscalar
      · exact .of_shape hshape h

/-- The constant with which a body ends is pooled, and a scalar is held in place from then on. What
is new is this constant and its nodes. -/
theorem Draft.Means.settles {P : Tree α → Prop} {d : Draft} {t : Tree α} (h : Draft.Means w d t)
    (hP : ∀ u : Tree α, u.Within t → P u) (hsettled : P t.settled) :
    Work.Adds P w (do
        let atom ← d.intern
        Work.onPool (Pool.internAtom atom) : Work ValueId)
      fun q id => q.Denotes id t.settled := by
  refine .bind (h.pools hP) fun q a hq ha s hs hsound => ?_
  obtain ⟨pool, uses, memo⟩ := s
  rcases (ha.1.mono hs).internAtom with ⟨v, id, p, hintern, hp, hleaf⟩ | ⟨id, hintern, hid⟩
  · rw [hleaf] at hsettled ⊢
    refine ⟨id, ⟨p, uses, memo⟩, ?_, ⟨.of_interned_scalar hp hsettled, hp.sound hsound, rfl⟩,
      .of_scalar hp.get⟩
    simp only [Work.onPool, hintern]
  · refine ⟨id, ⟨pool, uses, memo⟩, ?_, .refl hsound, hid⟩
    simp only [Work.onPool, hintern]

/-- The constant with which a body ends is pooled, and a scalar is held in place from then on. -/
theorem Draft.Means.settle {d : Draft} {t : Tree α} (h : Draft.Means w d t) :
    Work.Yields α w (do
        let atom ← d.intern
        Work.onPool (Pool.internAtom atom) : Work ValueId)
      fun q id => q.Denotes id t.settled := h.settles (fun _ _ => trivial) trivial

variable [DecidableEq α] {needs : List Node} {s : Surroundings} {env : Env} {env' : TreeEnv α}

/-- A whole body. -/
theorem EnvRel.run (h : EnvRel I E B needs s w env env') (hlocals : s.locals = []) {body : Expr}
    (hvet : Vetted needs (body.vet s)) {stock : Stock} (hstock : I stock)
    (hlater : w.Grows α stock.pool) :
    Work.Ends α I E B Pool.Denotes stock (env.run body stock) (env'.run body) := by
  have hnear : Near (Stock.correspondence α I E B) w s.locals
      ⟨stock, [.empty], env.analysis.settings.stepBudget⟩
      ⟨(), [.empty], env'.analysis.settings.stepBudget⟩ := by
    refine ⟨hlater, hstock, .cons .empty .nil, ?_, List.cons_ne_nil _ _, ?_⟩
    · rw [h.analysis]
    · rw [hlocals]
      rintro _ ⟨⟩
  have hends := Expr.described h body hvet _ _ hnear
  have hjump : E (.impure (.jumpOutOfBody env.owner)) := h.benign _ rfl
  -- what is left is to pool the value, which both ways of ending come to
  have hvalue : ∀ {d : Draft} {t : Tree α} {s' : Stock}, stock.pool.Grows α s'.pool → I s' →
      Draft.Means s'.pool d t → Work.Ends α I E B Pool.Denotes stock
        ((do
          let atom ← d.intern
          Work.onPool (Pool.internAtom atom) : Work ValueId) s') (.ok t.settled) := by
    intro d t s' hgrows hholds hd
    obtain ⟨id, s'', hrun, hgrows', hid⟩ := hd.settle s' (.refl _) (h.invariant.sound hholds)
    rw [hrun]
    exact .ok (hgrows.trans hgrows'.pool) (h.invariant.grows hholds hgrows') hid
  unfold Env.run Env.finish TreeEnv.run
  rw [h.owner]
  generalize body.eval env _ = r at hends ⊢
  generalize body.evalTree env' _ = r' at hends ⊢
  cases hends with
  | ok hafter _ hd => exact hvalue hafter.later hafter.holds hd
  | stop hafter hs =>
    cases hs with
    | result hd => exact hvalue hafter.later hafter.holds hd
    | leaveLoop => exact .error hafter.later hafter.holds hjump
    | nextRound => exact .error hafter.later hafter.holds hjump
    | fault hf => exact .error hafter.later hafter.holds hf
  | excused hle hholds hf => exact .excused hle hholds hf

end Whole

end ConstPool
