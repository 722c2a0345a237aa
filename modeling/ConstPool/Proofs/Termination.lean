import Mathlib
import ConstPool.Proofs.Course.Resolve

/-!
# Evaluation comes to its end

A body runs to its end in every program, whether or not declarations need themselves. No bound has
to be added to the rules for this: the steps of each body are counted against the budget, and a body
is nested in another one only as long as the chain is short enough. What takes no step goes down to
the parts of constants, and these are well-founded.

There is one budget for which this fails. Steps are counted with 64 bits, and a body is stopped when
its counter shows more than the budget. If the budget is the greatest number of 64 bits, no counter
ever shows more: after that number it begins again with zero. Then a loop whose condition always
holds and which is never left goes on forever, although the settings are in order. So the result
about all programs asks for a smaller budget, and it is sharp in this.

What is said of bodies is said about the rules for courses, in which nothing is bounded beforehand.
That a body comes to its end is the existence of a course, that it does not is that there is none,
and the courses that there are go as the machine runs, with its steps counted down and its calls
counted off.

* `Pool.Descends`: what the recursions that take no step come to in a pool.
* `Analysis.runIn_terminates`: every body at the head of a chain comes to its end, if the budget is
  not the greatest one.
* `Course.Yields`, `Course.Endless`: parts of a body that come to one value, and parts that come to
  no end.
* `Analysis.not_courses_of_maximal`: with the greatest budget there is a body that comes to no end.
-/

namespace ConstPool

/-! ### Pools -/

/-- A pool that a sound pool keeps is sound. -/
theorem Pool.Sound.of_keeps {p q : Pool} (h : q.Sound) (hkeeps : p.Keeps q) : p.Sound where
  unique hi hj := h.unique (hkeeps _ _ hi) (hkeeps _ _ hj)
  smaller hv := h.smaller (hkeeps _ _ hv)

/-- The recursions that take no step come to their end in a pool: opening drafts leads down, and
what a draft with a shape is shown as, whether it is the same as another one and what it is pooled
as depends on what this comes to for the parts. -/
structure Pool.Descends (pool : Pool) : Prop where
  wellFounded : WellFounded (Draft.PartIn pool)
  describe : ∀ {d : Draft} {layer}, d.shape? pool = .ok (some layer) →
    d.describe pool = (do
      return (← layer.traverseParts (Draft.describe pool) (Draft.describe pool)).render)
  same : ∀ {d e : Draft} {t u : Tree Scalar} {l m}, Draft.Means pool d t → Draft.Means pool e u →
    d.shape? pool = .ok (some l) → e.shape? pool = .ok (some m) →
      d.same pool e = l.agree (Draft.same pool) m
  intern : ∀ layer, (Draft.fresh layer).intern = (do
    internLayer (← layer.traverseParts Draft.intern Draft.internType))

/-- In a sound pool the parts of a constant are older than the constant. -/
theorem Pool.Sound.descends {pool : Pool} (h : pool.Sound) : pool.Descends where
  wellFounded := h.wellFounded
  describe := Draft.describe_of_shape? h
  same hd he hl hm := Draft.same_of_shape? h hd he hl hm
  intern := Draft.intern_fresh

/-! ### Bodies -/

namespace Analysis

/-- Every body at the head of a chain comes to its end, and in one way only, which is the way it is
run with bounds on loops, ranges and calls. No body takes more steps than the budget has and one
more, and the bodies that are nested in it are never more than the settings allow. Constants are
shown, compared and pooled in pools in which this comes to its end, and so it is for making a value
of a type expression. -/
theorem runIn_terminates (a : Analysis) (hbudget : a.settings.stepBudget + 1 < UInt64.size)
    (chain : Chain) (params : Dict String Atom) (body : Expr) {stock : Stock}
    (hsound : stock.pool.Sound)
    (hrunning : ∀ key, stock.memo.cells.get? key = some .running →
      chain.contains key.name = true) :
    (∃ x, a.Courses chain params body stock x) ∧
      (∀ x, a.Courses chain params body stock x →
        (a.runIn chain params body).outcome stock = (x.outcome, x.stock) ∧
          (∀ e ∈ x.ended, e.ticks ≤ a.settings.stepBudget + 1 ∧
            ∃ n ≤ a.settings.maxCallDepth, chain.Nests n e.chain) ∧
          ∀ pool : Pool, pool.Keeps x.stock.pool → pool.Descends) ∧
      WellFounded TypeExpr.ArgOf ∧
      ∀ env name args, (TypeExpr.named name args).draft env =
        if isKnownType env.analysis.types name then do
          return .type name (← args.mapM fun t => t.draft env)
        else .error (.unresolved name .noSuchType) := by
  obtain ⟨hgoes, hends⟩ := a.courses_runIn hbudget chain params body ⟨hsound, hrunning⟩
  refine ⟨hgoes, fun x hx => ?_, TypeExpr.wellFounded_argOf, TypeExpr.draft_named⟩
  obtain ⟨heq, hengaged, hended⟩ := hends x hx
  refine ⟨heq, fun e he => ?_, fun pool hkeeps => (hengaged.sound.of_keeps hkeeps).descends⟩
  rcases hended e he with hwithin | ⟨rfl, hticks⟩
  · obtain ⟨name, n, hnests, hdepth⟩ := hwithin.nested
    have hlonger : (Chain.extend (some chain) name).depth = chain.depth + 1 := rfl
    exact ⟨hwithin.ticks, n + 1, by omega, hnests.outward⟩
  · exact ⟨hticks, 0, Nat.zero_le _, .self⟩

/-- The function that never comes to its end by itself. -/
def spin : FunctionDecl where
  name := "spin"
  params := []
  body := .block [.loop (.scalar (.bool true)) []] (.scalar .null)
  placement := .topLevel

/-- The function that needs itself. -/
def again : FunctionDecl where
  name := "again"
  params := []
  body := .call "again" [] []
  placement := .topLevel

/-- A program with a loop that goes on forever and a function that needs itself, of which bodies may
take eight steps and two may be nested. -/
def restless : Analysis :=
  .build (.declareAll {} [.function spin, .function again]) .empty
    { stepBudget := 8, maxCallDepth := 2 }

/-- The body that makes a list of the last integers and then spins. -/
def countThenSpin : Expr :=
  .block
    [.declare "last" (.range (.scalar (.int (Int64.maxValue - 2))) (.scalar (.int Int64.maxValue)))]
    (.call "spin" [] [])

/-- The range comes to its end, and the loop takes one step too many. -/
theorem runIn_terminates_restless :
    ((restless.runIn ⟨"top", [], 0⟩ .empty countThenSpin).outcome {}).1 =
        .error (.endless "spin" 8 .steps) ∧
      ∃ x, restless.Courses ⟨"top", [], 0⟩ .empty countThenSpin {} x ∧
        x.outcome = .error (.endless "spin" 8 .steps) ∧ ∀ e ∈ x.ended, e.ticks ≤ 9 := by
  have hempty : ({} : Stock).pool.Sound := Pool.sound_empty
  have hrunning : ∀ key, ({} : Stock).memo.cells.get? key = some .running →
      Chain.contains ⟨"top", [], 0⟩ key.name = true := by
    intro key h
    rw [Dict.get?_empty] at h
    cases h
  have houtcome : ((restless.runIn ⟨"top", [], 0⟩ .empty countThenSpin).outcome {}).1 =
      .error (.endless "spin" 8 .steps) := by cbv
  obtain ⟨⟨x, hx⟩, hends, -⟩ :=
    runIn_terminates restless (by decide) ⟨"top", [], 0⟩ .empty countThenSpin hempty hrunning
  obtain ⟨heq, hended, -⟩ := hends x hx
  rw [heq] at houtcome
  exact ⟨heq ▸ houtcome, x, hx, houtcome, fun e he => (hended e he).1⟩

end Analysis

/-! ### The greatest budget -/

namespace Course

variable {β γ : Type} {x : Course β} {f : β → Course γ} {b : β} {g : γ}

/-- A part of a body that comes to one value, if to any end. -/
def Yields (x : Course β) (b : β) : Prop := ∀ c r, x c r → ∃ d, r = .ok b d

/-- A part of a body that does not come to its end. -/
def Endless (x : Course β) : Prop := ∀ c r, ¬ x c r

namespace Yields

/-- A value that is returned is what the part comes to. -/
theorem pure (b : β) : Yields (Pure.pure b) b := fun _ _ h => ⟨_, h⟩

/-- In sequence, each part comes to its one value. -/
theorem bind (hx : Yields x b) (hf : Yields (f b) g) : Yields (x >>= f) g := by
  intro c r h
  cases h with
  | next hfirst hnext =>
    obtain ⟨_, heq⟩ := hx _ _ hfirst
    cases heq
    exact hf _ _ hnext
  | stop hfirst =>
    obtain ⟨_, heq⟩ := hx _ _ hfirst
    cases heq

/-- What comes after a value does not come to its end. -/
theorem endless (hx : Yields x b) (hf : Endless (f b)) : Endless (x >>= f) := by
  intro c r h
  cases h with
  | next hfirst hnext =>
    obtain ⟨_, heq⟩ := hx _ _ hfirst
    cases heq
    exact hf _ _ hnext
  | stop hfirst =>
    obtain ⟨_, heq⟩ := hx _ _ hfirst
    cases heq

/-- A round that no jump leaves. -/
theorem round {body : Course Unit} (h : Yields body ()) (scope : Dict String Draft) :
    Yields (Course.round scope body) true := by
  have hscope : ∀ {c r}, InScope scope body c r → ∃ d, r = .ok () d := by
    rintro c r (hbody | hbody)
    · exact ⟨_, rfl⟩
    · obtain ⟨_, heq⟩ := h _ _ hbody
      cases heq
  intro c r hround
  cases hround with
  | ok _ => exact ⟨_, rfl⟩
  | nextRound _ => exact ⟨_, rfl⟩
  | leaveLoop hstop =>
    obtain ⟨_, heq⟩ := hscope hstop
    cases heq
  | result hstop =>
    obtain ⟨_, heq⟩ := hscope hstop
    cases heq
  | fault hstop =>
    obtain ⟨_, heq⟩ := hscope hstop
    cases heq

/-- No counter shows more than the greatest number of 64 bits. So if this is the budget, every step
is within it. -/
theorem tick {budget : Nat} (hbudget : UInt64.size ≤ budget + 1) (exhausted : Fault) :
    Yields (Course.tick exhausted budget) () := by
  intro c r h
  cases h with
  | within _ => exact ⟨_, rfl⟩
  | beyond hbeyond =>
    have hsmall := (counter (c.ticks + 1)).toNat_lt_size
    omega

/-- A question to which there is one answer, whatever the pool is. -/
theorem ask {question : Pool → Except Fault β} (h : ∀ pool, question pool = .ok b) :
    Yields (Course.ask question) b := by
  rintro c r ⟨-, rfl⟩
  unfold Work.askPool
  rw [h]
  exact ⟨_, rfl⟩

end Yields

namespace Endless

/-- A first part that does not come to its end. -/
theorem bind (h : Endless x) (f : β → Course γ) : Endless (x >>= f) := by
  intro c r hr
  cases hr with
  | next hfirst _ => exact h _ _ hfirst
  | stop hfirst => exact h _ _ hfirst

/-- A scope around a part does not bring it to its end. -/
theorem inScope (h : Endless x) (scope : Dict String Draft) : Endless (Course.inScope scope x) := by
  rintro c r (hpart | hpart)
  · exact h _ _ hpart
  · exact h _ _ hpart

/-- A loop in which every step is within the budget, the condition always holds and no round ends
the loop. The induction is on how it would come to its end. -/
theorem loop {tick : Course Unit} {test : Course Bool} {body : Course Unit}
    (htick : Yields tick ()) (htest : Yields test true) (hbody : Yields body ()) :
    Endless (Course.loop tick test body) := by
  intro c r h
  induction h with
  | exhausted hstop =>
    obtain ⟨_, heq⟩ := htick _ _ hstop
    cases heq
  | testStops _ hstop =>
    obtain ⟨_, heq⟩ := htest _ _ hstop
    cases heq
  | ends _ hfalse =>
    obtain ⟨_, heq⟩ := htest _ _ hfalse
    cases heq
  | roundStops _ _ hstop =>
    obtain ⟨_, heq⟩ := hbody.round .empty _ _ hstop
    cases heq
  | leaves _ _ hfalse =>
    obtain ⟨_, heq⟩ := hbody.round .empty _ _ hfalse
    cases heq
  | again _ _ _ _ ih => exact ih

end Endless

end Course

namespace Analysis

/-- With the greatest budget that has 64 bits a loop that is not left does not come to its end, at
the head of any chain and on any stock: its counter never shows more than the budget. -/
theorem not_courses_of_maximal (a : Analysis) (hbudget : UInt64.size ≤ a.settings.stepBudget + 1)
    (chain : Chain) (params : Dict String Atom) (stock : Stock) :
    ¬ ∃ x, a.Courses chain params spin.body stock x := by
  rintro ⟨_, r, hr, -⟩
  let R := Env.course (a.within chain params) (a.Answers (some chain))
  have htick : Course.Yields R.step () := .tick hbudget _
  have hcondition : Course.Yields (Expr.evalIn R (.scalar (.bool true))) (.scalar (.bool true)) :=
    .bind htick (.pure _)
  have hloop : Course.Endless (Stmt.execIn R (.loop (.scalar (.bool true)) [])) :=
    .loop htick (.bind hcondition (.ask fun _ => rfl)) (.pure _)
  exact htick.endless (.inScope (.bind (.bind hloop _) _) .empty) _ _ hr

/-- A program with a loop that goes on forever, and the greatest budget that has 64 bits. -/
def tireless : Analysis :=
  .build (.declareAll {} [.function spin]) .empty { stepBudget := 18446744073709551615 }

/-- Its settings are in order, and the loop does not come to its end. -/
theorem not_courses_tireless :
    tireless.settings.validated = .ok tireless.settings ∧
      ¬ ∃ x, tireless.Courses ⟨"spin", [], 0⟩ .empty spin.body {} x :=
  ⟨by rfl, not_courses_of_maximal tireless (by decide) _ _ _⟩

end Analysis

end ConstPool
