import ConstPool.Parallel.Strand
import ConstPool.Proofs.Interpretation.Machines

/-!
# Strands beside runs

A strand goes through the steps of a body, and so does the run of a machine. How the two go together
is said once, whatever is to be said of the tasks of which a strand consists. It may be said what a
task comes to if nothing else happens, or what it does to a stock that others change.

The machine of a strand has no stock. What is known of the stock while the strand goes on is beside
it, and with it the machine of the strand is one like any other. So what is known of machines that
correspond can be used for strands as well.

* `Machine.over`: a machine with another stock.
* `Eval.Same`: parts of bodies that have nothing to do with a stock.
* `Task.Triples`: what may be said of tasks.
* `Strand.Follows`: a strand goes on as a run does.
* `Strand.control_related`: scopes, jumps and loops.
-/

namespace ConstPool

/-! ### Machines without a stock -/

section Machines

variable {σ τ δ β : Type}

/-- A machine with another stock. -/
def Machine.over (m : Machine σ δ) (stock : τ) : Machine τ δ := ⟨stock, m.scopes, m.left⟩

/-- The end of a run, with another stock. -/
def Machine.endOver (stock : τ) :
    EStateM.Result (Stop δ) (Machine σ δ) β → EStateM.Result (Stop δ) (Machine τ δ) β
  | .ok b m => .ok b (m.over stock)
  | .error stop m => .error stop (m.over stock)

/-- Two runs do the same to machines whose stocks do not matter. -/
def Eval.Same (x : Eval σ δ β) (y : Eval τ δ β) : Prop :=
  ∀ m stock, y (m.over stock) = Machine.endOver stock (x m)

namespace Eval.Same

/-- Returning a value does not look at the stock. -/
theorem pure (b : β) : Same (σ := σ) (τ := τ) (δ := δ) (Pure.pure b) (Pure.pure b) :=
  fun _ _ => rfl

/-- Neither does a stop. -/
theorem stop (s : Stop δ) : Same (σ := σ) (τ := τ) (β := β) (throw s) (throw s) := fun _ _ => rfl

/-- Steps are counted in the machine, not in the stock. -/
theorem spend (exhausted : Fault) (steps : Nat) :
    Same (σ := σ) (τ := τ) (δ := δ) (Eval.spend exhausted steps) (Eval.spend exhausted steps) := by
  rintro ⟨stock, scopes, left⟩ stock'
  by_cases hsteps : steps ≤ left
  · simp only [Eval.spend, Machine.over, Machine.endOver, hsteps, if_true]
  · simp only [Eval.spend, Machine.over, Machine.endOver, hsteps, if_false]

/-- So are scopes, in which a name is declared. -/
theorem declare (name : String) (d : δ) :
    Same (σ := σ) (τ := τ) (Eval.declare name d) (Eval.declare name d) := fun _ _ => rfl

/-- A local is assigned in the scopes. -/
theorem assign (f : Fault) (name : String) (d : δ) :
    Same (σ := σ) (τ := τ) (Eval.assign f name d) (Eval.assign f name d) := by
  intro m stock
  simp only [Eval.assign, Machine.over]
  generalize m.scopes.assign? name d = x
  cases x <;> rfl

/-- A local is read from the scopes. -/
theorem local? (name : String) :
    Same (σ := σ) (τ := τ) (δ := δ) (Eval.local? name) (Eval.local? name) := fun _ _ => rfl

/-- A result that is known in advance needs no stock. -/
theorem ofExcept (x : Except Fault β) :
    Same (σ := σ) (τ := τ) (δ := δ) (Eval.ofExcept x) (Eval.ofExcept x) := by
  cases x <;> exact fun _ _ => rfl

end Eval.Same

end Machines

/-! ### What may be said of tasks -/

/-- What may be said of tasks. `Holds Q x g` says of the task `x` that it ends with `Q` if it begins
in the state of affairs `g`. -/
structure Task.Triples (σ : Type) where
  Holds : {α : Type} → (α → σ → Prop) → Task α → σ → Prop
  done : ∀ {α : Type} {Q : α → σ → Prop} {b : α} {g : σ}, Q b g → Holds Q (.done b) g
  bind : ∀ {α β : Type} {Q : α → σ → Prop} {W : β → σ → Prop} {x : Task α} {f : α → Task β} {g : σ},
    Holds Q x g → (∀ b g', Q b g' → Holds W (f b) g') → Holds W (x >>= f) g
  imp : ∀ {α : Type} {Q W : α → σ → Prop} {x : Task α} {g : σ}, Holds Q x g →
    (∀ b g', Q b g' → W b g') → Holds W x g

/-! ### Strands -/

section Strands

variable {σ τ ε β γ : Type} (T : Task.Triples σ) (D : Correspondence σ Draft τ ε) (B : Fault → Prop)

/-- A run does not end with one of certain faults. -/
def Eval.Avoids (r : EStateM.Result (Stop ε) (Machine τ ε) γ) : Prop :=
  ∀ f n, B f → r ≠ .error (.fault f) n

/-- A strand goes on as a run does, unless the run ends with one of the faults `B`. -/
def Strand.Follows (w : D.World) (V : D.World → β → γ → Prop) (x : Strand β) (y : Eval τ ε γ) :
    Prop :=
  ∀ g m n, Near D w [] (m.over g) n → Eval.Avoids B (y n) →
    T.Holds (fun r g' => Ends D [] V (m.over g) (Machine.endOver g' r) (y n)) (x m) g

namespace Strand.Follows

variable {T D B} {w : D.World} {V : D.World → β → γ → Prop} {x : Strand β} {y : Eval τ ε γ}
  {β' γ' : Type} {W : D.World → β' → γ' → Prop}

/-- A part that concerns the body alone. -/
theorem own {part : Eval Unit Draft β} {part' : Eval σ Draft β} (hsame : Eval.Same part part')
    (h : Sim D w [] [] V part' y) : Follows T D B w V (Strand.own part) y := by
  intro g m n hn _
  refine T.done ?_
  rw [← hsame m g]
  exact h (m.over g) n hn

/-- In sequence: as long as the run avoids the faults `B`, the strand goes on with it. -/
theorem bind {f : β → Strand β'} {g : γ → Eval τ ε γ'} (h : Follows T D B w V x y)
    (hnext : ∀ w' b c, D.le w w' → V w' b c → Follows T D B w' W (f b) (g c)) :
    Follows T D B w W (x >>= f) (y >>= g) := by
  intro s m n hn havoids
  have hbind : (y >>= g) n = EStateM.bind y g n := rfl
  rw [hbind] at havoids ⊢
  unfold EStateM.bind at havoids ⊢
  have hy : Eval.Avoids B (y n) := by
    rintro e n' hf heq
    rw [heq] at havoids
    exact havoids e n' hf rfl
  refine T.bind (h s m n hn hy) fun r s' hends => ?_
  generalize y n = z at havoids hends ⊢
  cases r with
  | ok b m' =>
    cases hends with
    | @ok _ c _ n' hafter hbinds hV =>
      have hle : D.le w (D.world s') := D.trans hn.later hafter.later
      have hnear : Near D (D.world s') [] (m'.over s') n' := hafter.near hn hbinds
      exact T.imp (hnext _ b c hle hV s' m' n' hnear havoids) fun _ _ hends => hends.after hafter
  | error stop m' =>
    refine T.done ?_
    cases hends with
    | stop hafter hs => exact .stop hafter hs
    | excused hle hholds hf => exact .excused hle hholds hf

/-- Less is known of the results. -/
theorem imp {V' : D.World → β → γ → Prop} (h : Follows T D B w V x y)
    (himp : ∀ w' b c, V w' b c → V' w' b c) : Follows T D B w V' x y := by
  intro g m n hn havoids
  refine T.imp (h g m n hn havoids) fun r g' hends => ?_
  generalize y n = z at hends ⊢
  cases r with
  | ok b m' =>
    cases hends with
    | ok hafter hbinds hV => exact .ok hafter hbinds (himp _ _ _ hV)
  | error stop m' =>
    cases hends with
    | stop hafter hs => exact .stop hafter hs
    | excused hle hholds hf => exact .excused hle hholds hf

/-- A part in a scope of its own. -/
theorem inScope {scope : Dict String Draft} {scope' : Dict String ε}
    (hscope : DictRel (D.stands w) scope scope') (h : Follows T D B w V x y) :
    Follows T D B w V (Strand.inScope scope x) (Eval.inScope scope' y) := by
  intro g m n hn havoids
  have hclosed : Eval.inScope scope' y n = Eval.closed (y { n with scopes := scope' :: n.scopes }) :=
    rfl
  rw [hclosed] at havoids ⊢
  have hy : Eval.Avoids B (y { n with scopes := scope' :: n.scopes }) := by
    rintro e n' hf heq
    rw [heq] at havoids
    exact havoids e _ hf rfl
  have hopened := h g { m with scopes := scope :: m.scopes } _
    (hn.opened hscope (List.forall_mem_nil _)) hy
  refine T.bind hopened fun r g' hends => ?_
  cases r with
  | ok b m' => exact T.done (hends.closed hn)
  | error stop m' => exact T.done (hends.closed hn)

/-- One round of a loop. -/
theorem round {scope : Dict String Draft} {scope' : Dict String ε} {x : Strand Unit}
    {y : Eval τ ε Unit} (hscope : DictRel (D.stands w) scope scope')
    (h : Follows T D B w (fun _ _ _ => True) x y) :
    Follows T D B w (fun _ b c => b = c) (Strand.round scope x) (Eval.round scope' y) := by
  intro g m n hn havoids
  have hrounded : Eval.round scope' y n = Eval.rounded (Eval.inScope scope' y n) := rfl
  rw [hrounded] at havoids ⊢
  have hy : Eval.Avoids B (Eval.inScope scope' y n) := by
    rintro e n' hf heq
    rw [heq] at havoids
    exact havoids e n' hf rfl
  refine T.bind (h.inScope hscope g m n hn hy) fun r g' hends => ?_
  cases r with
  | ok b m' => exact T.done (hends.rounded hn)
  | error stop m' => cases stop <;> exact T.done (hends.rounded hn)

end Strand.Follows

/-- Strands go together with the runs that they follow, from a world on. -/
def Strand.following (start : D.World) : Correlation Strand (Eval τ ε) Draft ε where
  World := D.World
  le := D.le
  refl := D.refl
  trans := D.trans
  stands := D.stands
  mono := D.mono
  Runs w V x y := D.le start w → Follows T D B w V x y
  pure h _ := .own (.pure _) (Sim.pure h)
  bind h hnext hstart := (h hstart).bind fun w' b c hle hV =>
    hnext w' b c hle hV (D.trans hstart hle)
  imp h himp hstart := (h hstart).imp himp

variable {T D B}

/-- A loop with a condition. -/
theorem Strand.Follows.loop {w : D.World} {exhausted : Fault} (hexhausted : D.shared exhausted)
    {test : Strand Bool} {test' : Eval τ ε Bool} {body : Strand Unit} {body' : Eval τ ε Unit}
    (htest : ∀ w', D.le w w' → Follows T D B w' (fun _ b c => b = c) test test')
    (hbody : ∀ w', D.le w w' → Follows T D B w' (fun _ _ _ => True) body body') (rounds : Nat) :
    Follows T D B w (fun _ _ _ => True) (Strand.loop exhausted test body rounds)
      (Eval.loop exhausted test' body' rounds) := by
  induction rounds generalizing w with
  | zero => exact .own (.stop _) (.raise hexhausted)
  | succ rounds ih =>
    have hdone : ∀ w, Follows T D B w (fun _ _ _ => True) (pure () : Strand Unit) (pure ()) :=
      fun _ => .own (.pure _) (.pure fun _ _ => trivial)
    have hstep : Follows T D B w (fun _ _ _ => True) (Strand.own (Eval.spend exhausted 1))
        (Eval.spend exhausted 1) := .own (.spend _ _) (.spend hexhausted 1)
    refine hstep.bind fun w₁ _ _ h₁ _ => ?_
    refine (htest w₁ h₁).bind fun w₂ b c h₂ hbc => ?_
    subst hbc
    have hle := D.trans h₁ h₂
    cases b
    · exact hdone w₂
    · refine ((hbody w₂ hle).round .empty).bind fun w₃ b c h₃ hbc => ?_
      subst hbc
      have hle := D.trans hle h₃
      cases b
      · exact hdone w₃
      · exact ih (fun w' h' => htest w' (D.trans hle h')) fun w' h' => hbody w' (D.trans hle h')

/-- Scopes, jumps and loops of strands. -/
theorem Strand.control_related (start : D.World) (hshared : ∀ f : Fault, f.Benign → D.shared f)
    {exhausted : Fault} (hexhausted : exhausted.Benign) :
    Control.Related (Strand.following T D B start) (Strand.control exhausted)
      (Eval.control exhausted) where
  step _ _ := .own (.spend _ _) (.spend (hshared _ hexhausted) 1)
  result hd _ := .own (.stop _) (.stop fun _ hle => .result (D.mono hle hd))
  leaveLoop _ := .own (.stop _) (.stop fun _ _ => .leaveLoop)
  nextRound _ := .own (.stop _) (.stop fun _ _ => .nextRound)
  fault hf _ := .own (.stop _) (.raise (hshared _ hf))
  inScope hscope h hstart := (h hstart).inScope hscope
  round hscope h hstart := (h hstart).round hscope
  loop {_ test test' body body'} htest hbody hstart g m n hn havoids := by
    have hleft : n.left = m.left := hn.left.symm
    have hrun : (Eval.control exhausted).loop test' body' n =
        Eval.loop exhausted test' body' m.left n := by
      show Eval.loop exhausted test' body' n.left n = _
      rw [hleft]
    rw [hrun] at havoids ⊢
    exact Follows.loop (hshared _ hexhausted) (fun w' h' => htest w' h' (D.trans hstart h'))
      (fun w' h' => hbody w' h' (D.trans hstart h')) m.left g m n hn havoids
  declare name hd _ := .own (.declare name _) (Sim.declare name hd).forget
  assign name hd _ := .own (.assign _ name _) (Sim.assign name hd (hshared _ rfl))

/-- The value of a local. -/
theorem Strand.Follows.local? {w : D.World} (name : String) :
    Follows T D B w (fun w => Option.Rel (D.stands w)) (Strand.own (Eval.local? name))
      (Eval.local? name) :=
  .own (.local? name) fun _ _ hn => .ok (.refl hn) hn.binds (ScopesRel.find? hn.scopes name)

/-- A job that is done for a body. -/
theorem Strand.Follows.perform {w : D.World} {V : D.World → β → γ → Prop} {job : Job β}
    {y : Eval τ ε γ} (h : ∀ g (m : Local) n, Near D w [] (m.over g) n → Eval.Avoids B (y n) →
      T.Holds (fun o g' => Ends D [] V (m.over g) (match o with
        | .ok b => .ok b (m.over g')
        | .error f => .error (.fault f) (m.over g')) (y n)) job.run g) :
    Follows T D B w V (Strand.perform job) y := by
  intro g m n hn havoids
  refine T.bind (h g m n hn havoids) fun o g' hends => ?_
  cases o with
  | ok b => exact T.done hends
  | error f => exact T.done hends

end Strands

end ConstPool
