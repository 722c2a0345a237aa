import ConstPool.Proofs.Interpretation.Related

/-!
# Interpretations by machines

Two interpretations by machines are related if the one machine is described by the other. Scopes,
jumps and loops work alike on all machines.

* `Correspondence.correlation`: runs of which one describes the other.
* `Correspondence.control`: scopes, jumps and loops of machines that correspond.
-/

namespace ConstPool

variable {σ δ τ ε : Type} (D : Correspondence σ δ τ ε)

/-- Less is said about the results. -/
theorem Sim.imp {D : Correspondence σ δ τ ε} {w : D.World} {names names' : List String}
    {β γ : Type} {V W : D.World → β → γ → Prop} {x : Eval σ δ β} {y : Eval τ ε γ}
    (h : Sim D w names names' V x y) (himp : ∀ w' b c, V w' b c → W w' b c) :
    Sim D w names names' W x y := by
  intro m n hn
  have hends := h m n hn
  generalize x m = r at hends ⊢
  generalize y n = r' at hends ⊢
  cases hends with
  | ok hafter hbinds hV => exact .ok hafter hbinds (himp _ _ _ hV)
  | stop hafter hs => exact .stop hafter hs
  | excused hle hholds hf => exact .excused hle hholds hf

/-- Nothing is said about the locals that are there. -/
theorem Sim.forget {D : Correspondence σ δ τ ε} {w : D.World} {names names' : List String}
    {β γ : Type} {V : D.World → β → γ → Prop} {x : Eval σ δ β} {y : Eval τ ε γ}
    (h : Sim D w names names' V x y) : Sim D w names [] V x y := by
  intro m n hn
  have hends := h m n hn
  generalize x m = r at hends ⊢
  generalize y n = r' at hends ⊢
  cases hends with
  | ok hafter _ hV => exact .ok hafter (List.forall_mem_nil _) hV
  | stop hafter hs => exact .stop hafter hs
  | excused hle hholds hf => exact .excused hle hholds hf

/-- A question to the pool, and a known result. -/
theorem Sim.question {D : Correspondence Stock δ τ ε} {w : D.World} {names : List String}
    {β γ : Type} {V : D.World → β → γ → Prop} {question : Pool → Except Fault β}
    {p : Except Fault γ}
    (h : ∀ s u, D.le w (D.world s) → D.holds s u →
      Agree D.shared (V (D.world s)) (question s.pool) p) :
    Sim D w names names V (Eval.ask question) (Eval.ofExcept p) := by
  intro m n hn
  have hagree := h m.stock n.stock hn.later hn.holds
  unfold Eval.ask
  generalize question m.stock.pool = r at hagree ⊢
  cases hagree with
  | ok hV => exact .ok (.refl hn) hn.binds hV
  | error hf => exact .stop (.refl hn) (.fault hf)

/-- Runs of machines go together, from a world on, if the one is described by the other. -/
def Correspondence.correlation (start : D.World) : Correlation (Eval σ δ) (Eval τ ε) δ ε where
  World := D.World
  le := D.le
  refl := D.refl
  trans := D.trans
  stands := D.stands
  mono := D.mono
  Runs w V x y := D.le start w → Sim D w [] [] V x y
  pure h _ := Sim.pure h
  bind h hnext hstart := (h hstart).bind fun w' b c hle hV => hnext w' b c hle hV (D.trans hstart hle)
  imp h himp hstart := (h hstart).imp himp

/-- Scopes, jumps and loops of machines that correspond. -/
theorem Correspondence.control (start : D.World) (hshared : ∀ f : Fault, f.Benign → D.shared f)
    {exhausted : Fault} (hexhausted : exhausted.Benign) :
    Control.Related (D.correlation start) (Eval.control exhausted) (Eval.control exhausted) where
  step w _ := Sim.spend (hshared _ hexhausted) 1
  result hd _ := Sim.stop fun _ hle => .result (D.mono hle hd)
  leaveLoop _ := Sim.stop fun _ _ => .leaveLoop
  nextRound _ := Sim.stop fun _ _ => .nextRound
  fault hf _ := Sim.raise (hshared _ hf)
  inScope hscope h hstart := Sim.inScope hscope (List.forall_mem_nil _) (h hstart)
  round hscope h hstart := Sim.round hscope (List.forall_mem_nil _) (h hstart)
  loop {w test test' body body'} htest hbody hstart := by
    refine Sim.get_bind fun m n hn => ?_
    have hloop := Sim.loop (hshared _ hexhausted) (htest w (D.refl w) hstart)
      (hbody w (D.refl w) hstart) m.left
    rw [← hn.left]
    exact hloop m n hn
  declare name hd _ := (Sim.declare name hd).forget
  assign name hd _ := Sim.assign name hd (hshared _ rfl)

end ConstPool
