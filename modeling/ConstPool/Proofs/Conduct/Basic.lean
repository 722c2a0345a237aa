import ConstPool.Eval.Body
import ConstPool.Proofs.Agreement
import ConstPool.Proofs.Simulation.Basic

/-!
# Runs that conform to terms

The terms of a run say what is true of the stock at all times, and with which faults the run may
stop. A run conforms to them from every machine on which certain locals are there; it jumps only
where a jump is allowed, and it never loses a local that was there. Beside it stands a second run,
which does exactly the same on all these machines: so it can be said that a run does not depend on
what it never comes to.

The locals are those that the text around a part has declared, so the same relation serves for
parts at any point of a body. Two lists of names go with a run: those that are there before it, and
those that are there if it comes to its end. A loop is the one part that needs an invariant of its
own, since its body may be left by a jump at any point; whatever a round has declared is gone with
its scope.

* `Terms`: an invariant of the stock and the faults that are admitted.
* `Work.Conforms`, `Eval.Conforms`: computations on the stock, and runs of parts of a body.
* `Eval.Conforms.bind`, `Eval.Conforms.loop` and the like: runs that are put together.
-/

namespace ConstPool

/-- What is asked of a run. -/
structure Terms where
  /-- What is true of the stock at all times. -/
  holds : Stock → Prop
  /-- The faults with which the run may stop. -/
  admits : Fault → Prop

variable {T : Terms} {β γ : Type}

/-! ### Computations on the stock -/

namespace Work

/-- How a computation on the stock may end. -/
inductive Leaves (T : Terms) : EStateM.Result Fault Stock β → Prop
  | ok {b : β} {s : Stock} : T.holds s → Leaves T (.ok b s)
  | error {f : Fault} {s : Stock} : T.holds s → T.admits f → Leaves T (.error f s)

/-- From every stock in order the computation leaves the stock in order, and it fails with admitted
faults only. -/
def Conforms (T : Terms) (x : Work β) : Prop := ∀ s, T.holds s → Leaves T (x s)

namespace Conforms

/-- Returning a value touches no stock. -/
theorem pure (b : β) : Conforms T (Pure.pure b : Work β) := fun _ hs => .ok hs

/-- A computation may fail with an admitted fault. -/
theorem throw {f : Fault} (hf : T.admits f) : Conforms T (MonadExcept.throw f : Work β) :=
  fun _ hs => .error hs hf

/-- In sequence, the second computation starts on the stock that the first one leaves. -/
theorem bind {x : Work β} {f : β → Work γ} (h : Conforms T x) (hnext : ∀ b, Conforms T (f b)) :
    Conforms T (x >>= f) := by
  intro s hs
  have hleaves := h s hs
  show Leaves T (EStateM.bind x f s)
  unfold EStateM.bind
  generalize x s = r at hleaves ⊢
  cases hleaves with
  | ok hs' => exact hnext _ _ hs'
  | error hs' hf => exact .error hs' hf

end Conforms

/-- How a computation ends, in terms of its outcome and of the stock after it. -/
theorem leaves_iff {x : Work β} {s : Stock} :
    Leaves T (x s) ↔
      T.holds (x.outcome s).2 ∧ ∀ f, (x.outcome s).1 = .error f → T.admits f := by
  unfold Work.outcome
  generalize x s = r
  constructor
  · intro h
    cases h with
    | ok hs => exact ⟨hs, fun _ h => nomatch h⟩
    | error hs hf => exact ⟨hs, fun _ h => Except.error.inj h ▸ hf⟩
  · rintro ⟨hs, hf⟩
    cases r with
    | ok b s' => exact .ok hs
    | error f s' => exact .error hs (hf f rfl)

/-- A computation conforms if from every stock in order its outcome does. -/
theorem conforms_iff {x : Work β} :
    Conforms T x ↔ ∀ s, T.holds s →
      T.holds (x.outcome s).2 ∧ ∀ f, (x.outcome s).1 = .error f → T.admits f :=
  forall₂_congr fun _ _ => leaves_iff

end Work

/-! ### Runs of parts of a body -/

/-- Why a run may stop. -/
inductive Stop.Admitted (T : Terms) (jumps : Bool) : Stop Draft → Prop
  | result (d : Draft) : Admitted T jumps (.result d)
  | leaveLoop : jumps = true → Admitted T jumps .leaveLoop
  | nextRound : jumps = true → Admitted T jumps .nextRound
  | fault {f : Fault} : T.admits f → Admitted T jumps (.fault f)

namespace Eval

/-- A machine from which a run may start: the locals of the given names are there. -/
structure Ready (T : Terms) (names : List String) (m : Machine Stock Draft) : Prop where
  holds : T.holds m.stock
  nonempty : m.scopes ≠ []
  binds : ∀ name ∈ names, m.scopes.binds name

/-- A machine `m'` to which a run has come from the machine `m`. -/
structure Onward (T : Terms) (m m' : Machine Stock Draft) : Prop where
  holds : T.holds m'.stock
  grow : ScopesGrow m.scopes m'.scopes

/-- How a run that began with the machine `m` may end. -/
inductive Leaves (T : Terms) (jumps : Bool) (names : List String) (V : β → Prop)
    (m : Machine Stock Draft) : EStateM.Result (Stop Draft) (Machine Stock Draft) β → Prop
  | ok {b : β} {m' : Machine Stock Draft} : Onward T m m' →
    (∀ name ∈ names, m'.scopes.binds name) → V b → Leaves T jumps names V m (.ok b m')
  | stop {s : Stop Draft} {m' : Machine Stock Draft} : Onward T m m' → s.Admitted T jumps →
    Leaves T jumps names V m (.error s m')

/-- From every machine on which the locals `names` are there, the run `y` does what the run `x`
does, and `x` conforms to the terms. If it comes to its end, the locals `names'` are there. -/
def Conforms (T : Terms) (jumps : Bool) (names names' : List String) (V : β → Prop)
    (x y : Run β) : Prop :=
  ∀ m, Ready T names m → y m = x m ∧ Leaves T jumps names' V m (x m)

variable {jumps : Bool} {names names' names'' : List String} {V : β → Prop} {W : γ → Prop}
  {x y : Run β} {m m' m'' : Machine Stock Draft}

/-- A machine that has not moved. -/
theorem Onward.refl (h : Ready T names m) : Onward T m m := ⟨h.holds, .refl _⟩

/-- Two stretches, one after the other. -/
theorem Onward.trans (h : Onward T m m') (h' : Onward T m' m'') : Onward T m m'' :=
  ⟨h'.holds, h.grow.trans h'.grow⟩

/-- A run may go on from where another one came to its end. -/
theorem Onward.ready (h : Onward T m m') (hm : Ready T names m)
    (hbinds : ∀ name ∈ names', m'.scopes.binds name) : Ready T names' m' := by
  refine ⟨h.holds, fun hnil => ?_, hbinds⟩
  have hgrow := h.grow
  rw [hnil] at hgrow
  exact hm.nonempty (List.forall₂_nil_right_iff.1 hgrow)

/-- The locals that were there still are. -/
theorem Onward.binds (h : Onward T m m') (hm : Ready T names m) :
    ∀ name ∈ names, m'.scopes.binds name := fun name hname => h.grow.binds (hm.binds name hname)

/-- A run that starts further on ends as seen from where the stretch before it began. -/
theorem Leaves.after {r : EStateM.Result (Stop Draft) (Machine Stock Draft) β}
    (h : Onward T m m') (hr : Leaves T jumps names V m' r) : Leaves T jumps names V m r := by
  cases hr with
  | ok h' hbinds hV => exact .ok (h.trans h') hbinds hV
  | stop h' hs => exact .stop (h.trans h') hs

namespace Conforms

/-- Less is known of the result. -/
theorem imp {V' : β → Prop} (h : Conforms T jumps names names' V x y) (himp : ∀ b, V b → V' b) :
    Conforms T jumps names names' V' x y := by
  intro m hm
  obtain ⟨heq, hleaves⟩ := h m hm
  refine ⟨heq, ?_⟩
  generalize x m = r at hleaves ⊢
  cases hleaves with
  | ok hon hbinds hV => exact .ok hon hbinds (himp _ hV)
  | stop hon hs => exact .stop hon hs

/-- A value that is returned, as wanted. -/
theorem pure {b : β} (hb : V b) :
    Conforms T jumps names names V (Pure.pure b) (Pure.pure b) :=
  fun _ hm => ⟨rfl, .ok (.refl hm) hm.binds hb⟩

/-- A run that stops. -/
theorem stop {s : Stop Draft} (hs : s.Admitted T jumps) :
    Conforms T jumps names names' V (throw s) (throw s) :=
  fun _ hm => ⟨rfl, .stop (.refl hm) hs⟩

/-- A run that stops with a fault. -/
theorem raise {f : Fault} (hf : T.admits f) :
    Conforms T jumps names names' V (Eval.raise f) (Eval.raise f) := stop (.fault hf)

/-- In sequence, the second run finds the locals that the first one leaves. -/
theorem bind {f g : β → Run γ} (h : Conforms T jumps names names' V x y)
    (hnext : ∀ b, V b → Conforms T jumps names' names'' W (f b) (g b)) :
    Conforms T jumps names names'' W (x >>= f) (y >>= g) := by
  intro m hm
  obtain ⟨heq, hleaves⟩ := h m hm
  show EStateM.bind y g m = EStateM.bind x f m ∧ Leaves T jumps names'' W m (EStateM.bind x f m)
  unfold EStateM.bind
  rw [heq]
  generalize x m = r at hleaves ⊢
  cases hleaves with
  | ok hon hbinds hV =>
    obtain ⟨heq', hleaves'⟩ := hnext _ hV _ (hon.ready hm hbinds)
    exact ⟨heq', hleaves'.after hon⟩
  | stop hon hs => exact ⟨rfl, .stop hon hs⟩

/-- A result that is known. -/
theorem ofExcept {p : Except Fault β} (h : Results T.admits V p) :
    Conforms T jumps names names V (Eval.ofExcept p) (Eval.ofExcept p) := by
  cases h with
  | ok hV => exact pure hV
  | error hf => exact raise hf

/-- A question to the pool. -/
theorem ask {question : Pool → Except Fault β}
    (h : ∀ s, T.holds s → Results T.admits V (question s.pool)) :
    Conforms T jumps names names V (Eval.ask question) (Eval.ask question) := by
  intro m hm
  refine ⟨rfl, ?_⟩
  have hresult := h m.stock hm.holds
  unfold Eval.ask
  generalize question m.stock.pool = r at hresult ⊢
  cases hresult with
  | ok hV => exact .ok (.refl hm) hm.binds hV
  | error hf => exact .stop (.refl hm) (.fault hf)

/-- A computation on the stock. -/
theorem onStock {work : Work β} (h : Work.Conforms T work) :
    Conforms T jumps names names (fun _ => True) (Eval.onStock work) (Eval.onStock work) := by
  rintro ⟨stock, scopes, left⟩ hm
  refine ⟨rfl, ?_⟩
  have hleaves := h stock hm.holds
  simp only [Eval.onStock]
  generalize work stock = r at hleaves ⊢
  cases hleaves with
  | ok hs => exact .ok ⟨hs, .refl _⟩ hm.binds trivial
  | error hs hf => exact .stop ⟨hs, .refl _⟩ (.fault hf)

/-- Steps are taken, or the run stops. -/
theorem spend {f : Fault} (hf : T.admits f) (steps : Nat) :
    Conforms T jumps names names (fun _ => True) (Eval.spend f steps) (Eval.spend f steps) := by
  intro m hm
  refine ⟨rfl, ?_⟩
  unfold Eval.spend
  split
  · exact .ok ⟨hm.holds, .refl _⟩ hm.binds trivial
  · exact .stop (.refl hm) (.fault hf)

/-- The next part of a run depends on the state of the machine. -/
theorem get_bind {f g : Machine Stock Draft → Run β}
    (h : ∀ m, Ready T names m →
      g m m = f m m ∧ Leaves T jumps names' V m (f m m)) :
    Conforms T jumps names names' V (get >>= f) (get >>= g) := h

/-! ### Scopes -/

/-- A part of a run in a scope of its own. -/
theorem inScope {inner inner' : List String} {scope : Dict String Draft}
    (hinner : ∀ name ∈ inner, name ∈ names ∨ scope.contains name)
    (h : Conforms T jumps inner inner' V x y) :
    Conforms T jumps names names V (Eval.inScope scope x) (Eval.inScope scope y) := by
  intro m hm
  have hready : Ready T inner { m with scopes := scope :: m.scopes } := by
    refine ⟨hm.holds, List.cons_ne_nil _ _, fun name hname => ?_⟩
    rcases hinner name hname with hname | hname
    · obtain ⟨s, hs, hcontains⟩ := hm.binds name hname
      exact ⟨s, List.mem_cons_of_mem _ hs, hcontains⟩
    · exact ⟨scope, List.mem_cons_self .., hname⟩
  obtain ⟨heq, hleaves⟩ := h _ hready
  have hclose : ∀ {m' : Machine Stock Draft},
      Onward T { m with scopes := scope :: m.scopes } m' →
        Onward T m { m' with scopes := m'.scopes.tail } := by
    rintro ⟨stock, scopes, left⟩ ⟨hholds, hgrow⟩
    cases hgrow with
    | cons _ hgrow => exact ⟨hholds, hgrow⟩
  unfold Eval.inScope
  rw [heq]
  refine ⟨rfl, ?_⟩
  generalize x _ = r at hleaves ⊢
  cases hleaves with
  | ok hon _ hV => exact .ok (hclose hon) ((hclose hon).binds hm) hV
  | stop hon hs => exact .stop (hclose hon) hs

/-- A local is declared. -/
theorem declare (name : String) (d : Draft) :
    Conforms T jumps names (name :: names) (fun _ => True) (Eval.declare name d)
      (Eval.declare name d) := by
  intro m hm
  have hgrow := m.scopes.grow_declare name d
  refine ⟨rfl, .ok ⟨hm.holds, hgrow⟩ (fun other hother => ?_) trivial⟩
  rcases List.mem_cons.1 hother with rfl | hother
  · exact m.scopes.binds_declare hm.nonempty other d
  · exact hgrow.binds (hm.binds other hother)

/-- A local that is there gets a new value. -/
theorem assign {name : String} (hname : name ∈ names) (d : Draft) (f : Fault) :
    Conforms T jumps names names (fun _ => True) (Eval.assign f name d)
      (Eval.assign f name d) := by
  intro m hm
  refine ⟨rfl, ?_⟩
  unfold Eval.assign
  rcases hassign : m.scopes.assign? name d with _ | scopes
  · exact absurd (hm.binds name hname) (Scopes.not_binds_of_assign? hassign)
  · have hgrow := Scopes.grow_assign? hassign
    exact .ok ⟨hm.holds, hgrow⟩ (fun other hother => hgrow.binds (hm.binds other hother)) trivial

/-! ### Loops -/

/-- One round of a loop, which no jump leaves. -/
theorem round {inner inner' : List String} {scope : Dict String Draft} {body body' : Run Unit}
    (hinner : ∀ name ∈ inner, name ∈ names ∨ scope.contains name)
    (h : Conforms T true inner inner' (fun _ => True) body body') :
    Conforms T jumps names names (fun _ => True) (Eval.round scope body)
      (Eval.round scope body') := by
  intro m hm
  obtain ⟨heq, hleaves⟩ := h.inScope hinner m hm
  unfold Eval.round
  rw [heq]
  refine ⟨rfl, ?_⟩
  generalize Eval.inScope scope body m = r at hleaves ⊢
  cases hleaves with
  | ok hon hbinds _ => exact .ok hon hbinds trivial
  | stop hon hs =>
    cases hs with
    | result d => exact .stop hon (.result d)
    | leaveLoop => exact .ok hon (hon.binds hm) trivial
    | nextRound => exact .ok hon (hon.binds hm) trivial
    | fault hf => exact .stop hon (.fault hf)

/-- A loop with a condition. -/
theorem loop {f : Fault} (hf : T.admits f) {test test' : Run Bool} {body body' : Run Unit}
    {inner' : List String} (htest : Conforms T jumps names names (fun _ => True) test test')
    (hbody : Conforms T true names inner' (fun _ => True) body body') (rounds : Nat) :
    Conforms T jumps names names (fun _ => True) (Eval.loop f test body rounds)
      (Eval.loop f test' body' rounds) := by
  induction rounds with
  | zero => exact raise hf
  | succ rounds ih =>
    refine (spend hf 1).bind fun _ _ => htest.bind fun b _ => ?_
    cases b
    · exact pure trivial
    · refine (hbody.round fun _ h => .inl h).bind fun b _ => ?_
      cases b
      · exact pure trivial
      · exact ih

/-- A loop through a list. -/
theorem forEach {f : Fault} (hf : T.admits f) {binder : String} {body body' : Run Unit}
    {inner' : List String}
    (hbody : Conforms T true (binder :: names) inner' (fun _ => True) body body')
    (ds : List Draft) :
    Conforms T jumps names names (fun _ => True) (Eval.forEach f binder body ds)
      (Eval.forEach f binder body' ds) := by
  induction ds with
  | nil => exact pure trivial
  | cons d ds ih =>
    refine (spend hf 1).bind fun _ _ => (hbody.round (Sim.binder_or_mem binder d)).bind fun b _ => ?_
    cases b
    · exact pure trivial
    · exact ih

/-- What is produced for the elements of a list. -/
theorem collect {f : Fault} (hf : T.admits f) {binder : String}
    {produce produce' : Run (Option Draft)} {inner' : List String}
    (h : Conforms T jumps (binder :: names) inner' (fun _ => True) produce produce')
    (ds : List Draft) (done : Array Draft) :
    Conforms T jumps names names (fun _ => True) (Eval.collect f binder produce ds done)
      (Eval.collect f binder produce' ds done) := by
  induction ds generalizing done with
  | nil => exact pure trivial
  | cons d ds ih =>
    refine (spend hf 1).bind fun _ _ => (h.inScope (Sim.binder_or_mem binder d)).bind fun o _ => ?_
    cases o with
    | none => exact ih done
    | some e => exact ih (done.push e)

end Conforms

end Eval

end ConstPool
