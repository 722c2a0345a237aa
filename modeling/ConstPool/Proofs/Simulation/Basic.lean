import ConstPool.Eval.Machine
import ConstPool.Proofs.Agreement

/-!
# Simulations between runs

Two machines run the same body over different stocks and with different constants. One of them is
described by the other if they go through scopes that correspond and stop in the same way, after
the same number of steps. What corresponds is said relative to a world, which stands for what the
first stock has become and only grows.

The first machine may also stop with a fault that is excused. Then nothing is said about the second
one.

A simulation is used wherever a run is compared with another one step by step: for drafts and the
trees that they mean, for what a body makes, for bodies that are watched, and for bodies of which
the requests are noted. All of these are instances of `Correspondence`, and the lemmas about
sequences, scopes and loops are proved once for all of them.

* `Correspondence`: worlds, constants that correspond, stocks that are in order, and faults.
* `Sim`: one run is described by another one.
* `Sim.bind`, `Sim.inScope`, `Sim.loop`, `Sim.forEach`, `Sim.collect`: runs that are put together.
-/

namespace ConstPool

/-! ### Scopes that correspond -/

section Scopes

variable {δ ε : Type}

/-- Dictionaries with the same keys and with values that correspond. -/
def DictRel (R : δ → ε → Prop) (a : Dict String δ) (b : Dict String ε) : Prop :=
  ∀ name, Option.Rel R (a.get? name) (b.get? name)

/-- Two empty dictionaries are related, since neither binds a name. -/
theorem DictRel.empty {R : δ → ε → Prop} : DictRel R .empty .empty := fun _ => .none

/-- Related values under one name keep two dictionaries related. -/
theorem DictRel.insert {R : δ → ε → Prop} {a : Dict String δ} {b : Dict String ε}
    (h : DictRel R a b) {name : String} {d : δ} {e : ε} (hd : R d e) :
    DictRel R (a.insert name d) (b.insert name e) := by
  intro other
  rw [Dict.get?_insert, Dict.get?_insert]
  split
  · exact .some hd
  · exact h other

/-- One name with related values. -/
theorem DictRel.one {R : δ → ε → Prop} {name : String} {d : δ} {e : ε} (hd : R d e) :
    DictRel R (.one name d) (.one name e) := DictRel.empty.insert hd

/-- A weaker relation between the values. -/
theorem DictRel.imp {R S : δ → ε → Prop} {a : Dict String δ} {b : Dict String ε}
    (h : DictRel R a b) (himp : ∀ d e, R d e → S d e) : DictRel S a b := by
  intro name
  have hname := h name
  generalize a.get? name = x at hname ⊢
  generalize b.get? name = y at hname ⊢
  cases hname with
  | some hd => exact .some (himp _ _ hd)
  | none => exact .none

/-- Related dictionaries bind the same names. -/
theorem DictRel.contains_eq {R : δ → ε → Prop} {a : Dict String δ} {b : Dict String ε}
    (h : DictRel R a b) (name : String) : a.contains name = b.contains name := by
  have hname := h name
  unfold Dict.contains
  generalize a.get? name = x at hname ⊢
  generalize b.get? name = y at hname ⊢
  cases hname <;> rfl

/-- Scopes that correspond one by one. -/
abbrev ScopesRel (R : δ → ε → Prop) : Scopes δ → Scopes ε → Prop := List.Forall₂ (DictRel R)

/-- Scopes of which each has at least the locals that it had. -/
abbrev ScopesGrow : Scopes δ → Scopes δ → Prop :=
  List.Forall₂ fun a b => ∀ name, a.contains name → b.contains name

/-- A name is a local of one of the scopes. -/
def Scopes.binds (scopes : Scopes δ) (name : String) : Prop := ∃ scope ∈ scopes, scope.contains name

/-- Scopes that stay as they are bind what they bound. -/
theorem ScopesGrow.refl (scopes : Scopes δ) : ScopesGrow scopes scopes :=
  List.forall₂_same.2 fun _ _ _ h => h

/-- Scopes that grow twice grow. -/
theorem ScopesGrow.trans {a b c : Scopes δ} (h : ScopesGrow a b) (h' : ScopesGrow b c) :
    ScopesGrow a c := by
  induction h generalizing c with
  | nil => exact h'
  | cons hab _ ih =>
    cases h' with
    | cons hbc h' => exact .cons (fun name h => hbc name (hab name h)) (ih h')

/-- Locals stay when the scopes grow. -/
theorem ScopesGrow.binds {a b : Scopes δ} (h : ScopesGrow a b) {name : String}
    (hname : a.binds name) : b.binds name := by
  obtain ⟨scope, hscope, hcontains⟩ := hname
  induction h with
  | nil => cases hscope
  | @cons x y _ _ hxy _ ih =>
    rcases List.mem_cons.1 hscope with rfl | hscope
    · exact ⟨y, List.mem_cons_self .., hxy name hcontains⟩
    · obtain ⟨scope', hscope', hcontains'⟩ := ih hscope
      exact ⟨scope', List.mem_cons_of_mem _ hscope', hcontains'⟩

/-- A name is found in both scopes, in the same place, or in neither. -/
theorem ScopesRel.find? {R : δ → ε → Prop} {a : Scopes δ} {b : Scopes ε} (h : ScopesRel R a b)
    (name : String) : Option.Rel R (a.find? name) (b.find? name) := by
  induction h with
  | nil => exact .none
  | @cons x y _ _ hxy _ ih =>
    have hname := hxy name
    simp only [Scopes.find?]
    generalize x.get? name = v at hname ⊢
    generalize y.get? name = w at hname ⊢
    cases hname with
    | some hd => exact .some hd
    | none => exact ih

/-- A local has a value. -/
theorem Scopes.find?_isSome {a : Scopes δ} {name : String} (h : a.binds name) :
    (a.find? name).isSome := by
  obtain ⟨scope, hscope, hcontains⟩ := h
  induction a with
  | nil => cases hscope
  | cons x rest ih =>
    rw [Scopes.find?]
    rcases hx : x.get? name with _ | d
    · rcases List.mem_cons.1 hscope with rfl | hscope
      · rw [Dict.contains, hx] at hcontains
        cases hcontains
      · exact ih hscope
    · rfl

/-- Leaving the innermost scope leaves related scopes. -/
theorem ScopesRel.tail {R : δ → ε → Prop} {a : Scopes δ} {b : Scopes ε} (h : ScopesRel R a b) :
    ScopesRel R a.tail b.tail := by
  cases h with
  | nil => exact .nil
  | cons _ hrest => exact hrest

/-- A name may be declared in both, with related values. -/
theorem ScopesRel.declare {R : δ → ε → Prop} {a : Scopes δ} {b : Scopes ε} (h : ScopesRel R a b)
    {name : String} {d : δ} {e : ε} (hd : R d e) :
    ScopesRel R (a.declare name d) (b.declare name e) := by
  cases h with
  | nil => exact .nil
  | cons hxy h => exact .cons (hxy.insert hd) h

/-- A declaration takes no name away. -/
theorem Scopes.grow_declare (a : Scopes δ) (name : String) (d : δ) :
    ScopesGrow a (a.declare name d) := by
  cases a with
  | nil => exact .nil
  | cons x rest =>
    refine .cons (fun other h => ?_) (ScopesGrow.refl rest)
    rw [Dict.contains_insert, h, Bool.or_true]

/-- A declared name is bound, as long as there is a scope to declare it in. -/
theorem Scopes.binds_declare {a : Scopes δ} (h : a ≠ []) (name : String) (d : δ) :
    (a.declare name d).binds name := by
  cases a with
  | nil => exact absurd rfl h
  | cons x rest =>
    refine ⟨_, List.mem_cons_self .., ?_⟩
    rw [Dict.contains_insert, decide_eq_true rfl, Bool.true_or]

/-- An assignment finds its name in both scopes, in the same place, or in neither. -/
theorem ScopesRel.assign? {R : δ → ε → Prop} {a : Scopes δ} {b : Scopes ε} (h : ScopesRel R a b)
    (name : String) {d : δ} {e : ε} (hd : R d e) :
    Option.Rel (ScopesRel R) (a.assign? name d) (b.assign? name e) := by
  induction h with
  | nil => exact .none
  | @cons x y _ _ hxy h ih =>
    simp only [Scopes.assign?, hxy.contains_eq name]
    split
    · exact .some (.cons (hxy.insert hd) h)
    · generalize Scopes.assign? name d _ = v at ih ⊢
      generalize Scopes.assign? name e _ = w at ih ⊢
      cases ih with
      | some ih => exact .some (.cons hxy ih)
      | none => exact .none

/-- An assignment takes no name away. -/
theorem Scopes.grow_assign? {a b : Scopes δ} {name : String} {d : δ}
    (h : a.assign? name d = some b) : ScopesGrow a b := by
  induction a generalizing b with
  | nil => cases h
  | cons x rest ih =>
    rw [Scopes.assign?] at h
    split at h
    · cases h
      refine .cons (fun other h => ?_) (ScopesGrow.refl rest)
      rw [Dict.contains_insert, h, Bool.or_true]
    · obtain ⟨rest', hrest, rfl⟩ := Option.map_eq_some_iff.1 h
      exact .cons (fun _ h => h) (ih hrest)

/-- A name that cannot be given a value is no local. -/
theorem Scopes.not_binds_of_assign? {a : Scopes δ} {name : String} {d : δ}
    (h : a.assign? name d = none) : ¬ a.binds name := by
  rintro ⟨scope, hscope, hcontains⟩
  induction a with
  | nil => cases hscope
  | cons x rest ih =>
    rw [Scopes.assign?] at h
    split at h
    · cases h
    · next hx =>
      rcases List.mem_cons.1 hscope with rfl | hscope
      · exact hx hcontains
      · exact ih (Option.map_eq_none_iff.1 h) hscope

end Scopes

/-! ### Correspondences -/

/-- How constants `δ` over stocks `σ` correspond to constants `ε` over stocks `τ`. -/
structure Correspondence (σ δ τ ε : Type) where
  /-- What the correspondence of constants depends on. -/
  World : Type
  le : World → World → Prop
  refl : ∀ w, le w w
  trans : ∀ {u v w}, le u v → le v w → le u w
  /-- What a stock means for the correspondence of constants. -/
  world : σ → World
  /-- Two constants correspond in a world. -/
  stands : World → δ → ε → Prop
  mono : ∀ {v w d e}, le v w → stands v d e → stands w d e
  /-- The stocks are in order. -/
  holds : σ → τ → Prop
  /-- The faults with which both machines may stop. -/
  shared : Fault → Prop
  /-- The faults with which the first machine may stop, on a stock, whatever the second one does. -/
  excused : σ → Fault → Prop

variable {σ δ τ ε : Type}

/-- Why both machines stop. -/
inductive StopRel (C : Correspondence σ δ τ ε) (w : C.World) : Stop δ → Stop ε → Prop
  | result {d : δ} {e : ε} : C.stands w d e → StopRel C w (.result d) (.result e)
  | leaveLoop : StopRel C w .leaveLoop .leaveLoop
  | nextRound : StopRel C w .nextRound .nextRound
  | fault {f : Fault} : C.shared f → StopRel C w (.fault f) (.fault f)

/-- Where only equal constants correspond, both machines stop in the same way. -/
theorem StopRel.eq {C : Correspondence σ δ τ δ} {w : C.World} {s s' : Stop δ}
    (h : StopRel C w s s') (hstands : ∀ d e, C.stands w d e → d = e) : s = s' := by
  cases h with
  | result hd => exact congrArg Stop.result (hstands _ _ hd)
  | leaveLoop => rfl
  | nextRound => rfl
  | fault _ => rfl

/-- Two machines between steps, in a world that may have grown. The locals of the given names are
there. -/
structure Near (C : Correspondence σ δ τ ε) (w : C.World) (names : List String)
    (m : Machine σ δ) (n : Machine τ ε) : Prop where
  later : C.le w (C.world m.stock)
  holds : C.holds m.stock n.stock
  scopes : ScopesRel (C.stands (C.world m.stock)) m.scopes n.scopes
  left : m.left = n.left
  nonempty : m.scopes ≠ []
  binds : ∀ name ∈ names, m.scopes.binds name

/-- Two machines `m'` and `n'` that have come from machines of which the first one was `m`. -/
structure After (C : Correspondence σ δ τ ε) (m m' : Machine σ δ) (n' : Machine τ ε) : Prop where
  later : C.le (C.world m.stock) (C.world m'.stock)
  holds : C.holds m'.stock n'.stock
  scopes : ScopesRel (C.stands (C.world m'.stock)) m'.scopes n'.scopes
  left : m'.left = n'.left
  grow : ScopesGrow m.scopes m'.scopes

/-- How two runs end that began with the first machine in the state `m`. -/
inductive Ends {β γ : Type} (C : Correspondence σ δ τ ε) (names : List String)
    (V : C.World → β → γ → Prop) (m : Machine σ δ) :
    EStateM.Result (Stop δ) (Machine σ δ) β → EStateM.Result (Stop ε) (Machine τ ε) γ → Prop
  | ok {b : β} {c : γ} {m' : Machine σ δ} {n' : Machine τ ε} : After C m m' n' →
    (∀ name ∈ names, m'.scopes.binds name) → V (C.world m'.stock) b c →
      Ends C names V m (.ok b m') (.ok c n')
  | stop {s : Stop δ} {s' : Stop ε} {m' : Machine σ δ} {n' : Machine τ ε} : After C m m' n' →
    StopRel C (C.world m'.stock) s s' → Ends C names V m (.error s m') (.error s' n')
  | excused {f : Fault} {m' : Machine σ δ} {u : τ}
    {r : EStateM.Result (Stop ε) (Machine τ ε) γ} :
    C.le (C.world m.stock) (C.world m'.stock) → C.holds m'.stock u → C.excused m'.stock f →
      Ends C names V m (.error (.fault f) m') r

/-- The run `x` is described by the run `y`: from machines that correspond in a world later than
`w`, with the locals `names` there, both runs end alike. If they come to their end, the locals
`names'` are there. -/
def Sim {β γ : Type} (C : Correspondence σ δ τ ε) (w : C.World) (names names' : List String)
    (V : C.World → β → γ → Prop) (x : Eval σ δ β) (y : Eval τ ε γ) : Prop :=
  ∀ m n, Near C w names m n → Ends C names' V m (x m) (y n)

variable {C : Correspondence σ δ τ ε} {w : C.World} {names names' names'' : List String}

/-- Two machines that have not moved. -/
theorem After.refl {m : Machine σ δ} {n : Machine τ ε} (h : Near C w names m n) :
    After C m m n := ⟨C.refl _, h.holds, h.scopes, h.left, .refl _⟩

/-- Two stretches, one after the other. -/
theorem After.trans {m m' m'' : Machine σ δ} {n' n'' : Machine τ ε} (h : After C m m' n')
    (h' : After C m' m'' n'') : After C m m'' n'' :=
  ⟨C.trans h.later h'.later, h'.holds, h'.scopes, h'.left, h.grow.trans h'.grow⟩

/-- Machines are still near when they have gone on. -/
theorem After.near {m m' : Machine σ δ} {n n' : Machine τ ε} (h : Near C w names m n)
    (h' : After C m m' n') (hbinds : ∀ name ∈ names', m'.scopes.binds name) :
    Near C (C.world m'.stock) names' m' n' := by
  refine ⟨C.refl _, h'.holds, h'.scopes, h'.left, ?_, hbinds⟩
  intro hnil
  have hgrow := h'.grow
  rw [hnil] at hgrow
  exact h.nonempty (List.forall₂_nil_right_iff.1 hgrow)

/-- The locals that were there still are. -/
theorem After.binds {m m' : Machine σ δ} {n n' : Machine τ ε} (h : Near C w names m n)
    (h' : After C m m' n') : ∀ name ∈ names, m'.scopes.binds name :=
  fun name hname => h'.grow.binds (h.binds name hname)

namespace Ends

variable {β γ : Type} {V : C.World → β → γ → Prop}
  {r : EStateM.Result (Stop δ) (Machine σ δ) β}
  {r' : EStateM.Result (Stop ε) (Machine τ ε) γ}

/-- Runs that go on from machines that have come from `m` end as runs from `m` do. -/
theorem after {m m' : Machine σ δ} {n' : Machine τ ε} (h : After C m m' n')
    (hr : Ends C names V m' r r') : Ends C names V m r r' := by
  cases hr with
  | ok h' hbinds hV => exact .ok (h.trans h') hbinds hV
  | stop h' hs => exact .stop (h.trans h') hs
  | excused hle hholds hf => exact .excused (C.trans h.later hle) hholds hf

end Ends

/-- Machines stay near when a scope is opened in both. -/
theorem Near.opened {m : Machine σ δ} {n : Machine τ ε} (hn : Near C w names m n)
    {inner : List String} {scope : Dict String δ} {scope' : Dict String ε}
    (hscope : DictRel (C.stands w) scope scope')
    (hinner : ∀ name ∈ inner, name ∈ names ∨ scope.contains name) :
    Near C w inner { m with scopes := scope :: m.scopes } { n with scopes := scope' :: n.scopes } := by
  have hscopes : ScopesRel (C.stands (C.world m.stock)) (scope :: m.scopes)
      (scope' :: n.scopes) := .cons (hscope.imp fun _ _ => C.mono hn.later) hn.scopes
  refine ⟨hn.later, hn.holds, hscopes, hn.left, List.cons_ne_nil _ _, fun name hname => ?_⟩
  rcases hinner name hname with hname | hname
  · obtain ⟨s, hs, hcontains⟩ := hn.binds name hname
    exact ⟨s, List.mem_cons_of_mem _ hs, hcontains⟩
  · exact ⟨scope, List.mem_cons_self .., hname⟩

/-- The end of a run after its innermost scope was closed. -/
def Eval.closed {β : Type} :
    EStateM.Result (Stop δ) (Machine σ δ) β → EStateM.Result (Stop δ) (Machine σ δ) β
  | .ok b m => .ok b { m with scopes := m.scopes.tail }
  | .error stop m => .error stop { m with scopes := m.scopes.tail }

/-- Runs that end alike in a scope of their own end alike. -/
theorem Ends.closed {β γ : Type} {V : C.World → β → γ → Prop} {m : Machine σ δ} {n : Machine τ ε}
    {scope : Dict String δ} {r : EStateM.Result (Stop δ) (Machine σ δ) β}
    {r' : EStateM.Result (Stop ε) (Machine τ ε) γ}
    (h : Ends C names' V { m with scopes := scope :: m.scopes } r r') (hn : Near C w names m n) :
    Ends C names V m (Eval.closed r) (Eval.closed r') := by
  -- the scope that was opened is the first one again, as every other one was closed
  have hclose : ∀ {m' : Machine σ δ} {n' : Machine τ ε},
      After C { m with scopes := scope :: m.scopes } m' n' →
      After C m { m' with scopes := m'.scopes.tail } { n' with scopes := n'.scopes.tail } := by
    rintro ⟨stock, scopes, left⟩ ⟨_, scopes', left'⟩ ⟨hlater, hholds, hs, hleft, hgrow⟩
    cases hgrow with
    | cons _ hgrow =>
      cases hs with
      | cons _ hs => exact ⟨hlater, hholds, hs, hleft, hgrow⟩
  cases h with
  | ok hafter _ hV => exact .ok (hclose hafter) ((hclose hafter).binds hn) hV
  | stop hafter hs => exact .stop (hclose hafter) hs
  | @excused f m' u r' hle hholds hf => exact .excused hle hholds hf

/-- The end of one round of a loop. -/
def Eval.rounded :
    EStateM.Result (Stop δ) (Machine σ δ) Unit → EStateM.Result (Stop δ) (Machine σ δ) Bool
  | .ok () m => .ok true m
  | .error .nextRound m => .ok true m
  | .error .leaveLoop m => .ok false m
  | .error stop m => .error stop m

/-- Rounds that end alike agree in whether the loop goes on. -/
theorem Ends.rounded {m : Machine σ δ} {n : Machine τ ε}
    {r : EStateM.Result (Stop δ) (Machine σ δ) Unit}
    {r' : EStateM.Result (Stop ε) (Machine τ ε) Unit}
    (h : Ends C names (fun _ _ _ => True) m r r') (hn : Near C w names m n) :
    Ends C names (fun _ b c => b = c) m (Eval.rounded r) (Eval.rounded r') := by
  cases h with
  | ok hafter hbinds _ => exact .ok hafter hbinds rfl
  | stop hafter hs =>
    cases hs with
    | result hd => exact .stop hafter (.result hd)
    | leaveLoop => exact .ok hafter (hafter.binds hn) rfl
    | nextRound => exact .ok hafter (hafter.binds hn) rfl
    | fault hf => exact .stop hafter (.fault hf)
  | excused hle hholds hf => exact .excused hle hholds hf

/-! ### Runs that are put together -/

namespace Sim

variable {β γ β' γ' : Type} {V : C.World → β → γ → Prop} {W : C.World → β' → γ' → Prop}
  {x : Eval σ δ β} {y : Eval τ ε γ}

/-- In a later world, and with more locals. -/
theorem mono {w' : C.World} {more : List String} (h : Sim C w names names' V x y)
    (hle : C.le w w') (hmore : ∀ name ∈ names, name ∈ more) : Sim C w' more names' V x y :=
  fun m n hn => h m n ⟨C.trans hle hn.later, hn.holds, hn.scopes, hn.left, hn.nonempty,
    fun name hname => hn.binds name (hmore name hname)⟩

/-- In a later world. -/
theorem later {w' : C.World} (h : Sim C w names names' V x y) (hle : C.le w w') :
    Sim C w' names names' V x y := h.mono hle fun _ h => h

/-- Related values, returned by both runs. -/
theorem pure {b : β} {c : γ} (h : ∀ w', C.le w w' → V w' b c) :
    Sim C w names names V (Pure.pure b) (Pure.pure c) :=
  fun _ _ hn => .ok (.refl hn) hn.binds (h _ hn.later)

/-- Both machines stop. -/
theorem stop {s : Stop δ} {s' : Stop ε} (h : ∀ w', C.le w w' → StopRel C w' s s') :
    Sim C w names names' V (throw s) (throw s') :=
  fun _ _ hn => .stop (.refl hn) (h _ hn.later)

/-- Both machines stop with the same fault. -/
theorem raise {f : Fault} (h : C.shared f) :
    Sim C w names names' V (Eval.raise f) (Eval.raise f) := stop fun _ _ => .fault h

/-- A run that goes on in every world in which its first part may end. -/
theorem bind {f : β → Eval σ δ β'} {g : γ → Eval τ ε γ'} (h : Sim C w names names' V x y)
    (hnext : ∀ w' b c, C.le w w' → V w' b c → Sim C w' names' names'' W (f b) (g c)) :
    Sim C w names names'' W (x >>= f) (y >>= g) := by
  intro m n hn
  have hends := h m n hn
  show Ends C names'' W m (EStateM.bind x f m) (EStateM.bind y g n)
  unfold EStateM.bind
  generalize x m = r at hends ⊢
  generalize y n = r' at hends ⊢
  cases hends with
  | @ok b c m' n' hafter hbinds hV =>
    have hle : C.le w (C.world m'.stock) := C.trans hn.later hafter.later
    exact (hnext _ b c hle hV m' n' (hafter.near hn hbinds)).after hafter
  | stop hafter hs => exact .stop hafter hs
  | excused hle hholds hf => exact .excused hle hholds hf

/-- A run that goes on with a value that is equal on both sides. -/
theorem bind_eq {x : Eval σ δ β} {y : Eval τ ε β} {f : β → Eval σ δ β'} {g : β → Eval τ ε γ'}
    (h : Sim C w names names' (fun _ b c => b = c) x y)
    (hnext : ∀ w' b, C.le w w' → Sim C w' names' names'' W (f b) (g b)) :
    Sim C w names names'' W (x >>= f) (y >>= g) :=
  h.bind fun w' b c hle hbc => by
    subst hbc
    exact hnext w' b hle

/-- Results that are known. -/
theorem ofExcept {p : Except Fault β} {q : Except Fault γ}
    (h : ∀ w', C.le w w' → Agree C.shared (V w') p q) :
    Sim C w names names V (Eval.ofExcept p) (Eval.ofExcept q) := by
  intro m n hn
  have hagree := h _ hn.later
  cases hagree with
  | ok hV => exact .ok (.refl hn) hn.binds hV
  | error hf => exact .stop (.refl hn) (.fault hf)

/-- Steps are taken by both machines or by none. -/
theorem spend {f : Fault} (hf : C.shared f) (steps : Nat) :
    Sim C w names names (fun _ _ _ => True) (Eval.spend f steps) (Eval.spend f steps) := by
  intro m n hn
  simp only [Eval.spend, hn.left]
  split
  · exact .ok ⟨C.refl _, hn.holds, hn.scopes, rfl, .refl _⟩ hn.binds trivial
  · exact .stop (.refl hn) (.fault hf)

/-- The next part of a run depends on the state of the machine. -/
theorem get_bind {f : Machine σ δ → Eval σ δ β} {g : Machine τ ε → Eval τ ε γ}
    (h : ∀ m n, Near C w names m n → Ends C names' V m (f m m) (g n n)) :
    Sim C w names names' V (get >>= f) (get >>= g) := h

/-! ### Scopes -/

/-- A part of a run in a scope of its own. -/
theorem inScope {inner inner' : List String} {scope : Dict String δ} {scope' : Dict String ε}
    (hscope : DictRel (C.stands w) scope scope')
    (hinner : ∀ name ∈ inner, name ∈ names ∨ scope.contains name)
    (h : Sim C w inner inner' V x y) :
    Sim C w names names V (Eval.inScope scope x) (Eval.inScope scope' y) := by
  intro m n hn
  exact (h _ _ (hn.opened hscope hinner)).closed hn

/-- A local is declared. -/
theorem declare (name : String) {d : δ} {e : ε} (h : C.stands w d e) :
    Sim C w names (name :: names) (fun _ _ _ => True) (Eval.declare name d)
      (Eval.declare name e) := by
  intro m n hn
  have hgrow := m.scopes.grow_declare name d
  refine .ok ⟨C.refl _, hn.holds, hn.scopes.declare (C.mono hn.later h), hn.left, hgrow⟩ ?_ trivial
  intro other hother
  rcases List.mem_cons.1 hother with rfl | hother
  · exact m.scopes.binds_declare hn.nonempty other d
  · exact hgrow.binds (hn.binds other hother)

/-- A local gets a new value, if it is there. -/
theorem assign (name : String) {d : δ} {e : ε} (h : C.stands w d e) {f : Fault}
    (hf : C.shared f) :
    Sim C w names names (fun _ _ _ => True) (Eval.assign f name d) (Eval.assign f name e) := by
  intro m n hn
  have hassign := hn.scopes.assign? name (C.mono hn.later h)
  unfold Eval.assign
  rcases hm : m.scopes.assign? name d with _ | scopes
  · rw [hm] at hassign
    generalize n.scopes.assign? name e = v at hassign ⊢
    cases hassign
    exact .stop (.refl hn) (.fault hf)
  · have hgrow := Scopes.grow_assign? hm
    rw [hm] at hassign
    generalize n.scopes.assign? name e = v at hassign ⊢
    cases hassign with
    | some hscopes =>
      exact .ok ⟨C.refl _, hn.holds, hscopes, hn.left, hgrow⟩
        (fun other hother => hgrow.binds (hn.binds other hother)) trivial

/-! ### Loops -/

/-- One round of a loop. -/
theorem round {inner inner' : List String} {scope : Dict String δ} {scope' : Dict String ε}
    {body : Eval σ δ Unit} {body' : Eval τ ε Unit}
    (hscope : DictRel (C.stands w) scope scope')
    (hinner : ∀ name ∈ inner, name ∈ names ∨ scope.contains name)
    (h : Sim C w inner inner' (fun _ _ _ => True) body body') :
    Sim C w names names (fun _ b c => b = c) (Eval.round scope body) (Eval.round scope' body') :=
  fun m n hn => (h.inScope hscope hinner m n hn).rounded hn

/-- A loop with a condition. -/
theorem loop {f : Fault} (hf : C.shared f) {test : Eval σ δ Bool} {test' : Eval τ ε Bool}
    {body : Eval σ δ Unit} {body' : Eval τ ε Unit} {inner' : List String}
    (htest : Sim C w names names (fun _ b c => b = c) test test')
    (hbody : Sim C w names inner' (fun _ _ _ => True) body body') (rounds : Nat) :
    Sim C w names names (fun _ _ _ => True) (Eval.loop f test body rounds)
      (Eval.loop f test' body' rounds) := by
  induction rounds generalizing w with
  | zero => exact raise hf
  | succ rounds ih =>
    refine (spend hf 1).bind fun w₁ _ _ h₁ _ => ?_
    refine (htest.later h₁).bind_eq fun w₂ b h₂ => ?_
    have hle := C.trans h₁ h₂
    cases b
    · exact pure fun _ _ => trivial
    · have hround : Sim C w₂ names names (fun _ b c => b = c) (Eval.round .empty body)
          (Eval.round .empty body') := (hbody.later hle).round .empty fun _ h => .inl h
      refine hround.bind_eq fun w₃ b h₃ => ?_
      have hle := C.trans hle h₃
      cases b
      · exact pure fun _ _ => trivial
      · exact ih (htest.later hle) (hbody.later hle)

/-- Within a loop the names are those outside and the one that the loop binds. -/
theorem binder_or_mem (binder : String) (d : δ) :
    ∀ name ∈ binder :: names, name ∈ names ∨ (Dict.one binder d).contains name := by
  intro name hname
  rcases List.mem_cons.1 hname with rfl | hname
  · refine .inr ?_
    rw [Dict.one, Dict.contains_insert, decide_eq_true rfl, Bool.true_or]
  · exact .inl hname

/-- A loop through lists that correspond. -/
theorem forEach {f : Fault} (hf : C.shared f) {binder : String} {body : Eval σ δ Unit}
    {body' : Eval τ ε Unit} {inner' : List String}
    (hbody : Sim C w (binder :: names) inner' (fun _ _ _ => True) body body') {ds : List δ}
    {es : List ε} (h : List.Forall₂ (C.stands w) ds es) :
    Sim C w names names (fun _ _ _ => True) (Eval.forEach f binder body ds)
      (Eval.forEach f binder body' es) := by
  induction ds generalizing es w with
  | nil =>
    cases h
    exact pure fun _ _ => trivial
  | cons d ds ih =>
    cases h with
    | cons hd h =>
      refine (spend hf 1).bind fun w₁ _ _ h₁ _ => ?_
      have hround : Sim C w₁ names names (fun _ b c => b = c) (Eval.round (.one binder d) body)
          (Eval.round (.one binder _) body') :=
        (hbody.later h₁).round (.one (C.mono h₁ hd)) (binder_or_mem binder d)
      refine hround.bind_eq fun w₂ b h₂ => ?_
      have hle := C.trans h₁ h₂
      cases b
      · exact pure fun _ _ => trivial
      · exact ih (hbody.later hle) (h.imp fun _ _ => C.mono hle)

/-- What is produced for the elements of lists that correspond. -/
theorem collect {f : Fault} (hf : C.shared f) {binder : String} {produce : Eval σ δ (Option δ)}
    {produce' : Eval τ ε (Option ε)} {inner' : List String}
    (hproduce : Sim C w (binder :: names) inner' (fun w => Option.Rel (C.stands w)) produce
      produce')
    {ds : List δ} {es : List ε} (h : List.Forall₂ (C.stands w) ds es) {done : Array δ}
    {done' : Array ε} (hdone : List.Forall₂ (C.stands w) done.toList done'.toList) :
    Sim C w names names (fun w ds es => List.Forall₂ (C.stands w) ds.toList es.toList)
      (Eval.collect f binder produce ds done) (Eval.collect f binder produce' es done') := by
  induction ds generalizing es w done done' with
  | nil =>
    cases h
    exact pure fun w' hle => hdone.imp fun _ _ => C.mono hle
  | cons d ds ih =>
    cases h with
    | cons hd h =>
      refine (spend hf 1).bind fun w₁ _ _ h₁ _ => ?_
      have hitem : Sim C w₁ names names (fun w => Option.Rel (C.stands w))
          (Eval.inScope (.one binder d) produce) (Eval.inScope (.one binder _) produce') :=
        (hproduce.later h₁).inScope (.one (C.mono h₁ hd)) (binder_or_mem binder d)
      refine hitem.bind fun w₂ o o' h₂ ho => ?_
      have hle := C.trans h₁ h₂
      have hrest := h.imp fun _ _ => C.mono hle
      have hdone' := hdone.imp fun _ _ => C.mono hle
      cases ho with
      | none => exact ih (hproduce.later hle) hrest hdone'
      | some hv =>
        refine ih (hproduce.later hle) hrest ?_
        rw [Array.toList_push, Array.toList_push]
        exact List.rel_append hdone' (.cons hv .nil)

end Sim

end ConstPool
