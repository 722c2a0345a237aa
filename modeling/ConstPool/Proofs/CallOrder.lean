import ConstPool.Proofs.History
import ConstPool.Proofs.Ladder
import ConstPool.Proofs.Recovery

/-!
# The order of calls

A request has one outcome: it does not matter whether it is issued in a stock in which only values
were handed in, or after any other requests. Under a limit of more than one this takes chains of
accepted declarations that are within the limit, since a breach is kept for every body that waits
in the chain. Under a limit of one or none no result is kept but that of the request itself.

That the order does not matter within the limit follows from what is known about every request: its
outcome is that on trees, which knows of no order. Beyond the limit it does matter. On a ladder of
functions the topmost call is refused, and with it every body that waits for it; a function of the
ladder then has a breach in the cache that a call of its own would not come upon. A limit of two is
enough for that, so the result is exact: for every bound on the chains and every limit, either all
programs with such chains are independent of the order, or a ladder shows that one of them is not.

* `Outcome.Alike`: outcomes that come to the same.
* `Analysis.OrderIndependent`: every request has one outcome.
* `Analysis.orderIndependent_iff`: when this holds of every program.
-/

namespace ConstPool

open Draft Relation

/-- Outcomes in two pools that come to the same: identities of one constant, or one fault. -/
inductive Outcome.Alike (p q : Pool) : Outcome → Outcome → Prop
  | ok {id id' : ValueId} (t : Tree Holding) :
    p.Denotes id t → q.Denotes id' t → Alike p q (.ok id) (.ok id')
  | error (f : Fault) : Alike p q (.error f) (.error f)

/-- Outcomes that agree with one outcome on trees come to the same. -/
theorem Outcome.Alike.of_agree {E E' : Fault → Prop} {p q : Pool} {o o' : Outcome}
    {x : Except Fault (Tree Holding)} (h : Agree E p.Denotes o x) (h' : Agree E' q.Denotes o' x) :
    Outcome.Alike p q o o' := by
  cases h with
  | ok hid =>
    cases h' with
    | ok hid' => exact .ok _ hid hid'
  | error =>
    cases h' with
    | error => exact .error _

/-- A stock in which only values have been handed in. -/
inductive Stock.Fresh : Stock → Prop
  | empty : Fresh {}
  | intern {s : Stock} (value : Value) : Fresh s → Fresh ((Work.intern value).outcome s).2

/-- A fresh stock is where every run may start. -/
theorem Stock.Fresh.reached {s : Stock} (h : s.Fresh) (a : Analysis) : s.Reached a := by
  induction h with
  | empty => exact .refl
  | intern value _ ih => exact ih.tail (.intern trivial)

namespace Analysis

/-- Every request has one outcome: requests with the same constants for arguments, one in a fresh
stock and one after any others, come to the same. -/
def OrderIndependent (a : Analysis) : Prop :=
  ∀ (s₀ s₁ : Stock) (r₀ r₁ : Request ValueId Atom) (t : Request (Tree Holding) (Tree Holding)),
    s₀.Fresh → s₁.Reached a → r₀.Declared a.program → Request.Means s₀.pool r₀ t →
      Request.Means s₁.pool r₁ t →
        Outcome.Alike ((a.invoke r₀).outcome s₀).2.pool ((a.invoke r₁).outcome s₁).2.pool
          ((a.invoke r₀).outcome s₀).1 ((a.invoke r₁).outcome s₁).1

variable {a : Analysis}

/-! ### Chains within the limit -/

/-- Requests with the same constants for arguments come to the same, unless what they request leads
to a chain that is too long. -/
theorem Sound.alike (hs : a.Sound) {s₀ s₁ : Stock} (h₀ : s₀.Reached a) (h₁ : s₁.Reached a)
    {r₀ r₁ : Request ValueId Atom} {t : Request (Tree Holding) (Tree Holding)}
    (hdeclared : r₀.Declared a.program) (hr₀ : Request.Means s₀.pool r₀ t)
    (hr₁ : Request.Means s₁.pool r₁ t) :
    Outcome.Alike ((a.invoke r₀).outcome s₀).2.pool ((a.invoke r₁).outcome s₁).2.pool
      ((a.invoke r₀).outcome s₀).1 ((a.invoke r₁).outcome s₁).1 ∨ ∃ m, a.Exposed r₀.node m := by
  have hP := hs.upholds_explained
  obtain ⟨hgrows₀, -, t₀, ht₀, ho₀⟩ := hP.answered hdeclared hr₀.known (h₀.faithful hP)
  obtain ⟨hgrows₁, -, t₁, ht₁, ho₁⟩ :=
    hP.answered (hr₁.declared_iff.2 (hr₀.declared_iff.1 hdeclared)) hr₁.known (h₁.faithful hP)
  obtain rfl := (hr₀.mono hgrows₀.keeps).functional ht₀
  obtain rfl := (hr₁.mono hgrows₁.keeps).functional ht₁
  rw [hr₁.node_eq, ← hr₀.node_eq] at ho₁
  rcases ho₀ with hagree₀ | ⟨f, ⟨m, hm, -⟩, -⟩
  · rcases ho₁ with hagree₁ | ⟨f, ⟨m, hm, -⟩, -⟩
    · obtain ⟨k, hk⟩ := hs.exists_shallow r₀.node
      exact .inl (.of_agree (hagree₀ k hk) (hagree₁ k hk))
    · exact .inr ⟨m, hm⟩
  · exact .inr ⟨m, hm⟩

/-! ### A limit of one or none -/

/-- The outcome of a request is that on trees, where as many bodies may be nested as the settings
allow. -/
def Direct (a : Analysis) : Account := fun pool r o =>
  ∃ t : Request (Tree Holding) (Tree Holding), Request.Means pool r t ∧
    Agree (fun _ => True) pool.Denotes o (a.answer a.settings.maxCallDepth t)

/-- The outcome on trees is that of the request in later pools as well. -/
theorem lasting_direct : (Direct a).Lasting := by
  rintro p q r o hkeeps ⟨t, ht, ho⟩
  exact ⟨t, ht.mono hkeeps, ho.imp_value fun id u hid => hid.mono hkeeps⟩

/-- Where no body may be nested any more, requests have the outcomes that they have on trees. -/
theorem outcome_resolve_zero_eq {p : Option Chain} {r : Request ValueId Atom} {s : Stock}
    {t : Request (Tree Holding) (Tree Holding)} (hmeans : Request.Means s.pool r t)
    (hdepth : (Chain.extend p r.node.name).depth = a.settings.maxCallDepth) :
    ∃ f, (a.resolve 0 p r).outcome s = (.error f, s) ∧ a.answer 0 t = .error f := by
  rcases hbody : a.bodyOf r with f | body
  · exact ⟨f, outcome_resolve_of_error hbody, answer_of_error (hmeans.bodyOf_eq ▸ hbody) 0⟩
  · refine ⟨_, outcome_resolve_zero hbody, ?_⟩
    rw [hdepth, answer, ← hmeans.bodyOf_eq, hbody, hmeans.node_eq]
    rfl

/-- Under a limit of one no body has a nested one, so every outcome is that of the body alone. -/
theorem Sound.upholds_direct (hs : a.Sound) (hlimit : a.settings.maxCallDepth ≤ 1) :
    a.Upholds a.Direct where
  lasting := lasting_direct
  answered := by
    intro s r hdeclared hknown h
    obtain ⟨t, ht⟩ := hknown.exists_means h.sound
    unfold invoke
    rcases hbody : a.bodyOf r with f | body
    · rw [outcome_resolve_of_error hbody]
      refine ⟨.refl _, h, t, ht, ?_⟩
      rw [answer_of_error (ht.bodyOf_eq ▸ hbody)]
      exact .error trivial
    · rcases Nat.le_one_iff_eq_zero_or_eq_one.1 hlimit with hzero | hone
      · rw [hzero]
        obtain ⟨f, hrun, hanswer⟩ := outcome_resolve_zero_eq (a := a) (p := none) ht hzero.symm
        rw [hrun]
        refine ⟨.refl _, h, t, ht, ?_⟩
        rw [hzero, hanswer]
        exact .error trivial
      · rw [hone, resolve_of_passes hbody rfl]
        have hpasses : r.Passes a body := ⟨hdeclared, hbody⟩
        refine h.remember lasting_direct hpasses (fun hkey => nomatch hkey) fun s' hpool hs' => ?_
        rw [← hpool] at ht
        -- no call is left for a nested request, which fails at once in the machine and on trees
        have hinner : ∀ {r' : Request ValueId Atom} {t' : Request (Tree Holding) (Tree Holding)}
            {s''}, r'.node ∈ a.graph.needs.direct r.node → r'.Declared a.program →
              Stock.Faithful a a.Direct [r.key] s'' → Request.Means s''.pool r' t' →
                Work.Ends Holding (Stock.Faithful a a.Direct [r.key]) (fun _ => True)
                  (fun _ => False) Pool.Denotes s''
                  (a.resolve 0 (some (Chain.extend none r.node.name)) r' s'') (a.answer 0 t') := by
          intro r' t' s'' _ _ hs'' hmeans'
          obtain ⟨f, hrun, hanswer⟩ := outcome_resolve_zero_eq (a := a)
            (p := some (Chain.extend none r.node.name)) hmeans' hone.symm
          rw [Work.eq_error_of_outcome hrun, hanswer]
          exact .error (.refl _) hs'' trivial
        have hname : (Chain.extend none r.node.name).name = r.node.name := rfl
        obtain ⟨surroundings, hlocals, hvetted, hrel⟩ :=
          hs.envRel (Stock.Faithful.invariant Holding lasting_direct [r.key])
            (fun _ _ => trivial) hpasses ht hname hinner
        obtain ⟨hgrows, hfaithful, hagree | ⟨f, hf, -⟩⟩ :=
          Work.ends_iff.1 (hrel.run hlocals hvetted hs' (.refl _))
        · refine ⟨hgrows, hfaithful, t, ht.mono hgrows.keeps, ?_⟩
          rw [hone, answer_of_passes (ht.bodyOf_eq ▸ hbody), ← ht.node_eq]
          exact hagree
        · exact hf.elim

/-- Under a limit of one or none every request has one outcome. -/
theorem Sound.orderIndependent_of_le_one (hs : a.Sound) (hlimit : a.settings.maxCallDepth ≤ 1) :
    a.OrderIndependent := by
  intro s₀ s₁ r₀ r₁ t h₀ h₁ hdeclared hr₀ hr₁
  have hP := hs.upholds_direct hlimit
  obtain ⟨hgrows₀, -, t₀, ht₀, hagree₀⟩ :=
    hP.answered hdeclared hr₀.known ((h₀.reached a).faithful hP)
  obtain ⟨hgrows₁, -, t₁, ht₁, hagree₁⟩ :=
    hP.answered (hr₁.declared_iff.2 (hr₀.declared_iff.1 hdeclared)) hr₁.known (h₁.faithful hP)
  obtain rfl := (hr₀.mono hgrows₀.keeps).functional ht₀
  obtain rfl := (hr₁.mono hgrows₁.keeps).functional ht₁
  exact .of_agree hagree₀ hagree₁

/-! ### Chains beyond the limit -/

/-- In a ladder that is higher than the limit, the second function keeps the breach that ended the
call of the first one. Called before, it ends with the refusal of the last one. -/
theorem not_orderIndependent_of_tall {limit : Nat} (hlimit : 2 ≤ limit) :
    ¬ (Ladder.tall limit).OrderIndependent := by
  intro h
  have hdeclared : ∀ i ≤ limit + 1, (Ladder.call (limit + 1) i).Declared
      (Ladder.tall limit).program := fun i hi => Ladder.get?_rung hi
  have hknown : ∀ i, (Ladder.call (limit + 1) i).Known ({} : Stock).pool :=
    fun i => ⟨fun _ hid => (nomatch hid), fun _ hx => (nomatch hx)⟩
  have hmeans : ∀ pool, Request.Means (α := Holding) pool (Ladder.call (limit + 1) 1)
      (.call (Ladder.function (limit + 1) 1) [] []) := fun pool => .call _ .nil .nil
  obtain ⟨s₀, hfirst, hkept⟩ := Ladder.invoke_tall (Nat.zero_le (limit + 1))
  obtain ⟨s₁, hsecond, -⟩ := Ladder.invoke_tall (i := 1) (by omega)
  have hreached : s₀.Reached (Ladder.tall limit) := by
    rw [← show (((Ladder.tall limit).invoke _).outcome {}).2 = s₀ from congrArg Prod.snd hfirst]
    exact .single (.request (hdeclared 0 (Nat.zero_le _)) (hknown 0))
  have hbody : (Ladder.tall limit).bodyOf (Ladder.call (limit + 1) 1) = _ :=
    Ladder.bodyOf_call (by omega)
  rw [if_neg (by omega)] at hbody
  -- the cache answers with the breach that ended this call when it was nested in the first one
  have hagain : ((Ladder.tall limit).invoke (Ladder.call (limit + 1) 1)).outcome s₀ =
      (.error (Ladder.fate (limit + 1) limit (0 + limit)), { s₀ with memo := s₀.memo.hit }) := by
    obtain ⟨l, rfl⟩ : ∃ l, limit = l + 1 := ⟨limit - 1, by omega⟩
    show ((resolve _ (l + 1) none _).outcome s₀) = _
    rw [resolve_of_passes hbody rfl,
      Work.outcome_remember_of_done (hkept 1 (by omega) (by omega) (by omega))]
  have halike := h {} s₀ _ _ _ .empty hreached (hdeclared 1 (by omega)) (hmeans _) (hmeans _)
  rw [hsecond, hagain, Ladder.fate, if_neg (by omega), Ladder.fate, if_pos (by omega)] at halike
  cases halike

/-- Requests with the same constants for arguments, one in a fresh stock and one after any others,
come to the same, unless what they request leads to a chain that is too long. And every request of
all programs in which chains have at most so many members has one outcome under a limit exactly if
the chains are within the limit, or the limit is one or none. -/
theorem orderIndependent_iff (bound limit : Nat) :
    (∀ (declarations : List Declaration) (types : Types) (settings : Settings) (s₀ s₁ : Stock)
      (r₀ r₁ : Request ValueId Atom) (t : Request (Tree Holding) (Tree Holding)),
      s₀.Fresh → s₁.Reached (build (.declareAll {} declarations) types settings) →
        r₀.Declared (.declareAll {} declarations) → Request.Means s₀.pool r₀ t →
          Request.Means s₁.pool r₁ t →
            (¬ ∃ m, (build (.declareAll {} declarations) types settings).Exposed r₀.node m) →
              Outcome.Alike
                (((build (.declareAll {} declarations) types settings).invoke r₀).outcome s₀).2.pool
                (((build (.declareAll {} declarations) types settings).invoke r₁).outcome s₁).2.pool
                (((build (.declareAll {} declarations) types settings).invoke r₀).outcome s₀).1
                (((build (.declareAll {} declarations) types settings).invoke r₁).outcome s₁).1) ∧
    ((∀ (declarations : List Declaration) (types : Types) (settings : Settings),
      settings.maxCallDepth = limit →
        (build (.declareAll {} declarations) types settings).ChainsWithin bound →
          (build (.declareAll {} declarations) types settings).OrderIndependent) ↔
      bound ≤ limit ∨ limit ≤ 1) := by
  refine ⟨?_, fun h => ?_, ?_⟩
  · intro declarations types settings s₀ s₁ r₀ r₁ t h₀ h₁ hdeclared hr₀ hr₁ hexposed
    have hs := sound_build (Program.declared_declareAll declarations) types settings
    exact (hs.alike (h₀.reached _) h₁ hdeclared hr₀ hr₁).resolve_right hexposed
  · by_contra hlt
    rw [not_or, Nat.not_le, Nat.not_le] at hlt
    refine not_orderIndependent_of_tall hlt.2 (h (Ladder.declarations (limit + 1)) .empty
      { stepBudget := 1, maxCallDepth := limit } rfl fun n k hk => ?_)
    obtain ⟨i, hi, -, hle⟩ := Ladder.stacked_le hk
    omega
  · rintro hcases declarations types settings rfl hchains
    have hs := sound_build (Program.declared_declareAll declarations) types settings
    rcases hcases with hle | hle
    · intro s₀ s₁ r₀ r₁ t h₀ h₁ hdeclared hr₀ hr₁
      refine (hs.alike (h₀.reached _) h₁ hdeclared hr₀ hr₁).resolve_right ?_
      rintro ⟨m, hm⟩
      have := hchains m _ hm.stacked
      exact absurd (Nat.le_trans this hle) (Nat.not_succ_le_self _)
    · exact hs.orderIndependent_of_le_one hle

/-- Four functions, each of which calls the next one and the last one itself, under a limit of two:
the second one is refused for what it needs, but after the first one it ends with a breach. -/
theorem second_of_ladder :
    ∃ s, s.Reached (build (Ladder.program 3) .empty { maxCallDepth := 2 }) ∧
      (((build (Ladder.program 3) .empty { maxCallDepth := 2 }).invoke (Ladder.call 3 1)).outcome
        {}).1 = .error (.impure (.recursive "ffff")) ∧
      (((build (Ladder.program 3) .empty { maxCallDepth := 2 }).invoke (Ladder.call 3 1)).outcome
        s).1 = .error (.breach (.outsideCallGraph "fff" 2)) := by
  let a := build (Ladder.program 3) .empty { maxCallDepth := 2 }
  have hdeclared : (Ladder.call 3 0).Declared a.program := Ladder.get?_rung (Nat.zero_le 3)
  have hknown : (Ladder.call 3 0).Known ({} : Stock).pool :=
    ⟨fun _ hid => (nomatch hid), fun _ hx => (nomatch hx)⟩
  exact ⟨_, .single (.request hdeclared hknown), by with_unfolding_all rfl, by with_unfolding_all rfl⟩

end Analysis

end ConstPool
