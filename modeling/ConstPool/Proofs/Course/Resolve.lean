import ConstPool.Proofs.History
import ConstPool.Proofs.Course.Related

/-!
# Every request is answered

The bodies that run at one time are in a chain, and the settings bound its length. So requests are
answered although nothing bounds how many are issued: a body that issues one is nested less deeply
than the body that answers it. There is one answer, and it is the one that is computed with a bound
on the calls that are left. The bound is never what ends a course; what ends it is the length of the
chain, which is compared with the settings.

* `Chain.Nests`: a chain with further bodies nested in its body.
* `Stock.Engaged`: a stock in which the results that are being computed are known.
* `Analysis.answers_resolve`: a request is answered as it is resolved.
* `Analysis.courses_runIn`: a body goes as it is run.
-/

namespace ConstPool

/-! ### Chains -/

/-- A chain with so many further bodies nested in its body. -/
inductive Chain.Nests (c : Chain) : Nat → Chain → Prop
  | self : Nests c 0 c
  | deeper {n : Nat} {d : Chain} (name : String) : Nests c n d →
    Nests c (n + 1) (Chain.extend (some d) name)

/-- What is nested in a body that is nested in another one is nested in that one. -/
theorem Chain.Nests.outward {c d : Chain} {n : Nat} {name : String}
    (h : (Chain.extend (some c) name).Nests n d) : c.Nests (n + 1) d := by
  induction h with
  | self => exact .deeper name .self
  | deeper other _ ih => exact .deeper other ih

/-- A chain that was extended has the name of the body that begins. -/
@[simp] theorem Chain.name_extend (parent : Option Chain) (name : String) :
    (Chain.extend parent name).name = name := by
  cases parent <;> rfl

/-- The head of a chain is in it, and so is what is in the chain before. -/
theorem Chain.contains_extend {parent : Option Chain} {name name' : String}
    (h : name' = name ∨ (parent.any fun c => c.contains name') = true) :
    (Chain.extend parent name).contains name' = true := by
  rw [Chain.contains, Bool.or_eq_true, decide_eq_true_eq, Chain.name_extend]
  refine h.imp Eq.symm fun hbefore => ?_
  cases parent with
  | none => cases hbefore
  | some c =>
    rw [Option.any_some, Chain.contains, Bool.or_eq_true, decide_eq_true_eq,
      List.contains_iff_mem] at hbefore
    rw [Chain.extend, List.contains_iff_mem]
    exact List.mem_cons.2 (hbefore.imp Eq.symm id)

/-- A body has come to its end within a chain: it took as many steps as there are and one more at
most, and the chain was never longer than the settings allow. -/
structure Ended.Within (a : Analysis) (parent : Option Chain) (e : Ended) : Prop where
  ticks : e.ticks ≤ a.settings.stepBudget + 1
  nested : ∃ name n, (Chain.extend parent name).Nests n e.chain ∧
    (Chain.extend parent name).depth + n < a.settings.maxCallDepth

/-- What has come to its end within a nested body has come to its end within the outer one. -/
theorem Ended.Within.outward {a : Analysis} {parent : Option Chain} {name : String} {e : Ended}
    (h : e.Within a (some (Chain.extend parent name))) : e.Within a parent where
  ticks := h.ticks
  nested := by
    obtain ⟨name', n, hnests, hdepth⟩ := h.nested
    refine ⟨name, n + 1, hnests.outward, ?_⟩
    have hdeeper : (Chain.extend (some (Chain.extend parent name)) name').depth =
        (Chain.extend parent name).depth + 1 := rfl
    omega

/-! ### Results that are being computed -/

/-- A stock with a sound pool, in which nothing is being computed but what is known to be. -/
structure Stock.Engaged (busy : MemoKey → Prop) (s : Stock) : Prop where
  sound : s.pool.Sound
  running : ∀ key, s.memo.cells.get? key = some .running → busy key

namespace Stock.Engaged

variable {busy : MemoKey → Prop} {s : Stock}

/-- Constants may be pooled. -/
theorem fair (busy : MemoKey → Prop) : (Terms.keeping (Engaged busy)).Fair where
  dynamic _ _ := trivial
  intern value := Work.conforms_keeping_iff.2 fun s hs => by
    obtain ⟨-, hpool, hmemo⟩ := Stock.intern_eq value s
    refine ⟨?_, fun key => ?_⟩
    · rw [hpool]
      exact (hs.sound.intern value).1
    · rw [hmemo]
      exact hs.running key

/-- No draft can be opened forever. -/
theorem wellFounded (s : Stock) (h : s.Engaged busy) : WellFounded (Draft.PartIn s.pool) :=
  h.sound.wellFounded

/-- The computation of a key begins. -/
theorem start (h : s.Engaged busy) (key : MemoKey) :
    Stock.Engaged (fun k => k = key ∨ busy k) { s with memo := s.memo.start key } where
  sound := h.sound
  running k hk := by
    rw [Memo.start, Dict.get?_insert] at hk
    split at hk
    · next heq => exact .inl heq
    · exact .inr (h.running k hk)

/-- The computation of a key ends. -/
theorem finish {key : MemoKey} (h : s.Engaged fun k => k = key ∨ busy k) (o : Outcome) :
    Stock.Engaged busy { s with memo := s.memo.finish key o } where
  sound := h.sound
  running k hk := by
    rw [Memo.finish, Dict.get?_insert] at hk
    split at hk
    · cases hk
    · next hne => exact (h.running k hk).resolve_left hne

end Stock.Engaged

namespace Analysis

variable {a : Analysis} {parent : Option Chain} {busy : MemoKey → Prop}
  {r : Request ValueId Atom} {s : Stock} {callsLeft : Nat}

/-! ### Answers -/

/-- The calls that are left are those up to the depth that the settings allow, and none beyond it.
-/
def Reckons (a : Analysis) (callsLeft : Nat) (parent : Option Chain) : Prop :=
  ∀ name, callsLeft = a.settings.maxCallDepth - (Chain.extend parent name).depth

/-- A request that would be nested too deeply, or twice, is a breach. -/
theorem outcome_resolve_of_outside (hcalls : a.Reckons callsLeft parent) {body : Expr}
    (hbody : a.bodyOf r = .ok body) (hout : a.Outside parent r.node.name) :
    (a.resolve callsLeft parent r).outcome s =
      (.error (.breach (.outsideCallGraph r.node.name (Chain.extend parent r.node.name).depth)),
        s) := by
  have hleft := hcalls r.node.name
  rcases callsLeft with _ | callsLeft
  · exact outcome_resolve_zero hbody
  · rcases hout with hdeep | hrepeated
    · omega
    · exact outcome_resolve_of_repeated hbody hrepeated

/-- A request that may be nested leaves one call less for the body that is run. -/
theorem Reckons.next (hcalls : a.Reckons callsLeft parent) {name : String}
    (hout : ¬ a.Outside parent name) : ∃ n, callsLeft = n + 1 ∧
      a.Reckons n (some (Chain.extend parent name)) := by
  have hleft := hcalls name
  have hdepth : ¬ a.settings.maxCallDepth ≤ (Chain.extend parent name).depth := fun h => hout (.inl h)
  refine ⟨callsLeft - 1, by omega, fun name' => ?_⟩
  have hdeeper : (Chain.extend (some (Chain.extend parent name)) name').depth =
      (Chain.extend parent name).depth + 1 := rfl
  omega

/-- The results that are being computed while the body of a request runs have their names in its
chain. -/
theorem busy_next (hbusy : ∀ key, busy key → (parent.any fun c => c.contains key.name) = true)
    (r : Request ValueId Atom) (key : MemoKey) (h : key = r.key ∨ busy key) :
    ((some (Chain.extend parent r.node.name)).any fun c => c.contains key.name) = true := by
  refine Chain.contains_extend (h.imp (fun heq => ?_) (hbusy key))
  rw [heq, r.name_key]

/-- Every request has an answer, and all its answers agree with the one that is computed with a
bound on the calls that are left. The induction is on this bound: a body that is run for the request
is at the head of a longer chain. -/
theorem answers_resolve (hbudget : a.settings.stepBudget + 1 < UInt64.size)
    (hcalls : a.Reckons callsLeft parent)
    (hbusy : ∀ key, busy key → (parent.any fun c => c.contains key.name) = true) :
    Answering.Total (Stock.Engaged busy) (a.Answers parent) ∧
      Answering.Agrees (Stock.Engaged busy) (Ended.Within a parent) (a.Answers parent)
        (a.resolve callsLeft parent) := by
  induction callsLeft using Nat.strong_induction_on generalizing parent busy with
  | _ callsLeft ih =>
    refine ⟨fun r s hs => ?_, fun r s x hs hx => ?_⟩
    · rcases hbody : a.bodyOf r with f | body
      · exact ⟨_, .refused hbody⟩
      by_cases hout : a.Outside parent r.node.name
      · exact ⟨_, .outside hbody hout⟩
      rcases hcell : s.memo.cells.get? r.key with _ | _ | o
      · obtain ⟨n, rfl, hnext⟩ := hcalls.next hout
        obtain ⟨htotal, hagree⟩ := ih n n.lt_succ_self hnext (busy_next hbusy r)
        obtain ⟨x, hx⟩ := (Env.courses_agree
          (a.within (Chain.extend parent r.node.name) (r.params .ref)) hbudget
          (Stock.Engaged.fair _) Stock.Engaged.wellFounded hagree (fun _ => htotal) body
          (hs.start r.key)).1 trivial
        exact ⟨_, .computed hbody hout hcell (fun _ _ _ h => h) hx⟩
      · -- What is being computed is in the chain, so the request would be nested twice.
        have hrepeated := hbusy _ (hs.running _ hcell)
        rw [r.name_key] at hrepeated
        exact absurd (.inr hrepeated) hout
      · exact ⟨_, .found hbody hout hcell⟩
    · cases hx with
      | refused hbody =>
        rw [outcome_resolve_of_error hbody]
        exact ⟨rfl, hs, fun _ he => nomatch he⟩
      | outside hbody hout =>
        rw [outcome_resolve_of_outside hcalls hbody hout]
        exact ⟨rfl, hs, fun _ he => nomatch he⟩
      | found hbody hout hcell =>
        obtain ⟨n, rfl, -⟩ := hcalls.next hout
        have hfree := Bool.eq_false_iff.2 fun h => hout (.inr h)
        rw [resolve_of_passes hbody hfree, Work.outcome_remember_of_done hcell]
        exact ⟨rfl, ⟨hs.sound, hs.running⟩, fun _ he => nomatch he⟩
      | @computed _ _ _ body answering x hbody hout hcell hanswers hx =>
        obtain ⟨n, rfl, hnext⟩ := hcalls.next hout
        have hfree := Bool.eq_false_iff.2 fun h => hout (.inr h)
        obtain ⟨-, hagree⟩ := ih n n.lt_succ_self hnext (busy_next hbusy r)
        have hinner : Answering.Agrees _ _ answering _ := fun r' s' x' hs' hx' =>
          hagree r' s' x' hs' (hanswers r' s' x' hx')
        obtain ⟨heq, hengaged, hended⟩ := (Env.courses_agree _ hbudget (Stock.Engaged.fair _)
          Stock.Engaged.wellFounded hinner False.elim body (hs.start r.key)).2 x hx
        change (Env.run ⟨a, Chain.extend parent r.node.name, r.params .ref,
          a.resolve n (some (Chain.extend parent r.node.name))⟩ body).outcome _ = _ at heq
        rw [resolve_of_passes hbody hfree, Work.outcome_remember_of_none hcell, heq]
        refine ⟨rfl, hengaged.finish x.outcome, fun e he => ?_⟩
        rcases hended e he with hwithin | ⟨hchain, hticks⟩
        · exact hwithin.outward
        · have hdepth : ¬ a.settings.maxCallDepth ≤ (Chain.extend parent r.node.name).depth :=
            fun h => hout (.inl h)
          refine ⟨hticks, r.node.name, 0, ?_, Nat.lt_of_not_le hdepth⟩
          rw [hchain]
          exact .self

/-- A body at the head of a chain goes, and it goes in one way only, which is the way it is run with
bounds. -/
theorem courses_runIn (hbudget : a.settings.stepBudget + 1 < UInt64.size) (chain : Chain)
    (params : Dict String Atom) (body : Expr)
    (hs : s.Engaged fun key => chain.contains key.name = true) :
    (∃ x, a.Courses chain params body s x) ∧
      ∀ x, a.Courses chain params body s x →
        x.Agrees (Stock.Engaged fun key => chain.contains key.name = true)
          (fun e => e.Within a (some chain) ∨ e.chain = chain ∧ e.ticks ≤ a.settings.stepBudget + 1)
          ((a.runIn chain params body).outcome s) := by
  have hcalls : a.Reckons (a.callsBelow chain) (some chain) := fun _ => rfl
  obtain ⟨htotal, hagree⟩ := answers_resolve hbudget hcalls fun _ h => h
  obtain ⟨hgoes, hends⟩ := Env.courses_agree (a.within chain params) hbudget
    (Stock.Engaged.fair _) Stock.Engaged.wellFounded hagree (fun _ => htotal) body hs
  exact ⟨hgoes trivial, hends⟩

end Analysis

end ConstPool
