import ConstPool.Proofs.Conduct.Resolve
import ConstPool.Proofs.Interpretation.Machines
import ConstPool.Proofs.Journal.Basic
import ConstPool.Proofs.Sites

/-!
# What the journal tells of the cache

The cache and the journal go together. Every outcome in the cache is that of a body that was run,
and every body that was run has left its outcome there. So a result that is returned was left by a
request with the same key. Nothing but requests changes the cache, and a body issues none but for
what is declared: other definitions are requested from outside only.

* `Journal.Accounts`: the cache and the journal go together.
* `Env.Guarded`: a body of which a journal is kept, beside the same body with other answers.
* `Env.Journaled`: the surroundings of a body of which a journal is kept.
* `Analysis.accounts_resolve`: requests, by induction on the bodies that may still be nested.
* `Noted.Reached.accounts`: contexts that have a history.
-/

namespace ConstPool

open Draft Relation

variable {a : Analysis} {D : FunctionDecl → Prop} {I : Journal → Stock → Prop} {E : Fault → Prop}
  {β : Type}
  {j k : Journal} {s s' : Stock} {r : Request ValueId Atom} {o : Outcome} {key : MemoKey}
  {busy : List MemoKey}

/-! ### Journals -/

namespace Journal.Each

variable {Q Q' : Journal → Entry → Prop} {e : Entry}

/-- There is nothing in an empty journal. -/
theorem nil : Each Q [] := fun before _ _ h => by
  cases before <;> cases h

/-- A journal with one more entry, which is as wanted after those before it. -/
theorem snoc (h : Each Q j) (he : Q j e) : Each Q (j ++ [e]) := by
  intro before e' after heq
  rcases List.eq_nil_or_concat after with rfl | ⟨after, last, rfl⟩
  · obtain ⟨rfl, hlast⟩ := List.append_inj' heq rfl
    cases hlast
    exact he
  · rw [List.concat_eq_append, ← List.cons_append, ← List.append_assoc] at heq
    exact h before e' after (List.append_inj' heq rfl).1

/-- What is asked of an entry that is there. -/
theorem of_mem (h : Each Q j) (he : e ∈ j) : ∃ before, (∀ e' ∈ before, e' ∈ j) ∧ Q before e := by
  obtain ⟨before, after, rfl⟩ := List.append_of_mem he
  exact ⟨before, fun e' he' => List.mem_append_left _ he', h _ _ _ rfl⟩

end Journal.Each

/-! ### The cache and the journal -/

/-- What may be requested: something declared, or a definition with `D` if any body may be run. -/
def Request.Offered (a : Analysis) (D : FunctionDecl → Prop) : Request ValueId Atom → Prop
  | .call f _ _ =>
    a.program.functions.get? f.qualifiedName = some f ∨ D f ∧ 0 < a.settings.maxCallDepth
  | .read _ => True

/-- A request for what is declared is offered, whichever definitions are besides. -/
theorem Request.Declared.offered (h : r.Declared a.program) : r.Offered a D := by
  cases r with
  | call f types args => exact .inl h
  | read name => trivial

/-- A request that may be made and passes its checks. -/
structure Request.Admitted (a : Analysis) (D : FunctionDecl → Prop) (r : Request ValueId Atom) :
    Prop where
  offered : r.Offered a D
  passes : ∃ body, a.bodyOf r = .ok body

/-- A result that is returned was left by a request with the same key. -/
def Entry.Backed (before : Journal) : Entry → Prop
  | .ran _ _ => True
  | .found r o => ∃ r', r'.key = r.key ∧ .ran r' o ∈ before

/-- The cache holds the outcomes of the bodies that were run, each under its key, and no others.
Some keys are busy: their bodies are being run. -/
structure Journal.Accounts (a : Analysis) (D : FunctionDecl → Prop) (busy : List MemoKey)
    (j : Journal) (s : Stock) : Prop where
  admitted : ∀ e ∈ j, e.request.Admitted a D
  backed : j.Each Entry.Backed
  once : ∀ {r r' o o'}, .ran r o ∈ j → .ran r' o' ∈ j → r.key = r'.key → r = r'
  kept : ∀ {r o}, .ran r o ∈ j → s.memo.cells.get? r.key = some (.done o)
  known : ∀ {key o}, s.memo.cells.get? key = some (.done o) → ∃ r, r.key = key ∧ .ran r o ∈ j
  running : ∀ key ∈ busy, s.memo.cells.get? key = some .running

namespace Journal.Accounts

/-- At the beginning there is nothing to account for. -/
theorem empty : Accounts a D [] [] {} where
  admitted _ he := nomatch he
  backed := .nil
  once he := nomatch he
  kept he := nomatch he
  known hcell := by
    rw [Dict.get?_empty] at hcell
    cases hcell
  running _ hkey := nomatch hkey

/-- The rest of the stock does not matter. -/
theorem memo (h : Accounts a D busy j s) (hmemo : s'.memo.cells = s.memo.cells) :
    Accounts a D busy j s' where
  admitted := h.admitted
  backed := h.backed
  once := h.once
  kept he := by
    rw [hmemo]
    exact h.kept he
  known hcell := h.known (hmemo ▸ hcell)
  running key hkey := by
    rw [hmemo]
    exact h.running key hkey

/-- A body that was not run yet begins. -/
theorem start (h : Accounts a D busy j s) (hcell : s.memo.cells.get? key = none) :
    Accounts a D (key :: busy) j { s with memo := s.memo.start key } where
  admitted := h.admitted
  backed := h.backed
  once := h.once
  kept {r o} he := by
    have hne : r.key ≠ key := by
      rintro rfl
      cases hcell.symm.trans (h.kept he)
    exact (Dict.get?_insert_of_ne _ hne _).trans (h.kept he)
  known {key' o} hdone := by
    rw [Memo.start, Dict.get?_insert] at hdone
    split at hdone
    · cases hdone
    · exact h.known hdone
  running key' hkey' := by
    rw [Memo.start, Dict.get?_insert]
    split
    · rfl
    · next hne => exact h.running key' ((List.mem_cons.1 hkey').resolve_left hne)

/-- A body has been run. -/
theorem ran (h : Accounts a D (r.key :: busy) j s) (hnew : r.key ∉ busy) (hr : r.Admitted a D)
    (o : Outcome) :
    Accounts a D busy (j ++ [.ran r o]) { s with memo := s.memo.finish r.key o } := by
  -- No entry has this key yet, for its cell was not done.
  have hfirst : ∀ {r' o'}, .ran r' o' ∈ j → r'.key ≠ r.key := by
    intro r' o' he heq
    have hrunning := h.running r.key (List.mem_cons_self ..)
    cases (heq ▸ hrunning).symm.trans (h.kept he)
  have hcases : ∀ {e : Entry}, e ∈ j ++ [.ran r o] → e ∈ j ∨ e = .ran r o := fun he =>
    (List.mem_append.1 he).imp_right List.mem_singleton.1
  refine ⟨fun e he => ?_, h.backed.snoc trivial, fun {r₁ r₂ o₁ o₂} h₁ h₂ hkey => ?_,
    fun {r' o'} he => ?_, fun {key' o'} hdone => ?_, fun key' hkey' => ?_⟩
  · rcases hcases he with he | rfl
    · exact h.admitted e he
    · exact hr
  · rcases hcases h₁ with h₁ | heq₁ <;> rcases hcases h₂ with h₂ | heq₂
    · exact h.once h₁ h₂ hkey
    · cases heq₂
      exact absurd hkey (hfirst h₁)
    · cases heq₁
      exact absurd hkey.symm (hfirst h₂)
    · cases heq₁
      cases heq₂
      rfl
  · rcases hcases he with he | heq
    · exact (Dict.get?_insert_of_ne _ (hfirst he) _).trans (h.kept he)
    · cases heq
      exact Dict.get?_insert_self ..
  · rw [Memo.finish, Dict.get?_insert] at hdone
    split at hdone
    · next heq =>
      cases hdone
      exact ⟨r, heq.symm, List.mem_append_right _ (List.mem_singleton_self _)⟩
    · obtain ⟨r', hr', he⟩ := h.known hdone
      exact ⟨r', hr', List.mem_append_left _ he⟩
  · have hne : key' ≠ r.key := by
      rintro rfl
      exact hnew hkey'
    exact (Dict.get?_insert_of_ne _ hne _).trans (h.running key' (List.mem_cons_of_mem _ hkey'))

/-- A result has been returned. -/
theorem found (h : Accounts a D busy j s) (hr : r.Admitted a D)
    (hcell : s.memo.cells.get? r.key = some (.done o)) :
    Accounts a D busy (j ++ [.found r o]) { s with memo := s.memo.hit } := by
  have hran : ∀ {r' o'}, .ran r' o' ∈ j ++ [.found r o] → .ran r' o' ∈ j := by
    intro r' o' he
    rcases List.mem_append.1 he with he | he
    · exact he
    · cases List.mem_singleton.1 he
  refine ⟨fun e he => ?_, h.backed.snoc (h.known hcell), fun h₁ h₂ => h.once (hran h₁) (hran h₂),
    fun he => h.kept (hran he), fun hdone => ?_, h.running⟩
  · rcases List.mem_append.1 he with he | he
    · exact h.admitted e he
    · cases List.mem_singleton.1 he
      exact hr
  · obtain ⟨r', hr', he⟩ := h.known hdone
    exact ⟨r', hr', List.mem_append_left _ he⟩

end Journal.Accounts

/-! ### Bodies -/

/-- Drafts over a stock beside themselves, where a journal is kept of one of the machines. Of the
journal and the stock `I` is known. The other machine may also stop with the faults of `E`. -/
def Draft.journaling (I : Journal → Stock → Prop) (E : Fault → Prop) :
    Correspondence Stock Draft Noted Draft where
  World := Unit
  le _ _ := True
  refl _ := trivial
  trans _ _ := trivial
  world _ := ()
  stands _ := Eq
  mono _ h := h
  holds s n := n.stock = s ∧ I n.journal s
  shared _ := True
  excused _ := E

/-- A step on the stock beside a step that is noted. It is the same step, or it fails at once. -/
theorem Sim.note {work work' : Work β} {entries : Stock → Journal}
    (h : ∀ j s, I j s → work' s = work s ∧ I (j ++ entries s) (work.outcome s).2 ∨
      ∃ f, work' s = .error f s ∧ E f) :
    Sim (Draft.journaling I E) () [] [] (fun _ => Eq) (Eval.onStock work')
      (Eval.note work entries) := by
  rintro ⟨s, scopes, left⟩ ⟨⟨_, j⟩, scopes', left'⟩ hn
  obtain ⟨rfl, hI⟩ := hn.holds
  rcases h j _ hI with ⟨heq, hnext⟩ | ⟨f, heq, hf⟩
  · unfold Work.outcome at hnext
    simp only [Eval.onStock, Eval.note, heq]
    generalize work _ = result at hnext ⊢
    cases result with
    | ok b s' =>
      exact .ok ⟨trivial, ⟨rfl, hnext⟩, hn.scopes, hn.left, .refl _⟩ (List.forall_mem_nil _) rfl
    | error f s' =>
      exact .stop ⟨trivial, ⟨rfl, hnext⟩, hn.scopes, hn.left, .refl _⟩ (.fault trivial)
  · simp only [Eval.onStock, heq]
    exact .excused trivial hn.holds hf

/-- A step on the stock of which nothing is noted. -/
theorem Sim.quiet {work : Work β} (h : ∀ j s, I j s → I j (work.outcome s).2) :
    Sim (Draft.journaling I E) () [] [] (fun _ => Eq) (Eval.onStock work) (Eval.quiet work) := by
  refine Sim.note fun j s hI => .inl ⟨rfl, ?_⟩
  rw [List.append_nil]
  exact h j s hI

/-- A question to the pool is a step that leaves the stock as it is. -/
theorem Sim.quietAsk (question : Pool → Except Fault β) :
    Sim (Draft.journaling I E) () [] [] (fun _ => Eq) (Eval.ask question)
      (Eval.quiet (Work.askPool question)) := by
  rw [Eval.ask_eq_onStock]
  refine Sim.quiet fun j s hI => ?_
  unfold Work.outcome Work.askPool
  rcases question s.pool <;> exact hI

namespace Env

variable {env : Env} {within : Request ValueId Atom → Stock → Journal}
  {request' : Request ValueId Atom → Work ValueId}

/-- The surroundings of a body of which a journal is kept, beside the same body with other answers:
what is known of the journal and the stock is kept by pooling and by requests for what is declared.
The other answers are the same or faults of `E`. -/
structure Guarded (env : Env) (within : Request ValueId Atom → Stock → Journal)
    (I : Journal → Stock → Prop) (E : Fault → Prop)
    (request' : Request ValueId Atom → Work ValueId) : Prop where
  program : env.analysis.program.Declared
  intern : ∀ {j s} value, I j s → I j ((Work.intern value).outcome s).2
  request : ∀ {j s r}, r.Declared env.analysis.program → I j s →
    request' r s = env.request r s ∧ I (j ++ within r s) ((env.request r).outcome s).2 ∨
      ∃ f, request' r s = .error f s ∧ E f

namespace Guarded

/-- Constants may be pooled. -/
theorem fair (h : env.Guarded within I E request') (j : Journal) : (Terms.keeping (I j)).Fair where
  dynamic _ _ := trivial
  intern value := Work.conforms_keeping_iff.2 fun _ hI => h.intern value hI

/-- A constant from outside. -/
theorem fetch (h : env.Guarded within I E request') (hr : r.Declared env.analysis.program) :
    Sim (Draft.journaling I E) () [] [] (fun _ => Eq) ((env.answeredBy request').fetch r)
      (env.notedFetch within r) :=
  Sim.bind_eq (Sim.note fun _ _ => h.request hr) fun _ _ _ =>
    Sim.bind_eq (Sim.quietAsk _) fun _ _ _ => Sim.pure fun _ _ => rfl

/-- The value of a name. -/
theorem lookup (h : env.Guarded within I E request') (name : String) :
    Sim (Draft.journaling I E) () [] [] (fun _ => Eq) ((env.answeredBy request').lookup name)
      (env.notedLookup within name) := by
  refine Sim.get_bind fun m n hn => ?_
  have hfind := ScopesRel.find? hn.scopes name
  generalize m.scopes.find? name = x at hfind ⊢
  generalize n.scopes.find? name = y at hfind ⊢
  cases hfind with
  | some hd => exact .ok (.refl hn) hn.binds hd
  | none =>
    have hparams : (env.answeredBy request').params = env.params := rfl
    rw [hparams]
    rcases env.params.get? name with _ | v
    · have hglobals : (env.answeredBy request').analysis = env.analysis := rfl
      dsimp only
      rw [hglobals]
      split
      · exact h.fetch (r := .read name) trivial m n hn
      · exact Sim.raise trivial m n hn
    · exact .ok (.refl hn) hn.binds rfl

/-- The steps of a body go together with those of the body of which a journal is kept. -/
theorem related (h : env.Guarded within I E request') :
    Interpretation.Related ((Draft.journaling I E).correlation ()) (fun _ => Eq) (fun _ => Eq)
      (fun _ => Eq) (fun _ => True) (env.answeredBy request').interpretation (env.noting within)
    where
  toRelated := (Draft.journaling I E).control () (fun _ _ => trivial) rfl
  program := rfl
  objectTypes := rfl
  owner := rfl
  scalar _ _ := rfl
  layer _ hl := congrArg Draft.fresh hl.eq_of_parts
  isNull hd := congrArg Draft.isNull hd
  lookup _ name _ := h.lookup name
  range _ a b _ := Sim.bind (Sim.spend trivial _) fun _ _ _ _ _ => Sim.pure fun _ _ => rfl
  ask hq := hq.of_eq (fun _ _ _ => .rfl) (fun _ _ _ h => h)
    (x := fun q => Eval.ask (q.onDrafts env.analysis))
    (y := fun q => Eval.quiet (Work.askPool (q.onDrafts env.analysis)))
    fun _ _ => Sim.quietAsk _
  type {w t} _ _ := Sim.ofExcept fun _ _ => by
    rw [t.draft_answeredBy]
    exact .refl fun _ _ => trivial
  constant hd := hd
  poolType {w d e} hd _ := by
    cases hd
    exact Sim.quiet fun j => Work.conforms_keeping_iff.1 ((h.fair j).internType d)
  pool {w d e} hd _ := by
    cases hd
    exact Sim.quiet fun j => Work.conforms_keeping_iff.1 ((h.fair j).draft d)
  typeArgs_mono _ h := h
  args_mono _ h := h
  call {w name f is js as bs} hcallee his has _ := by
    obtain rfl := List.forall₂_eq_eq_eq ▸ his
    obtain rfl := List.forall₂_eq_eq_eq ▸ has
    have hget := Analysis.get?_of_callee hcallee
    refine h.fetch (?_ : env.analysis.program.functions.get? f.qualifiedName = some f)
    rw [h.program.named hget]
    exact hget

/-- The entries that were there before the body began. -/
theorem after (h : env.Guarded within I E request') (j : Journal) :
    env.Guarded within (fun k => I (j ++ k)) E request' where
  program := h.program
  intern := h.intern
  request hr hI := by
    rw [← List.append_assoc]
    exact h.request hr hI

/-- A body and the same body of which a journal is kept end alike, unless a request has failed with
a fault of `E`. -/
theorem ends (h : env.Guarded within I E request') (body : Expr) (hI : I [] s) :
    Ends (Draft.journaling I E) [] (fun _ => Eq) ⟨s, [.empty], env.analysis.settings.stepBudget⟩
      (body.eval (env.answeredBy request') ⟨s, [.empty], env.analysis.settings.stepBudget⟩)
      (body.evalIn (env.noting within)
        ⟨⟨s, []⟩, [.empty], env.analysis.settings.stepBudget⟩) := by
  have hstart : Near (Draft.journaling I E) () []
      ⟨s, [.empty], env.analysis.settings.stepBudget⟩
      ⟨⟨s, []⟩, [.empty], env.analysis.settings.stepBudget⟩ :=
    ⟨trivial, ⟨rfl, hI⟩, .cons .empty .nil, rfl, List.cons_ne_nil _ _, List.forall_mem_nil _⟩
  have hends := Expr.related h.related () body (fun _ _ => trivial) trivial _ _ hstart
  rwa [Expr.eval_eq] at hends

/-- The machine of which a journal is kept has the stock that the body leaves, and what is known
before the body is known after it, unless the body has failed with a fault of `E`. -/
theorem finish (h : env.Guarded within I E request') (body : Expr) (hI : I [] s) :
    (env.noted within body s).stock = ((env.answeredBy request').finish body s).2 ∧
        I (env.journal within body s) ((env.answeredBy request').finish body s).2 ∨
      ∃ f, ((env.answeredBy request').finish body s).1 = .error f ∧ E f := by
  have hends := h.ends body hI
  have hbudget : (env.answeredBy request').analysis = env.analysis := rfl
  unfold journal noted Env.finish
  rw [hbudget]
  generalize body.eval (env.answeredBy request') _ = x at hends ⊢
  generalize body.evalIn (env.noting within) _ = y at hends ⊢
  cases hends with
  | ok hafter _ _ => exact .inl hafter.holds
  | stop hafter hstop => cases hstop <;> exact .inl hafter.holds
  | excused _ _ hf => exact .inr ⟨_, rfl, hf⟩

/-- A whole body, whose value is pooled. -/
theorem run (h : env.Guarded within I (fun _ => False) env.request) (body : Expr) (hI : I j s) :
    I (j ++ env.journal within body s) ((env.run body).outcome s).2 := by
  have hfinish : I (j ++ env.journal within body s) (env.finish body s).2 := by
    rcases (h.after j).finish body (s := s) (by rwa [List.append_nil]) with hafter | ⟨_, _, hf⟩
    · exact hafter.2
    · exact hf.elim
  unfold Work.outcome Env.run
  rcases hends : env.finish body s with ⟨f | d, s'⟩
  · rwa [hends] at hfinish
  · rw [hends] at hfinish
    exact Work.conforms_keeping_iff.1 ((h.fair _).settle d) s' hfinish

end Guarded

/-- The surroundings of a body of which a journal is kept: what is known of the journal and the
stock speaks of the cache alone, and it is kept by requests for what is declared. -/
structure Journaled (env : Env) (within : Request ValueId Atom → Stock → Journal)
    (I : Journal → Stock → Prop) : Prop where
  program : env.analysis.program.Declared
  memo : ∀ {j s s'}, I j s → s'.memo = s.memo → I j s'
  request : ∀ {j s r}, r.Declared env.analysis.program → I j s →
    I (j ++ within r s) ((env.request r).outcome s).2

/-- The body stands beside itself. -/
theorem Journaled.guarded (h : env.Journaled within I) :
    env.Guarded within I (fun _ => False) env.request where
  program := h.program
  intern value hI := h.memo hI (Stock.intern_eq value _).2.2
  request hr hI := .inl ⟨rfl, h.request hr hI⟩

end Env

/-! ### Requests -/

namespace Analysis

section Entries

variable {callsLeft : Nat} {parent : Option Chain} {body : Expr}

/-- A request that does not pass makes no entry. -/
theorem journal_of_error {f : Fault} (h : a.bodyOf r = .error f) :
    a.journal callsLeft parent r s = [] := by
  cases callsLeft with
  | zero => rfl
  | succ callsLeft => rw [journal, h]

/-- A request for what is being computed makes no entry. -/
theorem journal_of_repeated (hrepeated : (parent.any fun c => c.contains r.node.name) = true) :
    a.journal callsLeft parent r s = [] := by
  cases callsLeft with
  | zero => rfl
  | succ callsLeft =>
    rw [journal, hrepeated]
    split <;> rfl

/-- A request for a result that is being computed makes no entry. -/
theorem journal_of_running (hcell : s.memo.cells.get? r.key = some .running) :
    a.journal callsLeft parent r s = [] := by
  cases callsLeft with
  | zero => rfl
  | succ callsLeft =>
    rw [journal, hcell]
    split
    · rfl
    · exact ite_self _

variable (h : a.bodyOf r = .ok body)
  (hfree : (parent.any fun c => c.contains r.node.name) = false)

include h hfree

/-- A request whose result is in the cache. -/
theorem journal_of_done (hcell : s.memo.cells.get? r.key = some (.done o)) :
    a.journal (callsLeft + 1) parent r s = [.found r o] := by
  rw [journal, h, hfree, hcell]
  rfl

/-- A request whose body is run. -/
theorem journal_of_none (hcell : s.memo.cells.get? r.key = none) :
    a.journal (callsLeft + 1) parent r s =
      Env.journal ⟨a, Chain.extend parent r.node.name, r.params .ref,
          a.resolve callsLeft (some (Chain.extend parent r.node.name))⟩
        (a.journal callsLeft (some (Chain.extend parent r.node.name))) body
        { s with memo := s.memo.start r.key } ++
      [.ran r ((a.resolve (callsLeft + 1) parent r).outcome s).1] := by
  rw [resolve_of_passes h hfree, Work.outcome_remember_of_none hcell, journal, h, hfree, hcell]
  rfl

end Entries

/-- Whatever becomes of a request: its entry is the last one and tells its outcome, or the request
has failed without running a body or returning a result, and the stock is as it was. -/
theorem journal_cases (callsLeft : Nat) (parent : Option Chain) (r : Request ValueId Atom)
    (s : Stock) :
    (a.journal callsLeft parent r s).EndsWith r ((a.resolve callsLeft parent r).outcome s).1 ∨
      a.journal callsLeft parent r s = [] ∧
        ∃ f, (a.resolve callsLeft parent r).outcome s = (.error f, s) := by
  rcases hbody : a.bodyOf r with f | body
  · exact .inr ⟨journal_of_error hbody, f, outcome_resolve_of_error hbody⟩
  · rcases callsLeft with _ | callsLeft
    · exact .inr ⟨rfl, _, outcome_resolve_zero hbody⟩
    · rcases hrepeated : parent.any fun c => c.contains r.node.name with _ | _
      · rcases hcell : s.memo.cells.get? r.key with _ | _ | o
        · exact .inl ⟨_, .inl (journal_of_none hbody hrepeated hcell)⟩
        · refine .inr ⟨journal_of_running hcell, .breach (.computedTwice r.key.name), ?_⟩
          rw [resolve_of_passes hbody hrepeated, Work.outcome_remember_of_running hcell]
        · refine .inl ⟨[], .inr ?_⟩
          rw [journal_of_done hbody hrepeated hcell, resolve_of_passes hbody hrepeated,
            Work.outcome_remember_of_done hcell]
          rfl
      · exact .inr ⟨journal_of_repeated hrepeated, _, outcome_resolve_of_repeated hbody hrepeated⟩

/-- The surroundings of a body at the head of a chain, if requests keep the cache and the journal
together. -/
theorem journaled (hp : a.program.Declared) {callsLeft : Nat} (chain : Chain)
    (params : Dict String Atom)
    (h : ∀ {j s r}, r.Declared a.program → Journal.Accounts a D busy j s →
      Journal.Accounts a D busy (j ++ a.journal callsLeft (some chain) r s)
        ((a.resolve callsLeft (some chain) r).outcome s).2) :
    Env.Journaled ⟨a, chain, params, a.resolve callsLeft (some chain)⟩
      (a.journal callsLeft (some chain)) (Journal.Accounts a D busy) :=
  ⟨hp, fun h hmemo => h.memo (congrArg Memo.cells hmemo), h⟩

/-- The cache and the journal go together in a request. The induction is on the number of bodies
that may still be nested. -/
theorem accounts_resolve (hp : a.program.Declared) (callsLeft : Nat) (parent : Option Chain)
    (hr : r.Offered a D) (h : Journal.Accounts a D busy j s) :
    Journal.Accounts a D busy (j ++ a.journal callsLeft parent r s)
      ((a.resolve callsLeft parent r).outcome s).2 := by
  induction callsLeft generalizing parent r j s busy with
  | zero =>
    rw [journal, List.append_nil]
    rcases hbody : a.bodyOf r with f | body
    · rwa [outcome_resolve_of_error hbody]
    · rwa [outcome_resolve_zero hbody]
  | succ callsLeft ih =>
    rcases hbody : a.bodyOf r with f | body
    · rwa [journal_of_error hbody, outcome_resolve_of_error hbody, List.append_nil]
    · rcases hrepeated : parent.any fun c => c.contains r.node.name with _ | _
      · have hadmitted : r.Admitted a D := ⟨hr, body, hbody⟩
        rcases hcell : s.memo.cells.get? r.key with _ | _ | o
        · -- a key that is being computed is marked in the cache, and this one is not in it
          have hnew : r.key ∉ busy := by
            intro hkey
            cases hcell.symm.trans (h.running r.key hkey)
          rw [journal_of_none hbody hrepeated hcell, resolve_of_passes hbody hrepeated,
            Work.outcome_remember_of_none hcell, ← List.append_assoc]
          exact ((journaled hp _ _ fun hr h => ih _ hr.offered h).guarded.run body
            (h.start hcell)).ran hnew hadmitted _
        · rwa [journal_of_running hcell, resolve_of_passes hbody hrepeated,
            Work.outcome_remember_of_running hcell, List.append_nil]
        · rw [journal_of_done hbody hrepeated hcell, resolve_of_passes hbody hrepeated,
            Work.outcome_remember_of_done hcell]
          exact h.found hadmitted hcell
      · rwa [journal_of_repeated hrepeated, outcome_resolve_of_repeated hbody hrepeated,
          List.append_nil]

/-- The cache and the journal go together in a body at the head of a chain. -/
theorem accounts_runIn (hp : a.program.Declared) (chain : Chain) (params : Dict String Atom)
    (body : Expr) (h : Journal.Accounts a D busy j s) :
    Journal.Accounts a D busy (j ++ a.journalIn chain params body s)
      ((a.runIn chain params body).outcome s).2 :=
  (journaled hp chain params fun hr h => accounts_resolve hp _ _ hr.offered h).guarded.run body h

/-! ### Call sites -/

/-- A call site comes down to the call of a declared function, or to none. The stock stays as it
is. -/
theorem siteRequest_cases (hp : a.program.Declared) (site : Site) (s : Stock) :
    (∃ f, a.siteRequest site s = .error f s) ∨
      ∃ r, a.siteRequest site s = .ok r s ∧ r.Declared a.program := by
  have hspec := a.reads_siteRequest hp site (S := (· = s)) (p := s.pool) fun id _ s' hs' => by rw [hs']
  cases hspec with
  | ok hrun hrequest =>
    obtain ⟨f, types, args, rfl, -, hdeclared, -⟩ := hrequest
    exact .inr ⟨_, hrun s rfl, hdeclared⟩
  | error hrun _ => exact .inl ⟨_, hrun s rfl⟩

/-- The cache and the journal go together in a call site. -/
theorem accounts_resolveSite (hp : a.program.Declared) (site : Site)
    (h : Journal.Accounts a D busy j s) :
    Journal.Accounts a D busy (j ++ a.siteJournal site s) ((a.resolveSite site).outcome s).2 := by
  rw [resolveSite_eq, siteJournal]
  unfold Work.outcome
  rcases siteRequest_cases hp site s with ⟨f, hsite⟩ | ⟨r, hsite, hr⟩
  · rw [Work.bind_of_error hsite, hsite]
    dsimp only
    rwa [List.append_nil]
  · rw [Work.bind_of_ok hsite, hsite]
    exact accounts_resolve hp _ _ hr.offered h

end Analysis

/-! ### Histories -/

namespace Noted

variable {n n' : Noted}

/-- The cache and the journal go together in every step. -/
theorem Step.accounts (hp : a.program.Declared) (h : Step a D n n')
    (hn : Journal.Accounts a D [] n.journal n.stock) :
    Journal.Accounts a D [] n'.journal n'.stock := by
  cases h with
  | intern value => exact hn.memo (congrArg Memo.cells (Stock.intern_eq value n.stock).2.2)
  | use user id => exact hn.memo rfl
  | site site => exact Analysis.accounts_resolveSite hp site hn
  | run chain params body => exact Analysis.accounts_runIn hp chain params body hn
  | @call f types args hf =>
    rcases Nat.eq_zero_or_pos a.settings.maxCallDepth with hzero | hpos
    · -- No body may be run, so nothing happens.
      have hnothing : ∀ r, a.journalOf r n.stock = [] ∧
          ((a.invoke r).outcome n.stock).2 = n.stock := by
        intro r
        rw [Analysis.journalOf, Analysis.invoke, hzero]
        refine ⟨rfl, ?_⟩
        rcases hbody : a.bodyOf r with f | body
        · rw [Analysis.outcome_resolve_of_error hbody]
        · rw [Analysis.outcome_resolve_zero hbody]
      rw [(hnothing _).1, (hnothing _).2, List.append_nil]
      exact hn
    · exact Analysis.accounts_resolve hp _ _ (hf.imp_right fun hD => ⟨hD, hpos⟩) hn

/-- The cache and the journal go together in every history. -/
theorem Reached.accounts (hp : a.program.Declared) (h : Reached a D n) :
    Journal.Accounts a D [] n.journal n.stock := by
  induction h with
  | refl => exact .empty
  | tail _ hstep ih => exact hstep.accounts hp ih

end Noted

end ConstPool
