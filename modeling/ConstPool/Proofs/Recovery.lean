import ConstPool.Proofs.Ladder
import ConstPool.Proofs.Sessions

/-!
# What ends an evaluation

A fault at a call site is reported, and the evaluation goes on. It ends early only with the breach
of a chain of accepted declarations that has more members than calls may be nested. Where all chains
are within that limit, no site with stored arguments ever ends an evaluation, whatever was done
with the session before. A larger bound on the chains does not suffice, under any limit.

What a site comes to is one of three things: a constant, a fault that can be reported, or the
breach of a chain that is too long. The third is excluded if the chains are within the limit. That
is so of every program without recursion, where the analysis has refused what would nest too deep,
and of no other kind of program in general: a recursive declaration is refused itself, but what
leads to it is accepted and has no height. The ladder is a program of that kind, for any length of
the chain. A site at its foot ends the evaluation, and the sites that follow wait for the next one.

* `Analysis.ChainsWithin`: how long chains of accepted declarations are.
* `Session.Recoverable`: no site with stored arguments ends the work.
* `Session.recoverable_iff`: when this holds of every session.
-/

namespace ConstPool

open Relation

namespace Analysis

variable {α : Type} [Leaf α] [DecidableEq α] {a : Analysis} {n m : Node} {f : Fault}

/-- Chains of accepted declarations, each of which needs the next one, have at most so many
members. -/
def ChainsWithin (a : Analysis) (bound : Nat) : Prop := ∀ n k, a.Stacked k n → k ≤ bound

/-- Without recursive declarations chains are within the limit. -/
theorem Sound.chainsWithin_of_acyclic (hs : a.Sound) (hacyclic : a.graph.cyclic = []) :
    a.ChainsWithin a.settings.maxCallDepth :=
  fun _ _ h => (h.le_of_shallow (hs.shallow_of_acyclic hacyclic)).1

/-- Where chains are within the limit, none is exposed. -/
theorem ChainsWithin.not_tooDeep (h : a.ChainsWithin a.settings.maxCallDepth) :
    ¬ a.TooDeep n f := by
  rintro ⟨m, hm, -⟩
  have hle := h m _ hm.stacked
  omega

/-- The fault of a request can be reported, or it is that of a chain that is too long. -/
theorem Explained.fault (hs : a.Sound) {pool : Pool} {r : Request ValueId Atom}
    (h : a.Explained α pool r (.error f)) : f.Benign ∨ a.TooDeep r.node f := by
  obtain ⟨t, -, hagree | ⟨g, hdeep, hg⟩⟩ := h
  · obtain ⟨k, hk⟩ := hs.exists_shallow r.node
    have hagree := hagree k hk
    generalize a.answer k t = y at hagree
    cases hagree with
    | error hf => exact .inl hf
  · cases hg
    exact .inr hdeep

/-- The fault of a site with stored arguments, at any time. -/
theorem Sound.fault_of_site (hs : a.Sound) {s : Stock} (h : s.Reached a) {site : Site}
    (hstored : site.Stored s.pool) (hf : ((a.resolveSite site).outcome s).1 = .error f) :
    f.Benign ∨ ∃ name, site.target = .function name ∧ a.TooDeep (.function name) f := by
  rcases a.resolveSite_cases hs.program site s with
    ⟨g, hrun, hbenign⟩ | ⟨decl, types, args, htarget, hdeclared, hinplace, hrun⟩
  · rw [hrun] at hf
    cases hf
    exact .inl (hbenign hstored)
  · rw [hrun] at hf
    have hexplained := (hs.upholds_explained.answered hdeclared hinplace.known
      (h.faithful hs.upholds_explained)).explained
    rw [hf] at hexplained
    exact (Explained.fault hs hexplained).imp_right fun hdeep => ⟨_, htarget, hdeep⟩

end Analysis

namespace Session

/-- No site with stored arguments ends the work: its faults can be reported, and if the waiting
sites are such, an evaluation comes to its end. -/
structure Recoverable (s : Session) : Prop where
  site : ∀ site, site.Stored s.stock.pool → ∀ f,
    ((s.analysis.resolveSite site).outcome s.stock).1 = .error f → f.isFatal = false
  evaluate : (∀ e ∈ s.pending, e.2.Stored s.stock.pool) → ∃ report, s.evaluate.1 = .ok report

/-- Where chains are within the limit, every session is recoverable. -/
theorem Reached.recoverable {p : Program} {types : Types} {settings : Settings} {s : Session}
    (hp : p.Declared) (h : Reached p types settings s)
    (hchains : (Analysis.build p types settings).ChainsWithin settings.maxCallDepth) :
    s.Recoverable := by
  obtain ⟨hanalysis, hreached⟩ := h.stock hp
  have hs := Analysis.sound_build hp types settings
  have hbenign : ∀ {stock site f}, Stock.Reached (.build p types settings) stock →
      Site.Stored stock.pool site →
        (((Analysis.build p types settings).resolveSite site).outcome stock).1 = .error f →
          f.Benign := by
    intro stock site f hstock hstored hf
    refine (hs.fault_of_site hstock hstored hf).resolve_right ?_
    rintro ⟨name, -, hdeep⟩
    exact hchains.not_tooDeep hdeep
  constructor
  · rw [hanalysis]
    exact fun site hstored f hf => hbenign hreached hstored hf
  · intro hpending
    have hcases := (s.evaluate_cases (by rw [hanalysis]; exact hp)).2
    rw [hanalysis] at hcases
    refine hcases.resolve_right ?_
    rintro ⟨e, he, stock, f, hsteps, hf, hfatal, -⟩
    have hleads : Stock.Leads _ s.stock stock :=
      Stock.steps_mono (fun _ _ h => h.elim) (fun _ _ h => h.known) hsteps
    have hkeeps := (Stock.Leads.faithful hs.upholds_explained hleads
      (hreached.faithful hs.upholds_explained)).2
    exact hfatal (hbenign (hreached.trans hleads) ((hpending e he).mono hkeeps) hf)

/-- The call of the first function of a ladder that is higher than the limit ends the work. -/
theorem not_recoverable_of_tall (limit : Nat) :
    ¬ (start (Ladder.program (limit + 1)) .empty
      { stepBudget := 1, maxCallDepth := limit }).Recoverable := by
  intro h
  have hfunction : (Ladder.tall limit).siteFunction (.function (Ladder.rung 0)) =
      .ok (Ladder.function (limit + 1) 0) := by
    have hget : (Ladder.tall limit).program.functions.get? (Ladder.rung 0) =
      some (Ladder.function (limit + 1) 0) := Ladder.get?_rung (Nat.zero_le _)
    rw [Analysis.siteFunction, hget]
  obtain ⟨s', hrun, -⟩ := Ladder.invoke_tall (Nat.zero_le (limit + 1))
  have hsite := h.site ⟨.function (Ladder.rung 0), [], [], {}⟩
    (by rintro id (hid | hid) <;> cases hid) (Ladder.fate (limit + 1) limit (0 + limit)) ?_
  · rw [Ladder.fate, if_pos (by omega)] at hsite
    cases hsite
  · show (((Ladder.tall limit).resolveSite _).outcome {}).1 = _
    rw [Analysis.resolveSite, hfunction]
    exact congrArg Prod.fst hrun

/-- A fault of a site with stored arguments can be reported, or it is the breach of a chain that is
too long, which begins with the function of the site. And the sessions of all programs in which
chains have at most so many members are recoverable under a limit exactly if the chains are within
the limit. -/
theorem recoverable_iff (bound limit : Nat) :
    (∀ (declarations : List Declaration) (types : Types) (settings : Settings) (s : Session),
      Reached (.declareAll {} declarations) types settings s →
        ∀ site : Site, site.Stored s.stock.pool → ∀ f,
          ((s.analysis.resolveSite site).outcome s.stock).1 = .error f →
            f.isFatal = false ∨ ∃ name m, site.target = .function name ∧
              s.analysis.Exposed (.function name) m ∧
                f = .breach (.outsideCallGraph m.name settings.maxCallDepth)) ∧
    ((∀ (declarations : List Declaration) (types : Types) (settings : Settings),
      settings.maxCallDepth = limit →
        (Analysis.build (.declareAll {} declarations) types settings).ChainsWithin bound →
          ∀ s, Reached (.declareAll {} declarations) types settings s → s.Recoverable) ↔
      bound ≤ limit) := by
  refine ⟨fun declarations types settings s h site hstored f hf => ?_, ?_⟩
  · have hp := Program.declared_declareAll declarations
    obtain ⟨hanalysis, hreached⟩ := h.stock hp
    rw [hanalysis] at hf ⊢
    refine ((Analysis.sound_build hp types settings).fault_of_site hreached hstored hf).imp_right ?_
    rintro ⟨name, htarget, m, hexposed, hbreach⟩
    exact ⟨name, m, htarget, hexposed, hbreach⟩
  · constructor
    · intro h
      by_contra hlt
      refine not_recoverable_of_tall limit (h (Ladder.declarations (limit + 1)) .empty
        { stepBudget := 1, maxCallDepth := limit } rfl (fun n k hk => ?_) _ .refl)
      obtain ⟨i, hi, -, hle⟩ := Ladder.stacked_le hk
      omega
    · intro hle declarations types settings hlimit hchains s hs
      refine hs.recoverable (Program.declared_declareAll declarations) fun n k hk => ?_
      rw [hlimit]
      exact Nat.le_trans (hchains n k hk) hle

/-- A site of the first of three functions, each of which calls the next one and the last one
itself, where no call may be nested. -/
def onLadder : Session :=
  ((start (Ladder.program 2) .empty { maxCallDepth := 1 }).submit ⟨.function "f", [], [], {}⟩).2

/-- Three functions, each of which calls the next one and the last one itself, where no call may be
nested: the evaluation of the first one ends with a breach. -/
theorem evaluate_ladder :
    ∃ s, Reached (Ladder.program 2) .empty { maxCallDepth := 1 } s ∧
      (∀ e ∈ s.pending, e.2.Stored s.stock.pool) ∧
        s.evaluate.1 = .error (.breach (.outsideCallGraph "ff" 1)) := by
  have hpending : onLadder.pending = [(⟨0⟩, ⟨.function "f", [], [], {}⟩)] := rfl
  refine ⟨onLadder, .single (.submit _ _), fun e he => ?_, by with_unfolding_all rfl⟩
  rw [hpending] at he
  rw [List.mem_singleton.1 he]
  rintro id (hid | hid)
  · cases hid
  · cases hid

end Session

end ConstPool
