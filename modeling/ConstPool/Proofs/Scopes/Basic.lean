import Mathlib.Logic.Basic
import ConstPool.Eval.Machine

/-!
# Writes into scopes

A scope is told by its level, the number of scopes around it. A local is declared in the innermost
scope, and it is given another value in the innermost scope that has it. Each write is noted with
the scopes as they are right before it. So it is known which scope it goes to, and what scopes have
become through some writes is known from these and from what the scopes were before.

Levels rather than positions are used because they do not change when a scope is opened or closed
within another one. A part of a body leaves as many scopes as there were, so the levels before it
and after it are the same, and what happened to a local of some level can be read off the writes
that hit it.

* `Scopes.at?`, `Scopes.home?`: the locals of a level, and the level of a local.
* `Write.Hits`: where a write goes to.
* `Scopes.After`: what scopes are after some writes.
-/

namespace ConstPool

variable {δ : Type}

/-! ### Levels -/

namespace Scopes

variable {scopes outer : Scopes δ} {level : Nat} {name : String}

/-- The value of a local of a level. -/
def at? (level : Nat) (name : String) : Scopes δ → Option δ
  | [] => none
  | scope :: outer => if level = outer.length then scope.get? name else at? level name outer

/-- The level of the innermost scope that has a local of a name. -/
def home? (name : String) : Scopes δ → Option Nat
  | [] => none
  | scope :: outer => if scope.contains name then some outer.length else home? name outer

/-- There are no locals beyond the innermost level. -/
theorem at?_of_length_le (h : scopes.length ≤ level) : scopes.at? level name = none := by
  induction scopes with
  | nil => rfl
  | cons scope outer ih =>
    rw [List.length_cons] at h
    rw [at?, if_neg (by omega), ih (by omega)]

/-- A level that has a local is one of the scopes. -/
theorem lt_length_of_isSome_at? (h : (scopes.at? level name).isSome = true) :
    level < scopes.length := by
  refine Nat.lt_of_not_le fun hle => ?_
  rw [at?_of_length_le hle] at h
  cases h

/-- The innermost scope does not matter to the levels around it. -/
theorem at?_cons_of_lt (h : level < outer.length) (scope : Dict String δ) :
    at? level name (scope :: outer) = at? level name outer := if_neg (Nat.ne_of_lt h)

/-- A name has no local exactly if none of the levels has one. -/
theorem find?_eq_none_iff : scopes.find? name = none ↔ ∀ level, scopes.at? level name = none := by
  induction scopes with
  | nil => exact ⟨fun _ _ => rfl, fun _ => rfl⟩
  | cons scope outer ih =>
    cases hget : scope.get? name with
    | some d =>
      rw [find?, hget]
      refine ⟨fun h => (nomatch h), fun h => ?_⟩
      rw [← h outer.length, at?, if_pos rfl, hget]
    | none =>
      rw [find?, hget]
      refine ih.trans ⟨fun h level => ?_, fun h level => ?_⟩
      · rw [at?]
        split
        · exact hget
        · exact h level
      · rcases Nat.lt_or_ge level outer.length with hlt | hle
        · exact (at?_cons_of_lt hlt scope).symm.trans (h level)
        · exact at?_of_length_le hle

/-- The innermost scope that has a local is one of the scopes. -/
theorem isSome_at?_home? (h : scopes.home? name = some level) :
    level < scopes.length ∧ (scopes.at? level name).isSome = true := by
  induction scopes with
  | nil => cases h
  | cons scope outer ih =>
    rw [home?] at h
    split at h
    · next hcontains =>
      cases h
      refine ⟨Nat.lt_succ_self _, ?_⟩
      rw [at?, if_pos rfl]
      exact hcontains
    · obtain ⟨hlt, hsome⟩ := ih h
      refine ⟨Nat.lt_succ_of_lt hlt, ?_⟩
      rwa [at?_cons_of_lt hlt]

/-! ### What a write does -/

/-- A declaration opens no scope and closes none. -/
theorem length_declare (d : δ) : (scopes.declare name d).length = scopes.length := by
  cases scopes <;> rfl

/-- A local is declared at the innermost level. -/
theorem at?_declare (d : δ) (level' : Nat) (name' : String) :
    (scopes.declare name d).at? level' name' =
      if name = name' ∧ level' + 1 = scopes.length then some d else scopes.at? level' name' := by
  cases scopes with
  | nil => exact (if_neg fun h => Nat.succ_ne_zero _ h.2).symm
  | cons scope outer =>
    rw [declare, at?, at?, Dict.get?_insert, List.length_cons]
    by_cases hlevel : level' = outer.length <;> by_cases hname : name = name' <;>
      simp [hlevel, hname, eq_comm (a := name')]

/-- A local is given another value where the innermost one is, if there is one. -/
theorem assign?_cases (name : String) (d : δ) (scopes : Scopes δ) :
    (scopes.assign? name d = none ∧ scopes.home? name = none) ∨
      ∃ level after, scopes.assign? name d = some after ∧ scopes.home? name = some level ∧
        after.length = scopes.length ∧ ∀ level' name', after.at? level' name' =
          if name = name' ∧ level = level' then some d else scopes.at? level' name' := by
  induction scopes with
  | nil => exact .inl ⟨rfl, rfl⟩
  | cons scope outer ih =>
    cases hcontains : scope.contains name with
    | true =>
      refine .inr ⟨outer.length, scope.insert name d :: outer, if_pos hcontains, if_pos hcontains,
        rfl, fun level' name' => ?_⟩
      show at? level' name' (declare name d (scope :: outer)) = _
      rw [at?_declare, List.length_cons]
      exact if_congr (and_congr_right fun _ => by omega) rfl rfl
    | false =>
      have hassign : assign? name d (scope :: outer) = (assign? name d outer).map (scope :: ·) := by
        rw [assign?, hcontains]
        rfl
      have hhome : home? name (scope :: outer) = home? name outer := by
        rw [home?, hcontains]
        rfl
      rw [hassign, hhome]
      rcases ih with ⟨hnone, hhome⟩ | ⟨level, after, hsome, hhome, hlength, hat⟩
      · rw [hnone]
        exact .inl ⟨rfl, hhome⟩
      · rw [hsome]
        refine .inr ⟨level, scope :: after, rfl, hhome, congrArg (· + 1) hlength,
          fun level' name' => ?_⟩
        -- levels are counted from the outermost scope, so those of the outer scopes stay as they
        -- are
        have hlt := (isSome_at?_home? hhome).1
        rw [at?, at?, hlength, hat]
        by_cases hlevel : level' = outer.length
        · rw [if_pos hlevel, if_pos hlevel, if_neg fun h => by omega]
        · rw [if_neg hlevel, if_neg hlevel]

end Scopes

/-! ### Writes -/

/-- A write into scopes, with the scopes as they are right before it. -/
inductive Write (δ : Type) where
  /-- A local is declared. -/
  | declared (name : String) (d : δ) (scopes : Scopes δ)
  /-- A local is given another value. -/
  | assigned (name : String) (d : δ) (scopes : Scopes δ)

namespace Write

/-- The value that is written. -/
def value : Write δ → δ
  | .declared _ d _ => d
  | .assigned _ d _ => d

/-- The write goes to a local of a level. -/
def Hits (level : Nat) (name : String) : Write δ → Prop
  | .declared n _ scopes => n = name ∧ level + 1 = scopes.length
  | .assigned n _ scopes => n = name ∧ scopes.home? n = some level

instance (level : Nat) (name : String) : (w : Write δ) → Decidable (w.Hits level name)
  | .declared n _ scopes => inferInstanceAs (Decidable (n = name ∧ level + 1 = scopes.length))
  | .assigned n _ scopes => inferInstanceAs (Decidable (n = name ∧ scopes.home? n = some level))

/-- The value of a local after a write, given what it was before. -/
def leave (level : Nat) (name : String) (before : Option δ) (w : Write δ) : Option δ :=
  if w.Hits level name then some w.value else before

/-- A local that has become another one was written. -/
theorem foldl_leave (level : Nat) (name : String) (before : Option δ) (writes : List (Write δ)) :
    writes.foldl (leave level name) before = before ∨
      ∃ w ∈ writes, w.Hits level name ∧
        writes.foldl (leave level name) before = some w.value := by
  induction writes generalizing before with
  | nil => exact .inl rfl
  | cons w writes ih =>
    rw [List.foldl_cons]
    rcases ih (leave level name before w) with h | ⟨w', hmem, hhits, h⟩
    · rw [h, leave]
      split
      · next hhits => exact .inr ⟨w, List.mem_cons_self .., hhits, rfl⟩
      · exact .inl rfl
    · exact .inr ⟨w', List.mem_cons_of_mem _ hmem, hhits, h⟩

end Write

/-! ### Scopes after some writes -/

/-- What scopes have become through some writes. The names of locals that have been declared in the
innermost one of them are among `names`; every other local that has been declared was declared in a
scope that has been opened since. -/
structure Scopes.After (names : List String) (before : Scopes δ) (writes : List (Write δ))
    (after : Scopes δ) : Prop where
  depth : after.length = before.length
  /-- No local is lost. -/
  kept : ∀ {level name}, (before.at? level name).isSome = true →
    (after.at? level name).isSome = true
  /-- A new local has been declared in the innermost scope. -/
  new : ∀ {level name}, (after.at? level name).isSome = true →
    (before.at? level name).isSome = true ∨
      level + 1 = before.length ∧
        ∃ d scopes, Write.declared name d scopes ∈ writes ∧ scopes.length = before.length
  /-- A local has the value that the writes leave. -/
  values : ∀ {level name}, level < before.length →
    after.at? level name = writes.foldl (Write.leave level name) (before.at? level name)
  /-- Locals are declared in the innermost scope or in one that has been opened since. -/
  declared : ∀ {name d scopes}, .declared name d scopes ∈ writes →
    before.length < scopes.length ∨ scopes.length = before.length ∧ name ∈ names
  /-- Only a local is given another value. -/
  assigned : ∀ {name d scopes}, .assigned name d scopes ∈ writes →
    ∃ level, scopes.home? name = some level

namespace Scopes.After

variable {names names' : List String} {s s' s'' : Scopes δ} {writes writes' : List (Write δ)}

/-- Nothing was written. -/
theorem refl (s : Scopes δ) : After [] s [] s where
  depth := rfl
  kept h := h
  new h := .inl h
  values _ := rfl
  declared h := absurd h List.not_mem_nil
  assigned h := absurd h List.not_mem_nil

/-- What was written in two stretches. -/
theorem trans (h : After names s writes s') (h' : After names' s' writes' s'') :
    After (names ++ names') s (writes ++ writes') s'' where
  depth := h'.depth.trans h.depth
  kept hsome := h'.kept (h.kept hsome)
  new {level name} hsome := by
    rcases h'.new hsome with hsome | ⟨hlevel, d, scopes, hmem, hlength⟩
    · refine (h.new hsome).imp_right fun ⟨hlevel, d, scopes, hmem, hlength⟩ => ?_
      exact ⟨hlevel, d, scopes, List.mem_append_left _ hmem, hlength⟩
    · rw [h.depth] at hlevel hlength
      exact .inr ⟨hlevel, d, scopes, List.mem_append_right _ hmem, hlength⟩
  values {level name} hlevel := by
    rw [List.foldl_append, ← h.values hlevel]
    exact h'.values (h.depth ▸ hlevel)
  declared {name d scopes} hmem := by
    rcases List.mem_append.1 hmem with hmem | hmem
    · exact (h.declared hmem).imp_right fun ⟨hlength, hname⟩ =>
        ⟨hlength, List.mem_append_left _ hname⟩
    · have hcases := h'.declared hmem
      rw [h.depth] at hcases
      exact hcases.imp_right fun ⟨hlength, hname⟩ => ⟨hlength, List.mem_append_right _ hname⟩
  assigned hmem := (List.mem_append.1 hmem).elim h.assigned h'.assigned

/-- More names are allowed. -/
theorem mono (h : After names s writes s') (hnames : ∀ name ∈ names, name ∈ names') :
    After names' s writes s' where
  depth := h.depth
  kept := h.kept
  new := h.new
  values := h.values
  declared hmem := (h.declared hmem).imp_right fun ⟨hlength, hname⟩ => ⟨hlength, hnames _ hname⟩
  assigned := h.assigned

/-- A scope is opened and closed again. Whatever is declared in it does not matter to the others. -/
theorem closed {scope : Dict String δ} (h : After names (scope :: s) writes s') :
    After [] s writes s'.tail := by
  have hdepth := h.depth
  cases s' with
  | nil => cases hdepth
  | cons scope' outer =>
    rw [List.length_cons, List.length_cons, Nat.succ_inj] at hdepth
    -- the levels below that of the scope do not see it
    have hat : ∀ {level : Nat} (name : String), level < s.length →
        at? level name (scope :: s) = s.at? level name ∧
          at? level name (scope' :: outer) = at? level name outer := fun name hlevel =>
      ⟨at?_cons_of_lt hlevel _, at?_cons_of_lt (hdepth ▸ hlevel) _⟩
    refine ⟨hdepth, fun {level name} hsome => ?_, fun {level name} hsome => ?_,
      fun {level name} hlevel => ?_, fun {name d scopes} hmem => .inl ?_, h.assigned⟩
    · obtain ⟨hbefore, hafter⟩ := hat name (lt_length_of_isSome_at? hsome)
      rw [← hbefore] at hsome
      exact hafter ▸ h.kept hsome
    · have hlevel := hdepth ▸ lt_length_of_isSome_at? hsome
      obtain ⟨hbefore, hafter⟩ := hat name hlevel
      rw [List.tail_cons, ← hafter] at hsome
      rcases h.new hsome with hsome | ⟨hinner, -⟩
      · exact .inl (hbefore ▸ hsome)
      · rw [List.length_cons] at hinner
        omega
    · obtain ⟨hbefore, hafter⟩ := hat name hlevel
      rw [List.tail_cons, ← hafter, ← hbefore]
      exact h.values (Nat.lt_succ_of_lt hlevel)
    · have hcases := h.declared hmem
      rw [List.length_cons] at hcases
      omega

/-- A local is declared. -/
theorem declare (name : String) (d : δ) (s : Scopes δ) :
    After [name] s [.declared name d s] (s.declare name d) where
  depth := length_declare d
  kept {level name'} hsome := by
    rw [at?_declare]
    split
    · rfl
    · exact hsome
  new {level name'} hsome := by
    rw [at?_declare] at hsome
    split at hsome
    · next hhit =>
      obtain ⟨rfl, hlevel⟩ := hhit
      exact .inr ⟨hlevel, d, s, List.mem_singleton_self _, rfl⟩
    · exact .inl hsome
  values {level name'} _ := at?_declare d level name'
  declared {name' d' scopes} hmem := by
    cases List.mem_singleton.1 hmem
    exact .inr ⟨rfl, List.mem_singleton_self _⟩
  assigned hmem := by cases List.mem_singleton.1 hmem

/-- A local is given another value. -/
theorem assign {name : String} {d : δ} (h : s.assign? name d = some s') :
    After [] s [.assigned name d s] s' := by
  rcases assign?_cases name d s with ⟨hnone, -⟩ | ⟨level, after, hsome, hhome, hlength, hat⟩
  · rw [hnone] at h
    cases h
  · rw [hsome] at h
    cases h
    refine ⟨hlength, fun {level' name'} hsome => ?_, fun {level' name'} hsome => .inl ?_,
      fun {level' name'} _ => ?_, fun hmem => ?_, fun hmem => ?_⟩
    · rw [hat]
      split
      · rfl
      · exact hsome
    · rw [hat] at hsome
      split at hsome
      · next hhit =>
        obtain ⟨rfl, rfl⟩ := hhit
        exact (isSome_at?_home? hhome).2
      · exact hsome
    · rw [hat]
      refine if_congr (and_congr_right fun _ => ?_) rfl rfl
      rw [hhome, Option.some_inj]
    · cases List.mem_singleton.1 hmem
    · cases List.mem_singleton.1 hmem
      exact ⟨level, hhome⟩

end Scopes.After

end ConstPool
