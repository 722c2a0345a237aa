import ConstPool.Program.Basic
import ConstPool.Proofs.OrderedMap

/-!
# Declared programs

A program that came about by declarations finds every function under the name by which it is
called, and no name stands for a function and a variable at once.

* `Program.Declared`: the facts.
* `Program.declared_declareAll`: every list of declarations leads to them.
* `Program.nodup_params_declareAll`: the parameters of a function have names of their own.
-/

namespace ConstPool.Program

/-- What declarations see to: a function stands under its qualified name, no name is a function
and a variable, and no name is declared twice. -/
structure Declared (p : Program) : Prop where
  named : ∀ {name f}, p.functions.get? name = some f → f.qualifiedName = name
  disjoint : ∀ name, name ∈ p.functions.keys → name ∉ p.globals.keys
  functions : p.functions.keys.Nodup
  globals : p.globals.keys.Nodup

variable {p q : Program}

/-- The program without declarations. -/
theorem declared_empty : Declared {} where
  named h := by simp at h
  disjoint _ h := nomatch h
  functions := .nil
  globals := .nil

/-- A name that is free is neither a function nor a variable. -/
theorem not_mem_of_ensureFree {name : String} {u : Unit} (h : p.ensureFree name = .ok u) :
    name ∉ p.functions.keys ∧ name ∉ p.globals.keys := by
  unfold ensureFree isTaken at h
  split at h
  · cases h
  · next hfree =>
    simp only [Bool.or_eq_true, not_or] at hfree
    exact ⟨fun hin => hfree.1.1.1 (OrderedMap.contains_iff.2 hin),
      fun hin => hfree.1.1.2 (OrderedMap.contains_iff.2 hin)⟩

/-- A program in which only plain declarations and types are new. -/
theorem Declared.of_eq (h : Declared p) (hfunctions : q.functions = p.functions)
    (hglobals : q.globals = p.globals) : Declared q where
  named := by
    rw [hfunctions]
    exact h.named
  disjoint := by
    rw [hfunctions, hglobals]
    exact h.disjoint
  functions := hfunctions ▸ h.functions
  globals := hglobals ▸ h.globals

/-- A new function. -/
theorem Declared.function (h : Declared p) {f : FunctionDecl}
    (hfree : f.qualifiedName ∉ p.globals.keys) :
    Declared { p with functions := p.functions.insert f.qualifiedName f } where
  named {name g} hget := by
    rw [OrderedMap.get?_insert] at hget
    split at hget
    · next hname =>
      cases hget
      exact hname.symm
    · exact h.named hget
  disjoint name hname := by
    rcases OrderedMap.mem_keys_insert.1 hname with hname | rfl
    · exact h.disjoint name hname
    · exact hfree
  functions := OrderedMap.nodup_keys_insert h.functions _ _
  globals := h.globals

/-- A new variable. -/
theorem Declared.variable (h : Declared p) {v : VariableDecl}
    (hfree : v.name ∉ p.functions.keys) :
    Declared { p with globals := p.globals.insert v.name v } where
  named := h.named
  disjoint name hname hglobal := by
    rcases OrderedMap.mem_keys_insert.1 hglobal with hglobal | rfl
    · exact h.disjoint name hname hglobal
    · exact hfree hname
  functions := h.functions
  globals := OrderedMap.nodup_keys_insert h.globals _ _

/-- A declaration that was accepted has a free name. -/
theorem free_of_declare {name : String} {next : Except Fault Program}
    (h : (do p.ensureFree name; next) = .ok q) :
    (name ∉ p.functions.keys ∧ name ∉ p.globals.keys) ∧ next = .ok q := by
  rcases hfree : p.ensureFree name with fault | u
  · rw [hfree] at h
    cases h
  · rw [hfree] at h
    exact ⟨not_mem_of_ensureFree hfree, h⟩

/-- One declaration. -/
theorem Declared.declare (h : Declared p) : {d : Declaration} → p.declare d = .ok q → Declared q
  | .function f, hd => by
    obtain ⟨hfree, hd⟩ := free_of_declare hd
    split at hd
    · cases hd
    · cases hd
      exact h.function hfree.2
  | .variable v, hd => by
    obtain ⟨hfree, hd⟩ := free_of_declare hd
    cases hd
    exact h.variable hfree.1
  | .plainFunction name, hd => by
    obtain ⟨-, hd⟩ := free_of_declare hd
    cases hd
    exact h.of_eq rfl rfl
  | .plainVariable name, hd => by
    obtain ⟨-, hd⟩ := free_of_declare hd
    cases hd
    exact h.of_eq rfl rfl
  | .type t, hd => by
    cases hd
    exact h.of_eq rfl rfl

/-- What holds of the empty program and is kept by every declaration holds of a declared
program. -/
theorem declareAll_induct {P : Program → Prop} (hempty : P {})
    (hdeclare : ∀ {p q d}, P p → p.declare d = .ok q → P q) (declarations : List Declaration) :
    P (declareAll {} declarations) := by
  have hall : ∀ (ds : List Declaration) {p : Program}, P p → P (p.declareAll ds) := by
    intro ds
    induction ds with
    | nil => exact fun h => h
    | cons d rest ih =>
      intro p h
      refine ih (p := (p.declare d).toOption.getD p) ?_
      rcases hd : p.declare d with fault | q
      · exact h
      · exact hdeclare h hd
  exact hall declarations hempty

/-- Declarations one after another. -/
theorem declared_declareAll (declarations : List Declaration) :
    Declared (declareAll {} declarations) :=
  declareAll_induct declared_empty (fun h hd => h.declare hd) declarations

/-! ### Parameters -/

/-- No name is repeated exactly if all are different and none was seen. -/
theorem firstRepeated?_eq_none_iff {seen names : List String} :
    firstRepeated? seen names = none ↔ names.Nodup ∧ ∀ name ∈ names, name ∉ seen := by
  induction names generalizing seen with
  | nil => simp [firstRepeated?]
  | cons name rest ih =>
    rw [firstRepeated?]
    split
    · next hseen => simp [hseen]
    · next hseen =>
      rw [ih, List.nodup_cons, List.forall_mem_cons]
      simp only [List.mem_cons, not_or]
      constructor
      · rintro ⟨hnodup, hrest⟩
        exact ⟨⟨fun hin => (hrest name hin).1 rfl, hnodup⟩, hseen, fun n hn => (hrest n hn).2⟩
      · rintro ⟨⟨hnew, hnodup⟩, -, hrest⟩
        exact ⟨hnodup, fun n hn => ⟨fun heq => hnew (heq ▸ hn), hrest n hn⟩⟩

/-- The parameters of a declared function have names of their own. -/
theorem nodup_params_declareAll (declarations : List Declaration) {name : String}
    {f : FunctionDecl} (h : (declareAll {} declarations).functions.get? name = some f) :
    (f.params.map Param.name).Nodup := by
  -- induction over the declarations: only that of a function adds one, and it is refused if a
  -- parameter is repeated
  have hall := declareAll_induct (P := fun p => ∀ name f, p.functions.get? name = some f →
      (f.params.map Param.name).Nodup) (fun _ _ h => by simp at h) ?_ declarations
  · exact hall name f h
  · intro p q d hp hd
    cases d with
    | function g =>
      obtain ⟨-, hd⟩ := free_of_declare hd
      split at hd
      · cases hd
      · next hnone =>
        cases hd
        intro name f hget
        rw [OrderedMap.get?_insert] at hget
        split at hget
        · cases hget
          exact (firstRepeated?_eq_none_iff.1 hnone).1
        · exact hp name f hget
    | «variable» v =>
      obtain ⟨-, hd⟩ := free_of_declare hd
      cases hd
      exact hp
    | plainFunction name =>
      obtain ⟨-, hd⟩ := free_of_declare hd
      cases hd
      exact hp
    | plainVariable name =>
      obtain ⟨-, hd⟩ := free_of_declare hd
      cases hd
      exact hp
    | type t =>
      cases hd
      exact hp

end ConstPool.Program
