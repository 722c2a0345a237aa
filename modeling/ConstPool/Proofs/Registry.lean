import ConstPool.Proofs.Conduct.Resolve
import ConstPool.Proofs.Program

/-!
# The tables of declared names

Functions and variables stand in four tables, the constant ones and the plain ones apart. A name is
in one of them at most, since a declaration is refused if its name is in any. The name of a function
is put together from two parts and may come out the same for different parts; then the second
function is refused as well. So a name and the numbers of arguments tell which declaration is
requested, and the key of a request tells everything about it.

* `TableKind`, `Program.table`: the four tables and their names.
* `Declaration.IsNew`: what is asked of a declaration.
* `Program.declare_of_isNew`, `Program.declare_of_not_isNew`: what becomes of a declaration.
* `Program.Distinct`: no name is declared twice.
* `Program.register`, `Program.register_eq`: declarations that are written into the tables in place,
  and what is in the tables beside a fault.
* `Request.Fits.key_eq_iff`: requests with one key are one.
* `Program.registry_exact`: the facts about all declared programs.
-/

namespace ConstPool

/-- The tables of functions and variables. -/
inductive TableKind where
  | functions
  | globals
  | plainFunctions
  | plainVariables
  deriving DecidableEq

/-- The names in a table, oldest first. -/
def Program.table (p : Program) : TableKind → List String
  | .functions => p.functions.keys
  | .globals => p.globals.keys
  | .plainFunctions => p.plainFunctions.toList
  | .plainVariables => p.plainVariables.toList

namespace Declaration

/-- The table that a declaration is for, with the name; a type is for none of the four. -/
def entry? : Declaration → Option (TableKind × String)
  | .function f => some (.functions, f.qualifiedName)
  | .variable v => some (.globals, v.name)
  | .plainFunction name => some (.plainFunctions, name)
  | .plainVariable name => some (.plainVariables, name)
  | .type _ => none

/-- The parameters that a declaration names. -/
def params : Declaration → List Param
  | .function f => f.params
  | _ => []

/-- What a declaration adds to a table. -/
def entered (d : Declaration) (k : TableKind) : List String :=
  match d.entry? with
  | some (k', name) => if k = k' then [name] else []
  | none => []

/-- The name of a declaration is in no table, and its parameters have names of their own. -/
structure IsNew (p : Program) (d : Declaration) : Prop where
  free : ∀ {k name}, d.entry? = some (k, name) → ∀ k', name ∉ p.table k'
  params : (d.params.map Param.name).Nodup

end Declaration

namespace Program

variable {p q : Program} {d : Declaration} {name : String}

/-! ### What becomes of a declaration -/

/-- A name is taken if it is in one of the tables. -/
theorem isTaken_iff : p.isTaken name ↔ ∃ k, name ∈ p.table k := by
  simp only [isTaken, Bool.or_eq_true, OrderedMap.contains_iff, OrderedSet.contains_iff,
    ← OrderedSet.mem_toList]
  constructor
  · rintro (((h | h) | h) | h)
    · exact ⟨.functions, h⟩
    · exact ⟨.globals, h⟩
    · exact ⟨.plainFunctions, h⟩
    · exact ⟨.plainVariables, h⟩
  · rintro ⟨_ | _ | _ | _, h⟩
    · exact .inl (.inl (.inl h))
    · exact .inl (.inl (.inr h))
    · exact .inl (.inr h)
    · exact .inr h

/-- A name that is in no table is free. -/
theorem ensureFree_of_not_mem (h : ∀ k, name ∉ p.table k) : p.ensureFree name = .ok () := by
  have htaken : ¬ p.isTaken name := by
    rw [isTaken_iff]
    rintro ⟨k, hk⟩
    exact h k hk
  exact if_neg htaken

/-- A name that is in a table, whichever, is declared twice. -/
theorem ensureFree_of_mem {k : TableKind} (h : name ∈ p.table k) :
    p.ensureFree name = .error (.indirect name .declaredTwice) :=
  if_pos (isTaken_iff.2 ⟨k, h⟩)

/-- A declaration whose name is free and whose parameters differ is accepted. Its name is put last
in its table, and the other tables stay as they are. -/
theorem declare_of_isNew (h : d.IsNew p) :
    ∃ q, p.declare d = .ok q ∧ ∀ k, q.table k = p.table k ++ d.entered k := by
  -- each kind of declaration goes to a table of its own
  cases d with
  | function f =>
    have hfree : ∀ k, f.qualifiedName ∉ p.table k := h.free rfl
    have hparams : firstRepeated? [] (f.params.map Param.name) = none :=
      firstRepeated?_eq_none_iff.2 ⟨h.params, fun _ _ => List.not_mem_nil⟩
    refine ⟨{ p with functions := p.functions.insert f.qualifiedName f }, ?_, fun k => ?_⟩
    · rw [declare, declareFunction, ensureFree_of_not_mem hfree, hparams]
      rfl
    · cases k
      case functions => exact OrderedMap.keys_insert_of_not_mem (hfree .functions) f
      all_goals exact (List.append_nil _).symm
  | «variable» v =>
    have hfree : ∀ k, v.name ∉ p.table k := h.free rfl
    refine ⟨{ p with globals := p.globals.insert v.name v }, ?_, fun k => ?_⟩
    · rw [declare, declareVariable, ensureFree_of_not_mem hfree]
      rfl
    · cases k
      case globals => exact OrderedMap.keys_insert_of_not_mem (hfree .globals) v
      all_goals exact (List.append_nil _).symm
  | plainFunction name =>
    have hfree : ∀ k, name ∉ p.table k := h.free rfl
    refine ⟨{ p with plainFunctions := p.plainFunctions.insert name }, ?_, fun k => ?_⟩
    · rw [declare, ensureFree_of_not_mem hfree]
      rfl
    · cases k
      case plainFunctions => exact OrderedSet.toList_insert_of_not_mem (hfree .plainFunctions)
      all_goals exact (List.append_nil _).symm
  | plainVariable name =>
    have hfree : ∀ k, name ∉ p.table k := h.free rfl
    refine ⟨{ p with plainVariables := p.plainVariables.insert name }, ?_, fun k => ?_⟩
    · rw [declare, ensureFree_of_not_mem hfree]
      rfl
    · cases k
      case plainVariables => exact OrderedSet.toList_insert_of_not_mem (hfree .plainVariables)
      all_goals exact (List.append_nil _).symm
  | type t =>
    refine ⟨{ p with types := p.types.insert t.name t }, rfl, fun k => ?_⟩
    cases k <;> exact (List.append_nil _).symm

/-- A declaration of a name that is in a table is refused. -/
theorem declare_of_mem {k k' : TableKind} (hentry : d.entry? = some (k, name))
    (h : name ∈ p.table k') : p.declare d = .error (.indirect name .declaredTwice) := by
  cases d with
  | function f =>
    cases hentry
    rw [declare, declareFunction, ensureFree_of_mem h]
    rfl
  | «variable» v =>
    cases hentry
    rw [declare, declareVariable, ensureFree_of_mem h]
    rfl
  | plainFunction _ =>
    cases hentry
    rw [declare, ensureFree_of_mem h]
    rfl
  | plainVariable _ =>
    cases hentry
    rw [declare, ensureFree_of_mem h]
    rfl
  | type _ => cases hentry

/-- A function with a free name and two parameters of one name is refused. -/
theorem declareFunction_of_repeated {f : FunctionDecl} (hfree : ∀ k, f.qualifiedName ∉ p.table k)
    (h : ¬ (f.params.map Param.name).Nodup) :
    ∃ parameter, p.declareFunction f =
      .error (.impure (.repeatedParameter parameter f.qualifiedName)) := by
  cases hrepeated : firstRepeated? [] (f.params.map Param.name) with
  | none => exact absurd (firstRepeated?_eq_none_iff.1 hrepeated).1 h
  | some parameter =>
    refine ⟨parameter, ?_⟩
    rw [declareFunction, ensureFree_of_not_mem hfree, hrepeated]
    rfl

/-- A declaration is accepted only if its name is free and its parameters differ. -/
theorem declare_of_not_isNew (h : ¬ d.IsNew p) : ∃ fault, p.declare d = .error fault := by
  by_cases hfree : ∀ {k name}, d.entry? = some (k, name) → ∀ k', name ∉ p.table k'
  · have hparams : ¬ (d.params.map Param.name).Nodup := fun hnodup => h ⟨hfree, hnodup⟩
    cases d with
    | function f =>
      obtain ⟨parameter, hrefused⟩ := declareFunction_of_repeated (hfree rfl) hparams
      exact ⟨_, hrefused⟩
    | «variable» _ => exact absurd .nil hparams
    | plainFunction _ => exact absurd .nil hparams
    | plainVariable _ => exact absurd .nil hparams
    | type _ => exact absurd .nil hparams
  · push Not at hfree
    obtain ⟨k, name, hentry, k', hmem⟩ := hfree
    exact ⟨_, declare_of_mem hentry hmem⟩

/-! ### One name, one table -/

/-- No name is in two tables, and none is in a table twice. -/
structure Distinct (p : Program) : Prop where
  once : ∀ k, (p.table k).Nodup
  apart : ∀ {name k k'}, name ∈ p.table k → name ∈ p.table k' → k = k'

/-- At the beginning no name is declared. -/
theorem distinct_empty : Distinct {} where
  once k := by cases k <;> exact .nil
  apart {name k k'} h _ := by cases k <;> cases h

/-- A name that a declaration adds is the name of the declaration. -/
theorem mem_entered_iff {k : TableKind} : name ∈ d.entered k ↔ d.entry? = some (k, name) := by
  unfold Declaration.entered
  cases d.entry? with
  | none => simp
  | some e =>
    obtain ⟨k', name'⟩ := e
    by_cases hk : k = k'
    · simp [hk, eq_comm]
    · simp [hk, Ne.symm hk]

/-- A declaration enters at most one name into a table. -/
theorem nodup_entered (d : Declaration) (k : TableKind) : (d.entered k).Nodup := by
  unfold Declaration.entered
  split
  · split
    · exact List.nodup_singleton _
    · exact .nil
  · exact .nil

/-- A new declaration keeps the tables apart. -/
theorem Distinct.extend (h : Distinct p) (hnew : d.IsNew p)
    (htables : ∀ k, q.table k = p.table k ++ d.entered k) : Distinct q where
  once k := by
    rw [htables]
    refine (h.once k).append (nodup_entered d k) fun name hname hentered => ?_
    exact hnew.free (mem_entered_iff.1 hentered) k hname
  apart {name k k'} hk hk' := by
    rw [htables, List.mem_append, mem_entered_iff] at hk hk'
    rcases hk with hk | hk <;> rcases hk' with hk' | hk'
    · exact h.apart hk hk'
    · exact absurd hk (hnew.free hk' k)
    · exact absurd hk' (hnew.free hk k')
    · rw [hk] at hk'
      cases hk'
      rfl

/-- A declaration that is accepted keeps the tables apart. -/
theorem Distinct.declare (h : Distinct p) (hd : p.declare d = .ok q) : Distinct q := by
  by_cases hnew : d.IsNew p
  · obtain ⟨q', hd', htables⟩ := declare_of_isNew hnew
    cases hd.symm.trans hd'
    exact h.extend hnew htables
  · obtain ⟨fault, hrefused⟩ := declare_of_not_isNew hnew
    cases hd.symm.trans hrefused

/-- Declarations one after another. -/
theorem distinct_declareAll (declarations : List Declaration) :
    Distinct (declareAll {} declarations) :=
  declareAll_induct distinct_empty (fun h hd => h.declare hd) declarations

/-- The last of several declarations. -/
theorem declareAll_concat (declarations : List Declaration) (d : Declaration) :
    p.declareAll (declarations ++ [d]) =
      ((p.declareAll declarations).declare d).toOption.getD (p.declareAll declarations) := by
  rw [declareAll, List.foldl_append]
  rfl

end Program

/-! ### Tables that are written in place -/

namespace Program

variable {p : Program}

/-- Fails if a name is in one of the tables. The tables are only read. -/
def checkFree (name : String) : EStateM Fault Program Unit := fun p =>
  match p.ensureFree name with
  | .ok () => .ok () p
  | .error fault => .error fault p

/-- Writes a declaration into the tables in place. What has been written by the time of a fault
would stay there: nothing takes it back. -/
def register : Declaration → EStateM Fault Program Unit
  | .function f => do
    checkFree f.qualifiedName
    match firstRepeated? [] (f.params.map Param.name) with
    | some parameter => throw (.impure (.repeatedParameter parameter f.qualifiedName))
    | none => modify fun p => { p with functions := p.functions.insert f.qualifiedName f }
  | .variable v => do
    checkFree v.name
    modify fun p => { p with globals := p.globals.insert v.name v }
  | .plainFunction name => do
    checkFree name
    modify fun p => { p with plainFunctions := p.plainFunctions.insert name }
  | .plainVariable name => do
    checkFree name
    modify fun p => { p with plainVariables := p.plainVariables.insert name }
  | .type t => modify fun p => { p with types := p.types.insert t.name t }

/-- The tables after a declaration, whether it was accepted or refused. -/
def registered (p : Program) (d : Declaration) : Program :=
  match register d p with
  | .ok () q => q
  | .error _ q => q

/-- A refused declaration leaves the tables as they were, since all checks come before the first
write. -/
theorem register_eq (p : Program) (d : Declaration) :
    register d p = match p.declare d with
      | .ok q => .ok () q
      | .error fault => .error fault p := by
  have hwrite : ∀ (name : String) (write : Program → Program),
      (do checkFree name; modify write : EStateM Fault Program Unit) p =
        match (do p.ensureFree name; return write p : Except Fault Program) with
        | .ok q => .ok () q
        | .error fault => .error fault p := by
    intro name write
    show EStateM.bind (checkFree name) _ p = _
    unfold EStateM.bind checkFree
    rcases p.ensureFree name with fault | _ <;> rfl
  rcases d with f | v | name | name | t
  · cases hrepeated : firstRepeated? [] (f.params.map Param.name) with
    | some parameter =>
      simp only [register, declare, declareFunction, hrepeated]
      show EStateM.bind (checkFree _) _ p = _
      unfold EStateM.bind checkFree
      rcases p.ensureFree f.qualifiedName with fault | _ <;> rfl
    | none =>
      simp only [register, declare, declareFunction, hrepeated]
      exact hwrite f.qualifiedName _
  · exact hwrite v.name _
  · exact hwrite name _
  · exact hwrite name _
  · rfl

/-- To register a declaration is to make it, or to leave the program as it is. -/
theorem registered_eq (p : Program) (d : Declaration) :
    p.registered d = (p.declare d).toOption.getD p := by
  rw [registered, register_eq]
  cases p.declare d <;> rfl

/-- Declarations that are written into the tables one after another. -/
theorem foldl_registered (p : Program) (declarations : List Declaration) :
    declarations.foldl registered p = p.declareAll declarations := by
  rw [declareAll]
  exact congrArg (fun step => declarations.foldl step p) (funext₂ registered_eq)

end Program

/-! ### Keys -/

namespace Request.Fits

variable {p : Program} {r r' : Request ValueId Atom}

/-- Two requests with the right numbers of arguments have one key if and only if they are one. -/
theorem key_eq_iff (h : r.Fits p) (h' : r'.Fits p) : r.key = r'.key ↔ r = r' := by
  refine ⟨fun hkey => ?_, fun heq => heq ▸ rfl⟩
  cases r with
  | call f types args =>
    cases r' with
    | call f' types' args' =>
      obtain ⟨hf, -, htypes⟩ := h
      obtain ⟨hf', -, htypes'⟩ := h'
      -- The name tells the function, and with it how many of the arguments are types.
      rw [(MemoKey.call.inj hkey).1, hf'] at hf
      obtain rfl := Option.some.inj hf
      exact call_eq_of_key_eq (htypes.symm.trans htypes') hkey
    | read name => cases hkey
  | read name =>
    cases r' with
    | call f types args => cases hkey
    | read name' => rw [MemoKey.variable.inj hkey]

/-- A request for something declared has the right numbers of arguments if it passes the checks. -/
theorem of_bodyOf {a : Analysis} {body : Expr} (hdeclared : r.Declared a.program)
    (h : a.bodyOf r = .ok body) : r.Fits a.program := by
  cases r with
  | call f types args =>
    obtain ⟨hargs, htypes, -⟩ := lengths_of_bodyOf h
    exact ⟨hdeclared, hargs, htypes⟩
  | read name =>
    obtain ⟨-, -, hget⟩ := ok_of_bind h
    show a.program.globals.contains name
    rw [OrderedMap.contains_eq]
    cases hv : a.program.globals.get? name with
    | none =>
      rw [hv] at hget
      cases hget
    | some v => rfl

end Request.Fits

/-- After any declarations, whatever was accepted or refused, the tables are those that come of
writing each declaration in place, and no name is in two of them or twice in one. One more
declaration is accepted if its name is in no table and its parameters differ; then its name comes
last in its table. Else it is refused, and the tables that are there with the fault are those that
were there before. Every function stands under its qualified name, and its parameters have names of
their own. A request for something declared that passes the checks has the right numbers of
arguments, and two such requests have one key if and only if they are for the same declaration with
the same types and the same arguments. -/
theorem Program.registry_exact (declarations : List Declaration) :
    let p := Program.declareAll {} declarations
    p = declarations.foldl Program.registered {} ∧ p.Distinct ∧
      (∀ d : Declaration,
        (d.IsNew p → ∃ q, p.declare d = .ok q ∧ Program.register d p = .ok () q ∧
          Program.declareAll {} (declarations ++ [d]) = q ∧
            ∀ k, q.table k = p.table k ++ d.entered k) ∧
        (¬ d.IsNew p →
          (∃ fault, p.declare d = .error fault ∧ Program.register d p = .error fault p) ∧
            Program.declareAll {} (declarations ++ [d]) = p)) ∧
      (∀ {name f}, p.functions.get? name = some f →
        f.qualifiedName = name ∧ (f.params.map Param.name).Nodup) ∧
      (∀ (types : Types) (settings : Settings) {r : Request ValueId Atom} {body : Expr},
        r.Declared p → (Analysis.build p types settings).bodyOf r = .ok body → r.Fits p) ∧
      ∀ {r r' : Request ValueId Atom}, r.Fits p → r'.Fits p → (r.key = r'.key ↔ r = r') := by
  intro p
  refine ⟨(foldl_registered _ _).symm, distinct_declareAll declarations,
    fun d => ⟨fun hnew => ?_, fun hold => ?_⟩, fun hget => ?_,
    fun types settings r body hdeclared hbody => ?_, fun h h' => h.key_eq_iff h'⟩
  · obtain ⟨q, hd, htables⟩ := declare_of_isNew hnew
    refine ⟨q, hd, ?_, ?_, htables⟩
    · rw [register_eq, hd]
    · rw [declareAll_concat, hd]
      rfl
  · obtain ⟨fault, hd⟩ := declare_of_not_isNew hold
    refine ⟨⟨fault, hd, ?_⟩, ?_⟩
    · rw [register_eq, hd]
    · rw [declareAll_concat, hd]
      rfl
  · exact ⟨(declared_declareAll declarations).named hget,
      nodup_params_declareAll declarations hget⟩
  · exact Request.Fits.of_bodyOf hdeclared hbody

end ConstPool
