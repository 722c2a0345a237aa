import ConstPool.Proofs.Denotation
import ConstPool.Proofs.Draft.Interchange
import ConstPool.Proofs.Making

/-!
# Objects and their fields

An object literal checks the name of a field before it computes its value, and after the last field
it checks that none is missing. So, if the fields have values at all, the literal has one if and
only if its names are those of the class, each of them once. The object gives every field the value
that was given for it, whether it has been pooled or not, and as the fields are put in order it does
not matter in which order they are written: an object of the same class is the same constant if and
only if each field has the same constant for its value.

The values of the fields are computed in the order in which the fields are written. Whether they
have values is therefore a question about the fields as a list of expressions, and it is asked of
the list literal with the same expressions, from the same machine. The rest is about names. A name
is checked when its turn comes, so a literal with a wrong name fails at this name, before the value;
a missing name is found at the end. An object literal and a permutation of it are compared at their
own machines, since a call in one of the fields may change the stock.

* `TypeDecl.Takes`: the names of the fields of an object of a class.
* `TypeDecl.construct`: the checks of an object literal, once the values of its fields are known.
* `Env.Evaluates`: expressions that have values, one after another.
* `Analysis.object_construction`: what an object literal comes to.
-/

namespace ConstPool

open Draft Relation

/-! ### Names of fields -/

namespace TypeDecl

variable {δ : Type} {t : TypeDecl} {className name : String} {given g : OrderedMap String δ}
  {entries : List (String × δ)} {f : Fault}

/-- The names of the fields of an object: each field of the class once, and no other names. -/
def Takes (t : TypeDecl) (names : List String) : Prop :=
  names.Nodup ∧ ∀ name, name ∈ names ↔ name ∈ t.fieldNames

/-- A class has a field exactly if the name is among those of its fields. -/
theorem hasField_iff : t.hasField name = true ↔ name ∈ t.fieldNames := by
  simp [hasField, fieldNames, List.any_eq_true]

/-- A field is new if the class has it and it was not given before. -/
theorem ensureNewField_eq_ok_iff :
    t.ensureNewField className name given = .ok () ↔ name ∈ t.fieldNames ∧ name ∉ given.keys := by
  rw [← hasField_iff, ← OrderedMap.contains_iff, ensureNewField]
  cases t.hasField name <;> cases given.contains name <;> simp

/-- A field is refused for what the literal says, not for a text that does not pass. -/
theorem runtime_of_ensureNewField (h : t.ensureNewField className name given = .error f) :
    ∃ cause, f = .runtime cause := by
  unfold ensureNewField at h
  split at h
  · exact ⟨_, (Except.error.inj h).symm⟩
  · split at h
    · exact ⟨_, (Except.error.inj h).symm⟩
    · cases h

/-- The fields of an object whose values are known, after those that are there. -/
def gather (t : TypeDecl) (className : String) :
    List (String × δ) → OrderedMap String δ → Except Fault (OrderedMap String δ)
  | [], given => .ok given
  | (name, value) :: rest, given => do
    t.ensureNewField className name given
    t.gather className rest (given.insert name value)

/-- The fields of an object whose values are known, if these are the fields of the class. -/
def construct (t : TypeDecl) (className : String) (entries : List (String × δ)) :
    Except Fault (List (String × δ)) := do
  t.complete className (← t.gather className entries .empty)

/-- A field that passes is put last, and the others are gathered after it. -/
theorem gather_cons {value : δ} (h : t.ensureNewField className name given = .ok ()) :
    t.gather className ((name, value) :: entries) given =
      t.gather className entries (given.insert name value) := by
  rw [gather, h]
  rfl

/-- Fields of different names that the class has and that were not given before are put last. -/
theorem gather_of_new (hnodup : (entries.map Prod.fst).Nodup)
    (hnew : ∀ name ∈ entries.map Prod.fst, name ∈ t.fieldNames ∧ name ∉ given.keys) :
    ∃ g, t.gather className entries given = .ok g ∧ g.entries = given.entries ++ entries := by
  induction entries generalizing given with
  | nil => exact ⟨given, rfl, (List.append_nil _).symm⟩
  | cons e rest ih =>
    obtain ⟨name, value⟩ := e
    obtain ⟨hnotin, hrest⟩ := List.nodup_cons.1 hnodup
    obtain ⟨hname, hothers⟩ := List.forall_mem_cons.1 hnew
    have hnone : given.get? name = none := by
      rw [← Option.not_isSome_iff_eq_none, OrderedMap.get?_isSome_iff]
      exact hname.2
    have hnew' : ∀ other ∈ rest.map Prod.fst,
        other ∈ t.fieldNames ∧ other ∉ (given.insert name value).keys := by
      intro other hother
      refine ⟨(hothers other hother).1, fun hmem => ?_⟩
      rcases OrderedMap.mem_keys_insert.1 hmem with hmem | rfl
      · exact (hothers other hother).2 hmem
      · exact hnotin hother
    obtain ⟨g, hg, hentries⟩ := ih hrest hnew'
    refine ⟨g, (gather_cons (ensureNewField_eq_ok_iff.2 hname)).trans hg, ?_⟩
    rw [hentries, OrderedMap.entries_insert_of_new hnone, List.append_assoc, List.singleton_append]

/-- Fields that pass the checks have different names, which the class has and which were not given
before. -/
theorem new_of_gather (h : t.gather className entries given = .ok g) :
    (entries.map Prod.fst).Nodup ∧
      ∀ name ∈ entries.map Prod.fst, name ∈ t.fieldNames ∧ name ∉ given.keys := by
  induction entries generalizing given with
  | nil => exact ⟨.nil, List.forall_mem_nil _⟩
  | cons e rest ih =>
    obtain ⟨name, value⟩ := e
    rcases hcheck : t.ensureNewField className name given with f | _
    · rw [gather, hcheck] at h
      cases h
    · rw [gather_cons hcheck] at h
      obtain ⟨hnodup, hnew⟩ := ih h
      have hother : ∀ other ∈ rest.map Prod.fst, other ∉ given.keys ∧ other ≠ name := by
        intro other hmem
        have hnot := (hnew other hmem).2
        rw [OrderedMap.mem_keys_insert, not_or] at hnot
        exact hnot
      refine ⟨List.nodup_cons.2 ⟨fun hmem => (hother name hmem).2 rfl, hnodup⟩, ?_⟩
      exact List.forall_mem_cons.2 ⟨ensureNewField_eq_ok_iff.1 hcheck, fun other hmem =>
        ⟨(hnew other hmem).1, (hother other hmem).1⟩⟩

/-- Fields are not gathered only if one of them is refused. -/
theorem runtime_of_gather (h : t.gather className entries given = .error f) :
    ∃ cause, f = .runtime cause := by
  induction entries generalizing given with
  | nil => cases h
  | cons e rest ih =>
    obtain ⟨name, value⟩ := e
    rcases hcheck : t.ensureNewField className name given with f' | _
    · rw [gather, hcheck] at h
      cases h
      exact runtime_of_ensureNewField hcheck
    · rw [gather_cons hcheck] at h
      exact ih h

/-- The fields are complete if every field of the class was given. -/
theorem complete_of_all (h : ∀ name ∈ t.fieldNames, name ∈ g.keys) :
    t.complete className g = .ok g.entries := by
  have hnone : (t.fieldNames.find? fun name => !g.contains name) = none := by
    refine List.find?_eq_none.2 fun name hname => ?_
    rw [OrderedMap.contains_iff.2 (h name hname)]
    exact Bool.false_ne_true
  rw [complete, hnone]

/-- A field of the class that was not given is missing. -/
theorem complete_of_missing (h : ¬ ∀ name ∈ t.fieldNames, name ∈ g.keys) :
    ∃ cause, t.complete className g = .error (.runtime cause) := by
  rw [complete]
  rcases hfind : t.fieldNames.find? fun name => !g.contains name with _ | name
  · refine absurd (fun name hname => ?_) h
    have hcontains := List.find?_eq_none.1 hfind name hname
    rw [← OrderedMap.contains_iff]
    simpa using hcontains
  · exact ⟨_, rfl⟩

/-- The checks pass exactly the fields of the class, and leave them as they are. -/
theorem construct_of_takes (h : t.Takes (entries.map Prod.fst)) :
    t.construct className entries = .ok entries := by
  have hgather : ∃ g, t.gather className entries .empty = .ok g ∧ g.entries = entries :=
    gather_of_new h.1 fun name hname => ⟨(h.2 name).1 hname, List.not_mem_nil⟩
  obtain ⟨g, hg, hentries⟩ := hgather
  have hkeys : g.keys = entries.map Prod.fst := by rw [← OrderedMap.map_fst_entries, hentries]
  rw [construct, hg]
  refine (complete_of_all fun name hname => ?_).trans (congrArg _ hentries)
  rw [hkeys]
  exact (h.2 name).2 hname

/-- Other fields fail at the first one that is wrong, or because one is missing. -/
theorem construct_of_not_takes (h : ¬ t.Takes (entries.map Prod.fst)) :
    ∃ cause, t.construct className entries = .error (.runtime cause) := by
  rcases hgather : t.gather className entries .empty with f | g
  · obtain ⟨cause, rfl⟩ := runtime_of_gather hgather
    exact ⟨cause, by rw [construct, hgather]; rfl⟩
  · obtain ⟨hnodup, hnew⟩ := new_of_gather hgather
    have hgather' : ∃ g, t.gather className entries .empty = .ok g ∧ g.entries = entries :=
      gather_of_new hnodup hnew
    obtain ⟨g', hg', hentries⟩ := hgather'
    cases hgather.symm.trans hg'
    have hkeys : g.keys = entries.map Prod.fst := by rw [← OrderedMap.map_fst_entries, hentries]
    rw [construct, hgather]
    refine complete_of_missing fun hall => h ⟨hnodup, fun name => ⟨fun hname => ?_, fun hname => ?_⟩⟩
    · exact (hnew name hname).1
    · rw [← hkeys]
      exact hall name hname

end TypeDecl

/-! ### Fields in order -/

namespace Shape

variable {ρ : Type} {xs ys : List (String × ρ)}

/-- A field is found by its name once the fields are in order. -/
theorem field?_sortFields (h : (xs.map Prod.fst).Nodup) {name : String} {value : ρ} :
    field? name (sortFields xs) = some value ↔ (name, value) ∈ xs := by
  rw [field?_eq_some_iff (pairwise_sortFields h), (sortFields_perm xs).mem_iff]

/-- Fields of the same names are the same in order if and only if each of them has the same
value. -/
theorem sortFields_eq_iff (hxs : (xs.map Prod.fst).Nodup)
    (hnames : (xs.map Prod.fst).Perm (ys.map Prod.fst)) :
    sortFields xs = sortFields ys ↔
      ∀ name v v', (name, v) ∈ xs → (name, v') ∈ ys → v = v' := by
  have hys : (ys.map Prod.fst).Nodup := hnames.nodup_iff.1 hxs
  constructor
  · intro h name v v' hv hv'
    rw [← field?_sortFields hxs, h, field?_sortFields hys] at hv
    exact Option.some.inj (((field?_sortFields hys).2 hv).symm.trans ((field?_sortFields hys).2 hv'))
  · intro h
    have hmem : ∀ e, e ∈ xs ↔ e ∈ ys := by
      rintro ⟨name, v⟩
      constructor
      · intro hv
        obtain ⟨e, he, rfl⟩ := List.mem_map.1 (hnames.mem_iff.1 (List.mem_map_of_mem hv))
        rw [h e.1 v e.2 hv he]
        exact he
      · intro hv
        obtain ⟨e, he, rfl⟩ := List.mem_map.1 (hnames.mem_iff.2 (List.mem_map_of_mem hv))
        rw [← h e.1 e.2 v he hv]
        exact he
    have hperm : (sortFields xs).Perm (sortFields ys) :=
      ((sortFields_perm xs).trans ((List.perm_ext_iff_of_nodup (.of_map _ hxs) (.of_map _ hys)).2
        hmem)).trans (sortFields_perm ys).symm
    refine hperm.eq_of_pairwise (fun e e' _ _ hlt hlt' => ?_) (pairwise_sortFields hxs)
      (pairwise_sortFields hys)
    exact absurd (String.lt_trans hlt hlt') (String.lt_irrefl _)

end Shape

/-! ### Runs that come to a value -/

namespace Eval

variable {σ δ α β : Type} {x : Eval σ δ α} {f : α → Eval σ δ β} {m m₁ m' : Machine σ δ} {b : α}
  {c : β}

/-- A run whose first part comes to a value goes on with it. -/
theorem bind_of_ok (h : x m = .ok b m₁) : (x >>= f) m = f b m₁ := by
  show EStateM.bind x f m = _
  rw [EStateM.bind, h]

/-- A run whose first part stops is stopped. -/
theorem bind_of_error {stop : Stop δ} (h : x m = .error stop m₁) :
    (x >>= f) m = .error stop m₁ := by
  show EStateM.bind x f m = _
  rw [EStateM.bind, h]

/-- A run that has a value has one after its first part. -/
theorem exists_of_bind_ok (h : (x >>= f) m = .ok c m') :
    ∃ b m₁, x m = .ok b m₁ ∧ f b m₁ = .ok c m' := by
  rcases hx : x m with ⟨b, m₁⟩ | ⟨stop, m₁⟩
  · exact ⟨b, m₁, rfl, (bind_of_ok hx).symm.trans h⟩
  · cases (bind_of_error hx).symm.trans h

end Eval

/-- Expressions that have values, each where the one before it has ended. -/
inductive Env.Evaluates (env : Env) :
    List Expr → Machine Stock Draft → List Draft → Machine Stock Draft → Prop
  | nil (m : Machine Stock Draft) : Evaluates env [] m [] m
  | cons {e : Expr} {rest : List Expr} {d : Draft} {ds : List Draft}
    {m m₁ m' : Machine Stock Draft} : e.eval env m = .ok d m₁ → Evaluates env rest m₁ ds m' →
      Evaluates env (e :: rest) m (d :: ds) m'

namespace Env.Evaluates

variable {env : Env} {exprs : List Expr} {fields : List (String × Expr)} {values : List Draft}
  {m m' : Machine Stock Draft} {t : TypeDecl} {className : String}

/-- The items of a list have values one after another. -/
theorem of_evalItems {done items : Array Draft} (h : evalItems env exprs done m = .ok items m') :
    ∃ values, items = done ++ values.toArray ∧ env.Evaluates exprs m values m' := by
  induction exprs generalizing m done with
  | nil =>
    cases h
    exact ⟨[], Array.append_empty.symm, .nil _⟩
  | cons e rest ih =>
    rw [evalItems] at h
    obtain ⟨d, m₁, hd, hrest⟩ := Eval.exists_of_bind_ok h
    obtain ⟨values, rfl, hvalues⟩ := ih hrest
    refine ⟨d :: values, ?_, .cons hd hvalues⟩
    rw [← Array.toList_inj]
    simp

/-- Each expression has one value. -/
theorem length (h : env.Evaluates exprs m values m') : values.length = exprs.length := by
  induction h with
  | nil => rfl
  | cons _ _ ih => rw [List.length_cons, ih, List.length_cons]

/-- The values are drafts that a body can make, over a pool that follows. -/
theorem made {w : Pool} (h : env.Evaluates exprs m values m') (hsupplied : env.Supplied w)
    (hm : m.Orderly) (hleads : w.Leads m.stock.pool) :
    m'.Orderly ∧ m.stock.pool.Leads m'.stock.pool ∧ ∀ d ∈ values, d.Made m'.stock.pool := by
  induction h with
  | nil m => exact ⟨hm, .refl, List.forall_mem_nil _⟩
  | cons hd _ ih =>
    obtain ⟨hm₁, hleads₁, hmade⟩ := (hsupplied.eval _).of_ok hm hleads hd
    obtain ⟨hm', hleads', hrest⟩ := ih hm₁ (ReflTransGen.trans hleads hleads₁)
    exact ⟨hm', ReflTransGen.trans hleads₁ hleads',
      List.forall_mem_cons.2 ⟨hmade.mono (Pool.Leads.keeps hleads'), hrest⟩⟩

/-- A field that fails its check is not evaluated. -/
theorem evalFields_of_error {given : OrderedMap String Draft} {name : String} {e : Expr} {f : Fault}
    (h : t.ensureNewField className name given = .error f) :
    evalFields env t className ((name, e) :: fields) given m = .error (.fault f) m := by
  rw [evalFields, h]
  rfl

/-- A field that passes its check is evaluated and put last. -/
theorem evalFields_of_ok {given : OrderedMap String Draft} {name : String} {e : Expr} {d : Draft}
    {m₁ : Machine Stock Draft} (h : t.ensureNewField className name given = .ok ())
    (hd : e.eval env m = .ok d m₁) :
    evalFields env t className ((name, e) :: fields) given m =
      evalFields env t className fields (given.insert name d) m₁ := by
  rw [evalFields, h]
  exact (Eval.bind_of_ok (show Eval.ofExcept (.ok ()) m = .ok () m from rfl)).trans
    (Eval.bind_of_ok hd)

/-- Fields that have values pass the checks as their values do. -/
theorem gathers (h : env.Evaluates (fields.map Prod.snd) m values m') (t : TypeDecl)
    (className : String) (given : OrderedMap String Draft) :
    (∀ g, t.gather className ((fields.map Prod.fst).zip values) given = .ok g →
      evalFields env t className fields given m = .ok g m') ∧
    ∀ f, t.gather className ((fields.map Prod.fst).zip values) given = .error f →
      ∃ m'', evalFields env t className fields given m = .error (.fault f) m'' := by
  induction fields generalizing m values given with
  | nil =>
    cases h
    refine ⟨fun g hg => ?_, fun f hf => ?_⟩
    · cases hg
      rfl
    · cases hf
  | cons field rest ih =>
    obtain ⟨name, e⟩ := field
    cases h with
    | @cons _ _ d ds _ m₁ _ hd hrest =>
      rw [List.map_cons, List.zip_cons_cons]
      rcases hcheck : t.ensureNewField className name given with f' | _
      · rw [TypeDecl.gather, hcheck, evalFields_of_error hcheck]
        refine ⟨fun g hg => ?_, fun f hf => ?_⟩
        · cases hg
        · cases hf
          exact ⟨m, rfl⟩
      · rw [TypeDecl.gather_cons hcheck, evalFields_of_ok hcheck hd]
        exact ih hrest (given.insert name d)

/-- The literal of a list has a value if its items have values after its own step. -/
theorem of_list (h : (Expr.list exprs).eval env m = .ok (.list values.toArray) m') :
    ∃ m₁, Eval.spend env.exhausted 1 m = .ok () m₁ ∧ env.Evaluates exprs m₁ values m' := by
  rw [Expr.eval] at h
  obtain ⟨_, m₁, hspend, h⟩ := Eval.exists_of_bind_ok h
  obtain ⟨items, m₂, hitems, h⟩ := Eval.exists_of_bind_ok h
  cases h
  obtain ⟨values', heq, hvalues⟩ := of_evalItems hitems
  rw [Array.empty_append] at heq
  obtain rfl : values = values' := List.toArray_inj heq
  exact ⟨m₁, hspend, hvalues⟩

/-- The literal of an object whose fields have values after its own step passes the checks as these
do. -/
theorem eval_object {m₁ : Machine Stock Draft} (hspend : Eval.spend env.exhausted 1 m = .ok () m₁)
    (h : env.Evaluates (fields.map Prod.snd) m₁ values m')
    (ht : env.analysis.types.get? className = some t) :
    (∀ es, t.construct className ((fields.map Prod.fst).zip values) = .ok es →
      (Expr.object className fields).eval env m = .ok (.object className es) m') ∧
    ∀ f, t.construct className ((fields.map Prod.fst).zip values) = .error f →
      ∃ m'', (Expr.object className fields).eval env m = .error (.fault f) m'' := by
  have hobject : (Expr.object className fields).eval env m = (do
      let given ← evalFields env t className fields .empty
      return .object className (← Eval.ofExcept (t.complete className given)) : Run Draft) m₁ := by
    rw [Expr.eval, Eval.bind_of_ok hspend, ht]
  obtain ⟨hok, herror⟩ := h.gathers t className .empty
  rcases hgather : t.gather className ((fields.map Prod.fst).zip values) .empty with f | g
  · obtain ⟨m'', hm''⟩ := herror f hgather
    rw [TypeDecl.construct, hgather, hobject]
    refine ⟨fun es hes => ?_, fun f' hf' => ?_⟩
    · cases hes
    · cases hf'
      exact ⟨m'', Eval.bind_of_error hm''⟩
  · have hconstruct : t.construct className ((fields.map Prod.fst).zip values) =
        t.complete className g := by
      rw [TypeDecl.construct, hgather]
      rfl
    rw [hconstruct, hobject, Eval.bind_of_ok (hok g hgather)]
    refine ⟨fun es hes => ?_, fun f' hf' => ?_⟩
    · rw [hes]
      rfl
    · rw [hf']
      exact ⟨m', rfl⟩

end Env.Evaluates

/-! ### Objects as constants -/

namespace Draft

variable {p q pool : Pool} {className name : String} {d e value : Draft}
  {xs ys : List (String × Draft)}

/-- An object gives each of its fields its value, now, and from then on whatever of it has been
pooled in the meantime. -/
def Gives (p : Pool) (d : Draft) (fields : List (String × Draft)) : Prop :=
  ∀ name value, (name, value) ∈ fields → d.member p name = .ok value ∧
    ∀ q e, p.Leads q → Since p q d e → ∃ r, e.member q name = .ok r ∧ Alike q value r

/-- A member of a new object is the value of its field. -/
theorem member_object (hnodup : (xs.map Prod.fst).Nodup) (h : (name, value) ∈ xs) :
    (object className xs).member pool name = .ok value := by
  have hfield : Shape.field? name (Shape.sortFields xs) = some value :=
    (Shape.field?_sortFields hnodup).2 h
  have hmember : memberOf id name (Shape.object className (Shape.sortFields xs) : Shape Draft Draft) =
      some (.ok value) := by
    rw [memberOf, hfield]
    rfl
  have hshape : (object className xs).shape? pool =
      .ok (some (.object className (Shape.sortFields xs))) := rfl
  rw [member_eq hshape, Option.bind_some, hmember]

/-- Fields that a body can make mean trees. -/
theorem exists_fields (hsound : pool.Sound) (h : ∀ e ∈ xs, e.2.Made pool) :
    ∃ ts : List (String × Tree Holding),
      List.Forall₂ (fun e e' => e.1 = e'.1 ∧ Means pool e.2 e'.2) xs ts := by
  refine exists_forall₂ fun e he => ?_
  obtain ⟨t, ht⟩ := (h e he).exists_means hsound
  exact ⟨(e.1, t), rfl, ht⟩

/-- A body can make an object of drafts that it can make, if no field is given twice. -/
theorem made_object (hnodup : (xs.map Prod.fst).Nodup) (h : ∀ e ∈ xs, e.2.Made pool) :
    (object className xs).Made pool := by
  refine .fresh (Shape.pairwise_sortFields hnodup) (fun d hd => ?_) (List.forall_mem_nil _)
    (List.forall_mem_nil _)
  obtain ⟨e, he, rfl⟩ := List.mem_map.1 hd
  exact h e ((Shape.sortFields_perm xs).mem_iff.1 he)

/-- Objects of a class are one constant if and only if each field has one constant for its values in
both. -/
theorem object_alike_iff (hsound : pool.Sound) (hxs : (xs.map Prod.fst).Nodup)
    (hnames : (xs.map Prod.fst).Perm (ys.map Prod.fst)) (hmadex : ∀ e ∈ xs, e.2.Made pool)
    (hmadey : ∀ e ∈ ys, e.2.Made pool) :
    Alike pool (object className xs) (object className ys) ↔
      ∀ name v v', (name, v) ∈ xs → (name, v') ∈ ys → Alike pool v v' := by
  obtain ⟨ts, hts⟩ := exists_fields hsound hmadex
  obtain ⟨us, hus⟩ := exists_fields hsound hmadey
  have hsame : ∀ {fs : List (String × Draft)} {ts : List (String × Tree Holding)},
      List.Forall₂ (fun e e' => e.1 = e'.1 ∧ Means pool e.2 e'.2) fs ts →
        fs.map Prod.fst = ts.map Prod.fst := by
    intro fs ts h
    induction h with
    | nil => rfl
    | cons he _ ih => rw [List.map_cons, List.map_cons, he.1, ih]
  have hys : (ys.map Prod.fst).Nodup := hnames.nodup_iff.1 hxs
  have hmeans := Means.object className hxs hts
  have hmeans' := Means.object className hys hus
  have htrees : Tree.object className ts = Tree.object className us ↔
      Shape.sortFields ts = Shape.sortFields us := by simp [Tree.object]
  rw [hsame hts] at hxs
  rw [hsame hts, hsame hus] at hnames
  -- both objects are sorted by name before they are compared
  rw [hmeans.alike_iff hsound hmeans', htrees, Shape.sortFields_eq_iff hxs hnames]
  constructor
  · intro h name v v' hv hv'
    obtain ⟨⟨_, t⟩, ht, rfl, hvt⟩ := exists_of_forall₂ hts hv
    obtain ⟨⟨_, u⟩, hu, rfl, hvu⟩ := exists_of_forall₂ hus hv'
    exact (hvt.alike_iff hsound hvu).2 (h _ t u ht hu)
  · intro h name t u ht hu
    obtain ⟨⟨_, v⟩, hv, rfl, hvt⟩ := exists_of_forall₂ hts.flip ht
    obtain ⟨⟨_, v'⟩, hv', rfl, hvu⟩ := exists_of_forall₂ hus.flip hu
    exact (hvt.alike_iff hsound hvu).1 (h _ v v' hv hv')

/-- What a draft has become is one constant with the same drafts as the draft. -/
theorem Since.alike_iff (h : Since p q d e) (hsound : p.Sound) (hleads : p.Leads q)
    (hvalue : value.Made q) : Alike q e value ↔ Alike q d value := by
  obtain ⟨t, hd, he⟩ := h.exists_means hsound hleads
  have hsound' := hleads.sound hsound
  obtain ⟨u, hu⟩ := hvalue.exists_means hsound'
  rw [he.alike_iff hsound' hu, (hd.mono hleads.keeps).alike_iff hsound' hu]

/-- An object gives each of its fields its value. -/
theorem object_gives (hsound : p.Sound) (hnodup : (xs.map Prod.fst).Nodup) :
    Gives p (object className xs) xs := by
  intro name value hmem
  have hmember : (object className xs).member p name = .ok value := member_object hnodup hmem
  refine ⟨hmember, fun q e hleads hsince => ?_⟩
  obtain ⟨t, hd, he⟩ := hsince.exists_means hsound hleads
  have hanswers := (hd.interchangeable hsound hleads he).member name
  rw [hmember] at hanswers
  generalize e.member q name = r at hanswers ⊢
  cases hanswers with
  | ok halike => exact ⟨_, rfl, halike⟩

end Draft

/-! ### Object literals -/

/-- What the fields of an object literal come to, if they have values one after another as the items
of a list do. -/
structure Env.Fields (env : Env) (fields : List (String × Expr)) (m : Machine Stock Draft)
    (entries : List (String × Draft)) (m' : Machine Stock Draft) : Prop where
  orderly : m'.Orderly
  leads : m.stock.pool.Leads m'.stock.pool
  names : entries.map Prod.fst = fields.map Prod.fst
  made : ∀ e ∈ entries, e.2.Made m'.stock.pool
  /-- The names are those of the class. -/
  takes : ∀ {className t}, env.analysis.types.get? className = some t →
    t.Takes (fields.map Prod.fst) →
      (Expr.object className fields).eval env m = .ok (.object className entries) m'
  /-- A name is unknown or repeated, or one is missing. -/
  fails : ∀ {className t}, env.analysis.types.get? className = some t →
    ¬ t.Takes (fields.map Prod.fst) →
      ∃ cause m'', (Expr.object className fields).eval env m = .error (.fault (.runtime cause)) m''

/-- If the values of a list come out, an object with the fields of these values does as well, or it
is refused for the names. -/
theorem Env.Supplied.fields {env : Env} {w : Pool} (h : env.Supplied w)
    {fields : List (String × Expr)} {values : List Draft} {m m' : Machine Stock Draft}
    (hm : m.Orderly) (hleads : w.Leads m.stock.pool)
    (hvalues : (Expr.list (fields.map Prod.snd)).eval env m = .ok (.list values.toArray) m') :
    env.Fields fields m ((fields.map Prod.fst).zip values) m' := by
  obtain ⟨m₁, hspend, hevaluates⟩ := Env.Evaluates.of_list hvalues
  have hstep : Makes w (fun _ _ => True) (Eval.spend env.exhausted 1) :=
    (Sim.spend trivial 1).imp fun _ _ _ _ => ⟨trivial, rfl⟩
  obtain ⟨hm₁, hleads₁, -⟩ := hstep.of_ok hm hleads hspend
  obtain ⟨hm', hleads', hmade⟩ := hevaluates.made h hm₁ (ReflTransGen.trans hleads hleads₁)
  have hlength : (fields.map Prod.fst).length = values.length := by
    rw [hevaluates.length, List.length_map, List.length_map]
  have hnames : ((fields.map Prod.fst).zip values).map Prod.fst = fields.map Prod.fst :=
    List.map_fst_zip (Nat.le_of_eq hlength)
  refine ⟨hm', ReflTransGen.trans hleads₁ hleads', hnames, fun e he => ?_, ?_, ?_⟩
  · exact hmade e.2 (List.of_mem_zip he).2
  · intro className t ht htakes
    rw [← hnames] at htakes
    exact (hevaluates.eval_object hspend ht).1 _ (TypeDecl.construct_of_takes htakes)
  · intro className t ht htakes
    rw [← hnames] at htakes
    obtain ⟨cause, hcause⟩ : ∃ cause, t.construct className ((fields.map Prod.fst).zip values) =
        .error (.runtime cause) := TypeDecl.construct_of_not_takes htakes
    obtain ⟨m'', hm''⟩ := (hevaluates.eval_object hspend ht).2 _ hcause
    exact ⟨cause, m'', hm''⟩

namespace Analysis

/-- The surroundings of a body at the head of a chain. -/
abbrev surroundings (a : Analysis) (callsLeft : Nat) (chain : Chain) (params : Dict String Atom) :
    Env :=
  ⟨a, chain, params, a.resolve callsLeft (some chain)⟩

/-- An object literal whose fields have values, one after another as the items of a list: it has a
value if and only if its names are those of the class, each of them once, and else it fails with a
runtime fault. The object gives each field, be its name `length` or not, the value that was given
for it, whether the object has been pooled or not. A permutation of the literal whose fields have
values later on, in whichever surroundings, has a value too, and the objects are one constant if and
only if each field has come to one constant in both. -/
theorem object_construction (a : Analysis) {callsLeft : Nat} {chain : Chain}
    {params : Dict String Atom} {className : String} {t : TypeDecl} {fields : List (String × Expr)}
    {values : List Draft} {m₁ m₁' : Machine Stock Draft} (ht : a.types.get? className = some t)
    (hm₁ : m₁.Orderly) (hparams : ∀ {name x}, params.get? name = some x → x.Known m₁.stock.pool)
    (hvalues : (Expr.list (fields.map Prod.snd)).eval (a.surroundings callsLeft chain params) m₁ =
      .ok (.list values.toArray) m₁') :
    ((∃ d m', (Expr.object className fields).eval (a.surroundings callsLeft chain params) m₁ =
          .ok d m') ↔ t.Takes (fields.map Prod.fst)) ∧
      (¬ t.Takes (fields.map Prod.fst) → ∃ cause m',
        (Expr.object className fields).eval (a.surroundings callsLeft chain params) m₁ =
          .error (.fault (.runtime cause)) m') ∧
      ∀ d m', (Expr.object className fields).eval (a.surroundings callsLeft chain params) m₁ =
          .ok d m' →
        m' = m₁' ∧ Gives m₁'.stock.pool d ((fields.map Prod.fst).zip values) ∧
        ∀ {callsLeft' chain' params' fields' values' m₂ m₂'}, fields.Perm fields' → m₂.Orderly →
          m₁'.stock.pool.Leads m₂.stock.pool →
          (∀ {name x}, params'.get? name = some x → x.Known m₂.stock.pool) →
          (Expr.list (fields'.map Prod.snd)).eval (a.surroundings callsLeft' chain' params') m₂ =
            .ok (.list values'.toArray) m₂' →
          ∃ d', (Expr.object className fields').eval (a.surroundings callsLeft' chain' params') m₂ =
              .ok d' m₂' ∧
            ∀ e, Since m₁'.stock.pool m₂'.stock.pool d e →
              (Alike m₂'.stock.pool e d' ↔
                ∀ name v v', (name, v) ∈ (fields.map Prod.fst).zip values →
                  (name, v') ∈ (fields'.map Prod.fst).zip values' →
                    Alike m₂'.stock.pool v v') := by
  have hfields := (a.supplied callsLeft chain hparams).fields hm₁ .refl hvalues
  generalize (fields.map Prod.fst).zip values = entries at hfields ⊢
  have hiff : (∃ d m', (Expr.object className fields).eval
      (a.surroundings callsLeft chain params) m₁ = .ok d m') ↔ t.Takes (fields.map Prod.fst) := by
    refine ⟨?_, fun htakes => ⟨_, _, hfields.takes ht htakes⟩⟩
    rintro ⟨d, m', hd⟩
    by_contra htakes
    obtain ⟨cause, m'', hfault⟩ := hfields.fails ht htakes
    cases hd.symm.trans hfault
  refine ⟨hiff, hfields.fails ht, fun d m' hd => ?_⟩
  -- from here on the literal has a value, and every permutation of it takes the same names
  have htakes := hiff.1 ⟨d, m', hd⟩
  cases hd.symm.trans (hfields.takes ht htakes)
  have hsound := hfields.orderly.stock.reached.sound
  have hnodup : (entries.map Prod.fst).Nodup := hfields.names ▸ htakes.1
  refine ⟨rfl, object_gives hsound hnodup, ?_⟩
  intro callsLeft' chain' params' fields' values' m₂ m₂' hpermuted hm₂ hlater hparams' hvalues'
  have hfields' := (a.supplied callsLeft' chain' hparams').fields hm₂ .refl hvalues'
  generalize (fields'.map Prod.fst).zip values' = entries' at hfields' ⊢
  have hnames : (fields.map Prod.fst).Perm (fields'.map Prod.fst) := hpermuted.map _
  have htakes' : t.Takes (fields'.map Prod.fst) :=
    ⟨hnames.nodup_iff.1 htakes.1, fun name => hnames.mem_iff.symm.trans (htakes.2 name)⟩
  have hperm : (entries.map Prod.fst).Perm (entries'.map Prod.fst) := by
    rw [hfields.names, hfields'.names]
    exact hnames
  have hleads : m₁'.stock.pool.Leads m₂'.stock.pool := hlater.trans hfields'.leads
  have hmade : ∀ e ∈ entries, e.2.Made m₂'.stock.pool :=
    fun e he => (hfields.made e he).mono hleads.keeps
  refine ⟨_, hfields'.takes ht htakes', fun e he => ?_⟩
  rw [he.alike_iff hsound hleads (made_object (hperm.nodup_iff.1 hnodup) hfields'.made),
    object_alike_iff (hleads.sound hsound) hnodup hperm hmade hfields'.made]

/-- A class of two fields, one of them called `length`. -/
def pair : TypeDecl := ⟨"Pair", [("a", "int"), ("length", "int")]⟩

/-- A program without functions and variables, and with that class. -/
def ofPair : Analysis := build {} (OrderedMap.empty.insert "Pair" pair) {}

/-- The fields of an object of that class, with expressions for their values. -/
def pairFields (a length : Expr) : List (String × Expr) := [("a", a), ("length", length)]

/-- The surroundings of a body in that program. -/
abbrev surroundingsOfPair : Env := ofPair.surroundings 1 ⟨"body", [], 0⟩ .empty

/-- Integers are one constant if and only if they are the same. -/
theorem alike_int_iff {i j : Int64} : Alike {} (.int i) (.int j) ↔ i = j := by
  refine (Means.alike_iff Pool.sound_empty (.inPlace _) (.inPlace _)).trans ⟨?_, ?_⟩
  · rintro ⟨⟩
    rfl
  · rintro rfl
    rfl

/-- Two integers can be made by any body. -/
theorem made_ints {a b : String} {i j : Int64} :
    ∀ e ∈ [(a, Draft.int i), (b, Draft.int j)], e.2.Made {} :=
  List.forall_mem_cons.2 ⟨.atom trivial, List.forall_mem_singleton.2 (.atom trivial)⟩

/-- An object with a field `length`, and the same object with its fields written the other way
round. -/
theorem object_construction_ofPair :
    ∃ d m', (Expr.object "Pair" (pairFields (.scalar (.int 1)) (.scalar (.int 7)))).eval
        surroundingsOfPair ⟨{}, [.empty], 6⟩ = .ok d m' ∧
      d.member m'.stock.pool "length" = .ok (.int 7) ∧
      ∃ d' m'', (Expr.object "Pair" (pairFields (.scalar (.int 1)) (.scalar (.int 7))).reverse).eval
          surroundingsOfPair m' = .ok d' m'' ∧ Alike m''.stock.pool d d' := by
  have hstock : Stock.Orderly {} := ⟨.refl, by rintro key id ⟨⟩⟩
  have hparams : ∀ {name x}, (Dict.empty : Dict String Atom).get? name = some x → x.Known {} := by
    rintro name x ⟨⟩
  have hpair : ofPair.types.get? "Pair" = some pair := by with_unfolding_all rfl
  have hvalues : (Expr.list ((pairFields (.scalar (.int 1)) (.scalar (.int 7))).map Prod.snd)).eval
      surroundingsOfPair ⟨{}, [.empty], 6⟩ =
        .ok (.list [Draft.int 1, Draft.int 7].toArray) ⟨{}, [.empty], 3⟩ := by
    with_unfolding_all rfl
  have hvalues' : (Expr.list
      ((pairFields (.scalar (.int 1)) (.scalar (.int 7))).reverse.map Prod.snd)).eval
        surroundingsOfPair ⟨{}, [.empty], 3⟩ =
          .ok (.list [Draft.int 7, Draft.int 1].toArray) ⟨{}, [.empty], 0⟩ := by
    with_unfolding_all rfl
  have hobject : (Expr.object "Pair" (pairFields (.scalar (.int 1)) (.scalar (.int 7)))).eval
      surroundingsOfPair ⟨{}, [.empty], 6⟩ =
        .ok (.object "Pair" [("a", .int 1), ("length", .int 7)]) ⟨{}, [.empty], 3⟩ := by
    with_unfolding_all rfl
  obtain ⟨-, -, hobjects⟩ := object_construction _ hpair (.start hstock 6) hparams hvalues
  obtain ⟨-, hgives, hpermuted⟩ := hobjects _ _ hobject
  obtain ⟨d', hd', halike⟩ :=
    hpermuted (List.reverse_perm _).symm (.start hstock 3) .refl hparams hvalues'
  refine ⟨_, _, hobject, ?_, d', _, hd', (halike _ (.kept ?_)).2 fun name v v' hv hv' => ?_⟩
  · exact (hgives "length" (.int 7) (List.mem_cons_of_mem _ (List.mem_singleton_self _))).1
  · exact made_object (by decide) made_ints
  · simp only [pairFields, List.map_cons, List.map_nil, List.zip_cons_cons, List.zip_nil_right,
      List.reverse_cons, List.reverse_nil, List.nil_append, List.cons_append, List.mem_cons,
      Prod.mk.injEq, List.not_mem_nil, or_false] at hv hv'
    rcases hv with ⟨rfl, rfl⟩ | ⟨rfl, rfl⟩
    · rcases hv' with ⟨h, -⟩ | ⟨-, rfl⟩
      · exact absurd h (by decide)
      · exact alike_int_iff.2 rfl
    · rcases hv' with ⟨-, rfl⟩ | ⟨h, -⟩
      · exact alike_int_iff.2 rfl
      · exact absurd h (by decide)

/-- An expression that adds one to a local and gives its value. -/
def nextCount : Expr :=
  .block [.assign "x" (.binary .add (.name "x") (.scalar (.int 1)))] (.name "x")

/-- Where a field assigns a local that another one reads, the order in which they are written makes
a difference. -/
theorem object_of_increments :
    ∃ d m' d' m'', (Expr.object "Pair" (pairFields nextCount nextCount)).eval surroundingsOfPair
        ⟨{}, [.one "x" (.int 0)], 11⟩ = .ok d m' ∧
      (Expr.object "Pair" (pairFields nextCount nextCount).reverse).eval surroundingsOfPair
        ⟨{}, [.one "x" (.int 0)], 11⟩ = .ok d' m'' ∧
      m''.stock.pool = m'.stock.pool ∧ ¬ Alike m'.stock.pool d d' := by
  have hpair : ofPair.types.get? "Pair" = some pair := by with_unfolding_all rfl
  have hspend : Eval.spend surroundingsOfPair.exhausted 1 ⟨{}, [.one "x" (.int 0)], 11⟩ =
      .ok () (⟨{}, [.one "x" (.int 0)], 10⟩ : Machine Stock Draft) := rfl
  have hfirst : nextCount.eval surroundingsOfPair ⟨{}, [.one "x" (.int 0)], 10⟩ =
      .ok (.int 1) ⟨{}, [.one "x" (.int 1)], 5⟩ := by with_unfolding_all rfl
  have hsecond : nextCount.eval surroundingsOfPair ⟨{}, [.one "x" (.int 1)], 5⟩ =
      .ok (.int 2) ⟨{}, [.one "x" (.int 2)], 0⟩ := by with_unfolding_all rfl
  have hvalues : surroundingsOfPair.Evaluates [nextCount, nextCount] ⟨{}, [.one "x" (.int 0)], 10⟩
      [.int 1, .int 2] ⟨{}, [.one "x" (.int 2)], 0⟩ := .cons hfirst (.cons hsecond (.nil _))
  have hwritten : surroundingsOfPair.Evaluates ((pairFields nextCount nextCount).map Prod.snd)
      ⟨{}, [.one "x" (.int 0)], 10⟩ [.int 1, .int 2] ⟨{}, [.one "x" (.int 2)], 0⟩ := hvalues
  have hreversed : surroundingsOfPair.Evaluates
      ((pairFields nextCount nextCount).reverse.map Prod.snd) ⟨{}, [.one "x" (.int 0)], 10⟩
        [.int 1, .int 2] ⟨{}, [.one "x" (.int 2)], 0⟩ := hvalues
  have hobject := (hwritten.eval_object hspend hpair).1 [("a", .int 1), ("length", .int 2)]
    (by with_unfolding_all rfl)
  have hobject' := (hreversed.eval_object hspend hpair).1 [("length", .int 1), ("a", .int 2)]
    (by with_unfolding_all rfl)
  refine ⟨_, _, _, _, hobject, hobject', rfl, fun h => ?_⟩
  have hnames : ([("a", Draft.int 1), ("length", .int 2)].map Prod.fst).Perm
      ([("length", Draft.int 1), ("a", .int 2)].map Prod.fst) := .swap _ _ _
  have hsame := (object_alike_iff Pool.sound_empty (by decide) hnames made_ints made_ints).1 h "a"
    (.int 1) (.int 2) (List.mem_cons_self ..)
    (List.mem_cons_of_mem _ (List.mem_singleton_self _))
  exact absurd (alike_int_iff.1 hsame) (by decide)

end Analysis

end ConstPool
