import ConstPool.Eval.Body
import ConstPool.Proofs.Draft.Operators

/-!
# Parts respect the meaning

A part of a draft means the part of its tree, whether the draft is pooled or not, and where there is
no such part the fault is the same.

* `Draft.Means.index`, `Draft.Means.member`, `Draft.Means.elements`: parts of drafts.
* `Draft.Means.asBool`, `Draft.Means.asInt`: values of certain kinds.
* `Draft.Means.ensureNewKey`: the check of the keys of a map.
-/

namespace ConstPool

/-! ### Corresponding lists -/

/-- The items of arrays that correspond do so. -/
theorem getElem?_rel {β γ : Type} {R : β → γ → Prop} {xs : Array β} {ys : Array γ}
    (h : List.Forall₂ R xs.toList ys.toList) (i : Nat) : Option.Rel R xs[i]? ys[i]? := by
  obtain ⟨xs⟩ := xs
  obtain ⟨ys⟩ := ys
  simp only [List.getElem?_toArray] at h ⊢
  induction h generalizing i with
  | nil => exact .none
  | cons hxy _ ih =>
    cases i with
    | zero => exact .some hxy
    | succ i => exact ih i

/-- The elements of lists that correspond do so, and where there is none the fault is the same. -/
theorem itemAt_agree {β γ : Type} {R : β → γ → Prop} {xs : Array β} {ys : Array γ}
    (h : List.Forall₂ R xs.toList ys.toList) (index : Int64) :
    Agree Fault.Benign R (Shape.itemAt xs index) (Shape.itemAt ys index) := by
  have hsize : xs.size = ys.size := h.length_eq
  unfold Shape.itemAt
  rcases Shape.place? index with _ | i
  · rw [hsize]
    exact .error rfl
  · have hi := getElem?_rel h i
    simp only [Option.bind_some]
    generalize xs[i]? = x at hi ⊢
    generalize ys[i]? = y at hi ⊢
    cases hi with
    | some hxy => exact .ok hxy
    | none =>
      rw [hsize]
      exact .error rfl

/-- The values of a name correspond. -/
theorem field?_rel {β γ : Type} {R : β → γ → Prop} {xs : List (String × β)}
    {ys : List (String × γ)} (h : List.Forall₂ (fun e e' => e.1 = e'.1 ∧ R e.2 e'.2) xs ys)
    (name : String) : Option.Rel R (Shape.field? name xs) (Shape.field? name ys) := by
  induction h with
  | nil => exact .none
  | @cons x y _ _ hxy _ ih =>
    obtain ⟨n, v⟩ := x
    obtain ⟨n', v'⟩ := y
    obtain ⟨rfl, hv⟩ := hxy
    simp only [Shape.field?, List.lookup_cons] at ih ⊢
    cases name == n
    · exact ih
    · exact .some hv

namespace Draft

variable {α : Type} [Leaf α] {pool : Pool} {d e : Draft} {t u : Tree α}

/-! ### Elements -/

/-- The part of a draft at an index is that of its shape. -/
theorem index_eq {l : Option (Shape Draft Draft)} {position : Draft} (h : d.shape? pool = .ok l) :
    d.index pool position =
      match l.bind (elementAt pool id position) with
      | some result => result
      | none => .error (mismatch pool "[]" d position) := by
  rcases d with ⟨s | i⟩ | layer
  · cases h
    rfl
  · simp only [Draft.shape?, Draft.index, contents] at h ⊢
    rcases hget : pool.get i with f | ⟨s | layer⟩
    · simp [hget, bind, Except.bind] at h
    · simp only [hget, bind, Except.bind, pure, Except.pure, Value.contents, Contents.shape?,
        Option.bind_some, Except.ok.injEq] at h ⊢
      subst h
      rfl
    · simp only [hget, bind, Except.bind, pure, Except.pure, Value.contents, Contents.shape?,
        Option.bind_some, Except.ok.injEq] at h ⊢
      subst h
      rw [Option.bind_some, elementAt_mapParts]
      rfl
  · cases h
    rfl

/-- The value of a name in a draft is that of its shape. -/
theorem member_eq {l : Option (Shape Draft Draft)} {name : String} (h : d.shape? pool = .ok l) :
    d.member pool name =
      match l.bind (memberOf id name) with
      | some result => result
      | none => .error (.runtime (.noMember (d.typeName pool) name)) := by
  rcases d with ⟨s | i⟩ | layer
  · cases h
    rfl
  · simp only [Draft.shape?, Draft.member, contents] at h ⊢
    rcases hget : pool.get i with f | ⟨s | layer⟩
    · simp [hget, bind, Except.bind] at h
    · simp only [hget, bind, Except.bind, pure, Except.pure, Value.contents, Contents.shape?,
        Option.bind_some, Except.ok.injEq] at h ⊢
      subst h
      rfl
    · simp only [hget, bind, Except.bind, pure, Except.pure, Value.contents, Contents.shape?,
        Option.bind_some, Except.ok.injEq] at h ⊢
      subst h
      rw [Option.bind_some, memberOf_mapParts]
      rfl
  · cases h
    rfl

variable [DecidableEq α]

/-- The value of a key in a map. -/
theorem valueAt_means (hsound : pool.Sound) (h : Means pool d t) {entries : List (Draft × Draft)}
    {entries' : List (Tree α × Tree α)}
    (hentries : List.Forall₂ (fun e e' => Means pool e.1 e'.1 ∧ Means pool e.2 e'.2) entries
      entries') :
    ∃ v, valueAt pool id d entries = .ok v ∧ Means pool v (Tree.valueAt t entries') := by
  induction hentries with
  | nil => exact ⟨_, rfl, .scalar .null⟩
  | @cons e e' _ _ he _ ih =>
    obtain ⟨k, v⟩ := e
    obtain ⟨k', v'⟩ := e'
    have hequals := he.1.equals hsound h
    simp only [valueAt, Tree.valueAt, id, hequals, bind, Except.bind, pure, Except.pure]
    cases k'.equals t
    · exact ih
    · exact ⟨v, rfl, he.2⟩

namespace Means

/-- A part of a draft means the part of its tree. -/
theorem index (hsound : pool.Sound) (h : Means pool d t) (h' : Means pool e u) :
    Agree Fault.Benign (Means pool) (d.index pool e) (t.index u) := by
  obtain ⟨l, hl, hrel⟩ := h.shape?
  have hmismatch := h.mismatch "[]" h'
  have hscalar := h'.scalar?
  rw [index_eq hl, hmismatch]
  -- of the layers only lists, texts and maps have elements; the rest is a mismatch on both sides
  cases t with
  | leaf a =>
    cases hrel
    exact .error rfl
  | node m =>
    cases hrel with
    | some hlayer =>
      cases hlayer with
      | list hitems =>
        simp only [Option.bind_some, elementAt, hscalar, Tree.index]
        rcases u.scalar? with _ | _ | b | i | x
        · exact .error rfl
        · exact .error rfl
        · exact .error rfl
        · simp only [Except.map_id]
          exact itemAt_agree hitems i
        · exact .error rfl
      | text content =>
        simp only [Option.bind_some, elementAt, hscalar, Tree.index]
        rcases u.scalar? with _ | _ | b | i | x
        · exact .error rfl
        · exact .error rfl
        · exact .error rfl
        · have hchar : Agree Fault.Benign Eq (Shape.charAt content i) (Shape.charAt content i) := by
            refine .refl fun f hf => ?_
            unfold Shape.charAt at hf
            split at hf <;> cases hf
            rfl
          refine hchar.map ?_
          rintro c _ rfl
          exact .text c
        · exact .error rfl
      | map hentries =>
        obtain ⟨v, hv, hmeans⟩ := valueAt_means hsound h' hentries
        simp only [Option.bind_some, elementAt, hv, Tree.index]
        exact .ok hmeans
      | object c _ => exact .error rfl
      | type n _ => exact .error rfl

omit [DecidableEq α] in
/-- The value of a name in a draft means that in its tree. -/
theorem member (h : Means pool d t) (name : String) :
    Agree Fault.Benign (Means pool) (d.member pool name) (t.member name) := by
  obtain ⟨l, hl, hrel⟩ := h.shape?
  rw [member_eq hl, h.typeName]
  cases t with
  | leaf a =>
    cases hrel
    simp only [Option.bind_none, Tree.member, Tree.shape?, ite_self]
    exact .error rfl
  | node m =>
    cases hrel with
    | some hlayer =>
      have hlength := hlayer.length?
      -- objects have fields; any other layer is asked for its length at most
      cases hlayer with
      | object c hfields =>
        have hfield := field?_rel hfields name
        simp only [Option.bind_some, memberOf, Tree.member]
        generalize Shape.field? name _ = x at hfield ⊢
        generalize Shape.field? name _ = y at hfield ⊢
        cases hfield with
        | some hxy => exact .ok hxy
        | none => exact .error rfl
      | _ =>
        simp only [Option.bind_some, memberOf, Tree.member, Tree.shape?, hlength]
        by_cases hname : name = "length"
        · simp only [hname, if_true]
          generalize Shape.length? _ = n
          cases n with
          | some n => exact .ok (.scalar _)
          | none => exact .error rfl
        · simp only [hname, if_false]
          exact .error rfl

omit [DecidableEq α] in
/-- What a loop runs through means what a loop runs through. -/
theorem elements (h : Means pool d t) :
    Agree Fault.Benign (List.Forall₂ (Means pool)) (d.elements pool) t.elements := by
  obtain ⟨l, hl, hrel⟩ := h.shape?
  simp only [Draft.elements, hl, bind, Except.bind, h.typeName]
  cases t with
  | leaf a =>
    cases hrel
    exact .error rfl
  | node m =>
    cases hrel with
    | some hlayer =>
      cases hlayer with
      | list hitems => exact .ok hitems
      | map hentries =>
        refine .ok ?_
        rw [List.forall₂_map_left_iff, List.forall₂_map_right_iff]
        exact hentries.imp fun _ _ h => h.1
      | _ => exact .error rfl

/-! ### Values of certain kinds -/

omit [DecidableEq α] in
/-- A truth value is one for drafts and trees alike. -/
theorem asBool (role : Role) (h : Means pool d t) :
    Agree Fault.Benign Eq (d.asBool role pool) (t.asBool role) := by
  rw [Draft.asBool, Tree.asBool, h.scalar?, h.typeName]
  rcases t.scalar? with _ | _ | b | i | x
  case some.bool => exact .ok rfl
  all_goals exact .error rfl

omit [DecidableEq α] in
/-- An integer is one for drafts and trees alike. -/
theorem asInt (role : Role) (h : Means pool d t) :
    Agree Fault.Benign Eq (d.asInt role pool) (t.asInt role) := by
  rw [Draft.asInt, Tree.asInt, h.scalar?, h.typeName]
  rcases t.scalar? with _ | _ | b | i | x
  case some.int => exact .ok rfl
  all_goals exact .error rfl

/-- A key is given before among drafts if it is among trees. -/
theorem anyM_equals (hsound : pool.Sound) (h : Means pool d t) {given : List (Draft × Draft)}
    {given' : List (Tree α × Tree α)}
    (hgiven : List.Forall₂ (fun e e' => Means pool e.1 e'.1 ∧ Means pool e.2 e'.2) given given') :
    (given.anyM fun e => Draft.equals pool e.1 d) = .ok (given'.any fun e => e.1.equals t) := by
  induction hgiven with
  | nil => rfl
  | @cons e e' _ _ he _ ih =>
    rw [List.anyM_cons, he.1.equals hsound h, List.any_cons, ih]
    cases e'.1.equals t <;> rfl

/-- A key is new among drafts if it is new among trees. -/
theorem ensureNewKey (hsound : pool.Sound) (h : Means pool d t) {given : Array (Draft × Draft)}
    {given' : Array (Tree α × Tree α)}
    (hgiven : List.Forall₂ (fun e e' => Means pool e.1 e'.1 ∧ Means pool e.2 e'.2) given.toList
      given'.toList) :
    Agree Fault.Benign Eq (d.ensureNewKey given pool) (t.ensureNewKey given') := by
  have hany : (given.anyM fun e => Draft.equals pool e.1 d : Except Fault Bool) =
      .ok (given'.any fun e => e.1.equals t) := by
    obtain ⟨given⟩ := given
    obtain ⟨given'⟩ := given'
    rw [List.anyM_toArray, List.any_toArray]
    exact anyM_equals hsound h hgiven
  simp only [Draft.ensureNewKey, hany, bind, Except.bind, h.message hsound, Tree.ensureNewKey]
  split
  · exact .error rfl
  · exact .ok rfl

end Means

end Draft

end ConstPool
