import ConstPool.Eval.Body
import ConstPool.Proofs.Layers

/-!
# What can go wrong with drafts

Whatever is asked of drafts, and whatever drafts these are, it fails for what the values are, or
because the pool lacks a constant. It never fails for a name, a type, a call or a jump: those are
matters of the text of a body.

The proofs go along the recursions of the operations. There is one lemma for each of them, and
nothing is proved about results: whether these are right is a matter of what drafts mean. What is
proved here is needed where a body has been vetted, to tell the faults of its operators from those
that vetting is there to exclude.

* `Fault.Dynamic`: the faults that depend on values.
* `Plain`: a computation fails with such faults only.
-/

namespace ConstPool

/-- A fault that depends on the values at hand: a computation has no result, or the pool lacks a
constant. -/
def Fault.Dynamic (f : Fault) : Prop := f.kind = .runtime ∨ f.kind = .breach

/-- A computation without a result is a matter of the values at hand. -/
theorem Fault.dynamic_runtime (cause : RuntimeCause) : (Fault.runtime cause).Dynamic := .inl rfl

/-- So is a pool that lacks a constant: whether it is asked for one depends on the values. -/
theorem Fault.dynamic_breach (cause : BreachCause) : (Fault.breach cause).Dynamic := .inr rfl

/-- If the computation fails, the fault depends on the values at hand. -/
abbrev Plain {β : Type} (x : Except Fault β) : Prop := Results Fault.Dynamic (fun _ => True) x

namespace Plain

variable {β γ : Type} {x : Except Fault β}

/-- A computation with a result does not fail. -/
theorem ok (b : β) : Plain (.ok b) := Results.ok trivial

/-- A computation may fail for what its operands are. -/
theorem runtime (cause : RuntimeCause) : Plain (.error (.runtime cause) : Except Fault β) :=
  .error (Fault.dynamic_runtime cause)

/-- A computation may fail for a constant that the pool lacks. -/
theorem breach (cause : BreachCause) : Plain (.error (.breach cause) : Except Fault β) :=
  .error (Fault.dynamic_breach cause)

/-- In sequence, whatever the first computation returns. -/
theorem bind {f : β → Except Fault γ} (h : Plain x) (hnext : ∀ b, Plain (f b)) :
    Plain (x >>= f) := Results.bind h fun b _ => hnext b

/-- What a function makes of a result is no failure. -/
theorem map (f : β → γ) (h : Plain x) : Plain (x.map f) := Results.map h fun _ h => h

/-- A second test, if the first one holds. -/
theorem both {x y : Except Fault Bool} (hx : Plain x) (hy : Plain y) :
    Plain (do if ← x then y else return false) := by
  refine hx.bind fun b => ?_
  cases b
  · exact ok _
  · exact hy

/-- A test of the members of a list, up to the first of which it holds. -/
theorem anyM {f : β → Except Fault Bool} {xs : List β} (h : ∀ x, Plain (f x)) :
    Plain (xs.anyM f) := by
  induction xs with
  | nil => exact ok _
  | cons x xs ih =>
    rw [List.anyM_cons]
    refine (h x).bind fun b => ?_
    cases b
    · exact ih
    · exact ok _

end Plain

/-! ### Opening drafts -/

variable (pool : Pool)

/-- Reading a constant fails only if the pool lacks it. -/
theorem Pool.plain_get (id : ValueId) : Plain (pool.get id) := by
  unfold Pool.get
  split
  · exact .ok _
  · exact .breach _

/-- So does reading a constant as an operand, which only looks at its kind. -/
theorem Pool.plain_atomOf (id : ValueId) : Plain (pool.atomOf id) := by
  refine (pool.plain_get id).bind fun value => ?_
  cases value <;> exact .ok _

namespace Draft

/-- Opening a draft reads at most one constant. -/
theorem plain_contents : (d : Draft) → Plain (d.contents pool)
  | .scalar _ => .ok _
  | .pooled id => (pool.plain_get id).bind fun _ => .ok _
  | .fresh _ => .ok _

/-- So does asking for the layer of a draft, if it has one. -/
theorem plain_shape? (d : Draft) : Plain (d.shape? pool) :=
  (d.plain_contents pool).bind fun _ => .ok _

/-! ### Comparing -/

mutual

/-- Comparing a draft with an operand reads constants, and no fault arises from the comparison
itself. -/
theorem plain_agrees : (d : Draft) → (a : Atom) → Plain (d.agrees pool a)
  | .scalar _, .scalar _ => .ok _
  | .pooled _, .ref _ => .ok _
  | .scalar _, .ref _ => .ok _
  | .pooled _, .scalar _ => .ok _
  | .fresh _, .scalar _ => by
    rw [agrees]
    exact .ok _
  | .fresh (.text x), .ref id => by
    rw [agrees]
    refine (pool.plain_get id).bind fun value => ?_
    split <;> exact .ok _
  | .fresh (.list ⟨xs⟩), .ref id => by
    rw [agrees]
    refine (pool.plain_get id).bind fun value => ?_
    split
    · split
      · exact plain_agreeItems xs _
      · exact .ok _
    · exact .ok _
  | .fresh (.map xs), .ref id => by
    rw [agrees]
    refine (pool.plain_get id).bind fun value => ?_
    split
    · exact plain_agreeEntries xs _
    · exact .ok _
  | .fresh (.object c xs), .ref id => by
    rw [agrees]
    refine (pool.plain_get id).bind fun value => ?_
    split
    · split
      · exact plain_agreeFields xs _
      · exact .ok _
    · exact .ok _
  | .fresh (.type m xs), .ref id => by
    rw [agrees]
    refine (pool.plain_get id).bind fun value => ?_
    split
    · split
      · exact plain_agreeArgs xs _
      · exact .ok _
    · exact .ok _

/-- A draft and an operand in each place of two lists. -/
theorem plain_agreeItems : (xs : List Draft) → (ys : List Atom) → Plain (agreeItems pool xs ys)
  | [], [] => .ok _
  | [], _ :: _ => .ok _
  | _ :: _, [] => .ok _
  | x :: xs, y :: ys => by
    rw [agreeItems]
    exact (plain_agrees x y).both (plain_agreeItems xs ys)

/-- A draft and a constant in each place of the type arguments. -/
theorem plain_agreeArgs : (xs : List Draft) → (ys : List ValueId) → Plain (agreeArgs pool xs ys)
  | [], [] => .ok _
  | [], _ :: _ => .ok _
  | _ :: _, [] => .ok _
  | x :: xs, y :: ys => by
    rw [agreeArgs]
    exact (plain_agrees x (.ref y)).both (plain_agreeArgs xs ys)

/-- The keys and then the values of two maps, pair by pair. -/
theorem plain_agreeEntries :
    (xs : List (Draft × Draft)) → (ys : List (Atom × Atom)) → Plain (agreeEntries pool xs ys)
  | [], [] => .ok _
  | [], _ :: _ => .ok _
  | _ :: _, [] => .ok _
  | (k, v) :: xs, (k', v') :: ys => by
    rw [agreeEntries]
    exact (plain_agrees k k').both ((plain_agrees v v').both (plain_agreeEntries xs ys))

/-- The fields of two objects, whose names are compared without the pool. -/
theorem plain_agreeFields :
    (xs : List (String × Draft)) → (ys : List (String × Atom)) → Plain (agreeFields pool xs ys)
  | [], [] => .ok _
  | [], _ :: _ => .ok _
  | _ :: _, [] => .ok _
  | (n, v) :: xs, (n', v') :: ys => by
    rw [agreeFields]
    split
    · exact (plain_agrees v v').both (plain_agreeFields xs ys)
    · exact .ok _

end

mutual

/-- Comparing two drafts as constants reads constants only. -/
theorem plain_same : (d e : Draft) → Plain (d.same pool e)
  | .scalar _, .scalar _ => .ok _
  | .pooled _, .pooled _ => .ok _
  | .scalar _, .pooled _ => .ok _
  | .pooled _, .scalar _ => .ok _
  | .scalar _, .fresh _ => .ok _
  | .fresh x, .scalar _ => by cases x <;> exact .ok _
  | .fresh x, .pooled j => by
    have h : (fresh x).same pool (.pooled j) = (fresh x).agrees pool (.ref j) := by
      cases x <;> rfl
    rw [h]
    exact (fresh x).plain_agrees pool (.ref j)
  | .pooled i, .fresh y => (fresh y).plain_agrees pool (.ref i)
  | .fresh (.text x), .fresh y => by cases y <;> exact .ok _
  | .fresh (.list ⟨xs⟩), .fresh y => by
    rcases y with _ | ⟨⟨ys⟩⟩ | _ | _ | _
    case list =>
      rw [same]
      split
      · exact plain_sameItems xs ys
      · exact .ok _
    all_goals exact .ok _
  | .fresh (.map xs), .fresh y => by
    cases y with
    | map ys =>
      rw [same]
      split
      · exact plain_sameEntries xs ys
      · exact .ok _
    | _ => exact .ok _
  | .fresh (.object c xs), .fresh y => by
    cases y with
    | object d ys =>
      rw [same]
      split
      · exact plain_sameFields xs ys
      · exact .ok _
    | _ => exact .ok _
  | .fresh (.type m xs), .fresh y => by
    cases y with
    | type n ys =>
      rw [same]
      split
      · exact plain_sameItems xs ys
      · exact .ok _
    | _ => exact .ok _

/-- Drafts in the same places of two lists. -/
theorem plain_sameItems : (xs ys : List Draft) → Plain (sameItems pool xs ys)
  | [], [] => .ok _
  | [], _ :: _ => .ok _
  | _ :: _, [] => .ok _
  | x :: xs, y :: ys => by
    rw [sameItems]
    exact (plain_same x y).both (plain_sameItems xs ys)

/-- The keys and then the values of two maps of drafts. -/
theorem plain_sameEntries : (xs ys : List (Draft × Draft)) → Plain (sameEntries pool xs ys)
  | [], [] => .ok _
  | [], _ :: _ => .ok _
  | _ :: _, [] => .ok _
  | (k, v) :: xs, (k', v') :: ys => by
    rw [sameEntries]
    exact (plain_same k k').both ((plain_same v v').both (plain_sameEntries xs ys))

/-- The fields of two objects of drafts. -/
theorem plain_sameFields : (xs ys : List (String × Draft)) → Plain (sameFields pool xs ys)
  | [], [] => .ok _
  | [], _ :: _ => .ok _
  | _ :: _, [] => .ok _
  | (n, v) :: xs, (n', v') :: ys => by
    rw [sameFields]
    split
    · exact (plain_same v v').both (plain_sameFields xs ys)
    · exact .ok _

end

/-- Comparing two drafts as the operator does, which opens both of them. -/
theorem plain_equals (left right : Draft) : Plain (equals pool left right) := by
  unfold equals
  split
  · exact .ok _
  · exact left.plain_same pool right

end Draft

/-! ### Texts -/

/-- Describing an operand follows constants as far as the bound allows, and finds each of them or
breaches. -/
theorem Pool.plain_describe : (bound : Nat) → (a : Atom) → Plain (pool.describe bound a)
  | _, .scalar _ => by
    rw [describe]
    exact .ok _
  | 0, .ref _ => by
    rw [describe]
    exact .breach _
  | bound + 1, .ref id => by
    rw [describe]
    refine (pool.plain_get id).bind fun value => ?_
    cases value with
    | scalar s => exact .ok _
    | shape layer =>
      have hparts := Shape.results_traverseParts (l := layer) (R := fun _ _ => True)
        (S := fun _ _ => True) (fun a _ => plain_describe bound a)
        fun arg _ => plain_describe bound (.ref arg)
      exact hparts.bind fun _ _ => .ok trivial

namespace Draft

mutual

/-- Describing a draft describes the constants in it. -/
theorem plain_describe : (d : Draft) → Plain (d.describe pool)
  | .scalar _ => .ok _
  | .pooled id => pool.plain_describe pool.size (.ref id)
  | .fresh (.text _) => .ok _
  | .fresh (.list ⟨items⟩) => by
    rw [describe]
    exact (plain_describeItems items _).bind fun _ => .ok _
  | .fresh (.map entries) => by
    rw [describe]
    exact (plain_describeEntries entries).bind fun _ => .ok _
  | .fresh (.object _ fields) => by
    rw [describe]
    exact (plain_describeFields fields).bind fun _ => .ok _
  | .fresh (.type _ args) => by
    rw [describe]
    exact (plain_describeItems args _).bind fun _ => .ok _

/-- The items of a list, from the first to the last. -/
theorem plain_describeItems : (items : List Draft) → (done : Array String) →
    Plain (describeItems pool items done)
  | [], _ => .ok _
  | item :: rest, done => by
    rw [describeItems]
    exact (plain_describe item).bind fun _ => plain_describeItems rest _

/-- The entries of a map, the key of each before its value. -/
theorem plain_describeEntries : (entries : List (Draft × Draft)) →
    Plain (describeEntries pool entries)
  | [] => .ok _
  | (key, value) :: rest => by
    rw [describeEntries]
    exact (plain_describe key).bind fun _ => (plain_describe value).bind fun _ =>
      (plain_describeEntries rest).bind fun _ => .ok _

/-- The fields of an object, whose names are shown as they are. -/
theorem plain_describeFields : (fields : List (String × Draft)) →
    Plain (describeFields pool fields)
  | [] => .ok _
  | (name, value) :: rest => by
    rw [describeFields]
    exact (plain_describe value).bind fun _ => (plain_describeFields rest).bind fun _ => .ok _

end

/-- A draft as a message is its text, or its description. -/
theorem plain_message (d : Draft) : Plain (d.message pool) := by
  refine (d.plain_shape? pool).bind fun shape => ?_
  split
  · exact .ok _
  · exact d.plain_describe pool

end Draft

/-! ### Operators -/

namespace Scalar

/-- A scalar under a unary operator: if there is no result, the operand is to blame. -/
theorem plain_unary? (op : UnaryOperator) (s : Scalar) : Plain (s.unary? op) := by
  unfold unary?
  split
  · split
    · exact .ok _
    · exact .runtime _
  · exact .ok _
  · exact .ok _
  · exact .ok _
  · exact .ok _

/-- An integer operation has its exact result, or it overflows. -/
theorem plain_exact (op : BinaryOperator) (a b : Int64) (result : Option Int64) :
    Plain (exact op a b result) := by
  cases result
  · exact .runtime _
  · exact .ok _

/-- Two integers under a binary operator: an overflow, a zero divisor or an operator that integers
lack. -/
theorem plain_intBinary (op : BinaryOperator) (a b : Int64) : Plain (intBinary op a b) := by
  cases op with
  | add => exact plain_exact ..
  | sub => exact plain_exact ..
  | mul => exact plain_exact ..
  | intDiv =>
    rw [intBinary]
    split
    · exact .runtime _
    · exact plain_exact ..
  | mod =>
    rw [intBinary]
    split
    · exact .runtime _
    · split
      · exact .runtime _
      · exact plain_exact ..
  | shiftLeft =>
    rw [intBinary]
    split
    · exact .ok _
    · exact .runtime _
  | shiftRight =>
    rw [intBinary]
    split
    · exact .ok _
    · exact .runtime _
  | _ => exact .ok _

/-- Two doubles under a binary operator: only an operator that doubles lack. -/
theorem plain_doubleBinary (op : BinaryOperator) (x y : Double) : Plain (doubleBinary op x y) := by
  cases op with
  | intDiv =>
    have hquotient : Plain (truncatedQuotient x y) := by
      unfold truncatedQuotient
      split
      · exact .ok _
      · exact .runtime _
    exact hquotient.bind fun _ => .ok _
  | _ => exact .ok _

/-- Two scalars under a binary operator, of one kind or of two. -/
theorem plain_binary? (op : BinaryOperator) (left right : Scalar) :
    Plain (binary? op left right) := by
  unfold binary?
  split
  · exact (plain_intBinary op _ _).bind fun _ => .ok _
  · exact .ok _
  · split
    · exact plain_doubleBinary ..
    · exact .ok _

end Scalar

namespace Draft

/-- A draft under a unary operator, opened first. -/
theorem plain_unary (op : UnaryOperator) (d : Draft) : Plain (d.unary pool op) := by
  unfold unary
  split
  · next s hs =>
    refine (Scalar.plain_unary? op s).bind fun result => ?_
    cases result
    · exact .runtime _
    · exact .ok _
  · exact .runtime _

/-- Two drafts that are not both scalars: both are opened. -/
theorem plain_shapeBinary (op : BinaryOperator) (left right : Draft) :
    Plain (shapeBinary pool op left right) := by
  refine (left.plain_shape? pool).bind fun x => (right.plain_shape? pool).bind fun y => ?_
  split <;> exact .ok _

/-- Two drafts under an operator other than the equalities. -/
theorem plain_combine (op : BinaryOperator) (left right : Draft) :
    Plain (combine pool op left right) := by
  unfold combine
  split
  · refine ((Scalar.plain_binary? op _ _).map _).bind fun result => ?_
    cases result
    · exact .runtime _
    · exact .ok _
  · refine (plain_shapeBinary pool op left right).bind fun result => ?_
    cases result
    · exact .runtime _
    · exact .ok _

/-- Two drafts under any binary operator, the equalities among them. -/
theorem plain_binary (op : BinaryOperator) (left right : Draft) :
    Plain (binary pool op left right) := by
  cases op with
  | eq => exact (plain_equals pool left right).bind fun _ => .ok _
  | ne => exact (plain_equals pool left right).bind fun _ => .ok _
  | _ => exact plain_combine ..

/-! ### Parts -/

section Parts

variable {ρ τ : Type} (draft : ρ → Draft)

/-- Looking a key up in the entries of a map: the key is missing, or a comparison fails. -/
theorem plain_valueAt (key : Draft) (entries : List (ρ × ρ)) :
    Plain (valueAt pool draft key entries) := by
  induction entries with
  | nil => exact .ok _
  | cons e rest ih =>
    rw [valueAt]
    refine (plain_equals pool _ _).bind fun b => ?_
    cases b
    · exact ih
    · exact .ok _

/-- An element of a layer: a position that is no integer or out of range, or a missing key. -/
theorem plain_elementAt (position : Draft) (layer : Shape ρ τ) {x : Except Fault Draft}
    (h : elementAt pool draft position layer = some x) : Plain x := by
  -- lists, texts and maps have elements; of the other layers no element is asked
  cases layer with
  | list items =>
    rw [elementAt] at h
    split at h
    · cases h
      unfold Shape.itemAt
      split
      · exact .ok _
      · exact .runtime _
    · cases h
  | text content =>
    rw [elementAt] at h
    split at h
    · cases h
      unfold Shape.charAt
      split
      · exact .ok _
      · exact .runtime _
    · cases h
  | map entries =>
    cases h
    exact plain_valueAt pool draft position entries
  | object => cases h
  | type => cases h

/-- An element of a draft: besides that, the draft may have no elements. -/
theorem plain_index (target position : Draft) : Plain (index pool target position) := by
  refine (target.plain_contents pool).bind fun contents => ?_
  rcases contents with _ | s | layer | layer
  · exact .runtime _
  · exact .runtime _
  · dsimp only
    split
    · next hresult => exact plain_elementAt pool atom position layer hresult
    · exact .runtime _
  · dsimp only
    split
    · next hresult => exact plain_elementAt pool id position layer hresult
    · exact .runtime _

/-- A member of a layer that has members: it may lack the one asked for. -/
theorem plain_memberOf (name : String) (layer : Shape ρ τ) {x : Except Fault Draft}
    (h : memberOf draft name layer = some x) : Plain x := by
  have hlength : ∀ layer : Shape ρ τ,
      (if name = "length" then layer.length?.map fun n => Except.ok (int (Int64.ofNat n))
        else none) = some x → Plain x := by
    intro layer h
    split at h
    · obtain ⟨n, -, rfl⟩ := Option.map_eq_some_iff.1 h
      exact .ok _
    · cases h
  cases layer with
  | object className fields =>
    rw [memberOf] at h
    split at h
    · cases h
      exact .ok _
    · cases h
      exact .runtime _
  | text content => exact hlength (.text content) h
  | list items => exact hlength (.list items) h
  | map entries => exact hlength (.map entries) h
  | type n args => exact hlength (.type n args) h

end Parts

/-- A member of a draft: besides that, the draft may have no members. -/
theorem plain_member (target : Draft) (name : String) : Plain (member pool target name) := by
  refine (target.plain_contents pool).bind fun contents => ?_
  rcases contents with _ | s | layer | layer
  · exact .runtime _
  · exact .runtime _
  · dsimp only
    split
    · next hresult => exact plain_memberOf atom name layer hresult
    · exact .runtime _
  · dsimp only
    split
    · next hresult => exact plain_memberOf id name layer hresult
    · exact .runtime _

/-- The elements that a loop runs over: the draft may have none. -/
theorem plain_elements (source : Draft) : Plain (elements pool source) := by
  refine (source.plain_shape? pool).bind fun shape => ?_
  split
  · exact .ok _
  · exact .ok _
  · exact .runtime _

/-! ### Values of certain kinds -/

/-- A draft in the place of a condition: it may be no boolean. -/
theorem plain_asBool (role : Role) (d : Draft) : Plain (asBool role d pool) := by
  unfold asBool
  split
  · exact .ok _
  · exact .runtime _

/-- A draft in the place of a bound: it may be no integer. -/
theorem plain_asInt (role : Role) (d : Draft) : Plain (asInt role d pool) := by
  unfold asInt
  split
  · exact .ok _
  · exact .runtime _

/-- A key of a map literal: it may be given twice, and the comparisons may fail. -/
theorem plain_ensureNewKey (key : Draft) (given : Array (Draft × Draft)) :
    Plain (ensureNewKey key given pool) := by
  have hany : Plain (given.anyM fun e => equals pool e.1 key) := by
    obtain ⟨given⟩ := given
    rw [List.anyM_toArray]
    exact .anyM fun e => plain_equals pool e.1 key
  refine hany.bind fun b => ?_
  cases b
  · exact .ok _
  · exact (key.plain_message pool).bind fun _ => .runtime _

end Draft

namespace TypeDecl

variable {δ : Type} (t : TypeDecl) (className : String) (given : OrderedMap String δ)

/-- A field of an object literal: it may be unknown to the type, or given twice. -/
theorem plain_ensureNewField (name : String) : Plain (t.ensureNewField className name given) := by
  unfold ensureNewField
  split
  · exact .runtime _
  · split
    · exact .runtime _
    · exact .ok _

/-- The fields of an object literal, taken together: one may be missing. -/
theorem plain_complete : Plain (t.complete className given) := by
  unfold complete
  split
  · exact .runtime _
  · exact .ok _

end TypeDecl

end ConstPool
