import ConstPool.Draft.Access
import ConstPool.Proofs.Tree.Basic

/-!
# Operators on trees

What the language does to constants, said about trees: names of types, texts for messages, the
operators, and the parts of a constant. Nothing here has a store to look into, so no operator can
fail for want of a constant; what remains are the faults of the program.

* `Tree.settled`: the constant that a body hands over, which is kept in place where it is used.
-/

namespace ConstPool

namespace Tree

variable {α : Type}

/-- The shape of a tree, if it is no leaf. -/
def shape? : Tree α → Option (Shape (Tree α) (Tree α))
  | .leaf _ => none
  | .node layer => some layer

/-- The tree of a text. -/
def text (content : String) : Tree α := .node (.text content)

/-- The tree of a list. -/
def list (items : Array (Tree α)) : Tree α := .node (.list items)

/-- The tree of a type. -/
def type (name : String) (args : List (Tree α)) : Tree α := .node (.type name args)

/-- The tree of an object, with its fields in the order of their names. -/
def object (className : String) (fields : List (String × Tree α)) : Tree α :=
  .node (.object className (Shape.sortFields fields))

variable [Leaf α]

/-- The tree of a scalar. -/
def scalar (s : Scalar) : Tree α := .leaf (Leaf.inPlace s)

/-- The scalar that a tree is, if it is held in place. -/
def scalar? : Tree α → Option Scalar
  | .leaf a => Leaf.inPlace? a
  | .node _ => none

/-- The name of the type of a tree. -/
def typeName : Tree α → String
  | .leaf a => (Leaf.content a).typeName
  | .node layer => layer.typeName

/-- A tree in full. -/
def describe : Tree α → String := fold (fun a => (Leaf.content a).text) Shape.render

/-- A tree as the message of a fault: a text stands for itself, without quotes. -/
def message : Tree α → String
  | .node (.text content) => content
  | t => t.describe

/-- A tree as the result of a body: a scalar is held in place wherever it is used. -/
def settled : Tree α → Tree α
  | .leaf a => scalar (Leaf.content a)
  | .node layer => .node layer

/-! ### Operators -/

variable [DecidableEq α]

/-- The operator `==`. -/
def equals (t u : Tree α) : Bool :=
  match t.scalar?, u.scalar? with
  | some s, some s' => s.equals s'
  | _, _ => decide (t = u)

omit [DecidableEq α] in
/-- The fault of an operator that has no meaning for its operands. -/
def mismatch (symbol : String) (t u : Tree α) : Fault :=
  .runtime (.operands symbol t.typeName u.typeName)

omit [DecidableEq α] in
/-- The tree of the result of an operator. -/
def ofResult : Scalar ⊕ Shape (Tree α) (Tree α) → Tree α
  | .inl s => scalar s
  | .inr layer => .node layer

omit [DecidableEq α] in
/-- An operator with one operand. -/
def unary (op : UnaryOperator) (operand : Tree α) : Except Fault (Tree α) := do
  let result ← match operand.scalar? with
    | some s => s.unary? op
    | none => .ok none
  match result with
  | some s => return scalar s
  | none => throw (.runtime (.operand op.symbol operand.typeName))

omit [DecidableEq α] in
/-- An operator on two trees that are not both held in place, if it has a meaning for them. -/
def shapeBinary (op : BinaryOperator) (t u : Tree α) : Option (Tree α) :=
  t.shape?.bind fun x => u.shape?.bind fun y => (x.binary? op y).map ofResult

omit [DecidableEq α] in
/-- An operator other than the equalities. -/
def combine (op : BinaryOperator) (t u : Tree α) : Except Fault (Tree α) := do
  let result ← match t.scalar?, u.scalar? with
    | some s, some s' => Option.map scalar <$> s.binary? op s'
    | _, _ => .ok (shapeBinary op t u)
  match result with
  | some v => return v
  | none => throw (mismatch op.symbol t u)

/-- An operator with two operands. -/
def binary (op : BinaryOperator) (t u : Tree α) : Except Fault (Tree α) :=
  match op with
  | .eq => .ok (scalar (.bool (t.equals u)))
  | .ne => .ok (scalar (.bool !(t.equals u)))
  | op => combine op t u

/-! ### Parts -/

/-- The value of the first entry whose key equals the given one; nothing if there is none. -/
def valueAt (key : Tree α) : List (Tree α × Tree α) → Tree α
  | [] => scalar .null
  | (k, v) :: rest => if k.equals key then v else valueAt key rest

/-- The part of a tree at an index, an integer for lists and texts and any key for maps. -/
def index (target position : Tree α) : Except Fault (Tree α) :=
  match target, position.scalar? with
  | .node (.list items), some (.int i) => Shape.itemAt items i
  | .node (.text content), some (.int i) => (Shape.charAt content i).map text
  | .node (.map entries), _ => .ok (valueAt position entries)
  | target, _ => .error (mismatch "[]" target position)

omit [DecidableEq α] in
/-- The value of a name in a tree. -/
def member (target : Tree α) (name : String) : Except Fault (Tree α) :=
  match target with
  | .node (.object className fields) =>
    match Shape.field? name fields with
    | some value => .ok value
    | none => .error (.runtime (.noField className name))
  | target =>
    match if name = "length" then target.shape?.bind Shape.length? else none with
    | some n => .ok (scalar (.int (Int64.ofNat n)))
    | none => .error (.runtime (.noMember target.typeName name))

omit [DecidableEq α] in
/-- What a loop runs through: the items of a list or the keys of a map. -/
def elements : Tree α → Except Fault (List (Tree α))
  | .node (.list items) => .ok items.toList
  | .node (.map entries) => .ok (entries.map Prod.fst)
  | t => .error (.runtime (.notIterable t.typeName))

/-! ### Values of certain kinds -/

omit [DecidableEq α] in
/-- The truth value that a tree is, where one is wanted. -/
def asBool (role : Role) (t : Tree α) : Except Fault Bool :=
  match t.scalar? with
  | some (.bool b) => .ok b
  | _ => .error (.runtime (.wrongType role t.typeName))

omit [DecidableEq α] in
/-- The integer that a tree is, where one is wanted. -/
def asInt (role : Role) (t : Tree α) : Except Fault Int64 :=
  match t.scalar? with
  | some (.int n) => .ok n
  | _ => .error (.runtime (.wrongType role t.typeName))

/-- Fails if a key equals the key of one of the entries before it. -/
def ensureNewKey (key : Tree α) (given : Array (Tree α × Tree α)) : Except Fault Unit :=
  if given.any fun e => e.1.equals key then .error (.runtime (.duplicateKey key.message))
  else .ok ()

end Tree

end ConstPool
