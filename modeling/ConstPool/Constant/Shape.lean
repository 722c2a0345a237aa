import ConstPool.Text.Quoted

/-!
# One layer of a constant with parts

A `Shape` is a text, a list, a map, an object or a type together with its direct parts, whatever
these are: in the pool the parts are scalars and identities, in a running body they are constants
that may not be pooled yet, in the written table they are scalars and positions. The type
arguments of a type are parts of a kind of their own.

* `mapParts`, `traverseParts`: replace the parts. The name and the length stay the same.
* `parts`: the parts from left to right.
* `sortFields`: the order of the fields of an object, by name.
* `render`: how a shape is shown once its parts are shown.
-/

namespace ConstPool

/-- A text, list, map, object or type, with parts `ρ` and type arguments `τ`. -/
inductive Shape (ρ τ : Type) where
  | text (content : String)
  | list (items : Array ρ)
  | map (entries : List (ρ × ρ))
  | object (className : String) (fields : List (String × ρ))
  | type (name : String) (args : List τ)
  deriving DecidableEq

namespace Shape

variable {ρ τ σ υ : Type}

/-- The shape with every part replaced. -/
def mapParts (f : ρ → σ) (g : τ → υ) : Shape ρ τ → Shape σ υ
  | .text content => .text content
  | .list items => .list (items.map f)
  | .map entries => .map (entries.map fun e => (f e.1, f e.2))
  | .object className fields => .object className (fields.map fun e => (e.1, f e.2))
  | .type name args => .type name (args.map g)

/-- The shape with every part replaced by an action, from left to right. -/
def traverseParts {m : Type → Type} [Monad m] (f : ρ → m σ) (g : τ → m υ) :
    Shape ρ τ → m (Shape σ υ)
  | .text content => pure (.text content)
  | .list items => return .list (← items.toList.mapM f).toArray
  | .map entries => return .map (← entries.mapM fun e => return (← f e.1, ← f e.2))
  | .object className fields =>
    return .object className (← fields.mapM fun e => return (e.1, ← f e.2))
  | .type name args => return .type name (← args.mapM g)

/-- What the parts contribute to a list, from left to right. -/
def parts (f : ρ → List σ) (g : τ → List σ) : Shape ρ τ → List σ
  | .text _ => []
  | .list items => items.foldr (fun item rest => f item ++ rest) []
  | .map entries => entries.flatMap fun e => f e.1 ++ f e.2
  | .object _ fields => fields.flatMap fun e => f e.2
  | .type _ args => args.flatMap g

/-- The name of the kind of a shape. -/
def kindName : Shape ρ τ → String
  | .text _ => "String"
  | .list _ => "List"
  | .map _ => "Map"
  | .object _ _ => "Object"
  | .type _ _ => "Type"

/-- The name of the type of a shape: an object is called by its class. -/
def typeName : Shape ρ τ → String
  | .object className _ => className
  | shape => shape.kindName

/-- The length of a text, list or map: its characters, items or entries. -/
def length? : Shape ρ τ → Option Nat
  | .text content => some content.length
  | .list items => some items.size
  | .map entries => some entries.length
  | .object _ _ => none
  | .type _ _ => none

/-- The name of the type does not depend on the parts. -/
@[simp] theorem typeName_mapParts (f : ρ → σ) (g : τ → υ) (shape : Shape ρ τ) :
    (shape.mapParts f g).typeName = shape.typeName := by
  cases shape <;> rfl

/-- Neither does the length. -/
@[simp] theorem length?_mapParts (f : ρ → σ) (g : τ → υ) (shape : Shape ρ τ) :
    (shape.mapParts f g).length? = shape.length? := by
  cases shape <;> simp [mapParts, length?]

/-! ### Fields by name -/

/-- Puts a field before the first field whose name is not smaller. -/
def insertField (field : String × ρ) : List (String × ρ) → List (String × ρ)
  | [] => [field]
  | other :: rest =>
    if other.1 < field.1 then other :: insertField field rest else field :: other :: rest

/-- The fields in the order of their names; fields of one name keep their order. -/
def sortFields (fields : List (String × ρ)) : List (String × ρ) := fields.foldr insertField []

/-- A field is put among the others, and none is lost. -/
theorem insertField_perm (field : String × ρ) (fields : List (String × ρ)) :
    (insertField field fields).Perm (field :: fields) := by
  induction fields with
  | nil => exact .refl _
  | cons other rest ih =>
    unfold insertField
    split
    · exact (ih.cons other).trans (.swap field other rest)
    · exact .refl _

/-- Ordering the fields loses none and adds none. -/
theorem sortFields_perm (fields : List (String × ρ)) : (sortFields fields).Perm fields := by
  induction fields with
  | nil => exact .refl _
  | cons field rest ih => exact (insertField_perm field _).trans (ih.cons field)

/-- The value of the first field of a name. -/
def field? (name : String) (fields : List (String × ρ)) : Option ρ := fields.lookup name

/-- A field of mapped fields is the mapped field. -/
theorem field?_map (f : ρ → σ) (name : String) (fields : List (String × ρ)) :
    field? name (fields.map fun e => (e.1, f e.2)) = (field? name fields).map f := by
  induction fields with
  | nil => rfl
  | cons e rest ih =>
    obtain ⟨other, value⟩ := e
    simp only [field?, List.map_cons, List.lookup_cons] at ih ⊢
    cases name == other
    · exact ih
    · rfl

/-! ### Showing -/

/-- A shape as it is shown, when its parts are shown already. -/
def render : Shape String String → String
  | .text content => Text.quoted content
  | .list items => "[" ++ ", ".intercalate items.toList ++ "]"
  | .map entries => "\x7b" ++ ", ".intercalate (entries.map fun e => e.1 ++ ": " ++ e.2) ++ "\x7d"
  | .object className fields =>
    className ++ "(" ++ ", ".intercalate (fields.map fun e => e.1 ++ ": " ++ e.2) ++ ")"
  | .type name [] => name
  | .type name args => name ++ "<" ++ ", ".intercalate args ++ ">"

end Shape

end ConstPool
