import ConstPool.Draft.Basic

/-!
# Drafts in messages

A draft is shown in full: where a pooled constant shows its parts by their identities, a draft in
a message shows the parts themselves. Since a constant of the pool refers to smaller identities
only, the size of the pool bounds how deep references lead.

Lists, maps and objects are shown with the texts of their parts, and a text within them between
quotes. As a message of its own, a text is shown as it is.
-/

namespace ConstPool

/-- An atom in full, following at most so many references. Without any left, an identity is
unknown. -/
def Pool.describe (pool : Pool) : Nat → Atom → Except Fault String
  | _, .scalar s => .ok s.text
  | 0, .ref id => .error (.breach (.unknownValue id))
  | bound + 1, .ref id => do
    match ← pool.get id with
    | .scalar s => return s.text
    | .shape layer =>
      return (← layer.traverseParts (pool.describe bound)
        (fun arg => pool.describe bound (.ref arg))).render

namespace Draft

mutual

/-- A draft in full. -/
def describe (pool : Pool) : Draft → Except Fault String
  | .scalar s => .ok s.text
  | .pooled id => pool.describe pool.size (.ref id)
  | .fresh (.text content) => .ok (Shape.text content).render
  | .fresh (.list ⟨items⟩) => return (Shape.list (← describeItems pool items #[])).render
  | .fresh (.map entries) => return (Shape.map (← describeEntries pool entries)).render
  | .fresh (.object className fields) =>
    return (Shape.object className (← describeFields pool fields)).render
  | .fresh (.type name args) =>
    return (Shape.type name (← describeItems pool args #[]).toList).render

/-- The items of a list in full, after those that are done. -/
def describeItems (pool : Pool) : List Draft → Array String → Except Fault (Array String)
  | [], done => .ok done
  | item :: rest, done => do describeItems pool rest (done.push (← item.describe pool))

/-- The entries of a map in full. -/
def describeEntries (pool : Pool) :
    List (Draft × Draft) → Except Fault (List (String × String))
  | [] => .ok []
  | (key, value) :: rest =>
    return (← key.describe pool, ← value.describe pool) :: (← describeEntries pool rest)

/-- The fields of an object in full. -/
def describeFields (pool : Pool) :
    List (String × Draft) → Except Fault (List (String × String))
  | [] => .ok []
  | (name, value) :: rest =>
    return (name, ← value.describe pool) :: (← describeFields pool rest)

end

/-- A draft as the message of a fault: a text stands for itself, without quotes. -/
def message (pool : Pool) (d : Draft) : Except Fault String := do
  match ← d.shape? pool with
  | some (.text content) => return content
  | _ => d.describe pool

end Draft

end ConstPool
