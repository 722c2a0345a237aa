import ConstPool.Diagnostic.Basic
import ConstPool.Text.Json

/-!
# Diagnostics for tools

Two forms of a diagnostic: `toJson` with all its parts, and `toEditorJson` as editors expect it,
where lines and columns are counted from zero, an error has the severity `1`, and what is missing
is left out.
-/

namespace ConstPool

/-- A position as JSON. -/
def Position.toJson (p : Position) : Json :=
  .object [("line", .ofNat p.line), ("column", .ofNat p.column), ("offset", .ofNat p.offset)]

/-- A span as JSON. -/
def Span.toJson (s : Span) : Json :=
  .object [("start", s.start.toJson), ("end", s.stop.toJson)]

/-- A position as editors count. -/
def Position.toEditorJson (p : Position) : Json :=
  .object [("line", .ofNat (p.line - 1)), ("character", .ofNat (p.column - 1))]

/-- A span as editors count. -/
def Span.toEditorJson (s : Span) : Json :=
  .object [("start", s.start.toEditorJson), ("end", s.stop.toEditorJson)]

namespace Diagnostic

/-- A diagnostic with all its parts. -/
def toJson (d : Diagnostic) : Json :=
  .object [("severity", .string "error"), ("code", .string d.code),
    ("message", .string d.message), ("help", .string d.help),
    ("span", (d.span.map Span.toJson).getD .null)]

/-- A diagnostic as editors expect it. -/
def toEditorJson (d : Diagnostic) : Json :=
  .object ([("severity", .ofNat 1), ("code", .string d.code), ("message", .string d.message)] ++
    (if d.help = "" then [] else [("help", .string d.help)]) ++
    match d.span with
    | some span => [("range", span.toEditorJson)]
    | none => [])

/-- Diagnostics as editors expect them, one a line. -/
def editorLines (ds : List Diagnostic) : String :=
  "\n".intercalate (ds.map fun d => d.toEditorJson.compact)

end Diagnostic

end ConstPool
