import ConstPool.Diagnostic.Basic

/-!
# Diagnostics for people

A diagnostic takes a line for its message, one for its place and one for its advice, the latter
two if they are there and wanted.

What is shown besides the message, and which file is named with the place, is up to whoever asks.
Several diagnostics are shown one after another with an empty line between them.
-/

namespace ConstPool

/-- What is shown of a diagnostic. -/
structure DiagnosticLayout where
  showHelp : Bool := true
  showLocation : Bool := true
  /-- The name of the file, which is put before the place. -/
  fileName : Option String := none

namespace Diagnostic

/-- The line for the place. -/
def locationLine (layout : DiagnosticLayout) (d : Diagnostic) : String :=
  match layout.showLocation, d.span with
  | true, some span =>
    let file := (layout.fileName.map (· ++ ":")).getD ""
    "  --> " ++ file ++ span.start.text ++ "\n"
  | _, _ => ""

/-- The line for the advice. -/
def helpLine (layout : DiagnosticLayout) (d : Diagnostic) : String :=
  if layout.showHelp && d.help != "" then "  = help: " ++ d.help ++ "\n" else ""

/-- A diagnostic in lines. -/
def render (layout : DiagnosticLayout) (d : Diagnostic) : String :=
  d.headline ++ "\n" ++ d.locationLine layout ++ d.helpLine layout

/-- Diagnostics with an empty line between them. -/
def renderAll (layout : DiagnosticLayout) (ds : List Diagnostic) : String :=
  "\n".intercalate (ds.map (render layout))

end Diagnostic

end ConstPool
