import AresSyntax.Position
import AresSyntax.Text.UpperCase

/-!
Messages about a place in a source.

Main definitions:
* `Diagnostic.render`: the one-line form `file:line:column: message`;
* `Diagnostic.detailed`: severity, code and help around that line.
-/
namespace AresSyntax

/-- A message about a place, with its severity, and with a code and a help text if it has them. -/
structure Diagnostic where
  message : String
  location : Location
  severity : String := "error"
  code : Option String := none
  help : Option String := none
  deriving DecidableEq, Repr

namespace Diagnostic

def render (d : Diagnostic) : String := d.location.render ++ ": " ++ d.message

/-- An empty text counts as none. -/
def present? (text : Option String) : Option String := text.filter (· ≠ "")

/-- Several lines: severity and code before the one-line form, the help text below it. -/
def detailed (d : Diagnostic) : String :=
  let code := match present? d.code with
    | some code => "[" ++ code ++ "]"
    | none => ""
  let help := match present? d.help with
    | some help => "  help: " ++ help ++ "\n"
    | none => ""
  Text.upperCase d.severity ++ code ++ ": " ++ d.render ++ "\n" ++ help

end Diagnostic
end AresSyntax
