import AresSyntax.Text.Quoted

/-!
Source modules: the units that diagnostics name.

Main definitions:
* `SourceModule.ofPath`: the module that is read from a file;
* `SourceModule.inspect`: a module with every field.
-/
namespace AresSyntax

/-- A named unit of source text, with the path of its file if it has one. The name stands at the
front of every diagnostic as it is. -/
structure SourceModule where
  name : String
  path : Option String := none
  deriving DecidableEq, Repr

namespace SourceModule

/-- The module of a text whose name is not known. -/
def unknown : SourceModule := ⟨"<unknown>", none⟩

/-- The module of a text that stands for itself. -/
def string : SourceModule := ⟨"<string>", none⟩

/-- The module of a file, which is named by its path. -/
def ofPath (path : String) : SourceModule := ⟨path, some path⟩

/-- The form that shows every field. -/
def inspect (m : SourceModule) : String :=
  let path := match m.path with
    | some path => Text.quoted path
    | none => "None"
  "Module(name=" ++ Text.quoted m.name ++ ", path=" ++ path ++ ")"

end SourceModule
end AresSyntax
