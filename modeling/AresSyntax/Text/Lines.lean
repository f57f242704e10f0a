/-!
Texts as files hold them: bytes in UTF-8 whose lines may end in several ways.

Main definitions:
* `Text.unifyLineEnds`: every line end as a single `\n`;
* `Text.decode?`: the text of a file's bytes.
-/
namespace AresSyntax.Text

/-- Puts a single `\n` for a carriage return with or without a line feed behind it. -/
def unifyLineEnds : List Char → List Char
  | [] => []
  | '\r' :: '\n' :: cs => '\n' :: unifyLineEnds cs
  | '\r' :: cs => '\n' :: unifyLineEnds cs
  | c :: cs => c :: unifyLineEnds cs

/-- The text of some bytes, unless they are no UTF-8. -/
def decode? (bytes : ByteArray) : Option String :=
  (String.fromUTF8? bytes).map fun s => String.ofList (unifyLineEnds s.toList)

theorem mem_unifyLineEnds (cs : List Char) : '\r' ∉ unifyLineEnds cs := by
  fun_induction unifyLineEnds cs <;> simp_all [eq_comm]

end AresSyntax.Text
