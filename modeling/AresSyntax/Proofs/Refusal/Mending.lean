import AresSyntax.Proofs.Grammar.Grafting
import AresSyntax.Proofs.Reader.Refusing
import AresSyntax.Proofs.Soundness.Expressions
import AresSyntax.Proofs.Tree.Spelled

/-!
Where a token is refused, others could have stood that complete what was begun.

* `Span.Fillable`: spans that some lexemes are;
* `Span.Mends`: a span that was begun and can be completed from where a reader stands;
* `Parse.Reads`: a request takes a span, or refuses a token where the span can be completed;
* `Parse.InRow`: the same for requests in a row, where all spans behind the first can be filled.
-/
namespace AresSyntax

theorem StartsAt.start {location : Location} {ts : List Token} (h : StartsAt location ts) :
    Span.start ts = some location := by
  obtain ⟨t, ts, rfl, same⟩ := h
  exact congrArg some same

theorem StartsAt.ne_nil {location : Location} {ts : List Token} (h : StartsAt location ts) :
    ts ≠ [] := by
  obtain ⟨t, ts, rfl, _⟩ := h
  exact List.cons_ne_nil t ts

theorem Reader.start_tokens (r : Reader) : Span.start r.tokens = some r.current.location := by
  obtain ⟨ts, tokens⟩ := r.tokens_eq_cons
  rw [tokens]
  rfl

/-- Where one more level is allowed, it is allowed at every place less deep. -/
theorem Context.Within.outward {limit : Option Nat} {c c' : Context}
    (h : c'.deeper.Within limit) (le : c.depth ≤ c'.depth) : c.deeper.Within limit :=
  fun most bound => Nat.le_trans (Nat.succ_le_succ le) (h most bound)

/-- An identifier. -/
def Lexeme.name : Lexeme := { kind := .literal .ident, text := "x" }

theorem Lexeme.usable_name : name.Usable := by
  refine ⟨Genuine.restored ⟨"x", "", 0, name.token ⟨.start, ""⟩, by decide +kernel, rfl⟩, ?_⟩
  exact Kind.noConfusion

namespace Span

variable {limit : Option Nat} {c c' : Context} {D E : Span} {Ds : List Span}
  {ts us : List Token} {r r' : Reader}

/-- A phrase with one tree. -/
def phrase (limit : Option Nat) (p : Phrase) (c : Context) : Span :=
  fun ts rest => ∃ u, Derives limit p c ts rest [u]

/-- A phrase with any number of trees. -/
def phrases (limit : Option Nat) (p : Phrase) (c : Context) : Span :=
  fun ts rest => ∃ us, Derives limit p c ts rest us

theorem Grafts.phrase {p : Phrase} {u : Tree} (h : Derives limit p c ts us [u]) :
    (phrase limit p c).Grafts ts us := h.grafts.imp fun _ _ _ derived => ⟨u, derived⟩

theorem Grafts.phrases {p : Phrase} {cs : List Tree} (h : Derives limit p c ts us cs) :
    (phrases limit p c).Grafts ts us := h.grafts.imp fun _ _ _ derived => ⟨cs, derived⟩

/-- Some lexemes are `D`, whatever stands behind them, if the place `c` is not at the limit. -/
def Fillable (limit : Option Nat) (c : Context) (D : Span) : Prop :=
  c.deeper.Within limit → ∀ location, ∃ ls : List Lexeme, (∀ l ∈ ls, l.Usable) ∧
    ∀ rest, StartsAt location rest → D (placed location ls ++ rest) rest

/-- The tokens `ts` begin what the reader `r'` stands in. If its place is not at the limit, some
lexemes complete it to `D`. -/
structure Mends (limit : Option Nat) (c : Context) (D : Span) (ts : List Token) (r' : Reader) :
    Prop where
  depth : c.depth ≤ r'.depth
  completed : ∃ pre, ts = pre ++ r'.tokens ∧ (r'.context.deeper.Within limit →
    ∃ ls : List Lexeme, (∀ l ∈ ls, l.Usable) ∧ ∀ rest, StartsAt r'.current.location rest →
      D (pre ++ (placed r'.current.location ls ++ rest)) rest)

namespace Fillable

theorem nil (h : ∀ ts, D ts ts) : D.Fillable limit c :=
  fun _ _ => ⟨[], by simp, fun rest _ => h rest⟩

theorem one {l : Lexeme} (usable : l.Usable)
    (h : c.deeper.Within limit → ∀ location rest, D (l.token location :: rest) rest) :
    D.Fillable limit c :=
  fun within location => ⟨[l], by simpa using usable, fun rest _ => h within location rest⟩

theorem imp (h : D.Fillable limit c)
    (f : c.deeper.Within limit → ∀ ts rest, D ts rest → E ts rest) : E.Fillable limit c := by
  intro within location
  obtain ⟨ls, usable, spelled⟩ := h within location
  exact ⟨ls, usable, fun rest behind => f within _ _ (spelled rest behind)⟩

theorem row (h : ∀ D ∈ Ds, D.Fillable limit c) : (row Ds).Fillable limit c := by
  intro within location
  induction Ds with
  | nil => exact ⟨[], by simp, fun _ _ => rfl⟩
  | cons D Ds ih =>
    obtain ⟨first, others⟩ := List.forall_mem_cons.1 h
    obtain ⟨ls, usable, spelled⟩ := first within location
    obtain ⟨ms, usable', spelled'⟩ := ih others
    refine ⟨ls ++ ms, List.forall_mem_append.2 ⟨usable, usable'⟩, fun rest behind => ?_⟩
    rw [placed_append, List.append_assoc]
    exact ⟨_, spelled _ (behind.append ms), spelled' rest behind⟩

end Fillable

namespace Mends

/-- A reader that is at the beginning has everything to be filled. -/
theorem of_fillable (hr : r.At c) (h : D.Fillable limit c) : D.Mends limit c r.tokens r := by
  obtain ⟨_, rfl⟩ := hr
  exact ⟨Nat.le_refl _, [], rfl, fun within => h within _⟩

theorem imp (h : D.Mends limit c ts r')
    (f : c.deeper.Within limit → ∀ ⦃ts rest⦄, rest ≠ [] → D ts rest → E ts rest) :
    E.Mends limit c ts r' := by
  obtain ⟨depth, pre, rfl, completed⟩ := h
  refine ⟨depth, pre, rfl, fun within => ?_⟩
  obtain ⟨ls, usable, spelled⟩ := completed within
  exact ⟨ls, usable, fun rest behind =>
    f (within.outward depth) behind.ne_nil (spelled rest behind)⟩

theorem outward (h : D.Mends limit c' ts r') (le : c.depth ≤ c'.depth) : D.Mends limit c ts r' :=
  ⟨Nat.le_trans le h.depth, h.completed⟩

/-- What was read before stays when the rest is completed. -/
theorem after (first : D.Grafts ts us) (h : (row Ds).Mends limit c us r') :
    (row (D :: Ds)).Mends limit c ts r' := by
  obtain ⟨pre, rfl, first⟩ := first
  obtain ⟨depth, pre', rfl, completed⟩ := h
  refine ⟨depth, pre ++ pre', (List.append_assoc ..).symm, fun within => ?_⟩
  obtain ⟨ls, usable, spelled⟩ := completed within
  refine ⟨ls, usable, fun rest behind => ?_⟩
  have same : start (placed r'.current.location ls ++ rest) = start r'.tokens :=
    (behind.append ls).start.trans r'.start_tokens.symm
  rw [List.append_assoc]
  exact ⟨_, first _ (start_append same pre'), spelled rest behind⟩

/-- What follows is filled when the first is completed. -/
theorem before (h : D.Mends limit c ts r') (others : ∀ D ∈ Ds, D.Fillable limit c) :
    (row (D :: Ds)).Mends limit c ts r' := by
  obtain ⟨depth, pre, rfl, completed⟩ := h
  refine ⟨depth, pre, rfl, fun within => ?_⟩
  obtain ⟨ls, usable, spelled⟩ := completed within
  obtain ⟨ms, usable', spelled'⟩ :=
    Fillable.row others (within.outward depth) r'.current.location
  refine ⟨ls ++ ms, List.forall_mem_append.2 ⟨usable, usable'⟩, fun rest behind => ?_⟩
  rw [placed_append, List.append_assoc]
  exact ⟨_, spelled _ (behind.append ms), spelled' rest behind⟩

/-- What was taken is complete. -/
theorem taken (hr : r.At c) (h : D.Grafts ts r.tokens) : D.Mends limit c ts r := by
  have nothing : (row []).Mends limit c r.tokens r := .of_fillable hr (.nil fun _ => rfl)
  refine (after h nothing).imp ?_
  rintro - _ _ - ⟨_, held, rfl⟩
  exact held

end Mends

/-! What can be filled. -/

section
variable (limit c)

@[simp] theorem fillable_newlines : Fillable limit c Newlines := .nil fun _ => .none

@[simp] theorem fillable_mark (m : Mark) : (sign (.mark m)).Fillable limit c :=
  .one (Lexeme.usable_ofMark m) fun _ _ _ => ⟨_, rfl, rfl⟩

@[simp] theorem fillable_keyword (w : Keyword) : (sign (.keyword w)).Fillable limit c :=
  .one (Lexeme.usable_ofKeyword w) fun _ _ _ => ⟨_, rfl, rfl⟩

@[simp] theorem fillable_ident : (sign (.literal .ident)).Fillable limit c :=
  .one Lexeme.usable_name fun _ _ _ => ⟨_, rfl, rfl⟩

theorem fillable_atom : (phrase limit .atom c).Fillable limit c := by
  refine (fillable_ident limit c).imp ?_
  rintro _ _ _ ⟨t, ident, rfl⟩
  exact ⟨_, .literal ident⟩

theorem fillable_operand : (phrase limit .operand c).Fillable limit c := by
  refine (fillable_atom limit c).imp ?_
  rintro _ _ _ ⟨u, atom⟩
  exact ⟨u, .unsigned (.untrailed atom)⟩

theorem fillable_level {k : Nat} (h : k ≤ Precedence.unary.rank) :
    (phrase limit (.level k) c).Fillable limit c := by
  refine (fillable_operand limit c).imp ?_
  rintro _ _ _ ⟨u, operand⟩
  exact ⟨u, (Derives.tightest operand).looser h⟩

theorem fillable_assignment : (phrase limit .assignment c).Fillable limit c := by
  refine (fillable_level limit c (k := Precedence.range.rank) (by decide)).imp ?_
  rintro _ _ _ ⟨u, value⟩
  exact ⟨u, .plain value⟩

@[simp] theorem fillable_expression : (phrase limit .expression c).Fillable limit c := by
  refine (fillable_ident limit c).imp ?_
  rintro within _ rest ⟨t, ident, rfl⟩
  have operand : Derives limit .operand c.deeper (t :: rest) rest [.leaf t] :=
    .unsigned (.untrailed (.literal ident))
  exact ⟨_, .expression within (.plain ((Derives.tightest operand).looser (by decide)))⟩

@[simp] theorem fillable_statements : (phrases limit .statements c.deeper).Fillable limit c :=
  .nil fun _ => ⟨[], .noStatement⟩

@[simp] theorem fillable_list (p : Phrase) : (phrases limit (.list p) c).Fillable limit c :=
  .nil fun _ => ⟨[], .emptyList⟩

@[simp] theorem fillable_pairs : (phrases limit .pairs c).Fillable limit c :=
  .nil fun _ => ⟨[], .noPair⟩

@[simp] theorem fillable_clauses : (phrases limit .clauses c).Fillable limit c :=
  .nil fun _ => ⟨[], .noClause⟩

@[simp] theorem fillable_otherwise : (phrases limit .otherwise c).Fillable limit c :=
  .nil fun _ => ⟨[], .noOtherwise⟩

@[simp] theorem fillable_block : (phrase limit .block c).Fillable limit c := by
  have braces : (row [sign (.mark .openBrace), sign (.mark .closeBrace)]).Fillable limit c :=
    .row (by simp)
  refine braces.imp ?_
  rintro within _ _ ⟨_, ⟨o, opening, rfl⟩, _, ⟨e, closing, rfl⟩, rfl⟩
  exact ⟨_, .block .none opening .none within .noStatement closing⟩

/-- The body of a subroutine is as deep as the subroutine. -/
@[simp] theorem fillable_body : (phrase limit .block c.body).Fillable limit c :=
  fun within => fillable_block limit c.body within

end

end Span

namespace Parse
open AresSyntax.Span

variable {α β : Type} {limit : Option Nat} {c : Context} {D E : Span} {Ds : List Span}
  {read : Parse α} {k : Kind} {r : Reader}

/-- Where the request refuses a token at the place `c`, what was begun can be completed to `D`. -/
def Breaks (limit : Option Nat) (c : Context) (D : Span) (read : Parse α) (r : Reader) : Prop :=
  ∀ ⦃e t r'⦄, read r = .error (.grammar e t) r' → e ≠ .nestedTooDeeply →
    D.Mends limit c r.tokens r'

/-- What the request takes at the place `c` is `D`, and where it refuses a token, what was begun can
be completed to `D`. -/
structure Reads (limit : Option Nat) (c : Context) (D : Span) (read : Parse α) (r : Reader) :
    Prop where
  takes : ∀ ⦃a r'⦄, read r = .ok a r' → r'.At c ∧ D.Grafts r.tokens r'.tokens
  breaks : Breaks limit c D read r

/-- Where the request refuses a token, what was begun can be completed to the spans `Ds`, if those
behind the first can be filled. -/
def InRow (limit : Option Nat) (c : Context) (Ds : List Span) (read : Parse α) (r : Reader) :
    Prop :=
  (∀ D ∈ Ds.tail, D.Fillable limit c) → Breaks limit c (row Ds) read r

namespace InRow

theorem pure {a : α} : InRow limit c Ds (Pure.pure a) r :=
  fun _ _ _ _ h => absurd h not_pure_fails

theorem only (h : Breaks limit c D read r) : InRow limit c [D] read r :=
  fun _ _ _ _ refused other => (h refused other).imp fun _ _ rest _ held => ⟨rest, held, rfl⟩

/-- What comes last needs not take its span. -/
theorem last {p : Parse β} {f : β → α} (h : Breaks limit c D p r) :
    InRow limit c [D] (p >>= fun a => Pure.pure (f a)) r := by
  intro _ e t r' refused other
  exact only h (by simp) (of_bind_pure refused) other

theorem bind {p : Parse β} {q : β → Parse α} (first : Reads limit c D p r)
    (next : ∀ a s, s.At c → InRow limit c Ds (q a) s) : InRow limit c (D :: Ds) (p >>= q) r := by
  intro fills e t r' h other
  obtain refused | ⟨a, s, taken, h⟩ := bind_eq_error.1 h
  · exact (first.breaks refused other).before fills
  · obtain ⟨hs, graft⟩ := first.takes taken
    exact .after graft (next a s hs (fun D hD => fills D (List.mem_of_mem_tail hD)) h other)

theorem current {q : Token → Parse α} (next : InRow limit c Ds (q r.current) r) :
    InRow limit c Ds (Parse.current >>= q) r := next

theorem breaks (h : InRow limit c Ds read r) (fills : ∀ D ∈ Ds.tail, D.Fillable limit c)
    (whole : c.deeper.Within limit → ∀ ⦃ts rest⦄, rest ≠ [] → row Ds ts rest → D ts rest) :
    Breaks limit c D read r :=
  fun _ _ _ refused other => (h fills refused other).imp whole

end InRow

theorem Yields.takes {p : Phrase} {read : Parse Tree} (h : Yields limit p read) (hr : r.At c)
    ⦃u : Tree⦄ ⦃r' : Reader⦄ (taken : read r = .ok u r') :
    r'.At c ∧ (phrase limit p c).Grafts r.tokens r'.tokens := by
  obtain ⟨hr', derived⟩ := h hr taken
  exact ⟨hr', .phrase derived⟩

theorem YieldsAll.takes {p : Phrase} {read : Parse (List Tree)} (h : YieldsAll limit p read)
    (hr : r.At c) ⦃us : List Tree⦄ ⦃r' : Reader⦄ (taken : read r = .ok us r') :
    r'.At c ∧ (phrases limit p c).Grafts r.tokens r'.tokens := by
  obtain ⟨hr', derived⟩ := h hr taken
  exact ⟨hr', .phrases derived⟩

theorem skipNewlines_reads (hr : r.At c) : Reads limit c Newlines skipNewlines r where
  takes _ _ taken := by
    obtain ⟨hr', lines, _⟩ := skipNewlines_spec hr taken
    exact ⟨hr', lines.grafts⟩
  breaks _ _ _ refused := absurd refused not_skipNewlines_refuses

theorem advance_reads (hr : r.At c) (start : r.current.kind = k) (present : k ≠ .endOfText) :
    Reads limit c (sign k) advance r where
  takes _ _ taken := by
    obtain ⟨hr', rfl, take⟩ := advance_take hr (start ▸ present) taken
    exact ⟨hr', take ▸ .sign start⟩
  breaks _ _ _ refused := absurd refused not_advance_refuses

/-- A token of kind `k` with the line ends behind it. -/
theorem advanceLines_reads (hr : r.At c) (start : r.current.kind = k) (present : k ≠ .endOfText) :
    Reads limit c (row [sign k, Newlines]) advanceLines r where
  takes _ _ taken := by
    obtain ⟨hr', rfl, ts, take, lines⟩ := advanceLines_spec hr (start ▸ present) taken
    rw [take]
    exact ⟨hr', (Grafts.sign start).cons (lines.grafts.cons .nil)⟩
  breaks _ _ _ refused := absurd refused not_advanceLines_refuses

theorem expect_reads {x : Expectation} (hr : r.At c) (present : k ≠ .endOfText)
    (fill : (sign k).Fillable limit c) : Reads limit c (sign k) (expect k x) r where
  takes _ _ taken := by
    obtain ⟨hr', kind, take⟩ := expect_spec hr present taken
    exact ⟨hr', take ▸ .sign kind⟩
  breaks _ _ _ refused _ := by
    obtain rfl := expect_refuses refused
    exact .of_fillable hr fill

/-- What is read one level further in. -/
theorem nested_reads {body : Parse α} (hr : r.At c)
    (inner : ∀ s, s.At c.deeper → Reads limit c.deeper D body s) :
    Reads limit c D (nested limit body) r where
  takes _ _ taken := by
    obtain ⟨_, s, s', hs, same, run, back, same'⟩ := nested_spec hr taken
    obtain ⟨hs', graft⟩ := (inner s hs).takes run
    exact ⟨back hs', same ▸ same' ▸ graft⟩
  breaks _ _ _ refused other := by
    obtain ⟨⟨hp, hn, hc⟩, rfl⟩ := hr
    have deeper : { r with depth := r.depth + 1 }.At r.context.deeper := ⟨⟨hp, hn, hc⟩, rfl⟩
    have mended := (inner _ deeper).breaks (nested_refuses other refused) other
    exact mended.outward (Nat.le_succ _)

/-- What is read in the body of a subroutine. -/
theorem inSubroutine_reads {body : Parse α} (hr : r.At c)
    (inner : ∀ s, s.At c.body → Reads limit c.body D body s) :
    Reads limit c D (inSubroutine body) r where
  takes _ _ taken := by
    obtain ⟨s, s', hs, same, run, back, same'⟩ := inSubroutine_spec hr taken
    obtain ⟨hs', graft⟩ := (inner s hs).takes run
    exact ⟨back hs', same ▸ same' ▸ graft⟩
  breaks _ _ _ refused other := by
    obtain ⟨⟨hp, hn, hc⟩, rfl⟩ := hr
    have inside : { r with inSubroutine := true }.At r.context.body := ⟨⟨hp, hn, hc⟩, rfl⟩
    have mended := (inner _ inside).breaks (inSubroutine_fails refused) other
    exact mended.outward (Nat.le_refl _)

/-- A repeated step that takes a span, behind which it finds either more or nothing. -/
theorem collect_breaks {step : Parse (Option α)}
    (takes : ∀ ⦃a s s'⦄, s.At c → step s = .ok (some a) s' →
      s'.At c ∧ E.Grafts s.tokens s'.tokens ∨ ∃ q, step s' = .ok none q)
    (breaks : ∀ ⦃s⦄, s.At c → Breaks limit c D step s)
    (onward : ∀ ⦃ts us rest⦄, E ts us → D us rest → D ts rest) (hr : r.At c) :
    Breaks limit c D (collect step) r := by
  intro e t r' refused other
  have run := collect_eq_error refused
  clear refused
  induction run with
  | fail last => exact breaks hr last other
  | next first others ih =>
    obtain ⟨hs, graft⟩ | ⟨q, stop⟩ := takes hr first
    · refine (Mends.after graft ((ih hs).imp (E := row [D]) ?_)).imp ?_
      · exact fun _ _ rest _ held => ⟨rest, held, rfl⟩
      · rintro - _ _ - ⟨_, held, _, more, rfl⟩
        exact onward held more
    · cases others with
      | fail last =>
        rw [stop] at last
        cases last
      | next first' _ =>
        rw [stop] at first'
        cases first'

/-- A step that is repeated on its own results, and keeps to what holds for these and the reader. -/
theorem iterate_breaks {step : α → Parse (Option α)} {inv : α → Reader → Prop} {ts : List Token}
    (kept : ∀ ⦃a b s s'⦄, inv a s → step a s = .ok (some b) s' → inv b s')
    (breaks : ∀ ⦃a s e t r'⦄, inv a s → step a s = .error (.grammar e t) r' →
      e ≠ .nestedTooDeeply → D.Mends limit c ts r')
    {a : α} (start : inv a r) {e : GrammarError} {t : Token} {r' : Reader}
    (refused : iterate step a r = .error (.grammar e t) r') (other : e ≠ .nestedTooDeeply) :
    D.Mends limit c ts r' := by
  have run := iterate_eq_error refused
  clear refused
  induction run with
  | fail last => exact breaks start last other
  | next first _ ih => exact ih (kept start first)

end Parse

/-- Every goal reads its own phrase. -/
def Grammar.Mending (limit : Option Nat) (again : Grammar) : Prop :=
  ∀ (g : Goal) ⦃c : Context⦄ ⦃r : Reader⦄, r.At c →
    Parse.Reads limit c (Span.phrase limit g.phrase c) (again g) r

end AresSyntax
