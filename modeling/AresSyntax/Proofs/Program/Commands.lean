import AresSyntax.Command.Run
import AresSyntax.Proofs.Program.Messages
import AresSyntax.Proofs.Program.Faults
import AresSyntax.Proofs.Refusal.Kinds

/-!
The command prints what reading and parsing give: the tree of a text, or its tokens line by line up
to the first fault.

* `OneLine`, `Token.listed_oneLine`: no token is listed on more than one line;
* `Gives`: the tokens up to the end of a text or to its first fault;
* `Command.Draft.readFrom_loud`: the option for a log leaves all other settings as they are;
* `Command.run_agrees`: what a run prints, and its status.
-/
namespace AresSyntax

/-! ## Tokens on a line -/

/-- Holds for texts without a line end. -/
def OneLine (s : String) : Prop := '\n' ∉ s.toList

instance (s : String) : Decidable (OneLine s) := inferInstanceAs (Decidable ('\n' ∉ s.toList))

namespace OneLine

theorem append {s s' : String} (h : OneLine s) (h' : OneLine s') : OneLine (s ++ s') := by
  rw [OneLine, String.toList_append, List.mem_append, not_or]
  exact ⟨h, h'⟩

theorem join {ss : List String} (h : ∀ s ∈ ss, OneLine s) : OneLine (String.join ss) := by
  rw [OneLine, String.toList_join, List.mem_flatMap]
  rintro ⟨s, hs, line⟩
  exact h s hs line

theorem ofList {cs : List Char} (h : '\n' ∉ cs) : OneLine (String.ofList cs) := by
  rwa [OneLine, String.toList_ofList]

end OneLine

theorem toString_oneLine (n : Int) : OneLine (toString n) := line_not_mem_toString n

theorem digits_oneLine (n : Nat) : '\n' ∉ Nat.toDigits 10 n :=
  line_not_mem_toDigits (by decide) (by decide) n

namespace Text

theorem codePointEscape_oneLine (c : Char) : OneLine (codePointEscape c) := by
  unfold codePointEscape
  split
  · exact .append (by decide) (line_not_mem_hexadecimal 2 _)
  split
  · exact .append (by decide) (line_not_mem_hexadecimal 4 _)
  · exact .append (by decide) (line_not_mem_hexadecimal 8 _)

/-- Between quotes a line end is written as an escape. -/
theorem quotedChar_oneLine {q : Char} (quote : q ≠ '\n') (c : Char) :
    OneLine (quotedChar q c) := by
  unfold quotedChar
  split
  · rename_i special
    refine .ofList ?_
    obtain rfl | rfl := special
    · simp [quote.symm]
    · decide
  split
  · decide
  rename_i noLine
  split
  · decide
  split
  · decide
  split
  · rw [OneLine, String.toList_singleton, List.mem_singleton]
    exact fun line => noLine line.symm
  · exact codePointEscape_oneLine c

theorem quoted_oneLine (s : String) : OneLine (quoted s) := by
  have quote : quoteFor s.toList ≠ '\n' := by
    unfold quoteFor
    split <;> decide
  have mark : OneLine (String.singleton (quoteFor s.toList)) := by
    rw [OneLine, String.toList_singleton, List.mem_singleton]
    exact quote.symm
  refine .append (.append mark (.join fun shown h => ?_)) mark
  obtain ⟨c, -, rfl⟩ := List.mem_map.1 h
  exact quotedChar_oneLine quote c

end Text

theorem Kind.name_oneLine (k : Kind) : OneLine k.name := by
  cases k with
  | literal l => cases l <;> decide
  | keyword k => cases k <;> decide
  | binary op => cases op <;> decide
  | assign op => cases op <;> decide
  | mark m => cases m <;> decide
  | label l => cases l <;> decide
  | negate => decide
  | endOfText => decide

namespace Decimal

theorem significant_plain (d : Decimal) : '\n' ∉ d.significant := by
  intro line
  rw [significant, List.mem_reverse] at line
  exact digits_oneLine _ (List.mem_reverse.1 ((List.dropWhile_sublist _).subset line))

theorem zeros_plain (n : Nat) : '\n' ∉ List.replicate n '0' :=
  fun line => absurd (List.eq_of_mem_replicate line) (by decide)

theorem positional_oneLine {ds : List Char} (h : '\n' ∉ ds) (leading : Int) :
    OneLine (positional ds leading) := by
  have whole (n : Nat) : '\n' ∉ ds.take n := fun line => h (List.mem_of_mem_take line)
  have part (n : Nat) : '\n' ∉ ds.drop n := fun line => h (List.mem_of_mem_drop line)
  unfold positional
  split
  · refine .ofList ?_
    simp only [List.mem_append, h, zeros_plain, or_false]
    decide
  · refine .ofList ?_
    simp only [List.mem_append, List.mem_cons, whole, zeros_plain, false_or, not_or]
    refine ⟨by decide, ?_⟩
    split
    · decide
    · exact part _

theorem scientific_oneLine {ds : List Char} (h : '\n' ∉ ds) (width : Nat) (leading : Int) :
    OneLine (scientific width ds leading) := by
  have whole : '\n' ∉ ds.take 1 := fun line => h (List.mem_of_mem_take line)
  have part : '\n' ∉ ds.drop 1 := fun line => h (List.mem_of_mem_drop line)
  have point : '\n' ∉ (if (ds.drop 1).isEmpty then [] else '.' :: ds.drop 1) := by
    split
    · exact List.not_mem_nil
    · exact fun line => (List.mem_cons.1 line).elim (by decide) part
  have sign : '\n' ∉ ['e', if leading < 0 then '-' else '+'] := by split <;> decide
  refine .ofList ?_
  simp only [List.mem_append, whole, point, sign, zeros_plain, digits_oneLine, or_self,
    not_false_iff]

theorem render_oneLine (layout : Layout) (d : Decimal) : OneLine (d.render layout) := by
  unfold render
  split
  · decide
  split
  · exact positional_oneLine d.significant_plain _
  · exact scientific_oneLine d.significant_plain _ _

end Decimal

theorem Binary64.render_oneLine (layout : Decimal.Layout) (x : Binary64) :
    OneLine (x.render layout) := by
  unfold render
  split
  · decide
  · refine .append ?_ ?_
    · split <;> decide
    · split
      · decide
      · exact Decimal.render_oneLine layout _

theorem Value.inspect_oneLine (v : Value) : OneLine v.inspect := by
  cases v with
  | string s => exact Text.quoted_oneLine s
  | integer n => exact toString_oneLine n
  | float x => exact x.render_oneLine _
  | bool b => cases b <;> decide

namespace Token

/-- The line of a token in a listing. -/
def listed (t : Token) : String :=
  toString t.location.line ++ ":" ++ toString t.location.column ++ "\t" ++ t.render

theorem render_oneLine (t : Token) : OneLine t.render := by
  unfold render
  refine .append (.append (.append (.append t.kind.name_oneLine (by decide))
    (Text.quoted_oneLine _)) ?_) (by decide)
  cases t.distinctValue? with
  | some v => exact .append (by decide) v.inspect_oneLine
  | none => decide

/-- A token is listed on one line, whatever its text. -/
theorem listed_oneLine (t : Token) : OneLine t.listed := by
  have place : OneLine (toString t.location.line ++ ":" ++ toString t.location.column) :=
    .append (.append (toString_oneLine _) (by decide)) (toString_oneLine _)
  exact .append (.append place (by decide)) t.render_oneLine

end Token

/-! ## Tokens up to the first fault -/

/-- The tokens that a text gives, up to and with the end token or up to the first fault. -/
structure Gives (text file : String) (ts : List Token) : Prop where
  reads : ∀ i t, ts[i]? = some t → outcomes text file i = .ok t
  others : ∀ t ∈ ts.dropLast, t.kind ≠ .endOfText
  stops : (∃ e ∈ ts.getLast?, e.kind = .endOfText) ∨ ∃ f, outcomes text file ts.length = .error f

section
variable {text file : String}

theorem gives_of_tokenize {ts : List Token} (h : tokenize text file = .ok ts) :
    Gives text file ts := by
  obtain ⟨us, e, rfl, lists⟩ := tokenize_lists.1 h
  refine ⟨lists.reads, ?_, .inl ⟨e, by simp, lists.last⟩⟩
  rw [List.dropLast_concat]
  exact lists.others

/-- What is listed of a text that is refused. -/
theorem gives_of_fault {f : ReadFault} (h : tokenize text file = .error f) :
    let s := (Cursor.ofText file text).stream
    s.listing.2 = some f ∧ Gives text file s.listing.1 ∧
      outcomes text file s.listing.1.length = .error f := by
  have last : (Cursor.ofText file text).stream.EndsLast := Cursor.streamWithin_endsLast _ _
  have nth := nth_stream_eq text file
  simp only
  generalize same : (Cursor.ofText file text).stream = s at last nth
  have reads : ∀ i t, s.listing.1[i]? = some t → outcomes text file i = .ok t :=
    fun i t ht => nth ▸ TokenStream.nth_of_listing ht
  cases fault : s.listing.2 with
  | none =>
    have whole : tokenize text file = .ok s.listing.1 :=
      tokenize_eq_ok.2 (by rw [same]; exact Prod.ext rfl fault)
    cases h.symm.trans whole
  | some g =>
    have stop : outcomes text file s.listing.1.length = .error g :=
      nth ▸ TokenStream.nth_length_of_listing fault
    have first : (Cursor.ofText file text).FirstFault s.listing.1.length g :=
      ⟨fun j before => ⟨_, reads j _ (List.getElem?_eq_getElem before)⟩, stop⟩
    cases h.symm.trans (tokenize_eq_error.2 ⟨_, first⟩)
    exact ⟨rfl, ⟨reads, fun t ht => last.not_end_of_fault fault t (List.dropLast_subset _ ht),
      .inr ⟨f, stop⟩⟩, stop⟩

end

namespace Command

/-! ## Runs of the command -/

/-- What a run shows on its standard output, and its status. -/
def Output.shown (o : Output) : Nat × String := (o.status, o.stdout)

namespace Request

/-- The name that diagnostics show: the given one, if it is not empty, else the path or a name for
the standard input. -/
def shownName (r : Request) : String :=
  if r.name ≠ "" then r.name else if r.source = "-" then "<stdin>" else r.source

theorem name_sourceModule (r : Request) : r.sourceModule.name = r.shownName := by
  simp only [sourceModule, readsInput, shownName, decide_eq_true_eq, ite_not]
  split <;> split <;> simp_all

variable {r : Request} {text : String}

/-- What is printed for some tokens. -/
def listing (ts : List Token) : String := String.join (ts.map fun t => t.listed ++ "\n")

/-- Holds if a run ends with status 1 behind what was printed. Unless it is verbose, it reports the
diagnostic alone. -/
def Fails (r : Request) (printed : String) (d : Diagnostic) (x : Except Crash Output) : Prop :=
  ∃ stderr, x = .ok ⟨1, printed, stderr⟩ ∧ (r.verbose = false → stderr = d.render ++ "\n")

theorem failed_fails {printed logged : String} {d : Diagnostic}
    (silent : r.verbose = false → logged = "") :
    r.Fails printed d (.ok (r.failed printed logged d)) := by
  refine ⟨_, rfl, fun quiet => ?_⟩
  simp [quiet, silent]

theorem logLine_silent {logger message : String} (quiet : r.verbose = false) :
    r.logLine logger message = "" := by
  simp [logLine, quiet]

theorem readFailed_fails {printed logged : String} {f : ReadFault} {d : Diagnostic}
    (silent : r.verbose = false → logged = "") (shown : f.diagnostic? = some d) :
    r.Fails printed d (r.readFailed printed logged f) := by
  cases f with
  | tooManyDigits count => cases shown
  | lexical e location =>
    cases shown
    exact failed_fails fun quiet => by simp [silent quiet, logLine_silent quiet]

theorem answerText_tokens {ts : List Token} (tokens : r.tokens = true)
    (h : tokenize text r.shownName = .ok ts) :
    r.answerText text = .ok ⟨0, listing ts, ""⟩ := by
  have listed := tokenize_eq_ok.1 h
  rw [answerText, name_sourceModule]
  simp only [tokens, if_true, listTokens, listed]
  rfl

/-- A fault ends a listing behind the tokens in front of it. -/
theorem answerText_tokens_stopped {f : ReadFault} (tokens : r.tokens = true)
    (h : tokenize text r.shownName = .error f) :
    ∃ ts, Gives text r.shownName ts ∧ outcomes text r.shownName ts.length = .error f ∧
      r.answerText text = r.readFailed (listing ts) "" f := by
  obtain ⟨fault, gives, stop⟩ := gives_of_fault h
  refine ⟨_, gives, stop, ?_⟩
  rw [answerText, name_sourceModule]
  simp only [tokens, if_true, listTokens, fault]
  rfl

theorem answerText_tokens_fault {f : ReadFault} {d : Diagnostic} (tokens : r.tokens = true)
    (h : tokenize text r.shownName = .error f) (shown : f.diagnostic? = some d) :
    ∃ ts, Gives text r.shownName ts ∧ outcomes text r.shownName ts.length = .error f ∧
      r.Fails (listing ts) d (r.answerText text) := by
  obtain ⟨ts, gives, stop, answered⟩ := answerText_tokens_stopped tokens h
  exact ⟨ts, gives, stop, answered ▸ readFailed_fails (fun _ => rfl) shown⟩

theorem answerText_printTree (tokens : r.tokens = false) (text : String) :
    r.answerText text = r.printTree (Cursor.ofText r.shownName text).stream := by
  rw [answerText, name_sourceModule]
  simp only [tokens, Bool.false_eq_true, if_false]

theorem answerText_tree {u : Tree} (tokens : r.tokens = false)
    (h : parse .standard text r.shownName = .ok u) :
    ∃ stderr, r.answerText text = .ok ⟨0, u.render ++ "\n", stderr⟩ := by
  rw [answerText_printTree tokens, printTree]
  cases started : Reader.start (Cursor.ofText r.shownName text).stream with
  | error g => simp [parse, started] at h
  | ok reader =>
    simp only [parse, started] at h
    simp only [h]
    exact ⟨_, rfl⟩

theorem answerText_tree_fault {f : ParseFault} {d : Diagnostic} (tokens : r.tokens = false)
    (h : parse .standard text r.shownName = .error f) (shown : f.diagnostic? = some d) :
    r.Fails "" d (r.answerText text) := by
  rw [answerText_printTree tokens, printTree]
  cases started : Reader.start (Cursor.ofText r.shownName text).stream with
  | error g =>
    simp only [parse, started, Except.error.injEq] at h
    subst h
    exact readFailed_fails (fun _ => rfl) shown
  | ok reader =>
    simp only [parse, started] at h
    simp only [h]
    cases f with
    | reading g => exact readFailed_fails logLine_silent shown
    | grammar e found =>
      cases shown
      exact failed_fails fun quiet => by simp [logLine_silent quiet]

/-- The same request with a log. -/
def loud (r : Request) : Request := { r with verbose := true }

theorem readFailed_loud (printed logged logged' : String) (f : ReadFault) :
    (r.loud.readFailed printed logged f).map Output.shown =
      (r.readFailed printed logged' f).map Output.shown := by
  cases f <;> rfl

/-- A log changes neither the status nor what is printed. -/
theorem answer_loud (source : Except LoadError String) :
    (r.loud.answer source).map Output.shown = (r.answer source).map Output.shown := by
  cases source with
  | error e => cases e <;> rfl
  | ok text =>
    have name : r.loud.sourceModule = r.sourceModule := rfl
    have tokens : r.loud.tokens = r.tokens := rfl
    simp only [answer, answerText, name, tokens]
    generalize (Cursor.ofText r.sourceModule.name text).stream = s
    split
    · unfold listTokens
      obtain ⟨ts, fault⟩ := s.listing
      cases fault with
      | none => rfl
      | some f => exact readFailed_loud _ _ _ f
    · unfold printTree
      cases Reader.start s with
      | error f => exact readFailed_loud _ _ _ f
      | ok reader =>
        simp only
        cases (reader.program .standard).1 with
        | ok u => rfl
        | error f =>
          cases f with
          | reading f => exact readFailed_loud _ _ _ f
          | grammar e found => rfl

end Request

namespace Draft

variable {d : Draft}

/-- The same draft with a log. -/
def loud (d : Draft) : Draft := { d with verbose := true }

theorem apply_loud (f : Flag) : d.loud.apply f = (d.apply f).map loud := by
  cases f <;> rfl

theorem foldlM_apply_loud (fs : List Flag) :
    fs.foldlM apply d.loud = (fs.foldlM apply d).map loud := by
  induction fs generalizing d with
  | nil => rfl
  | cons f fs ih =>
    rw [List.foldlM_cons, List.foldlM_cons, apply_loud]
    cases d.apply f with
    | error e => rfl
    | ok d' => exact ih

theorem applyWord_loud (f : Flag) (short : Bool) (value : Option String) :
    d.loud.applyWord f short value = (d.applyWord f short value).map loud := by
  cases value with
  | none => exact apply_loud f
  | some value =>
    simp only [applyWord]
    split
    · cases cluster f value.toList with
      | error e => rfl
      | ok fs => exact foldlM_apply_loud fs
    · rfl

/-- The words that follow set everything else as they do without a log. -/
theorem readFrom_loud (words : List Word) :
    d.loud.readFrom words = (d.readFrom words).map loud := by
  fun_induction d.readFrom words
  case case1 => rfl
  case case2 none ih | case4 none ih | case6 none ih =>
    rw [readFrom]
    · exact (if_pos none).trans ih
    all_goals assumption
  case case3 some ih | case5 some ih | case7 some ih =>
    rw [readFrom]
    · exact (if_neg some).trans ih
    all_goals assumption
  case case8 ih | case9 ih | case10 ih | case11 ih =>
    rw [readFrom]
    · exact ih
    all_goals assumption
  case case12 =>
    rw [readFrom]
    · rfl
    all_goals assumption
  case case13 d f short value words _ _ _ ih =>
    rw [readFrom, applyWord_loud]
    · cases applied : d.applyWord f short value with
      | error e => rfl
      | ok d' => exact ih d'
    all_goals assumption

theorem finish_loud : d.loud.finish = d.finish.map Request.loud := by
  have source : d.loud.source = d.source := rfl
  have surplus : d.loud.surplus = d.surplus := rfl
  simp only [finish, source, surplus]
  cases d.source with
  | none => rfl
  | some source => cases d.surplus.reverse <;> rfl

end Draft

/-- The option for a log in front of all other words. -/
theorem Request.read_loud {word : String} (verbose : word = "-v" ∨ word = "--verbose")
    (words : List String) : read (word :: words) = (read words).map loud := by
  obtain ⟨short, option⟩ : ∃ short, Word.read word = .ok (.option .verbose short none) := by
    obtain rfl | rfl := verbose
    · exact ⟨true, by decide +kernel⟩
    · exact ⟨false, by decide +kernel⟩
  have noDashes : word ≠ "--" := by obtain rfl | rfl := verbose <;> decide
  have first (ws : List Word) : ({} : Draft).readFrom (.option .verbose short none :: ws) =
      (({} : Draft).readFrom ws).map Draft.loud := Draft.readFrom_loud ws
  unfold read
  rw [Word.readAll, if_neg noDashes, option]
  cases Word.readAll words with
  | error e => rfl
  | ok ws =>
    change ({} : Draft).readFrom (.option .verbose short none :: ws) >>= Draft.finish =
      (({} : Draft).readFrom ws >>= Draft.finish).map loud
    rw [first]
    cases ({} : Draft).readFrom ws with
    | error e => rfl
    | ok d => exact Draft.finish_loud

/-- A run agrees with parsing and reading under the name that it shows. Without tokens it prints the
tree, or reports the diagnostic of the fault. With tokens it prints a line for each of them, up to
the end or to the first fault, and that diagnostic then; an integer that is too long has none and
breaks the run off behind the same lines. A log changes nothing of this. -/
theorem run_agrees {words : List String} {input : ByteArray} {files : FileSet} {r : Request}
    {text : String} (request : Request.read words = .ok r)
    (source : (if r.readsInput then textOf input else files.load r.source) = .ok text) :
    (r.tokens = false →
      (∀ u, parse .standard text r.shownName = .ok u →
        ∃ stderr, run words input files = .ok ⟨0, u.render ++ "\n", stderr⟩) ∧
      ∀ f d, parse .standard text r.shownName = .error f → f.diagnostic? = some d →
        r.Fails "" d (run words input files)) ∧
    (r.tokens = true →
      (∀ ts, tokenize text r.shownName = .ok ts → Gives text r.shownName ts ∧
        run words input files = .ok ⟨0, Request.listing ts, ""⟩) ∧
      (∀ f d, tokenize text r.shownName = .error f → f.diagnostic? = some d →
        ∃ ts, Gives text r.shownName ts ∧ outcomes text r.shownName ts.length = .error f ∧
          r.Fails (Request.listing ts) d (run words input files)) ∧
      ∀ n, tokenize text r.shownName = .error (.tooManyDigits n) →
        ∃ ts, Gives text r.shownName ts ∧
          outcomes text r.shownName ts.length = .error (.tooManyDigits n) ∧
          run words input files = .error (@Crash.tooManyDigits (Request.listing ts) n)) ∧
    (∀ t : Token, OneLine t.listed) ∧
    (∀ word, word = "-v" ∨ word = "--verbose" → Request.read (word :: words) = .ok r.loud) ∧
    ∀ words', Request.read words' = .ok r.loud →
      (run words' input files).map Output.shown = (run words input files).map Output.shown := by
  have answered : run words input files = r.answerText text := by
    rw [run, request]
    simp only [source, Request.answer]
  rw [answered]
  refine ⟨fun tokens => ⟨fun u => Request.answerText_tree tokens,
      fun f d => Request.answerText_tree_fault tokens⟩,
    fun tokens => ⟨fun ts h => ⟨gives_of_tokenize h, Request.answerText_tokens tokens h⟩,
      fun f d => Request.answerText_tokens_fault tokens,
      fun n => Request.answerText_tokens_stopped tokens⟩,
    Token.listed_oneLine, fun word verbose => ?_, fun words' loud => ?_⟩
  · rw [Request.read_loud verbose, request]
    rfl
  · rw [← answered, run, run, request, loud]
    exact Request.answer_loud _

/-- A string with a line end in it is listed on one line, a fault is reported in one, and the tree
of a file is printed. -/
theorem run_agrees_lines :
    run ["--tokens", "-"] ⟨#[0x27, 0x62, 0x0a, 0x27]⟩ .bare =
      .ok ⟨0, "1:1\tSTRING('b\\n')\n2:2\tEOF('')\n", ""⟩ ∧
    run ["-"] ⟨#[0x27]⟩ .bare = .ok ⟨1, "", "<stdin>:1:1: unterminated string literal\n"⟩ ∧
    ∃ stderr, run ["a"] .empty (.ofList [("a", ⟨#[0x2d, 0x78]⟩)]) =
      .ok ⟨0, "(BLOCK (- x))\n", stderr⟩ := by
  refine ⟨?_, ?_, ?_⟩
  · have request : Request.read ["--tokens", "-"] = .ok ⟨"-", "", true, false⟩ := by decide +kernel
    have source : textOf ⟨#[0x27, 0x62, 0x0a, 0x27]⟩ = .ok "'b\n'" := by decide +kernel
    have tokens : tokenize "'b\n'" "<stdin>" =
      .ok [⟨.literal .string, "b\n", some (.string "b\n"), ⟨⟨1, 1, 0⟩, "<stdin>"⟩⟩,
        .atEnd ⟨⟨2, 2, 4⟩, "<stdin>"⟩] := by decide +kernel
    obtain ⟨-, listing, -⟩ := @run_agrees _ _ .bare _ _ request ((if_pos rfl).trans source)
    rw [((listing rfl).1 _ tokens).2]
    decide +kernel
  · have request : Request.read ["-"] = .ok ⟨"-", "", false, false⟩ := by decide +kernel
    have source : textOf ⟨#[0x27]⟩ = .ok "'" := by decide +kernel
    have fault : parse .standard "'" "<stdin>" =
      .error (.reading (.lexical .unterminatedString ⟨⟨1, 1, 0⟩, "<stdin>"⟩)) := by decide +kernel
    obtain ⟨printing, -⟩ := @run_agrees _ _ .bare _ _ request ((if_pos rfl).trans source)
    obtain ⟨stderr, ended, reported⟩ := (printing rfl).2 _ _ fault rfl
    have shown : (LexicalError.unterminatedString.diagnostic ⟨⟨1, 1, 0⟩, "<stdin>"⟩).render =
      "<stdin>:1:1: unterminated string literal" := by decide
    rw [ended, reported rfl, shown]
    rfl
  · have request : Request.read ["a"] = .ok ⟨"a", "", false, false⟩ := by decide +kernel
    have names : Place.names "a" = ["a"] := by
      rw [Place.names, String.splitOn, if_neg (by decide), String.splitOnAux, if_neg (by decide),
        if_neg (by decide), String.splitOnAux, if_pos (by decide)]
      decide
    have source : (FileSet.ofList [("a", ⟨#[0x2d, 0x78]⟩)]).load "a" = .ok "-x" := by
      simp only [FileSet.load, FileSet.read, FileSet.ofList, List.foldl_cons, List.foldl_nil,
        FileSet.put, names]
      rfl
    have shown : (parse .standard "-x" "a").toOption.map Tree.render =
      some "(BLOCK (- x))" := by decide +kernel
    obtain ⟨u, found, render⟩ := exists_tree_of_render shown
    obtain ⟨printing, -⟩ := @run_agrees _ .empty _ _ _ request ((if_neg (by decide)).trans source)
    obtain ⟨stderr, printed⟩ := (printing rfl).1 u found
    exact ⟨stderr, by rw [printed, render]; rfl⟩

end Command
end AresSyntax
