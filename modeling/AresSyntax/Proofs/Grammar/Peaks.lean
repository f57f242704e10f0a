import AresSyntax.Proofs.Grammar.Derivation

/-!
How many brackets are open at once.

* `rise`, `peak`: the brackets that some tokens leave open, and the most of them on the way;
* `peak_append`: both for tokens one after the other;
* `PeaksWithin`: how many brackets some tokens open at a depth, with a law for each construct;
* `Derives.peaksWithin`: under a limit on levels of nesting not many brackets are open in a phrase;
* `DerivesProgram.peak_le`: nor in a program.
-/
namespace AresSyntax

/-- What a token adds to the brackets that are open. -/
def Kind.rise : Kind → Int
  | mark .openParen | mark .openBracket | mark .openBrace => 1
  | mark .closeParen | mark .closeBracket | mark .closeBrace => -1
  | _ => 0

/-- The brackets that tokens of some kinds open, less those that they close. -/
def rise : List Kind → Int
  | [] => 0
  | k :: ks => k.rise + rise ks

/-- The most brackets that are open at once, of those that tokens of some kinds open. -/
def peak : List Kind → Int
  | [] => 0
  | k :: ks => max 0 (k.rise + peak ks)

section
variable {k : Kind} {ks ls : List Kind}

@[simp] theorem rise_nil : rise [] = 0 := rfl

@[simp] theorem rise_cons (k : Kind) (ks : List Kind) : rise (k :: ks) = k.rise + rise ks := rfl

@[simp] theorem rise_append (ks ls : List Kind) : rise (ks ++ ls) = rise ks + rise ls := by
  induction ks with
  | nil => exact (Int.zero_add _).symm
  | cons k ks ih => rw [List.cons_append, rise_cons, ih, rise_cons, Int.add_assoc]

@[simp] theorem peak_nil : peak [] = 0 := rfl

@[simp] theorem peak_cons (k : Kind) (ks : List Kind) :
    peak (k :: ks) = max 0 (k.rise + peak ks) := rfl

theorem peak_nonneg (ks : List Kind) : 0 ≤ peak ks := by
  cases ks with
  | nil => exact Int.le_refl 0
  | cons k ks => exact Int.le_max_left _ _

theorem peak_cons_of_rise_eq_zero (h : k.rise = 0) : peak (k :: ks) = peak ks := by
  have least := peak_nonneg ks
  rw [peak_cons, h]
  omega

/-- The most that are open in some tokens and others behind them are the most in one of both. -/
theorem peak_append (ks ls : List Kind) :
    peak (ks ++ ls) = max (peak ks) (rise ks + peak ls) := by
  have least := peak_nonneg ls
  induction ks with
  | nil =>
    simp only [List.nil_append, peak_nil, rise_nil]
    omega
  | cons k ks ih =>
    simp only [List.cons_append, peak_cons, rise_cons, ih]
    omega

end

/-- The most brackets that are open at once in some tokens. -/
def peakOf (ts : List Token) : Int := peak (ts.map Token.kind)

section
variable {t : Token} {k : Kind} {ts rest : List Token}

theorem peakOf_cons (h : t.kind = k) (ts : List Token) :
    peakOf (t :: ts) = max 0 (k.rise + peakOf ts) := by
  rw [peakOf, List.map_cons, peak_cons, h, peakOf]

theorem peakOf_plain (h : t.kind = k) (plain : k.rise = 0) (ts : List Token) :
    peakOf (t :: ts) = peakOf ts :=
  peak_cons_of_rise_eq_zero (h ▸ plain)

theorem peakOf_nonneg (ts : List Token) : 0 ≤ peakOf ts := peak_nonneg _

/-- A bracket is open in what follows it. -/
theorem peakOf_open (h : t.kind = k) (opens : k.rise = 1) (ts : List Token) :
    peakOf (t :: ts) = peakOf ts + 1 := by
  have least := peakOf_nonneg ts
  rw [peakOf_cons h, opens]
  omega

theorem peakOf_close (h : t.kind = k) (closes : k.rise = -1) (ts : List Token) :
    peakOf (t :: ts) = max 0 (peakOf ts - 1) := by
  rw [peakOf_cons h, closes]
  omega

theorem Newlines.peakOf_eq (h : Newlines ts rest) : peakOf ts = peakOf rest := by
  induction h with
  | none => rfl
  | next newline _ ih => rw [peakOf_plain newline rfl, ih]

theorem Separator.peakOf_eq (h : Separator ts rest) : peakOf ts = peakOf rest := by
  cases h with
  | semicolon semicolon others => rw [peakOf_plain semicolon rfl, others.peakOf_eq]
  | newline newline others => rw [peakOf_plain newline rfl, others.peakOf_eq]

end

/-- Holds where the tokens before `rest` open no more brackets at once than levels are left at a
depth, and some to spare. -/
def PeaksWithin (most depth spare : Nat) (ts rest : List Token) : Prop :=
  peakOf ts + depth ≤ max ((most + spare : Nat) : Int) (peakOf rest + depth)

namespace PeaksWithin

variable {most depth spare : Nat} {t x : Token} {k k' : Kind} {ts ts₁ rest : List Token}

theorem nothing : PeaksWithin most depth spare rest rest := Int.le_max_right _ _

theorem next (first : PeaksWithin most depth spare ts ts₁)
    (others : PeaksWithin most depth spare ts₁ rest) : PeaksWithin most depth spare ts rest := by
  unfold PeaksWithin at first others ⊢
  omega

theorem spared (h : PeaksWithin most depth 0 ts rest) : PeaksWithin most depth spare ts rest := by
  unfold PeaksWithin at h ⊢
  omega

theorem plain (sign : t.kind = k) (closed : k.rise = 0) (h : PeaksWithin most depth spare ts rest) :
    PeaksWithin most depth spare (t :: ts) rest := by
  rwa [PeaksWithin, peakOf_plain sign closed]

theorem plain_or (sign : t.kind = k ∨ t.kind = k') (closed : k.rise = 0) (closed' : k'.rise = 0)
    (h : PeaksWithin most depth spare ts rest) : PeaksWithin most depth spare (t :: ts) rest :=
  sign.elim (plain · closed h) (plain · closed' h)

theorem lines (h : Newlines ts ts₁) (others : PeaksWithin most depth spare ts₁ rest) :
    PeaksWithin most depth spare ts rest := by
  rwa [PeaksWithin, h.peakOf_eq]

theorem separated (h : Separator ts ts₁) (others : PeaksWithin most depth spare ts₁ rest) :
    PeaksWithin most depth spare ts rest := by
  rwa [PeaksWithin, h.peakOf_eq]

/-- A level more leaves a bracket less. -/
theorem deeper (h : PeaksWithin most (depth + 1) 1 ts rest) :
    PeaksWithin most depth 0 ts rest := by
  unfold PeaksWithin at h ⊢
  omega

/-- The brackets of a list open one more than what is between them. -/
theorem brackets (within : depth ≤ most) (opening : t.kind = k) (opens : k.rise = 1)
    (closing : x.kind = k') (closes : k'.rise = -1) (h : PeaksWithin most depth 0 ts (x :: rest)) :
    PeaksWithin most depth 1 (t :: ts) rest := by
  rw [PeaksWithin, peakOf_close closing closes] at h
  rw [PeaksWithin, peakOf_open opening opens]
  omega

/-- The braces of a block open a level and a bracket. -/
theorem braces (within : depth + 1 ≤ most) (opening : t.kind = k) (opens : k.rise = 1)
    (closing : x.kind = k') (closes : k'.rise = -1)
    (h : PeaksWithin most (depth + 1) 1 ts (x :: rest)) :
    PeaksWithin most depth 1 (t :: ts) rest := by
  rw [PeaksWithin, peakOf_close closing closes] at h
  rw [PeaksWithin, peakOf_open opening opens]
  omega

end PeaksWithin

/-- The brackets that a phrase may open before it enters a level of nesting. -/
def Phrase.spare : Phrase → Nat
  | expression | pair | pairs | name => 0
  | list item | items item => item.spare
  | _ => 1

/-- In a phrase no more brackets are open at once than levels are left at its place, and those that
it opens before it enters one. -/
theorem Derives.peaksWithin {most : Nat} {p : Phrase} {c : Context} {ts rest : List Token}
    {us : List Tree} (h : Derives (some most) p c ts rest us) (within : c.depth ≤ most) :
    PeaksWithin most c.depth p.spare ts rest := by
  induction h with
  | noStatement | noClause | noOtherwise | noPair | emptyList => exact .nothing
  | lastStatement _ inner | plain _ inner | tighter _ inner | tightest _ inner | unsigned _ inner
  | untrailed _ inner | lastPair _ inner | someItems _ inner | lastItem _ inner =>
    exact inner within
  | value _ inner => exact (inner within).spared
  | nextStatement _ separator _ first others =>
    exact (first within).next (.separated separator (others within))
  | declaration start ident _ _ params body =>
    exact .plain start rfl (.plain ident rfl ((params within).next (body within)))
  | conditional start _ _ _ _ condition body further last =>
    exact .plain start rfl ((condition within).spared.next
      ((body within).next ((further within).next (last within))))
  | loop start _ _ condition body =>
    exact .plain_or start rfl rfl ((condition within).spared.next (body within))
  | iteration start ident inWord _ _ range body =>
    exact .plain start rfl (.plain ident rfl (.plain inWord rfl
      ((range within).spared.next (body within))))
  | command start _ value => exact .plain_or start rfl rfl (value within).spared
  | leave _ start => exact .plain start rfl .nothing
  | leaveWith _ start _ value => exact .plain start rfl (value within).spared
  | nextClause start _ _ _ condition body others =>
    exact .plain start rfl ((condition within).spared.next ((body within).next (others within)))
  | otherwise start _ body => exact .plain start rfl (body within)
  | block before opening lines deeper _ closing statements =>
    exact .lines before (.braces (deeper most rfl) opening rfl closing rfl
      (.lines lines (statements (deeper most rfl))))
  | parameters opening before _ behind closing names =>
    exact .brackets within opening rfl closing rfl
      (.lines before ((names within).next (.lines behind .nothing)))
  | name ident => exact .plain ident rfl .nothing
  | expression deeper _ assignment => exact .deeper (assignment (deeper most rfl))
  | assign _ _ sign lines _ target value =>
    exact (target within).next (.plain sign rfl (.lines lines (value within)))
  | fold _ sign _ lines _ left right =>
    exact (left within).next (.plain sign rfl (.lines lines (right within)))
  | negation sign lines _ operand => exact .plain sign rfl (.lines lines (operand within))
  | signed sign lines _ operand => exact .plain_or sign rfl rfl (.lines lines (operand within))
  | subscript _ opening before _ behind closing base index =>
    exact (base within).next (.brackets within opening rfl closing rfl
      (.lines before ((index within).next (.lines behind .nothing))))
  | call _ opening before _ behind closing callee arguments =>
    exact (callee within).next (.brackets within opening rfl closing rfl
      (.lines before ((arguments within).next (.lines behind .nothing))))
  | literal literal => exact .plain literal rfl .nothing
  | array opening before _ behind closing inside | hash opening before _ behind closing inside
  | group opening before _ behind closing inside =>
    exact .brackets within opening rfl closing rfl
      (.lines before ((inside within).next (.lines behind .nothing)))
  | subroutine start _ _ params body =>
    exact .plain start rfl ((params within).next (body within))
  | nextPair _ comma lines _ first others | nextItem _ comma lines _ first others =>
    exact (first within).next (.plain comma rfl (.lines lines (others within)))
  | pair _ arrow lines _ key value =>
    exact (key within).next (.plain arrow rfl (.lines lines (value within)))

/-- Under a limit on levels of nesting a program has at most one bracket more open at once. -/
theorem DerivesProgram.peak_le {most : Nat} {ts : List Token} {t : Tree}
    (h : DerivesProgram (some most) ts t) : peakOf ts ≤ most + 1 := by
  cases h with
  | @intro ts ts₁ x e us lines inner ending =>
    have statements := inner.peaksWithin (Nat.zero_le most)
    have nothing : peakOf [] = 0 := rfl
    rw [PeaksWithin, peakOf_plain ending rfl, nothing] at statements
    rw [lines.peakOf_eq]
    simp only [Phrase.spare, Context.top] at statements
    omega

end AresSyntax
