import TermJoin.Text

/-!
# Expressions

The standard syntax: `field:value`, `field:"a value"`, `field:start*`, `*:*`, and these under `NOT`,
`AND`, `OR` and parentheses. `NOT` binds most tightly, then `AND`. Blanks may stand around every name,
value, keyword and parenthesis. Of the ways to go on that a text offers at one place the first that
fits is taken, and a chain of operands ends before the first one that does not fit.

* `isPlain`, `writeValue`: the characters of names and of values without quotes, and a value as it reads back.
* `Expression`: what a text says.
* `readChain`: an expression at the start of a text, with what follows it. What follows is always
  shorter, which is why reading ends.
* `Expression.read?`: the expression that makes up a whole text.
-/

namespace TermJoin.Syntax

/-! ## Names and values -/

/-- The characters that have a meaning of their own. -/
def reserved : List Char := ['"', '(', ')', ':', '*', '\x7b', '\x7d']

/-- Whether a character can stand in a name, or in a value without quotes. -/
def isPlain (c : Char) : Bool := !Text.isBlank c && !reserved.contains c

/-- Whether a value is written as it is. A backslash would be read as it is too, and is quoted all the
same. -/
def isBare (value : List Char) : Bool :=
  !value.isEmpty && value.all fun c => isPlain c && c != '\\'

/-- The value as it reads back. -/
def writeValue (value : String) : String :=
  if isBare value.toList then value else String.ofList (Text.enquote '"' value.toList)

/-! ## What is written -/

/-- What a field is asked for: one value, or all values that start so. -/
inductive Value
  | exact (text : String)
  | startsWith (stem : String)
deriving DecidableEq, Inhabited

/-- The connectives between two operands. -/
inductive Connective
  | and
  | or
deriving DecidableEq

/-- An expression as it is written. -/
inductive Expression
  | all
  | leaf (field : String) (value : Value)
  | not (operand : Expression)
  | link (connective : Connective) (left right : Expression)
deriving DecidableEq, Inhabited

/-- What is left of a text after something was read from it. -/
abbrev Rest (s : List Char) := { r : List Char // r.length < s.length }

/-! ## Words -/

/-- The characters of keywords. -/
def isWordChar (c : Char) : Bool := c.isAlphanum || c == '_'

/-- What follows a keyword with the blanks around it. The keyword is the whole word that stands
there. -/
def afterKeyword? (word s : List Char) : Option (List Char) :=
  let s := Text.skipBlanks s
  if s.takeWhile isWordChar = word then some (Text.skipBlanks (s.dropWhile isWordChar)) else none

/-- A run of at least one character of a class, with what follows it. -/
def takeRun? (p : Char → Bool) (s : List Char) : Option (List Char × List Char) :=
  if (s.takeWhile p).isEmpty then none else some (s.takeWhile p, s.dropWhile p)

/-- A value without its star, with what follows it. -/
def readText? : List Char → Option (List Char × List Char)
  | '"' :: s => Text.readQuoted '"' s
  | s => takeRun? isPlain s

/-- A value with the blanks around it, and what follows. A star right behind the text asks for all values
that start so. -/
def readValue? (s : List Char) : Option (Value × List Char) :=
  match readText? (Text.skipBlanks s) with
  | none => none
  | some (text, '*' :: r) => some (.startsWith (String.ofList text), Text.skipBlanks r)
  | some (text, r) => some (.exact (String.ofList text), Text.skipBlanks r)

/-- A field and its value with the blanks around it, and what follows. -/
def readField? (s : List Char) : Option (Expression × List Char) :=
  match takeRun? isPlain (Text.skipBlanks s) with
  | none => none
  | some (name, r) =>
    match Text.skipBlanks r with
    | ':' :: r => (readValue? r).map fun (value, r) => (.leaf (String.ofList name) value, r)
    | _ => none

/-- An expression without connectives and parentheses, with the blanks around it, and what follows. -/
def readLeaf? (s : List Char) : Option (Expression × List Char) :=
  match Text.skipBlanks s with
  | '*' :: ':' :: '*' :: r => some (.all, Text.skipBlanks r)
  | s => readField? s

/-! ## What is left gets shorter -/

theorem length_of_takeRun? {p : Char → Bool} {s run r : List Char}
    (h : takeRun? p s = some (run, r)) : run.length + r.length = s.length ∧ run ≠ [] := by
  unfold takeRun? at h
  split at h
  · cases h
  · rename_i hne
    cases h
    refine ⟨?_, by simpa using hne⟩
    rw [← List.length_append, List.takeWhile_append_dropWhile]

theorem length_of_afterKeyword? {word s r : List Char} (hword : word ≠ [])
    (h : afterKeyword? word s = some r) : r.length < s.length := by
  unfold afterKeyword? at h
  simp only at h
  split at h
  · rename_i htake
    cases h
    have h1 := Text.length_skipBlanks_le s
    have h2 := Text.length_skipBlanks_le ((Text.skipBlanks s).dropWhile isWordChar)
    have h3 := congrArg List.length
      (List.takeWhile_append_dropWhile (p := isWordChar) (l := Text.skipBlanks s))
    rw [List.length_append, htake] at h3
    have := List.length_pos_iff.2 hword
    omega
  · cases h

theorem length_of_readText? {s text r : List Char} (h : readText? s = some (text, r)) :
    r.length < s.length := by
  unfold readText? at h
  split at h
  · have := Text.length_of_readQuoted h
    simp only [List.length_cons]
    omega
  · have := length_of_takeRun? h
    have := List.length_pos_iff.2 this.2
    omega

theorem length_of_readValue? {s r : List Char} {value : Value} (h : readValue? s = some (value, r)) :
    r.length < s.length := by
  have hs := Text.length_skipBlanks_le s
  unfold readValue? at h
  split at h
  · cases h
  · rename_i text r' htext
    cases h
    have h1 := length_of_readText? htext
    have h2 := Text.length_skipBlanks_le r'
    simp only [List.length_cons] at h1
    omega
  · rename_i text r' _ htext
    cases h
    have h1 := length_of_readText? htext
    have h2 := Text.length_skipBlanks_le r'
    omega

theorem length_of_readField? {s r : List Char} {e : Expression}
    (h : readField? s = some (e, r)) : r.length < s.length := by
  have hs := Text.length_skipBlanks_le s
  unfold readField? at h
  split at h
  · cases h
  · rename_i name r' hname
    have h1 := length_of_takeRun? hname
    have h2 := Text.length_skipBlanks_le r'
    split at h
    · rename_i r'' hr'
      obtain ⟨⟨v, r₃⟩, hv, heq⟩ := Option.map_eq_some_iff.1 h
      cases heq
      have h3 := length_of_readValue? hv
      rw [hr', List.length_cons] at h2
      omega
    · cases h

theorem length_of_readLeaf? {s r : List Char} {e : Expression} (h : readLeaf? s = some (e, r)) :
    r.length < s.length := by
  have hs := Text.length_skipBlanks_le s
  unfold readLeaf? at h
  split at h
  · rename_i r' hr'
    cases h
    have h1 := Text.length_skipBlanks_le r'
    rw [hr'] at hs
    simp only [List.length_cons] at hs
    omega
  · have h1 := length_of_readField? h
    omega

/-! ## Expressions -/

/-- The keyword of a connective. -/
def Connective.word : Connective → List Char
  | and => ['A', 'N', 'D']
  | or => ['O', 'R']

/-- The keyword of the negation. -/
def notWord : List Char := ['N', 'O', 'T']

theorem Connective.word_ne_nil (connective : Connective) : connective.word ≠ [] := by
  cases connective <;> simp [word]

/-- How loosely the operands of a connective are bound. -/
def Connective.looseness : Connective → Nat
  | and => 2
  | or => 4

mutual

/-- A chain of operands with a connective between each two, linked from the left. -/
def readChain (connective : Connective) (s : List Char) : Option (Expression × Rest s) :=
  match readOperand connective s with
  | none => none
  | some (e, r) =>
    let (e, r') := readMore connective e r.1
    some (e, ⟨r'.1, Nat.lt_of_le_of_lt r'.2 r.2⟩)
termination_by (s.length, connective.looseness + 1)
decreasing_by
  · exact Prod.Lex.right _ (by omega)
  · exact Prod.Lex.left _ _ r.2

/-- The chain that goes on behind its first operands. -/
def readMore (connective : Connective) (left : Expression) (s : List Char) :
    Expression × { r : List Char // r.length ≤ s.length } :=
  match h : afterKeyword? connective.word s with
  | none => (left, ⟨s, Nat.le_refl _⟩)
  | some r =>
    match readOperand connective r with
    | none => (left, ⟨s, Nat.le_refl _⟩)
    | some (right, r') =>
      have hr := length_of_afterKeyword? connective.word_ne_nil h
      let (e, r'') := readMore connective (.link connective left right) r'.1
      (e, ⟨r''.1, by have := r''.2; have := r'.2; omega⟩)
termination_by (s.length, 0)
decreasing_by
  · exact Prod.Lex.left _ _ (length_of_afterKeyword? connective.word_ne_nil h)
  · exact Prod.Lex.left _ _ (Nat.lt_trans r'.2 hr)

/-- An operand of a connective: of `OR` a chain of `AND`, of `AND` a negation. -/
def readOperand (connective : Connective) (s : List Char) : Option (Expression × Rest s) :=
  match connective with
  | .or => readChain .and s
  | .and => readNegation s
termination_by (s.length, connective.looseness)
decreasing_by
  · exact Prod.Lex.right _ (by decide)
  · exact Prod.Lex.right _ (by decide)

/-- A primary expression behind any number of negations. -/
def readNegation (s : List Char) : Option (Expression × Rest s) :=
  match h : afterKeyword? notWord s with
  | none => readPrimary s
  | some r =>
    match readNegation r with
    | none => none
    | some (e, r') =>
      some (.not e, ⟨r'.1, Nat.lt_trans r'.2 (length_of_afterKeyword? (by simp [notWord]) h)⟩)
termination_by (s.length, 1)
decreasing_by
  · exact Prod.Lex.right _ (by omega)
  · exact Prod.Lex.left _ _ (length_of_afterKeyword? (by simp [notWord]) h)

/-- An expression in parentheses, or one that needs none. -/
def readPrimary (s : List Char) : Option (Expression × Rest s) :=
  match h : Text.skipBlanks s with
  | '(' :: r =>
    have hr : r.length < s.length := by
      have := Text.length_skipBlanks_le s
      rw [h, List.length_cons] at this
      omega
    match readChain .or r with
    | none => none
    | some (e, r') =>
      match h' : Text.skipBlanks r'.1 with
      | ')' :: r'' =>
        some (e, ⟨Text.skipBlanks r'', by
          have h1 := Text.length_skipBlanks_le r''
          have h2 := Text.length_skipBlanks_le r'.1
          rw [h', List.length_cons] at h2
          have := r'.2
          omega⟩)
      | _ => none
  | _ =>
    match h' : readLeaf? s with
    | none => none
    | some (e, r) => some (e, ⟨r, length_of_readLeaf? h'⟩)
termination_by (s.length, 0)
decreasing_by exact Prod.Lex.left _ _ hr

end

/-- The expression that makes up a whole text. -/
def Expression.read? (s : List Char) : Option Expression :=
  match readChain .or s with
  | some (e, ⟨[], _⟩) => some e
  | _ => none

end TermJoin.Syntax
