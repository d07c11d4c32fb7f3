import TermJoin.Syntax.Expression

/-!
# Tokens

What the readers of names, values and keywords make of a text that begins with one. A run of characters is
read up to the first that is not of its class, so each statement says where that is.

* `Text.Blank`, `Text.Stops`: a text of blanks, and one that does not go on with a class of characters.
* `TextWritten`, `Value.Written`, `IsName`: how a value and its text are written, and what names a field.
* `takeRun?_append`, `IsWord`, `afterKeyword?_append`: a run, and a keyword.
* **`readValue?_append`**, **`readLeaf?_append`**: a value, and a field with its value.
-/

namespace TermJoin

/-! ## Blanks and runs -/

namespace Text

/-- Nothing but blanks. -/
def Blank (w : List Char) : Prop := ∀ c ∈ w, isBlank c = true

instance (w : List Char) : Decidable (Blank w) := decidable_of_iff (w.all isBlank = true) List.all_eq_true

/-- The text does not begin with a character of the class. -/
def Stops (p : Char → Bool) (s : List Char) : Prop := ∀ c ∈ s.head?, p c = false

instance (p : Char → Bool) (s : List Char) : Decidable (Stops p s) :=
  decidable_of_iff (s.head?.any p = false) (Option.any_eq_false p s.head?)

variable {p : Char → Bool} {w run r s : List Char}

theorem blank_nil : Blank [] := fun _ hc => nomatch hc

theorem stops_nil : Stops p [] := fun _ hc => nomatch hc

theorem stops_cons {c : Char} (h : p c = false) : Stops p (c :: s) := by
  simpa [Stops] using h

theorem Stops.append (h : Stops p run) (hne : run ≠ []) (r : List Char) : Stops p (run ++ r) := by
  cases run with
  | nil => exact absurd rfl hne
  | cons c run => exact stops_cons (h c rfl)

theorem stops_append (hne : run ≠ []) (hrun : ∀ c ∈ run, p c = false) : Stops p (run ++ r) :=
  Stops.append (fun c hc => hrun c (List.mem_of_head? hc)) hne r

theorem Stops.blank_append (hp : ∀ c, isBlank c = true → p c = false) (hw : Blank w) (h : Stops p r) :
    Stops p (w ++ r) := by
  cases w with
  | nil => exact h
  | cons c w => exact stops_cons (hp c (hw c (.head _)))

theorem takeWhile_append_of_stops (s : List Char) (h : Stops p r) : (s ++ r).takeWhile p = s.takeWhile p := by
  induction s with
  | nil =>
    cases r with
    | nil => rfl
    | cons c r => simp_all [Stops]
  | cons c s ih => rw [List.cons_append, List.takeWhile_cons, List.takeWhile_cons, ih]

theorem takeWhile_of_stops (h : Stops p s) : s.takeWhile p = [] := takeWhile_append_of_stops [] h

theorem dropWhile_of_stops (h : Stops p s) : s.dropWhile p = s := by
  cases s with
  | nil => rfl
  | cons c s => simp_all [Stops]

theorem takeWhile_append (hrun : ∀ c ∈ run, p c = true) (h : Stops p r) : (run ++ r).takeWhile p = run := by
  rw [List.takeWhile_append_of_pos hrun, takeWhile_of_stops h, List.append_nil]

theorem dropWhile_append (hrun : ∀ c ∈ run, p c = true) (h : Stops p r) : (run ++ r).dropWhile p = r := by
  rw [List.dropWhile_append_of_pos hrun, dropWhile_of_stops h]

theorem skipBlanks_of_stops (h : Stops isBlank s) : skipBlanks s = s := dropWhile_of_stops h

theorem skipBlanks_append (hw : Blank w) (s : List Char) : skipBlanks (w ++ s) = skipBlanks s :=
  List.dropWhile_append_of_pos hw

@[simp] theorem skipBlanks_nil : skipBlanks [] = [] := rfl

theorem skipBlanks_blank (hw : Blank w) : skipBlanks w = [] := by
  simpa using skipBlanks_append hw []

end Text

namespace Syntax

open Text (Blank Stops)

/-! ## Classes of characters -/

theorem ne_of_class {p : Char → Bool} {c a : Char} (h : p c = true) (ha : p a = false) : c ≠ a := by
  rintro rfl
  rw [ha] at h
  cases h

theorem isBlank_of_isPlain {c : Char} (h : isPlain c = true) : Text.isBlank c = false := by
  simp only [isPlain, Bool.and_eq_true, Bool.not_eq_true'] at h
  exact h.1

theorem isBlank_of_isWordChar {c : Char} (h : isWordChar c = true) : Text.isBlank c = false := by
  unfold isWordChar Char.isAlphanum Char.isAlpha Char.isUpper Char.isLower Char.isDigit at h
  simp only [Bool.or_eq_true, Bool.and_eq_true, decide_eq_true_eq, beq_iff_eq, UInt32.le_iff_toNat_le,
    ge_iff_le] at h
  change (((65 ≤ c.toNat ∧ c.toNat ≤ 90) ∨ 97 ≤ c.toNat ∧ c.toNat ≤ 122) ∨
    48 ≤ c.toNat ∧ c.toNat ≤ 57) ∨ c = '_' at h
  rcases h with h | rfl
  · simp only [Text.isBlank, Text.blankRanges, List.any_cons, List.any_nil, Bool.or_false,
      Bool.or_eq_false_iff, Bool.and_eq_false_iff, decide_eq_false_iff_not]
    omega
  · decide

theorem isWordChar_of_isBlank {c : Char} (h : Text.isBlank c = true) : isWordChar c = false := by
  cases hword : isWordChar c with
  | false => rfl
  | true =>
    rw [isBlank_of_isWordChar hword] at h
    cases h

theorem isPlain_of_isBlank {c : Char} (h : Text.isBlank c = true) : isPlain c = false := by
  simp [isPlain, h]

/-! ## Runs and keywords -/

variable {p : Char → Bool} {w run r word : List Char}

theorem takeRun?_append (hne : run ≠ []) (hrun : ∀ c ∈ run, p c = true) (hr : Stops p r) :
    takeRun? p (run ++ r) = some (run, r) := by
  have htake := Text.takeWhile_append hrun hr
  rw [takeRun?, htake, if_neg (by simpa using hne), Text.dropWhile_append hrun hr]

/-- A keyword: a whole word. -/
structure IsWord (word : List Char) : Prop where
  nonempty : word ≠ []
  chars : ∀ c ∈ word, isWordChar c = true

theorem IsWord.stops_isBlank (h : IsWord word) (r : List Char) : Stops Text.isBlank (word ++ r) :=
  Text.stops_append h.nonempty fun c hc => isBlank_of_isWordChar (h.chars c hc)

theorem Connective.isWord (c : Connective) : IsWord c.word := by
  refine ⟨c.word_ne_nil, List.all_eq_true.1 ?_⟩
  cases c <;> rfl

theorem isWord_notWord : IsWord notWord := ⟨by decide, List.all_eq_true.1 rfl⟩

theorem afterKeyword?_append (hw : Blank w) (hword : IsWord word) (hr : Stops isWordChar r) :
    afterKeyword? word (w ++ (word ++ r)) = some (Text.skipBlanks r) := by
  unfold afterKeyword?
  rw [Text.skipBlanks_append hw, Text.skipBlanks_of_stops (hword.stops_isBlank r)]
  simp only [Text.takeWhile_append hword.chars hr, Text.dropWhile_append hword.chars hr, if_true]

theorem afterKeyword?_eq_none {s : List Char} (h : (Text.skipBlanks s).takeWhile isWordChar ≠ word) :
    afterKeyword? word s = none := if_neg h

theorem afterKeyword?_append_of_ne {word' : List Char} (hword : IsWord word) (hr : Stops isWordChar r)
    (hne : word ≠ word') : afterKeyword? word' (word ++ r) = none := by
  apply afterKeyword?_eq_none
  rw [Text.skipBlanks_of_stops (hword.stops_isBlank r), Text.takeWhile_append hword.chars hr]
  exact hne

theorem afterKeyword?_of_stops {s : List Char} (hword : IsWord word) (hblank : Stops Text.isBlank s)
    (h : Stops isWordChar s) : afterKeyword? word s = none := by
  apply afterKeyword?_eq_none
  rw [Text.skipBlanks_of_stops hblank, Text.takeWhile_of_stops h]
  exact hword.nonempty.symm

/-! ## Values -/

/-- A text as it is written: as it stands, or between double quotes. -/
inductive TextWritten (text : List Char) : List Char → Prop
  | bare (hne : text ≠ []) (hplain : ∀ c ∈ text, isPlain c = true) : TextWritten text text
  | quoted : TextWritten text (Text.enquote '"' text)

/-- A value as it is written: a text, or one with a star right behind it. -/
inductive Value.Written : Value → List Char → Prop
  | exact {text : String} {t : List Char} (h : TextWritten text.toList t) : Value.Written (.exact text) t
  | startsWith {stem : String} {t : List Char} (h : TextWritten stem.toList t) :
    Value.Written (.startsWith stem) (t ++ ['*'])

/-- What names a field in an expression. A name that begins with the word `NOT` would be read as a
negation. -/
structure IsName (name : List Char) : Prop where
  nonempty : name ≠ []
  plain : ∀ c ∈ name, isPlain c = true
  word : name.takeWhile isWordChar ≠ notWord

instance (name : List Char) : Decidable (IsName name) :=
  decidable_of_iff (name ≠ [] ∧ name.all isPlain = true ∧ name.takeWhile isWordChar ≠ notWord)
    ⟨fun h => ⟨h.1, List.all_eq_true.1 h.2.1, h.2.2⟩,
      fun h => ⟨h.nonempty, List.all_eq_true.2 h.plain, h.word⟩⟩

theorem IsName.stops_isBlank {name : List Char} (h : IsName name) (r : List Char) :
    Stops Text.isBlank (name ++ r) :=
  Text.stops_append h.nonempty fun c hc => isBlank_of_isPlain (h.plain c hc)

/-- What can stand right behind a value: a blank, a closing parenthesis, or nothing. -/
def Ends (r : List Char) : Prop := ∀ c ∈ r.head?, Text.isBlank c = true ∨ c = ')'

theorem ends_cons {c : Char} (h : Text.isBlank c = true ∨ c = ')') : Ends (c :: r) := by
  simpa [Ends] using h

theorem Ends.blank_append (hw : Blank w) (hr : Ends r) : Ends (w ++ r) := by
  cases w with
  | nil => exact hr
  | cons c w => exact ends_cons (.inl (hw c (.head _)))

theorem Ends.stops_isPlain (h : Ends r) : Stops isPlain r := by
  intro c hc
  rcases h c hc with hblank | rfl
  · exact isPlain_of_isBlank hblank
  · decide

theorem readText?_append {text t : List Char} (ht : TextWritten text t) (hr : Stops isPlain r) :
    readText? (t ++ r) = some (text, r) := by
  cases ht with
  | bare hne hplain =>
    have hrun := takeRun?_append hne hplain hr
    unfold readText?
    split
    · rename_i s heq
      cases text with
      | nil => exact absurd rfl hne
      | cons c text =>
        exact absurd (List.cons.inj heq).1 (ne_of_class (hplain c (.head _)) (by decide))
    · exact hrun
  | quoted =>
    simp only [Text.enquote, List.cons_append, List.append_assoc, List.nil_append, readText?]
    exact Text.readQuoted_escape '"' (by decide) text r

theorem TextWritten.stops_isBlank {text t : List Char} (ht : TextWritten text t) :
    Stops Text.isBlank (t ++ r) := by
  cases ht with
  | bare hne hplain =>
    exact Text.stops_append hne fun c hc => isBlank_of_isPlain (hplain c hc)
  | quoted => exact Text.stops_cons (by decide)

/-- **A value is read, with the blanks behind it.** -/
theorem readValue?_append {value : Value} {t : List Char} (hw : Blank w) (ht : value.Written t)
    (hr : Ends r) : readValue? (w ++ (t ++ r)) = some (value, Text.skipBlanks r) := by
  rw [readValue?, Text.skipBlanks_append hw]
  cases ht with
  | exact h =>
    rw [Text.skipBlanks_of_stops h.stops_isBlank, readText?_append h hr.stops_isPlain]
    -- a star would be neither of what can stand behind the value
    cases r with
    | nil => simp
    | cons c r =>
      have hstar : c ≠ '*' := by
        rintro rfl
        exact absurd (hr '*' rfl) (by decide)
      simp [hstar]
  | startsWith h =>
    rw [List.append_assoc, Text.skipBlanks_of_stops h.stops_isBlank, List.singleton_append,
      readText?_append h (Text.stops_cons (by decide))]
    simp

theorem Value.Written.exists_getLast? {value : Value} {t : List Char} (h : value.Written t) :
    ∃ c, t.getLast? = some c ∧ c ≠ ')' := by
  cases h with
  | exact h =>
    cases h with
    | bare hne hplain =>
      exact ⟨_, List.getLast?_eq_some_getLast hne, ne_of_class (hplain _ (List.getLast_mem hne)) (by decide)⟩
    | quoted => exact ⟨'"', by simp [Text.enquote, List.getLast?_cons], by decide⟩
  | startsWith h => exact ⟨'*', by simp, by decide⟩

theorem readLeaf?_blank_append (hw : Blank w) (s : List Char) : readLeaf? (w ++ s) = readLeaf? s := by
  rw [readLeaf?, readLeaf?, Text.skipBlanks_append hw]

theorem readLeaf?_append {name : List Char} {value : Value} {t w' : List Char} (hname : IsName name)
    (hw : Blank w) (hw' : Blank w') (ht : value.Written t) (hr : Ends r) :
    readLeaf? (name ++ (w ++ ':' :: (w' ++ (t ++ r)))) =
      some (.leaf (String.ofList name) value, Text.skipBlanks r) := by
  have hfirst := hname.stops_isBlank (w ++ ':' :: (w' ++ (t ++ r)))
  have hcolon : Stops isPlain (w ++ ':' :: (w' ++ (t ++ r))) :=
    Text.Stops.blank_append (fun _ => isPlain_of_isBlank) hw (Text.stops_cons (by decide))
  have hfield : readField? (name ++ (w ++ ':' :: (w' ++ (t ++ r)))) =
      some (.leaf (String.ofList name) value, Text.skipBlanks r) := by
    rw [readField?, Text.skipBlanks_of_stops hfirst, takeRun?_append hname.nonempty hname.plain hcolon]
    dsimp only
    rw [Text.skipBlanks_append hw, Text.skipBlanks_of_stops (Text.stops_cons (by decide))]
    change Option.map _ (readValue? _) = _
    rw [readValue?_append hw' ht hr]
    rfl
  rw [readLeaf?, Text.skipBlanks_of_stops hfirst]
  split
  · rename_i s heq
    cases name with
    | nil => exact absurd rfl hname.nonempty
    | cons c name =>
      exact absurd (List.cons.inj heq).1 (ne_of_class (hname.plain c (.head _)) (by decide))
  · exact hfield

end Syntax

end TermJoin
