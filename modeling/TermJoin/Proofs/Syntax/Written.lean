import TermJoin.Proofs.Syntax.Tokens

/-!
# Expressions as they are written

An expression can be written in many ways: with any blanks between its tokens, with more parentheses than it
needs, and with each of its values bare or in quotes.

* `Level`, `Written`: how tightly the parts of an expression hold together, and how an expression that holds
  together so is written. `Expression.IsWritten`: all texts of an expression.
* **`Expression.exists_isWritten_iff`**: which expressions have a text.
* `Written.stops_isBlank`, `Written.takeWhile_ne_notWord`: how a text that was written begins.
* `Follows`, `follows_of_gap`, `stops_of_gap`: what can stand behind it, and around a keyword.
-/

namespace TermJoin.Syntax

open Text (Blank Stops)

/-! ## Writing -/

/-- How tightly an expression holds together: a primary one more than a negation, and that more than a chain of
operands. -/
inductive Level
  | primary
  | negation
  | chain (connective : Connective)

/-- The level of an operand: of `OR` a chain of `AND`, of `AND` a negation. -/
def Connective.operandLevel : Connective → Level
  | and => .negation
  | or => .chain .and

/-- The expression as it is written at a level, without blanks around it. Beside a keyword there are blanks or a
parenthesis. -/
inductive Written : Level → Expression → List Char → Prop
  | all : Written .primary .all ['*', ':', '*']
  | leaf {field : String} {value : Value} {w w' t : List Char} (hname : IsName field.toList) (hw : Blank w)
      (hw' : Blank w') (hvalue : value.Written t) :
      Written .primary (.leaf field value) (field.toList ++ (w ++ ':' :: (w' ++ t)))
  | group {e : Expression} {w w' t : List Char} (hw : Blank w) (hw' : Blank w')
      (h : Written (.chain .or) e t) : Written .primary e ('(' :: (w ++ (t ++ (w' ++ [')']))))
  | not {e : Expression} {w t : List Char} (hw : Blank w) (h : Written .negation e t)
      (hgap : w ≠ [] ∨ t.head? = some '(') : Written .negation (.not e) (notWord ++ (w ++ t))
  | link {c : Connective} {left right : Expression} {w w' t t' : List Char} (hw : Blank w) (hw' : Blank w')
      (hleft : Written (.chain c) left t) (hright : Written c.operandLevel right t')
      (hgap : w ≠ [] ∨ t.getLast? = some ')') (hgap' : w' ≠ [] ∨ t'.head? = some '(') :
      Written (.chain c) (.link c left right) (t ++ (w ++ (c.word ++ (w' ++ t'))))
  | ofPrimary {e : Expression} {t : List Char} (h : Written .primary e t) : Written .negation e t
  | ofOperand {c : Connective} {e : Expression} {t : List Char} (h : Written c.operandLevel e t) :
      Written (.chain c) e t

/-- The text is one of the expression, with any blanks around it. -/
def Expression.IsWritten (e : Expression) (s : List Char) : Prop :=
  ∃ w t w', s = w ++ (t ++ w') ∧ Blank w ∧ Blank w' ∧ Written (.chain .or) e t

/-! ## What can be written -/

theorem Written.exists_primary {level : Level} {e : Expression} {t : List Char} (h : Written level e t) :
    ∃ t', Written .primary e t' := by
  have hgroup : ∀ {t}, Written (.chain .or) e t → ∃ t', Written .primary e t' := fun h =>
    ⟨_, .group Text.blank_nil Text.blank_nil h⟩
  cases level with
  | primary => exact ⟨t, h⟩
  | negation => exact hgroup (.ofOperand (c := .or) (.ofOperand (c := .and) h))
  | chain c =>
    cases c with
    | and => exact hgroup (.ofOperand (c := .or) h)
    | or => exact hgroup h

theorem Written.atLevel {e : Expression} {t : List Char} (h : Written .primary e t) :
    ∀ level, Written level e t
  | .primary => h
  | .negation => .ofPrimary h
  | .chain .and => .ofOperand (c := .and) (.ofPrimary h)
  | .chain .or => .ofOperand (c := .or) (.ofOperand (c := .and) (.ofPrimary h))

/-- The fields of the expression have names that can be written. -/
def Expression.Named : Expression → Prop
  | all => True
  | leaf field _ => IsName field.toList
  | not operand => operand.Named
  | link _ left right => left.Named ∧ right.Named

theorem Written.named {level : Level} {e : Expression} {t : List Char} (h : Written level e t) : e.Named := by
  induction h with
  | all => trivial
  | leaf hname => exact hname
  | group _ _ _ ih => exact ih
  | not _ _ _ ih => exact ih
  | link _ _ _ _ _ _ ihleft ihright => exact ⟨ihleft, ihright⟩
  | ofPrimary _ ih => exact ih
  | ofOperand _ ih => exact ih

theorem Value.exists_written (value : Value) : ∃ t, value.Written t := by
  cases value with
  | exact text => exact ⟨_, .exact .quoted⟩
  | startsWith stem => exact ⟨_, .startsWith .quoted⟩

theorem Expression.exists_primary {e : Expression} (h : e.Named) : ∃ t, Written .primary e t := by
  have hspace : Blank [' '] := by decide
  induction e with
  | all => exact ⟨_, .all⟩
  | leaf field value =>
    obtain ⟨t, hvalue⟩ := value.exists_written
    exact ⟨_, .leaf h Text.blank_nil Text.blank_nil hvalue⟩
  | not operand ih =>
    obtain ⟨t, ht⟩ := ih h
    have hnot : Written .negation (.not operand) _ := .not hspace (.ofPrimary ht) (.inl (by decide))
    exact hnot.exists_primary
  | link c left right ihleft ihright =>
    obtain ⟨t, ht⟩ := ihleft h.1
    obtain ⟨t', ht'⟩ := ihright h.2
    have hlink : Written (.chain c) (.link c left right) _ :=
      .link hspace hspace (ht.atLevel _) (ht'.atLevel _) (.inl (by decide)) (.inl (by decide))
    exact hlink.exists_primary

/-- **An expression has a text if its fields have names**, and only then. -/
theorem Expression.exists_isWritten_iff {e : Expression} : (∃ s, e.IsWritten s) ↔ e.Named := by
  constructor
  · rintro ⟨s, w, t, w', -, -, -, h⟩
    exact h.named
  · intro h
    obtain ⟨t, ht⟩ := exists_primary h
    exact ⟨_, [], t, [], rfl, Text.blank_nil, Text.blank_nil, ht.atLevel _⟩

/-! ## How a text begins -/

namespace Written

variable {level : Level} {e : Expression} {t r : List Char}

theorem stops_isBlank (h : Written level e t) : ∀ r, Stops Text.isBlank (t ++ r) := by
  induction h with
  | all => exact fun r => Text.stops_cons (by decide)
  | leaf hname hw hw' hvalue =>
    intro r
    rw [List.append_assoc]
    exact hname.stops_isBlank _
  | group hw hw' h ih => exact fun r => Text.stops_cons (by decide)
  | not hw h hgap ih => exact fun r => Text.stops_cons (by decide)
  | link hw hw' hleft hright hgap hgap' ihleft ihright =>
    intro r
    rw [List.append_assoc]
    exact ihleft _
  | ofPrimary h ih => exact ih
  | ofOperand h ih => exact ih

theorem takeWhile_ne_notWord (h : Written .primary e t) (r : List Char) :
    (t ++ r).takeWhile isWordChar ≠ notWord := by
  cases h with
  | all =>
    rw [List.cons_append, Text.takeWhile_of_stops (Text.stops_cons (by decide))]
    decide
  | leaf hname hw hw' hvalue =>
    rw [List.append_assoc, List.append_assoc, Text.takeWhile_append_of_stops]
    · exact hname.word
    · exact Text.Stops.blank_append (fun _ => isWordChar_of_isBlank) hw (Text.stops_cons (by decide))
  | group hw hw' h =>
    rw [List.cons_append, Text.takeWhile_of_stops (Text.stops_cons (by decide))]
    decide

theorem ne_nil (h : Written level e t) : t ≠ [] := by
  induction h with
  | leaf hname hw hw' hvalue => simp [hname.nonempty]
  | ofPrimary h ih => exact ih
  | ofOperand h ih => exact ih
  | _ => simp_all [notWord]

end Written

/-! ## What stands beside a text -/

/-- What can stand behind a text that was written: anything behind a parenthesis, and else what can stand behind
a value. -/
def Follows (t r : List Char) : Prop := t.getLast? = some ')' ∨ Ends r

theorem Follows.of_suffix {s t r : List Char} (h : Follows s r) (hsuffix : t <:+ s) (hne : t ≠ []) :
    Follows t r := by
  obtain ⟨start, rfl⟩ := hsuffix
  have hlast : (start ++ t).getLast? = t.getLast? := by
    rw [List.getLast?_append, List.getLast?_eq_some_getLast hne, Option.some_or]
  rwa [Follows, hlast] at h

theorem follows_of_gap {w t : List Char} (hw : Blank w) (hgap : w ≠ [] ∨ t.getLast? = some ')')
    (r : List Char) : Follows t (w ++ r) := by
  rcases hgap with hne | hlast
  · cases w with
    | nil => exact absurd rfl hne
    | cons c w => exact .inr (ends_cons (.inl (hw c (.head _))))
  · exact .inl hlast

theorem stops_of_gap {w t : List Char} (hw : Blank w) (hgap : w ≠ [] ∨ t.head? = some '(')
    (r : List Char) : Stops isWordChar (w ++ (t ++ r)) := by
  cases w with
  | cons c w => exact Text.stops_cons (isWordChar_of_isBlank (hw c (.head _)))
  | nil =>
    cases t with
    | nil => simp at hgap
    | cons c t =>
      have hparen : c = '(' := by simpa using hgap
      rw [hparen]
      exact Text.stops_cons (by decide)

end TermJoin.Syntax
