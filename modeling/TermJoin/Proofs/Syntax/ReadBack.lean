import TermJoin.Proofs.Syntax.Written

/-!
# Expressions read back

From whatever text it was written as, an expression is read back. A chain of operands is read as long as it goes
on, so what a reader makes of a text depends on what stands behind it.

* `Level.read`, `Connective.goOn`: the readers of a level, and of what goes on behind an operand. Their equations
  follow the grammar.
* `Reads`: a text is read at its level, and what stands behind it is left. One lemma for each way of writing.
* **`Written.reads`**: what is written at a level is read there.
* **`Expression.read?_of_isWritten`**: every text of an expression is read as that expression.
-/

namespace TermJoin.Syntax

open Text (Blank Stops)

/-! ## Reading -/

/-- What was read and what is left, without the bound. -/
def unbound {s : List Char} (result : Option (Expression × Rest s)) : Option (Expression × List Char) :=
  result.map fun p => (p.1, p.2.1)

/-- What is read at a level from the start of a text, with what is left. -/
def Level.read : Level → List Char → Option (Expression × List Char)
  | primary, s => unbound (readPrimary s)
  | negation, s => unbound (readNegation s)
  | chain c, s => unbound (readChain c s)

/-- How a chain goes on, with what is left. -/
def Connective.goOn (c : Connective) (left : Expression) (s : List Char) : Expression × List Char :=
  ((readMore c left s).1, (readMore c left s).2.1)

namespace Level

variable {s r r' : List Char} {e : Expression}

theorem read_operand (c : Connective) (s : List Char) :
    c.operandLevel.read s = unbound (readOperand c s) := by
  cases c with
  | and =>
    rw [readOperand]
    rfl
  | or =>
    rw [readOperand]
    rfl

theorem read_chain (c : Connective) (s : List Char) :
    (chain c).read s = (c.operandLevel.read s).map fun p => c.goOn p.1 p.2 := by
  rw [read_operand, read, readChain]
  cases readOperand c s <;> rfl

theorem read_negation_of_none (h : afterKeyword? notWord s = none) : negation.read s = primary.read s := by
  change unbound (readNegation s) = unbound (readPrimary s)
  rw [readNegation.eq_def]
  split
  · rfl
  · rename_i hsome
    rw [h] at hsome
    cases hsome

theorem read_negation_of_some (h : afterKeyword? notWord s = some r) :
    negation.read s = (negation.read r).map fun p => (.not p.1, p.2) := by
  change unbound (readNegation s) = (unbound (readNegation r)).map _
  rw [readNegation.eq_def]
  split
  · rename_i hnone
    rw [h] at hnone
    cases hnone
  · rename_i hsome
    rw [h] at hsome
    cases hsome
    cases readNegation r <;> rfl

theorem read_primary_of_leaf (h : Stops (· == '(') (Text.skipBlanks s)) : primary.read s = readLeaf? s := by
  change unbound (readPrimary s) = readLeaf? s
  rw [readPrimary.eq_def]
  split
  · rename_i r heq
    rw [heq] at h
    exact absurd (h '(' rfl) (by decide)
  · split
    · rename_i hnone
      exact hnone.symm
    · rename_i hsome
      exact hsome.symm

theorem read_primary_of_group (h : Text.skipBlanks s = '(' :: r)
    (hread : (chain .or).read r = some (e, ')' :: r')) : primary.read s = some (e, Text.skipBlanks r') := by
  change unbound (readChain .or r) = some (e, ')' :: r') at hread
  change unbound (readPrimary s) = some (e, Text.skipBlanks r')
  rw [readPrimary.eq_def]
  split
  · rename_i r₁ heq
    rw [h] at heq
    cases heq
    dsimp only
    split
    · rename_i hnone
      rw [hnone] at hread
      cases hread
    · rename_i e₁ r₂ hsome
      rw [hsome] at hread
      obtain ⟨rfl, hr₂⟩ : e₁ = e ∧ r₂.1 = ')' :: r' := by simpa [unbound] using hread
      have hparen : Text.skipBlanks r₂.1 = ')' :: r' := by
        rw [hr₂, Text.skipBlanks_of_stops (Text.stops_cons (by decide))]
      split
      · rename_i r₃ heq
        rw [hparen] at heq
        cases heq
        rfl
      · rename_i hne
        exact absurd hparen (hne r')
  · rename_i hne
    exact absurd h (hne r)

end Level

namespace Connective

variable {c : Connective} {left right : Expression} {s r r' : List Char}

theorem goOn_of_none (h : afterKeyword? c.word s = none) : c.goOn left s = (left, s) := by
  rw [goOn, readMore.eq_def]
  split
  · rfl
  · rename_i hsome
    rw [h] at hsome
    cases hsome

theorem goOn_of_operand (h : afterKeyword? c.word s = some r)
    (hread : c.operandLevel.read r = some (right, r')) :
    c.goOn left s = c.goOn (.link c left right) r' := by
  rw [Level.read_operand] at hread
  rw [goOn, readMore.eq_def]
  split
  · rename_i hnone
    rw [h] at hnone
    cases hnone
  · rename_i hsome
    rw [h] at hsome
    cases hsome
    split
    · rename_i hnone
      rw [hnone] at hread
      cases hread
    · rename_i right' r'' hsome'
      rw [hsome'] at hread
      cases hread
      rfl

end Connective

/-! ## Levels -/

/-- How an expression that was read at a level goes on. -/
def Level.goOn : Level → Expression → List Char → Expression × List Char
  | chain c, e, s => c.goOn e s
  | _, e, s => (e, s)

/-- The last operand of a chain of `OR` is itself a chain, which must not go on either. -/
def Level.StopsAt : Level → List Char → Prop
  | chain .or, s => afterKeyword? Connective.and.word s = none
  | _, _ => True

theorem goOn_operandLevel {c : Connective} {s : List Char} (h : (Level.chain c).StopsAt s) (e : Expression) :
    c.operandLevel.goOn e s = (e, s) := by
  cases c with
  | and => rfl
  | or => exact Connective.goOn_of_none h

theorem stopsAt_operandLevel (c : Connective) (s : List Char) : c.operandLevel.StopsAt s := by
  cases c <;> trivial

/-! ## One constructor of the grammar -/

/-- The text is read as the expression at its level, whatever blanks stand around it, and what can follow is
left. A chain goes on with that. -/
def Reads (level : Level) (e : Expression) (t : List Char) : Prop :=
  ∀ ⦃w r : List Char⦄, Blank w → Follows t r → level.StopsAt (Text.skipBlanks r) →
    level.read (w ++ (t ++ r)) = some (level.goOn e (Text.skipBlanks r))

namespace Reads

variable {c : Connective} {e left right : Expression} {w w' t t' : List Char}

theorem all : Reads .primary .all ['*', ':', '*'] := by
  intro w r hw _ _
  have hskip : Text.skipBlanks (w ++ (['*', ':', '*'] ++ r)) = '*' :: ':' :: '*' :: r := by
    rw [Text.skipBlanks_append hw]
    exact Text.skipBlanks_of_stops (Text.stops_cons (by decide))
  rw [Level.read_primary_of_leaf (by rw [hskip]; exact Text.stops_cons (by decide)), readLeaf?, hskip]
  rfl

theorem leaf {field : String} {value : Value} (hname : IsName field.toList) (hw : Blank w) (hw' : Blank w')
    (hvalue : value.Written t) :
    Reads .primary (.leaf field value) (field.toList ++ (w ++ ':' :: (w' ++ t))) := by
  intro v r hv hr _
  obtain ⟨c, hlast, hparen⟩ := hvalue.exists_getLast?
  have hends : Ends r := by
    have hfollows : Follows t r :=
      hr.of_suffix ⟨field.toList ++ (w ++ ':' :: w'), by simp⟩ (by rintro rfl; cases hlast)
    exact hfollows.resolve_left fun h => hparen (Option.some.inj (hlast.symm.trans h))
  have hread := readLeaf?_append hname hw hw' hvalue hends
  rw [String.ofList_toList] at hread
  simp only [List.append_assoc, List.cons_append]
  rw [Level.read_primary_of_leaf, readLeaf?_blank_append hv]
  · exact hread
  · rw [Text.skipBlanks_append hv, Text.skipBlanks_of_stops (hname.stops_isBlank _)]
    exact Text.stops_append hname.nonempty fun c hc =>
      beq_eq_false_iff_ne.2 (ne_of_class (hname.plain c hc) (by decide))

theorem group (hw : Blank w) (hw' : Blank w') (h : Reads (.chain .or) e t) :
    Reads .primary e ('(' :: (w ++ (t ++ (w' ++ [')'])))) := by
  intro v r hv _ _
  have hskip : Text.skipBlanks (v ++ ('(' :: (w ++ (t ++ (w' ++ [')']))) ++ r)) =
      '(' :: (w ++ (t ++ (w' ++ ')' :: r))) := by
    rw [Text.skipBlanks_append hv, List.cons_append, Text.skipBlanks_of_stops (Text.stops_cons (by decide))]
    simp
  have hclose : Text.skipBlanks (w' ++ ')' :: r) = ')' :: r := by
    rw [Text.skipBlanks_append hw', Text.skipBlanks_of_stops (Text.stops_cons (by decide))]
  have hnone : ∀ c : Connective, afterKeyword? c.word (')' :: r) = none := fun c =>
    afterKeyword?_of_stops c.isWord (Text.stops_cons (by decide)) (Text.stops_cons (by decide))
  have hread := h hw (.inr (.blank_append hw' (ends_cons (.inr rfl)))) (by rw [hclose]; exact hnone .and)
  rw [hclose, Level.goOn, Connective.goOn_of_none (hnone .or)] at hread
  exact Level.read_primary_of_group hskip hread

theorem read_skipBlanks {level : Level} {r : List Char} (h : Reads level e t) (hwritten : Written level e t)
    (hw : Blank w) (hr : Follows t r) (hstop : level.StopsAt (Text.skipBlanks r)) :
    level.read (Text.skipBlanks (w ++ (t ++ r))) = some (level.goOn e (Text.skipBlanks r)) := by
  rw [Text.skipBlanks_append hw, Text.skipBlanks_of_stops (hwritten.stops_isBlank r)]
  exact h Text.blank_nil hr hstop

theorem not (hw : Blank w) (hwritten : Written .negation e t) (hgap : w ≠ [] ∨ t.head? = some '(')
    (h : Reads .negation e t) : Reads .negation (.not e) (notWord ++ (w ++ t)) := by
  intro v r hv hr hstop
  have hfollows : Follows t r := hr.of_suffix ⟨notWord ++ w, by simp⟩ hwritten.ne_nil
  have hkeyword := afterKeyword?_append hv isWord_notWord (stops_of_gap hw hgap r)
  simp only [List.append_assoc]
  rw [Level.read_negation_of_some hkeyword, h.read_skipBlanks hwritten hw hfollows hstop]
  rfl

theorem link (hw : Blank w) (hw' : Blank w') (hright' : Written c.operandLevel right t')
    (hgap : w ≠ [] ∨ t.getLast? = some ')') (hgap' : w' ≠ [] ∨ t'.head? = some '(')
    (hleft : Reads (.chain c) left t) (hright : Reads c.operandLevel right t') :
    Reads (.chain c) (.link c left right) (t ++ (w ++ (c.word ++ (w' ++ t')))) := by
  intro v r hv hr hstop
  have hfollows : Follows t' r :=
    hr.of_suffix ⟨t ++ (w ++ (c.word ++ w')), by simp⟩ hright'.ne_nil
  have hword : Stops isWordChar (w' ++ (t' ++ r)) := stops_of_gap hw' hgap' r
  have hskip : Text.skipBlanks (w ++ (c.word ++ (w' ++ (t' ++ r)))) = c.word ++ (w' ++ (t' ++ r)) := by
    rw [Text.skipBlanks_append hw, Text.skipBlanks_of_stops (c.isWord.stops_isBlank _)]
  -- the chain of the left operand ends at the keyword, which is not that of its own operands
  have hend : (Level.chain c).StopsAt (c.word ++ (w' ++ (t' ++ r))) := by
    cases c with
    | and => trivial
    | or => exact afterKeyword?_append_of_ne Connective.or.isWord hword (by decide)
  have hread := hleft hv (follows_of_gap hw hgap (c.word ++ (w' ++ (t' ++ r)))) (by rw [hskip]; exact hend)
  have hkeyword : afterKeyword? c.word (c.word ++ (w' ++ (t' ++ r))) =
      some (Text.skipBlanks (w' ++ (t' ++ r))) :=
    afterKeyword?_append Text.blank_nil c.isWord hword
  have hoperand := hright.read_skipBlanks hright' hw' hfollows (stopsAt_operandLevel c _)
  rw [goOn_operandLevel hstop] at hoperand
  simp only [List.append_assoc]
  rw [hread, hskip, Level.goOn, Connective.goOn_of_operand hkeyword hoperand]
  rfl

theorem ofPrimary (hwritten : Written .primary e t) (h : Reads .primary e t) : Reads .negation e t := by
  intro v r hv hr hstop
  rw [Level.read_negation_of_none]
  · exact h hv hr hstop
  · apply afterKeyword?_eq_none
    rw [Text.skipBlanks_append hv, Text.skipBlanks_of_stops (hwritten.stops_isBlank r)]
    exact hwritten.takeWhile_ne_notWord r

theorem ofOperand (h : Reads c.operandLevel e t) : Reads (.chain c) e t := by
  intro v r hv hr hstop
  rw [Level.read_chain, h hv hr (stopsAt_operandLevel c _), goOn_operandLevel hstop]
  rfl

end Reads

/-! ## All expressions -/

/-- **What is written at a level is read there.** -/
theorem Written.reads {level : Level} {e : Expression} {t : List Char} (h : Written level e t) :
    Reads level e t := by
  induction h with
  | all => exact .all
  | leaf hname hw hw' hvalue => exact .leaf hname hw hw' hvalue
  | group hw hw' _ ih => exact .group hw hw' ih
  | not hw h hgap ih => exact .not hw h hgap ih
  | link hw hw' _ hright hgap hgap' ihleft ihright => exact .link hw hw' hright hgap hgap' ihleft ihright
  | ofPrimary h ih => exact .ofPrimary h ih
  | ofOperand _ ih => exact .ofOperand ih

theorem Written.read?_append {e : Expression} {w t w' : List Char} (hw : Blank w) (hw' : Blank w')
    (h : Written (.chain .or) e t) : Expression.read? (w ++ (t ++ w')) = some e := by
  have hskip : Text.skipBlanks w' = [] := Text.skipBlanks_blank hw'
  have hnone : ∀ c : Connective, afterKeyword? c.word [] = none := by
    intro c
    cases c <;> rfl
  have hends : Ends w' := by
    simpa using Ends.blank_append hw' (fun _ hc => nomatch hc : Ends [])
  have hread := h.reads hw (.inr hends) (by rw [hskip]; exact hnone .and)
  rw [hskip, Level.goOn, Connective.goOn_of_none (hnone .or)] at hread
  obtain ⟨⟨e', r, hr⟩, hchain, heq⟩ := Option.map_eq_some_iff.1 hread
  obtain ⟨rfl, rfl⟩ := Prod.mk.inj heq
  rw [Expression.read?, hchain]

/-- **Every text of an expression is read as that expression**: whatever blanks stand between its tokens, however
its values are quoted, and whatever parentheses stand where none are needed. -/
theorem Expression.read?_of_isWritten {e : Expression} {s : List Char} (h : e.IsWritten s) :
    Expression.read? s = some e := by
  obtain ⟨w, t, w', rfl, hw, hw', hwritten⟩ := h
  exact hwritten.read?_append hw hw'

/-- Blanks are left out beside parentheses, the name `NOTE` begins with no keyword, and the value `AND` is none. -/
theorem read?_not_group :
    Expression.read? "NOT(a:\"x y\"*  OR NOTE : AND)AND *:*".toList =
      some (.link .and
        (.not (.link .or (.leaf "a" (.startsWith "x y")) (.leaf "NOTE" (.exact "AND")))) .all) := by
  have hspace : Blank [' '] := by decide
  have hstem : Written .primary (.leaf "a" (.startsWith "x y")) _ :=
    .leaf (by decide) Text.blank_nil Text.blank_nil (.startsWith .quoted)
  have hexact : Written .primary (.leaf "NOTE" (.exact "AND")) _ :=
    .leaf (by decide) hspace hspace (.exact (.bare (by decide) (List.all_eq_true.1 rfl)))
  have hor : Written (.chain .or) _ _ :=
    .link (c := .or) (by decide : Blank [' ', ' ']) hspace (hstem.atLevel _) (hexact.atLevel _)
      (.inl (by decide)) (.inl (by decide))
  have hnot : Written .negation _ _ :=
    .not Text.blank_nil (.ofPrimary (.group Text.blank_nil Text.blank_nil hor)) (.inr rfl)
  have hand : Written (.chain .and) _ _ :=
    .link (c := .and) Text.blank_nil hspace (.ofOperand (c := .and) hnot) (.ofPrimary .all) (.inr (by decide))
      (.inl (by decide))
  refine Expression.read?_of_isWritten ⟨[], _, [], ?_, Text.blank_nil, Text.blank_nil, .ofOperand (c := .or) hand⟩
  decide

end TermJoin.Syntax
