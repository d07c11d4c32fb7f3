import TermJoin.Proofs.Syntax.Tokens
import TermJoin.Syntax.LocalParams

/-!
# Local parameters as they are written

A value of a parameter is written bare, or in quotes of either sort. Such parameters are read back with whatever
text stands behind them.

* `IsBareParam`, `ParamWritten`, `IsKey`: how a value is written, and what is a key or a leading name.
* `readPair?_append`, `readPairs_cons`: one pair, and one in front of others.
* `PairsWritten`: pairs as they are written; **`PairsWritten.readPairs_append`**: all of them are read.
* **`LocalParams.read?_named`**, **`LocalParams.read?_unnamed`**: parameters with a leading name, and without.
-/

namespace TermJoin.Syntax

open Text (Blank Stops)

/-- What can stand as a value without quotes. -/
structure IsBareParam (value : List Char) : Prop where
  nonempty : value ≠ []
  bare : ∀ c ∈ value, isBareChar c = true

instance (value : List Char) : Decidable (IsBareParam value) :=
  decidable_of_iff (value ≠ [] ∧ value.all isBareChar = true)
    ⟨fun h => ⟨h.1, List.all_eq_true.1 h.2⟩, fun h => ⟨h.nonempty, List.all_eq_true.2 h.bare⟩⟩

/-- A value of a parameter as it is written. -/
inductive ParamWritten (value : List Char) : List Char → Prop
  | bare (h : IsBareParam value) : ParamWritten value value
  | quoted {quote : Char} (hquote : quote = '\'' ∨ quote = '"') : ParamWritten value (Text.enquote quote value)

/-- A key, or a leading name. A blank of any sort in front of it would be skipped. -/
structure IsKey (key : List Char) : Prop where
  nonempty : key ≠ []
  plain : ∀ c ∈ key, isKeyChar c = true
  visible : Stops Text.isBlank key

instance (key : List Char) : Decidable (IsKey key) :=
  decidable_of_iff (key ≠ [] ∧ key.all isKeyChar = true ∧ Stops Text.isBlank key)
    ⟨fun h => ⟨h.1, List.all_eq_true.1 h.2.1, h.2.2⟩,
      fun h => ⟨h.nonempty, List.all_eq_true.2 h.plain, h.visible⟩⟩

variable {name key value t w r : List Char}

theorem IsKey.stops_isBlank (h : IsKey key) (r : List Char) : Stops Text.isBlank (key ++ r) :=
  h.visible.append h.nonempty r

theorem readParam?_append (ht : ParamWritten value t) (hr : Stops isBareChar r) :
    readParam? (t ++ r) = some (value, r) := by
  cases ht with
  | bare h =>
    have hrun := takeRun?_append h.nonempty h.bare hr
    have hquote : ∀ s c, isBareChar c = false → value ++ r ≠ c :: s := by
      intro s c hc heq
      cases value with
      | nil => exact absurd rfl h.nonempty
      | cons a value =>
        rw [(List.cons.inj heq).1.symm, h.bare a (.head _)] at hc
        cases hc
    unfold readParam?
    split
    · rename_i s heq
      exact absurd heq (hquote s '\'' (by decide))
    · rename_i s heq
      exact absurd heq (hquote s '"' (by decide))
    · exact hrun
  | quoted hquote =>
    simp only [Text.enquote, List.cons_append, List.append_assoc, List.nil_append]
    rcases hquote with rfl | rfl
    · exact Text.readQuoted_escape '\'' (by decide) value r
    · exact Text.readQuoted_escape '"' (by decide) value r

theorem readPair?_append (hw : Blank w) (hkey : IsKey key) (ht : ParamWritten value t) (hr : Stops isBareChar r) :
    readPair? (w ++ (key ++ '=' :: (t ++ r))) = some ((key, value), Text.skipBlanks r) := by
  have hequals : takeRun? isKeyChar (key ++ '=' :: (t ++ r)) = some (key, '=' :: (t ++ r)) :=
    takeRun?_append hkey.nonempty hkey.plain (Text.stops_cons (by decide))
  rw [readPair?, Text.skipBlanks_append hw, Text.skipBlanks_of_stops (hkey.stops_isBlank _), hequals]
  change Option.map _ (readParam? _) = _
  rw [readParam?_append ht hr]
  rfl

theorem readPairs_cons (hw : Blank w) (hkey : IsKey key) (ht : ParamWritten value t)
    (hr : Stops isBareChar r) : readPairs (w ++ (key ++ '=' :: (t ++ r))) =
      ((key, value) :: (readPairs (Text.skipBlanks r)).1, (readPairs (Text.skipBlanks r)).2) := by
  rw [readPairs]
  split
  · rename_i hnone
    rw [readPair?_append hw hkey ht hr] at hnone
    cases hnone
  · rename_i pair s hsome
    rw [readPair?_append hw hkey ht hr] at hsome
    cases hsome
    rfl

theorem readPairs_close (rest : List Char) : readPairs ('\x7d' :: rest) = ([], '\x7d' :: rest) := by
  have hstart : Stops Text.isBlank ('\x7d' :: rest) := Text.stops_cons (by decide)
  have hnone : readPair? ('\x7d' :: rest) = none := by
    rw [readPair?, Text.skipBlanks_of_stops hstart, takeRun?,
      Text.takeWhile_of_stops (Text.stops_cons (by decide))]
    rfl
  rw [readPairs, hnone]

/-! ## All parameters -/

/-- Pairs as they are written, with blanks in front of each. No bare value goes on in what follows it. -/
inductive PairsWritten : List (List Char × List Char) → List Char → Prop
  | nil {w : List Char} (hw : Blank w) : PairsWritten [] w
  | cons {key value w t s : List Char} {pairs : List (List Char × List Char)} (hw : Blank w) (hkey : IsKey key)
      (hvalue : ParamWritten value t) (hgap : Stops isBareChar s) (h : PairsWritten pairs s) :
      PairsWritten ((key, value) :: pairs) (w ++ (key ++ '=' :: (t ++ s)))

theorem PairsWritten.readPairs_append {pairs : List (List Char × List Char)} {s : List Char}
    (h : PairsWritten pairs s) (rest : List Char) :
    readPairs (Text.skipBlanks (s ++ '\x7d' :: rest)) = (pairs, '\x7d' :: rest) := by
  induction h with
  | nil hw =>
    rw [Text.skipBlanks_append hw, Text.skipBlanks_of_stops (Text.stops_cons (by decide)), readPairs_close]
  | @cons key value w t s pairs hw hkey hvalue hgap h ih =>
    have hend : Stops isBareChar (s ++ '\x7d' :: rest) := by
      cases s with
      | nil => exact Text.stops_cons (by decide)
      | cons c s => exact Text.stops_cons (hgap c rfl)
    have hread := readPairs_cons Text.blank_nil hkey hvalue hend
    rw [ih, List.nil_append] at hread
    simp only [List.append_assoc, List.cons_append]
    rw [Text.skipBlanks_append hw, Text.skipBlanks_of_stops (hkey.stops_isBlank _)]
    exact hread

/-- A leading name is told from a key by what stands behind it. -/
theorem readName?_append (hname : IsKey name) {c : Char} (hc : isKeyChar c = false) (hne : c ≠ '=') :
    readName? (name ++ c :: r) = some (name, Text.skipBlanks (c :: r)) := by
  rw [readName?, Text.skipBlanks_of_stops (hname.stops_isBlank _),
    takeRun?_append hname.nonempty hname.plain (Text.stops_cons hc)]
  exact if_neg hne

theorem readName?_eq_none (hkey : IsKey key) : readName? (key ++ '=' :: r) = none := by
  rw [readName?, Text.skipBlanks_of_stops (hkey.stops_isBlank _), takeRun?_append hkey.nonempty hkey.plain
    (Text.stops_cons (by decide))]
  exact if_pos rfl

theorem readName?_close (rest : List Char) : readName? ('\x7d' :: rest) = none := by
  rw [readName?, Text.skipBlanks_of_stops (Text.stops_cons (by decide)), takeRun?,
    Text.takeWhile_of_stops (Text.stops_cons (by decide))]
  rfl

/-- **Parameters with a leading name are read**, and all that stands behind them is kept. -/
theorem LocalParams.read?_named (hname : IsKey name) {pairs : List (List Char × List Char)} {s : List Char}
    (hpairs : PairsWritten pairs s) (hgap : ∀ c ∈ s.head?, isKeyChar c = false ∧ c ≠ '=') (rest : List Char) :
    LocalParams.read? ('\x7b' :: '!' :: (name ++ (s ++ '\x7d' :: rest))) =
      some { name? := some (String.ofList name)
             params := pairs.map fun pair => (String.ofList pair.1, String.ofList pair.2)
             rest := String.ofList rest } := by
  have hread : readName? (name ++ (s ++ '\x7d' :: rest)) =
      some (name, Text.skipBlanks (s ++ '\x7d' :: rest)) := by
    cases s with
    | nil => exact readName?_append hname (by decide) (by decide)
    | cons c s => exact readName?_append hname (hgap c rfl).1 (hgap c rfl).2
  rw [LocalParams.read?, hread]
  dsimp only
  rw [hpairs.readPairs_append]
  rfl

theorem LocalParams.read?_unnamed {pairs : List (List Char × List Char)} {s : List Char}
    (hpairs : PairsWritten pairs s) (hstart : Stops Text.isBlank s) (rest : List Char) :
    LocalParams.read? ('\x7b' :: '!' :: (s ++ '\x7d' :: rest)) =
      some { name? := none
             params := pairs.map fun pair => (String.ofList pair.1, String.ofList pair.2)
             rest := String.ofList rest } := by
  have hskip : Text.skipBlanks (s ++ '\x7d' :: rest) = s ++ '\x7d' :: rest := by
    cases s with
    | nil => exact Text.skipBlanks_of_stops (Text.stops_cons (by decide))
    | cons c s => exact Text.skipBlanks_of_stops (hstart.append (List.cons_ne_nil c s) _)
  have hread := hpairs.readPairs_append rest
  rw [hskip] at hread
  have hname : readName? (s ++ '\x7d' :: rest) = none := by
    rw [← hskip]
    cases hpairs with
    | nil hw =>
      rw [Text.skipBlanks_append hw, Text.skipBlanks_of_stops (Text.stops_cons (by decide)), readName?_close]
    | cons hw hkey hvalue hgap h =>
      simp only [List.append_assoc, List.cons_append]
      rw [Text.skipBlanks_append hw, Text.skipBlanks_of_stops (hkey.stops_isBlank _)]
      exact readName?_eq_none hkey
  rw [LocalParams.read?, hname]
  dsimp only
  rw [hread]
  rfl

end TermJoin.Syntax
