import TermJoin.Proofs.Syntax.ReadParams
import TermJoin.Proofs.Syntax.WellFormed

/-!
# Nested reading ends

To read the text of a join is to read the text of its sub-query, which may have parameters in front of it again. The
calls are followed here as they are made, with nothing said of the lengths of their texts, so a text that leads to
ever more calls would have no run. There is none: each call takes at least the signs of its parameters away.

* `Query.Turn`, `Query.turn`: what a call does by itself; **`Query.readChars_eq_turn`**: reading obeys it.
* `Query.takenFrom_of_turn`, **`Query.length_of_turn`**: where the text that it hands on comes from, and how much
  shorter it is.
* `Query.Run`: a run, with the texts that its calls receive; `Query.Run.unique`: a text has one run at most.
* **`Query.exists_run`**: every text has one, by induction on its length.
* **`Query.nested_reading_ends`**: all calls of all runs.
-/

namespace TermJoin.Query

open Syntax

variable {schema : Schema} {text sub : List Char} {source target : String} {received received' : List (List Char)}
  {outcome outcome' : Except QueryFault Query}

/-! ## One call -/

/-- What one call of the reader does by itself: it knows the outcome, or it has the two fields of a join and goes on
to read the text of the sub-query. -/
inductive Turn
  | answer (outcome : Except QueryFault Query)
  | join (source target : String) (sub : List Char)
deriving DecidableEq

/-- What a call of the reader does with its text. -/
def turn (schema : Schema) (text : List Char) : Turn :=
  if hasParams (Text.skipBlanks text) then
    match LocalParams.read? (Text.skipBlanks text) with
    | none => .answer (.error .malformed)
    | some params =>
      if params.kind = "join" then
        match readJoinFields schema params with
        | .error fault => .answer (.error fault)
        | .ok (source, target) => .join source target params.queryText.toList
      else if params.kind = "lucene" then .answer (readStandard schema params.queryText.toList)
      else .answer (.error (.unknownParser params.kind))
  else .answer (readStandard schema (Text.skipBlanks text))

/-- **Reading is to take a turn**, and to read the sub-query if it hands one on. -/
theorem readChars_eq_turn (schema : Schema) (text : List Char) :
    readChars schema text =
      match turn schema text with
      | .answer outcome => outcome
      | .join source target sub => (readChars schema sub).map (.join source target · .one) := by
  rw [readChars, turn]
  dsimp only
  split
  · split
    · rename_i hread
      rw [hread]
    · rename_i params hread
      rw [hread]
      dsimp only
      split
      · cases readJoinFields schema params with
        | error fault => rfl
        | ok fields => rfl
      · split
        · rfl
        · rfl
  · rfl

theorem exists_of_turn (h : turn schema text = .join source target sub) :
    ∃ params, LocalParams.read? (Text.skipBlanks text) = some params ∧ params.kind = "join" ∧
      readJoinFields schema params = .ok (source, target) ∧ sub = params.queryText.toList := by
  unfold turn at h
  split at h
  · split at h
    · cases h
    · rename_i params hread
      split at h
      · rename_i hkind
        split at h
        · cases h
        · rename_i hfields
          cases h
          exact ⟨params, hread, hkind, hfields, rfl⟩
      · split at h <;> cases h
  · cases h

theorem takenFrom_of_turn (h : turn schema text = .join source target sub) : TakenFrom text sub := by
  obtain ⟨params, hread, -, -, rfl⟩ := exists_of_turn h
  exact (LocalParams.takenFrom_queryText hread).mono (Text.skipBlanks_suffix text)

/-- **The text that is handed on is shorter** by the names of the fields and 15 characters at least. -/
theorem length_of_turn (h : turn schema text = .join source target sub) :
    sub.length + source.length + target.length + 15 ≤ text.length := by
  obtain ⟨params, hread, hkind, hfields, rfl⟩ := exists_of_turn h
  obtain ⟨hfrom, hto⟩ := get?_of_readJoinFields hfields
  calc params.queryText.toList.length + source.length + target.length + 15
      = params.queryText.length + source.length + target.length + 15 := by rw [String.length_toList]
    _ ≤ params.size := params.length_queryText_add_le_size hkind hfrom hto
    _ ≤ (Text.skipBlanks text).length := LocalParams.size_le_of_read? hread
    _ ≤ text.length := Text.length_skipBlanks_le text

/-! ## All calls -/

/-- A run of the reader over a text, up to its outcome, with the texts that its calls receive, the first one
included. A run that goes on for ever has no outcome. -/
inductive Run (schema : Schema) : List Char → List (List Char) → Except QueryFault Query → Prop
  | answer {text : List Char} {outcome : Except QueryFault Query} (h : turn schema text = .answer outcome) :
      Run schema text [text] outcome
  | join {text sub : List Char} {source target : String} {received : List (List Char)}
      {outcome : Except QueryFault Query} (h : turn schema text = .join source target sub)
      (hsub : Run schema sub received outcome) :
      Run schema text (text :: received) (outcome.map (.join source target · .one))

theorem Run.unique (h : Run schema text received outcome) (h' : Run schema text received' outcome') :
    received = received' ∧ outcome = outcome' := by
  induction h generalizing received' outcome' with
  | answer h =>
    cases h' with
    | answer h' =>
      cases h.symm.trans h'
      exact ⟨rfl, rfl⟩
    | join h' hsub' => cases h.symm.trans h'
  | join h hsub ih =>
    cases h' with
    | answer h' => cases h.symm.trans h'
    | join h' hsub' =>
      cases h.symm.trans h'
      obtain ⟨rfl, rfl⟩ := ih hsub'
      exact ⟨rfl, rfl⟩

/-- **Every text has a run**, with the outcome of reading it: by induction on the length of the text, since each call
hands on a shorter one. -/
theorem exists_run (schema : Schema) (text : List Char) :
    ∃ received, Run schema text received (readChars schema text) := by
  induction hlength : text.length using Nat.strongRecOn generalizing text with
  | ind n ih =>
    rw [readChars_eq_turn]
    cases hturn : turn schema text with
    | answer outcome => exact ⟨[text], .answer hturn⟩
    | join source target sub =>
      have hsub := length_of_turn hturn
      obtain ⟨received, hrun⟩ := ih sub.length (by omega) sub rfl
      exact ⟨text :: received, .join hturn hrun⟩

/-- No call receives a longer text than the first one, and each takes 15 characters away at least. -/
theorem Run.length_le (h : Run schema text received outcome) :
    (∀ t ∈ received, t.length ≤ text.length) ∧ 15 * received.length ≤ text.length + 15 := by
  induction h with
  | answer h => simp
  | join h hsub ih =>
    have hlength := length_of_turn h
    obtain ⟨hreceived, hcount⟩ := ih
    refine ⟨List.forall_mem_cons.2 ⟨Nat.le_refl _, fun t ht => ?_⟩, ?_⟩
    · have := hreceived t ht
      omega
    · rw [List.length_cons]
      omega

theorem Run.pairwise_received (h : Run schema text received outcome) :
    received.Pairwise fun earlier later => later.length < earlier.length := by
  induction h with
  | answer h => exact List.pairwise_singleton _ _
  | join h hsub ih =>
    have hlength := length_of_turn h
    refine List.pairwise_cons.2 ⟨fun t ht => ?_, ih⟩
    have := hsub.length_le.1 t ht
    omega

/-- **Nested reading ends.** Whatever the text and the schema are, the text that a call hands on for the sub-query of
a join stands behind the parameters or was spelt as a value of `v`, bare or between quotes of either sort, and it is
shorter than the text of the call. So every text has exactly one run, which comes to an end with what is read from
the text. Each call of it receives a shorter text than all calls before it, and a text of `n` characters leads to at
most `n / 15 + 1` calls. -/
theorem nested_reading_ends (schema : Schema) :
    (∀ text source target sub, turn schema text = .join source target sub →
      TakenFrom text sub ∧ sub.length < text.length) ∧
    ∀ text : String, ∃ received,
      (∀ calls outcome, Run schema text.toList calls outcome ↔
        calls = received ∧ outcome = Query.read schema text) ∧
      (received.Pairwise fun earlier later => later.length < earlier.length) ∧
      15 * received.length ≤ text.length + 15 := by
  refine ⟨fun text source target sub h => ⟨takenFrom_of_turn h, ?_⟩, fun text => ?_⟩
  · have := length_of_turn h
    omega
  · obtain ⟨received, hrun⟩ := exists_run schema text.toList
    refine ⟨received, fun calls outcome => ⟨fun h => h.unique hrun, ?_⟩, hrun.pairwise_received, ?_⟩
    · rintro ⟨rfl, rfl⟩
      exact hrun
    · rw [← String.length_toList]
      exact hrun.length_le.2

/-- A join in a join, as the last of two values of `v`: the text of the inner one stands between single quotes, with a
backslash that is dropped, and that of its own sub-query between double quotes. -/
theorem familyTree_nested_reading_ends :
    let inner := "\x7b!join from=id to=id v=\"kind:a\"\x7d"
    let outer := "\x7b!join from=link to=label v=x v='\\\x7b!join from=id to=id v=\"kind:a\"\x7d'\x7d"
    let q := Query.join "link" "label" (.join "id" "id" (.term ⟨"kind", "a"⟩) .one) .one
    Run .familyTree outer.toList [outer.toList, inner.toList, "kind:a".toList] (.ok q) ∧
      Query.read .familyTree outer = .ok q ∧ TakenFrom outer.toList inner.toList := by
  intro inner outer q
  have houter : turn .familyTree outer.toList = .join "link" "label" inner.toList := by decide +kernel
  have hinner : turn .familyTree inner.toList = .join "id" "id" "kind:a".toList := by decide +kernel
  have hname : IsName "kind".toList := by decide
  have hvalue : (Value.exact "a").Written "a".toList := .exact (.bare (by decide) (List.all_eq_true.1 rfl))
  have hread : readChars .familyTree "kind:a".toList = .ok (.term ⟨"kind", "a"⟩) := readChars_value hname hvalue
  have hanswer : turn .familyTree "kind:a".toList = .answer (.ok (.term ⟨"kind", "a"⟩)) := by
    rw [readChars_eq_turn] at hread
    exact congrArg Turn.answer hread
  have hrun : Run .familyTree outer.toList _ (.ok q) := .join houter (.join hinner (.answer hanswer))
  obtain ⟨hturns, hruns⟩ := nested_reading_ends .familyTree
  obtain ⟨received, hunique, -, -⟩ := hruns outer
  exact ⟨hrun, ((hunique _ _).1 hrun).2.symm, (hturns _ _ _ _ houter).1⟩

end TermJoin.Query
