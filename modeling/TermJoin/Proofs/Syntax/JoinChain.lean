import TermJoin.Proofs.Syntax.LocalParams
import TermJoin.Proofs.Syntax.ReadBack
import TermJoin.Query.Basic
import TermJoin.Syntax.QueryText

/-!
# Chains of joins read back

The text of a query is meant for the eye, and not every query can be read from it. A chain of joins can: each
names its fields in local parameters, and the text behind them is that of the next join, or of the query at the
end of the chain.

* `textWritten_writeValue`: a value is written so that it reads back, whatever its characters are.
* `Query.readChars_standard`, `Query.readChars_params`: reading a text without parameters, and one with them;
  `Query.readChars_join`: one of a join.
* `Query.JoinChain`: joins of declared fields around a query that selects all, or asks a text field.
* **`Query.JoinChain.read_render`**: the text of a chain is read as the chain.
-/

namespace TermJoin

open Syntax

/-! ## Values -/

theorem Syntax.textWritten_writeValue (text : String) : TextWritten text.toList (writeValue text).toList := by
  rw [writeValue]
  split
  · rename_i hbare
    simp only [isBare, Bool.and_eq_true, Bool.not_eq_true', List.isEmpty_eq_false_iff, List.all_eq_true] at hbare
    exact .bare hbare.1 fun c hc => (hbare.2 c hc).1
  · rw [String.toList_ofList]
    exact .quoted

namespace Query

variable {schema : Schema}

/-! ## Reading -/

theorem readChars_standard {s : List Char} (hblank : Text.Stops Text.isBlank s) (hparams : hasParams s = false) :
    readChars schema s = readStandard schema s := by
  rw [readChars]
  simp only [Text.skipBlanks_of_stops hblank, hparams]
  rfl

theorem readChars_leaf {e : Expression} {t : List Char} (h : Written .primary e t) (hparams : hasParams t = false) :
    readChars schema t = e.toQuery schema := by
  have hblank : Text.Stops Text.isBlank t := by simpa using h.stops_isBlank []
  have hread := (h.atLevel (.chain .or)).read?_append Text.blank_nil Text.blank_nil
  rw [List.nil_append, List.append_nil] at hread
  rw [readChars_standard hblank hparams, readStandard, hread]

theorem hasParams_append {name : List Char} (hname : IsName name) (r : List Char) :
    hasParams (name ++ r) = false := by
  cases name with
  | nil => exact absurd rfl hname.nonempty
  | cons c name =>
    have hne : c ≠ '\x7b' := ne_of_class (hname.plain c (.head _)) (by decide)
    simp [hasParams, hne]

theorem readChars_value {field : String} {value : Value} {t : List Char} (hname : IsName field.toList)
    (hvalue : value.Written t) :
    readChars schema (field.toList ++ ':' :: t) = value.toQuery schema field :=
  readChars_leaf (.leaf hname Text.blank_nil Text.blank_nil hvalue) (hasParams_append hname _)

/-! ## Joins -/

/-- What is read behind parameters. -/
def readBehind (schema : Schema) (params : LocalParams) : Except QueryFault Query :=
  if params.kind = "join" then do
    let (source, target) ← readJoinFields schema params
    let sub ← readChars schema params.queryText.toList
    return .join source target sub .one
  else if params.kind = "lucene" then readStandard schema params.queryText.toList
  else .error (.unknownParser params.kind)

/-- A text that begins with parameters is read as they say, if they can be read. -/
theorem readChars_params (r : List Char) :
    readChars schema ('\x7b' :: '!' :: r) =
      match LocalParams.read? ('\x7b' :: '!' :: r) with
      | none => .error .malformed
      | some params => readBehind schema params := by
  have hblank : Text.skipBlanks ('\x7b' :: '!' :: r) = '\x7b' :: '!' :: r :=
    Text.skipBlanks_of_stops (Text.stops_cons (by decide))
  have hparams : hasParams ('\x7b' :: '!' :: r) = true := rfl
  rw [readChars]
  simp only [hblank, hparams, if_true]
  split
  · rename_i hnone
    rw [hblank] at hnone
    rw [hnone]
  · rename_i params hsome
    rw [hblank] at hsome
    rw [hsome]
    rfl

theorem readChars_of_params {s : List Char} {params : LocalParams} (hread : LocalParams.read? s = some params) :
    readChars schema s = readBehind schema params := by
  obtain ⟨r, rfl⟩ : ∃ r, s = '\x7b' :: '!' :: r := by
    unfold LocalParams.read? at hread
    split at hread
    · exact ⟨_, rfl⟩
    · cases hread
  rw [readChars_params, hread]

theorem readChars_join {s : List Char} {params : LocalParams} {source target : String}
    (hread : LocalParams.read? s = some params) (hkind : params.kind = "join")
    (hfields : readJoinFields schema params = .ok (source, target)) :
    readChars schema s =
      (readChars schema params.queryText.toList).map fun sub => .join source target sub .one := by
  rw [readChars_of_params hread, readBehind, if_pos hkind, hfields]
  rfl

/-- The leading name of the parameters of a join, and their keys. -/
def joinWord : List Char := ['j', 'o', 'i', 'n']

@[inherit_doc joinWord]
def fromKey : List Char := ['f', 'r', 'o', 'm']

@[inherit_doc joinWord]
def toKey : List Char := ['t', 'o']

/-- The text of a join, in front of that of its sub-query. -/
def joinText (source target sub : List Char) : List Char :=
  '\x7b' :: '!' :: (joinWord ++
    ' ' :: (fromKey ++ '=' :: (source ++ ' ' :: (toKey ++ '=' :: (target ++ '\x7d' :: sub)))))

theorem toList_render_join (source target : String) (sub : Query) (boost : Single) :
    (render (.join source target sub boost)).toList =
      joinText source.toList target.toList (render sub).toList := by
  simp only [render_join, String.toList_append, List.append_assoc]
  rfl

/-- The parameters of a join. -/
def joinParams (source target rest : String) : LocalParams where
  name? := some "join"
  params := [("from", source), ("to", target)]
  rest := rest

theorem read?_joinText {source target : String} (hsource : IsBareParam source.toList)
    (htarget : IsBareParam target.toList) (sub : List Char) :
    LocalParams.read? (joinText source.toList target.toList sub) =
      some (joinParams source target (String.ofList sub)) := by
  have hspace : Text.Blank [' '] := by decide
  have hjoin : IsKey joinWord := by decide
  have hfrom : IsKey fromKey := by decide
  have hto : IsKey toKey := by decide
  have hpairs := PairsWritten.cons hspace hfrom (.bare hsource) (Text.stops_cons (by decide))
    (.cons hspace hto (.bare htarget) Text.stops_nil (.nil Text.blank_nil))
  have hgap : ∀ c ∈ some ' ', isKeyChar c = false ∧ c ≠ '=' := by
    rintro c ⟨⟩
    decide
  have hread := LocalParams.read?_named hjoin hpairs hgap sub
  have hwords : String.ofList joinWord = "join" ∧ String.ofList fromKey = "from" ∧ String.ofList toKey = "to" :=
    ⟨rfl, rfl, rfl⟩
  simpa [joinText, joinParams, hwords] using hread

theorem readJoinFields_joinParams {source target : String} (hfrom : schema.hasField source = true)
    (hto : schema.hasField target = true) (rest : String) :
    readJoinFields schema (joinParams source target rest) = .ok (source, target) := by
  have hsource : (joinParams source target rest).get? "from" = some source := rfl
  have htarget : (joinParams source target rest).get? "to" = some target := rfl
  simp [readJoinFields, hsource, htarget, hfrom, hto]

theorem readChars_joinText {source target : String} (hsource : IsBareParam source.toList)
    (htarget : IsBareParam target.toList) (hfrom : schema.hasField source = true)
    (hto : schema.hasField target = true) (sub : List Char) :
    readChars schema (joinText source.toList target.toList sub) =
      (readChars schema sub).map fun q => .join source target q .one := by
  have htext : (joinParams source target (String.ofList sub)).queryText = String.ofList sub := rfl
  rw [readChars_join (read?_joinText hsource htarget sub) rfl (readJoinFields_joinParams hfrom hto _), htext,
    String.toList_ofList]

/-! ## Chains -/

/-- Joins around a query that selects all, or asks for values of a text field. The names are such that they can
be written. -/
inductive JoinChain (schema : Schema) : Query → Prop
  | all : JoinChain schema .all
  | term {field text : String} (hfield : schema.fieldType? field = some .text) (hname : IsName field.toList) :
    JoinChain schema (.term ⟨field, text⟩)
  | startsWith {field stem : String} (hfield : schema.fieldType? field = some .text)
      (hname : IsName field.toList) : JoinChain schema (.startsWith field stem)
  | join {source target : String} {sub : Query} (hfrom : schema.hasField source = true)
      (hto : schema.hasField target = true) (hsource : IsBareParam source.toList)
      (htarget : IsBareParam target.toList) (h : JoinChain schema sub) :
    JoinChain schema (.join source target sub .one)

namespace JoinChain

/-- **The text of a chain of joins is read as the chain**, whatever the value at its end is. -/
theorem read_render {q : Query} (h : q.JoinChain schema) : Query.read schema q.render = .ok q := by
  rw [Query.read]
  induction h with
  | all => exact readChars_leaf .all rfl
  | @term field text hfield hname =>
    have htext : (render (.term ⟨field, text⟩)).toList = field.toList ++ ':' :: (writeValue text).toList := by
      simp [Term.render]
    rw [htext, readChars_value hname (.exact (textWritten_writeValue text)), Value.toQuery, hfield]
    rfl
  | @startsWith field stem hfield hname =>
    have htext : (render (.startsWith field stem)).toList =
        field.toList ++ ':' :: ((writeValue stem).toList ++ ['*']) := by
      simp
    rw [htext, readChars_value hname (.startsWith (textWritten_writeValue stem)), Value.toQuery, hfield]
    rfl
  | join hfrom hto hsource htarget h ih =>
    rw [toList_render_join, readChars_joinText hsource htarget hfrom hto, ih]
    rfl

/-- Two joins of a family tree, around a value with quotes, a backslash and a keyword. -/
theorem familyTree_read_render :
    let q := Query.join "id" "parent" (.join "label" "link" (.term ⟨"kind", "\"a\" NOT \\ b"⟩) .one) .one
    q.render = "\x7b!join from=id to=parent\x7d\x7b!join from=label to=link\x7dkind:\"\\\"a\\\" NOT \\\\ b\"" ∧
      Query.read .familyTree q.render = .ok q := by
  intro q
  have hleaf : JoinChain .familyTree (.term ⟨"kind", "\"a\" NOT \\ b"⟩) :=
    .term (by decide) (by decide)
  have hlabels : JoinChain .familyTree (.join "label" "link" (.term ⟨"kind", "\"a\" NOT \\ b"⟩) .one) :=
    .join (by decide) (by decide) (by decide) (by decide) hleaf
  have hnumbers : JoinChain .familyTree q :=
    .join (by decide) (by decide) (by decide) (by decide) hlabels
  exact ⟨by decide +kernel, hnumbers.read_render⟩

end JoinChain

end Query

end TermJoin
