import TermJoin.Proofs.Syntax.JoinChain

/-!
# Written parameters read back

Local parameters can be written so that they are read as they were meant, whatever the values and the text
behind them are: a value that has blanks, braces or quotes in it stands between quotes, with backslashes.

* `WrittenParam`, `WrittenParams`: pairs and parameters with the text that they are written as.
* **`WrittenParams.read?_toList_text`**: the parameters of that text; `WrittenParams.get?_toParams`: the last value
  of a key among them.
* `Query.readBehind_congr`: what a text depends on; **`Query.read_quoted_sub`**: the sub-query of a join may stand
  in a parameter or behind all of them.
* **`Query.params_read_back`**: the law of written parameters.
-/

namespace TermJoin

open Syntax

namespace Syntax

/-! ## Parameters and their text -/

/-- A pair, with the text that its value is written as. -/
structure WrittenParam where
  key : String
  value : String
  text : String
  isKey : IsKey key.toList
  written : ParamWritten value.toList text.toList

namespace WrittenParam

/-- A pair with a value that needs no quotes. -/
def bare (key value : String) (hkey : IsKey key.toList) (hvalue : IsBareParam value.toList) : WrittenParam :=
  ⟨key, value, value, hkey, .bare hvalue⟩

/-- A pair with its value between quotes. -/
def quoted (quote : Char) (key value : String) (hkey : IsKey key.toList) (hquote : quote = '\'' ∨ quote = '"') :
    WrittenParam where
  key := key
  value := value
  text := .ofList (Text.enquote quote value.toList)
  isKey := hkey
  written := by
    rw [String.toList_ofList]
    exact .quoted hquote

/-- The text of a pair. -/
def item (param : WrittenParam) : String := param.key ++ "=" ++ param.text

theorem toList_item (param : WrittenParam) : param.item.toList = param.key.toList ++ '=' :: param.text.toList := by
  simp [item]

theorem stops_item (param : WrittenParam) (s : List Char) : Text.Stops Text.isBlank (param.item.toList ++ s) := by
  rw [toList_item, List.append_assoc]
  exact param.isKey.stops_isBlank _

end WrittenParam

/-- A leading name, if there is one, pairs, and the text behind them. -/
structure WrittenParams where
  name? : Option String
  params : List WrittenParam
  rest : String
  isKey : ∀ name ∈ name?, IsKey name.toList

theorem pairsWritten_cons (param : WrittenParam) {w s : List Char}
    {pairs : List (List Char × List Char)} (hw : Text.Blank w) (hs : Text.Stops isBareChar s)
    (h : PairsWritten pairs s) :
    PairsWritten ((param.key.toList, param.value.toList) :: pairs) (w ++ (param.item.toList ++ s)) := by
  rw [param.toList_item, List.append_assoc, List.cons_append]
  exact .cons hw param.isKey param.written hs h

theorem stops_spaced (params : List WrittenParam) :
    Text.Stops isBareChar (params.flatMap fun param => ' ' :: param.item.toList) := by
  cases params with
  | nil => exact Text.stops_nil
  | cons param params => exact Text.stops_cons (by decide)

theorem pairsWritten_spaced (params : List WrittenParam) :
    PairsWritten (params.map fun param => (param.key.toList, param.value.toList))
      (params.flatMap fun param => ' ' :: param.item.toList) := by
  induction params with
  | nil => exact .nil Text.blank_nil
  | cons param params ih =>
    have hspace : Text.Blank [' '] := by decide
    exact pairsWritten_cons param hspace (stops_spaced params) ih

theorem intercalate_cons (sep first : List Char) (items : List (List Char)) :
    sep.intercalate (first :: items) = first ++ items.flatMap (sep ++ ·) := by
  induction items generalizing first with
  | nil => simp
  | cons next items ih => simp [List.intercalate_cons_cons, ih]

theorem lookup_eq_head? (key : String) (pairs : List (String × String)) :
    pairs.lookup key = ((pairs.filter (·.1 = key)).map (·.2)).head? := by
  induction pairs with
  | nil => rfl
  | cons pair pairs ih =>
    obtain ⟨key', value⟩ := pair
    by_cases h : key' = key
    · simp [h]
    · have hne : (key == key') = false := by simpa using Ne.symm h
      simp [List.lookup_cons, h, hne, ih]

namespace WrittenParams

variable (w : WrittenParams)

/-- The name and the pairs with single spaces between them, in front of the text behind them. -/
def text : String :=
  "\x7b!" ++ " ".intercalate (w.name?.toList ++ w.params.map (·.item)) ++ "\x7d" ++ w.rest

/-- The value of the last pair with the key. -/
def lastValue? (key : String) : Option String :=
  ((w.params.filter (·.key = key)).map (·.value)).getLast?

/-- What the text is read as. -/
def toParams : LocalParams where
  name? := w.name?
  params := w.params.map fun param => (param.key, param.value)
  rest := w.rest

/-- **Written parameters are read.** -/
theorem read?_toList_text : LocalParams.read? w.text.toList = some w.toParams := by
  have htext : w.text.toList = '\x7b' :: '!' :: ([' '].intercalate
      ((w.name?.toList ++ w.params.map (·.item)).map String.toList) ++ '\x7d' :: w.rest.toList) := by
    simp [text]
  rw [htext]
  obtain ⟨name?, params, rest, hname⟩ := w
  cases name? with
  | some name =>
    have hgap : ∀ c ∈ (params.flatMap fun param => ' ' :: param.item.toList).head?,
        isKeyChar c = false ∧ c ≠ '=' := by
      cases params with
      | nil => exact fun _ hc => nomatch hc
      | cons param params =>
        rintro c ⟨⟩
        decide
    have hread := LocalParams.read?_named (hname name rfl) (pairsWritten_spaced params) hgap rest.toList
    simpa [intercalate_cons, List.flatMap_map, toParams, Function.comp_def] using hread
  | none =>
    cases params with
    | nil => simpa [toParams] using LocalParams.read?_unnamed (.nil Text.blank_nil) Text.stops_nil rest.toList
    | cons param params =>
      have hpairs := pairsWritten_cons param Text.blank_nil (stops_spaced params) (pairsWritten_spaced params)
      have hread := LocalParams.read?_unnamed hpairs (param.stops_item _) rest.toList
      simpa [intercalate_cons, List.flatMap_map, toParams, Function.comp_def] using hread

theorem get?_toParams (key : String) : w.toParams.get? key = w.lastValue? key := by
  rw [LocalParams.get?, lookup_eq_head?, List.filter_reverse, List.map_reverse, List.head?_reverse, lastValue?]
  simp [toParams, List.filter_map, Function.comp_def]

theorem kind_toParams : w.toParams.kind = (w.lastValue? "type").getD (w.name?.getD "lucene") := by
  rw [LocalParams.kind, get?_toParams]
  cases w.lastValue? "type" <;> rfl

end WrittenParams

end Syntax

namespace Query

variable {schema : Schema} {params params' : LocalParams}

/-! ## Texts that are read alike -/

/-- Of the parameters, only the kind, the fields and the query text matter. -/
theorem readBehind_congr (hkind : params.kind = params'.kind) (hfrom : params.get? "from" = params'.get? "from")
    (hto : params.get? "to" = params'.get? "to") (htext : params.queryText = params'.queryText) :
    readBehind schema params = readBehind schema params' := by
  rw [readBehind, readBehind, readJoinFields, readJoinFields, hkind, hfrom, hto, htext]

/-- **The sub-query of a join may be quoted in a parameter**, or stand behind all of them. -/
theorem read_quoted_sub {source target : String} (hsource : IsBareParam source.toList)
    (htarget : IsBareParam target.toList) (schema : Schema) (sub : String) :
    Query.read schema ("\x7b!join from=" ++ source ++ " to=" ++ target ++ " v=" ++
        String.ofList (Text.enquote '\'' sub.toList) ++ "\x7d") =
      Query.read schema ("\x7b!join from=" ++ source ++ " to=" ++ target ++ "\x7d" ++ sub) := by
  let fields : List WrittenParam :=
    [.bare "from" source (by decide) hsource, .bare "to" target (by decide) htarget]
  let inside : WrittenParams :=
    ⟨some "join", fields ++ [.quoted '\'' "v" sub (by decide) (.inl rfl)], "", by decide⟩
  let behind : WrittenParams := ⟨some "join", fields, sub, by decide⟩
  have hinside : ("\x7b!join from=" ++ source ++ " to=" ++ target ++ " v=" ++
      String.ofList (Text.enquote '\'' sub.toList) ++ "\x7d").toList = inside.text.toList := by
    simp [inside, fields, WrittenParams.text, WrittenParam.bare, WrittenParam.quoted, WrittenParam.item]
  have hbehind : ("\x7b!join from=" ++ source ++ " to=" ++ target ++ "\x7d" ++ sub).toList =
      behind.text.toList := by
    simp [behind, fields, WrittenParams.text, WrittenParam.bare, WrittenParam.item]
  rw [Query.read, Query.read, hinside, hbehind, readChars_of_params inside.read?_toList_text,
    readChars_of_params behind.read?_toList_text]
  exact readBehind_congr rfl rfl rfl rfl

/-- **Written parameters read back.** Whatever stands behind them is kept, each key has the last value given for
it, and the kind is the last `type`, or else the leading name. So the sub-query of a join, whatever its text is,
may be quoted in the parameter `v`. -/
theorem params_read_back :
    (∀ w : WrittenParams, ∃ params, LocalParams.read? w.text.toList = some params ∧ params.rest = w.rest ∧
      (∀ key, params.get? key = w.lastValue? key) ∧
      params.kind = (w.lastValue? "type").getD (w.name?.getD "lucene")) ∧
    ∀ (schema : Schema) (source target sub : String), IsBareParam source.toList → IsBareParam target.toList →
      Query.read schema ("\x7b!join from=" ++ source ++ " to=" ++ target ++ " v=" ++
          String.ofList (Text.enquote '\'' sub.toList) ++ "\x7d") =
        Query.read schema ("\x7b!join from=" ++ source ++ " to=" ++ target ++ "\x7d" ++ sub) :=
  ⟨fun w => ⟨w.toParams, w.read?_toList_text, rfl, w.get?_toParams, w.kind_toParams⟩,
    fun schema _ _ sub hsource htarget => read_quoted_sub hsource htarget schema sub⟩

/-- A key with two values, the last of them with a quote and braces in it; and a join of joins, with the inner
one in a parameter. -/
theorem params_read_back_nested :
    (∃ params,
      LocalParams.read? "\x7b!join v=a v='it\\'s \x7bx=1\x7d' type=\"b c\"\x7d rest\x7d".toList = some params ∧
        params.rest = " rest\x7d" ∧ params.get? "v" = some "it's \x7bx=1\x7d" ∧ params.get? "w" = none ∧
        params.kind = "b c") ∧
    Query.read .familyTree
        "\x7b!join from=id to=parent v='\x7b!join from=label to=link\x7dkind:\"it\\'s\"'\x7d" =
      Query.read .familyTree "\x7b!join from=id to=parent\x7d\x7b!join from=label to=link\x7dkind:\"it's\"" := by
  let w : WrittenParams :=
    { name? := some "join"
      params := [.bare "v" "a" (by decide) (by decide),
        .quoted '\'' "v" "it's \x7bx=1\x7d" (by decide) (by decide),
        .quoted '"' "type" "b c" (by decide) (by decide)]
      rest := " rest\x7d"
      isKey := by decide }
  have htext : w.text = "\x7b!join v=a v='it\\'s \x7bx=1\x7d' type=\"b c\"\x7d rest\x7d" := by decide +kernel
  obtain ⟨hread, hsub⟩ := params_read_back
  obtain ⟨params, hparams, hrest, hget, hkind⟩ := hread w
  rw [htext] at hparams
  refine ⟨⟨params, hparams, hrest, ?_, ?_, ?_⟩, ?_⟩
  · rw [hget]
    decide +kernel
  · rw [hget]
    decide +kernel
  · rw [hkind]
    decide +kernel
  · exact hsub .familyTree "id" "parent" "\x7b!join from=label to=link\x7dkind:\"it's\"" (by decide) (by decide)

end Query

end TermJoin
