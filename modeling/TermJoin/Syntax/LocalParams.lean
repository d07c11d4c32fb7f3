import TermJoin.Syntax.Expression

/-!
# Local parameters

A query text may begin with parameters: `{!kind key=value ...}`. A value is bare or between quotes of
either sort.

* `LocalParams.read?`: the parameters in front of a text, with the text behind them.
* `LocalParams.kind`, `LocalParams.get?`: which syntax the text is in, and the last value of a key.
* `LocalParams.queryText`: the text to read next. **`length_queryText_lt`** says that it is shorter
  than the one the parameters were read from.
-/

namespace TermJoin.Syntax

/-- Parameters, with the text behind them. -/
structure LocalParams where
  name? : Option String
  params : List (String × String)
  rest : String
deriving DecidableEq

/-! ## Parts -/

/-- The characters of a key, and of the leading name. -/
def isKeyChar (c : Char) : Bool := !([' ', '\t', '\n', '\x7d', '='].contains c)

/-- The characters of a value without quotes. -/
def isBareChar (c : Char) : Bool := !([' ', '\t', '\n', '\x7d', '\'', '"'].contains c)

/-- A leading name, told from a key by what follows it, with the blanks around it. -/
def readName? (s : List Char) : Option (List Char × List Char) :=
  match takeRun? isKeyChar (Text.skipBlanks s) with
  | some (name, c :: r) => if c = '=' then none else some (name, Text.skipBlanks (c :: r))
  | _ => none

/-- A value with what follows it. -/
def readParam? : List Char → Option (List Char × List Char)
  | '\'' :: s => Text.readQuoted '\'' s
  | '"' :: s => Text.readQuoted '"' s
  | s => takeRun? isBareChar s

/-- A key and its value with the blanks around them, and what follows. -/
def readPair? (s : List Char) : Option ((List Char × List Char) × List Char) :=
  match takeRun? isKeyChar (Text.skipBlanks s) with
  | some (key, '=' :: r) =>
    (readParam? r).map fun (value, r) => ((key, value), Text.skipBlanks r)
  | _ => none

theorem length_of_readParam? {s value r : List Char} (h : readParam? s = some (value, r)) :
    value.length + r.length ≤ s.length := by
  unfold readParam? at h
  split at h
  · have := Text.length_of_readQuoted h
    simp only [List.length_cons]
    omega
  · have := Text.length_of_readQuoted h
    simp only [List.length_cons]
    omega
  · have := length_of_takeRun? h
    omega

theorem length_of_readPair? {s key value r : List Char}
    (h : readPair? s = some ((key, value), r)) : value.length + r.length < s.length := by
  have hs := Text.length_skipBlanks_le s
  unfold readPair? at h
  split at h
  · rename_i key' r' hkey
    obtain ⟨⟨v, r₂⟩, hv, heq⟩ := Option.map_eq_some_iff.1 h
    cases heq
    have h1 := length_of_takeRun? hkey
    have h2 := length_of_readParam? hv
    have h3 := Text.length_skipBlanks_le r₂
    simp only [List.length_cons] at h1
    omega
  · cases h

theorem length_of_readName? {s name r : List Char} (h : readName? s = some (name, r)) :
    r.length ≤ s.length := by
  have hs := Text.length_skipBlanks_le s
  unfold readName? at h
  split at h
  · rename_i name' c r' hname
    split at h
    · cases h
    · cases h
      have h1 := length_of_takeRun? hname
      have h2 := Text.length_skipBlanks_le (c :: r')
      omega
  · cases h

/-! ## All parameters -/

/-- Pairs as long as there is one, and what follows them. -/
def readPairs (s : List Char) : List (List Char × List Char) × List Char :=
  match _h : readPair? s with
  | none => ([], s)
  | some (pair, r) =>
    let (pairs, r) := readPairs r
    (pair :: pairs, r)
termination_by s.length
decreasing_by
  have := length_of_readPair? _h
  omega

theorem length_of_readPairs (s : List Char) :
    (readPairs s).2.length ≤ s.length ∧
      ∀ pair ∈ (readPairs s).1, pair.2.length < s.length := by
  fun_induction readPairs s with
  | case1 s h => simp
  | case2 s pair r h pairs r' heq ih =>
    obtain ⟨key, value⟩ := pair
    have h1 := length_of_readPair? h
    rw [heq] at ih
    simp only at ih ⊢
    refine ⟨by omega, fun p hp => ?_⟩
    rcases List.mem_cons.1 hp with rfl | hp
    · simp only
      omega
    · have := ih.2 p hp
      omega

namespace LocalParams

/-- The parameters in front of a text that begins with an opening brace and an exclamation mark. -/
def read? : List Char → Option LocalParams
  | '\x7b' :: '!' :: s =>
    let (name?, s) :=
      match readName? s with
      | some (name, r) => (some (String.ofList name), r)
      | none => (none, s)
    let (pairs, s) := readPairs s
    match s with
    | '\x7d' :: rest =>
      some
        { name?
          params := pairs.map fun pair => (String.ofList pair.1, String.ofList pair.2)
          rest := String.ofList rest }
    | _ => none
  | _ => none

/-- The last value given for a key. -/
def get? (params : LocalParams) (key : String) : Option String :=
  params.params.reverse.lookup key

/-- The syntax of the query text: an explicit `type`, or else the leading name. -/
def kind (params : LocalParams) : String :=
  ((params.get? "type").or params.name?).getD "lucene"

/-- The query text: the parameter `v`, or else what stands behind the parameters. -/
def queryText (params : LocalParams) : String := (params.get? "v").getD params.rest

theorem mem_of_get? {params : LocalParams} {key value : String}
    (h : params.get? key = some value) : (key, value) ∈ params.params := by
  have := List.lookup_eq_some_iff.1 h
  obtain ⟨l₁, l₂, hl, _⟩ := this
  have hmem : (key, value) ∈ params.params.reverse := by simp [hl]
  simpa using hmem

/-- **The query text is shorter than the text it was read from.** -/
theorem length_queryText_lt {s : List Char} {params : LocalParams} (h : read? s = some params) :
    params.queryText.toList.length < s.length := by
  unfold read? at h
  split at h
  · rename_i s
    simp only at h
    have hname : (match readName? s with
        | some (name, r) => (some (String.ofList name), r)
        | none => (none, s)).2.length ≤ s.length := by
      split
      · rename_i name r hname
        exact length_of_readName? hname
      · exact Nat.le_refl _
    generalize (match readName? s with
        | some (name, r) => (some (String.ofList name), r)
        | none => (none, s)) = named at h hname
    have hpairs := length_of_readPairs named.2
    split at h
    · rename_i rest hrest
      cases h
      rw [hrest, List.length_cons] at hpairs
      simp only [queryText, List.length_cons]
      cases hv : get? _ "v" with
      | none =>
        simp only [Option.getD_none, String.toList_ofList]
        omega
      | some v =>
        have hmem := mem_of_get? hv
        simp only [List.mem_map, Prod.mk.injEq] at hmem
        obtain ⟨pair, hpair, _, rfl⟩ := hmem
        have := hpairs.2 pair hpair
        simp only [Option.getD_some, String.toList_ofList]
        omega
    · cases h
  · cases h

end LocalParams

end TermJoin.Syntax
