import Mathlib.Data.List.Nodup
import TermJoin.DocSet.Ascending
import TermJoin.Proofs.Syntax.LocalParams

/-!
# What parameters are read from

Whatever parameters a text is accepted with, they were cut out of it piece by piece. A value may be an unescaped
copy of its piece, but it is never longer, and no character serves twice.

* `total_map_le_of_subset`: different elements of a list count once each.
* `Text.Spelt`, `ParamSpelt`: how a value can be spelt between quotes, and at all.
* `exists_of_readPair?`: the text that a pair is read from; `Consumed`, **`consumed_readPairs`**: that of all pairs.
* **`LocalParams.takenFrom_queryText`**: the query text stands behind the parameters, or was spelt as a value of `v`.
* `LocalParams.size`, **`LocalParams.size_le_of_read?`**: all that the parameters hold was in the text.
* `LocalParams.total_valueSize_le`: the values of different keys count once each;
  **`LocalParams.length_queryText_add_le_size`**: what the parameters of a join hold beside its query text.
-/

namespace TermJoin

theorem total_map_le_of_subset {α : Type} (f : α → Nat) {first second : List α} (hnodup : first.Nodup)
    (hsub : first ⊆ second) : total (first.map f) ≤ total (second.map f) := by
  induction first generalizing second with
  | nil => exact Nat.zero_le _
  | cons a first ih =>
    obtain ⟨ha, hnodup⟩ := List.nodup_cons.1 hnodup
    -- the first element is taken out of the larger list, which keeps all others
    obtain ⟨before, behind, rfl⟩ := List.append_of_mem (hsub (.head _))
    have hrest : first ⊆ before ++ behind := by
      intro b hb
      have hne : b ≠ a := fun h => ha (h ▸ hb)
      simpa [hne] using hsub (.tail _ hb)
    have hle := ih hnodup hrest
    simp only [List.map_append, List.map_cons, total_append, total_cons] at hle ⊢
    omega

/-! ## Values between quotes -/

namespace Text

/-- How a text can be spelt between quotes: a character that is neither the quote nor a backslash as it is, and any
character behind a backslash. -/
inductive Spelt (quote : Char) : List Char → List Char → Prop
  | nil : Spelt quote [] []
  | plain {c : Char} {s t : List Char} (hquote : c ≠ quote) (hbackslash : c ≠ '\\') (h : Spelt quote s t) :
      Spelt quote (c :: s) (c :: t)
  | escaped {c : Char} {s t : List Char} (h : Spelt quote s t) : Spelt quote (c :: s) ('\\' :: c :: t)

variable {quote : Char} {s t r : List Char}

theorem Spelt.length_le (h : Spelt quote s t) : s.length ≤ t.length := by
  induction h with
  | nil => exact Nat.le_refl _
  | plain _ _ _ ih => exact Nat.succ_le_succ ih
  | escaped _ ih => exact Nat.le_succ_of_le (Nat.succ_le_succ ih)

/-- **What is read to the closing quote was spelt in front of it.** -/
theorem exists_of_readQuoted (h : readQuoted quote s = some (t, r)) :
    ∃ spelling, s = spelling ++ quote :: r ∧ Spelt quote t spelling := by
  fun_induction readQuoted quote s generalizing t r with
  | case1 => cases h
  | case2 c tail ih =>
    obtain ⟨⟨t, r⟩, htail, heq⟩ := Option.map_eq_some_iff.1 h
    cases heq
    obtain ⟨spelling, rfl, hspelt⟩ := ih htail
    exact ⟨'\\' :: c :: spelling, rfl, .escaped hspelt⟩
  | case3 tail =>
    cases h
    exact ⟨[], rfl, .nil⟩
  | case4 c tail hnot hquote ih =>
    obtain ⟨⟨t, r⟩, htail, heq⟩ := Option.map_eq_some_iff.1 h
    cases heq
    -- a backslash that escapes nothing is the last character, and no closing quote follows it
    have hbackslash : c ≠ '\\' := by
      rintro rfl
      cases tail with
      | nil => cases htail
      | cons d tail => exact hnot d tail rfl rfl
    obtain ⟨spelling, rfl, hspelt⟩ := ih htail
    exact ⟨c :: spelling, rfl, .plain hquote hbackslash hspelt⟩

theorem skipBlanks_suffix (s : List Char) : skipBlanks s <:+ s := List.dropWhile_suffix isBlank

end Text

namespace Syntax

/-! ## Pairs -/

/-- A value of a parameter as it can be spelt, bare or between quotes of either sort. -/
inductive ParamSpelt (value : List Char) : List Char → Prop
  | bare (h : IsBareParam value) : ParamSpelt value value
  | quoted {quote : Char} {t : List Char} (hquote : quote = '\'' ∨ quote = '"') (h : Text.Spelt quote value t) :
      ParamSpelt value (quote :: (t ++ [quote]))

variable {p : Char → Bool} {s run name key value t r : List Char}

theorem ParamSpelt.length_le (h : ParamSpelt value t) : value.length ≤ t.length := by
  cases h with
  | bare h => exact Nat.le_refl _
  | quoted hquote h =>
    have := h.length_le
    simp only [List.length_cons, List.length_append]
    omega

theorem append_of_takeRun? (h : takeRun? p s = some (run, r)) :
    s = run ++ r ∧ run ≠ [] ∧ ∀ c ∈ run, p c = true := by
  have hne := (length_of_takeRun? h).2
  unfold takeRun? at h
  split at h
  · cases h
  · cases h
    exact ⟨List.takeWhile_append_dropWhile.symm, hne, List.all_eq_true.1 List.all_takeWhile⟩

theorem exists_of_readParam? (h : readParam? s = some (value, r)) : ∃ t, s = t ++ r ∧ ParamSpelt value t := by
  have hquoted : ∀ {quote s}, quote = '\'' ∨ quote = '"' → Text.readQuoted quote s = some (value, r) →
      ∃ t, quote :: s = t ++ r ∧ ParamSpelt value t := by
    intro quote s hquote h
    obtain ⟨t, rfl, hspelt⟩ := Text.exists_of_readQuoted h
    exact ⟨quote :: (t ++ [quote]), by simp, .quoted hquote hspelt⟩
  unfold readParam? at h
  split at h
  · exact hquoted (.inl rfl) h
  · exact hquoted (.inr rfl) h
  · obtain ⟨rfl, hne, hbare⟩ := append_of_takeRun? h
    exact ⟨value, rfl, .bare ⟨hne, hbare⟩⟩

/-- **A pair is read from its key, an equals sign and a spelling of its value**, with any blanks around them. -/
theorem exists_of_readPair? (h : readPair? s = some ((key, value), r)) :
    ∃ w t w', s = w ++ (key ++ '=' :: (t ++ (w' ++ r))) ∧ ParamSpelt value t := by
  obtain ⟨w, hw⟩ := Text.skipBlanks_suffix s
  unfold readPair? at h
  split at h
  · rename_i key' r' hkey
    obtain ⟨⟨value', r''⟩, hvalue, heq⟩ := Option.map_eq_some_iff.1 h
    cases heq
    obtain ⟨t, rfl, hspelt⟩ := exists_of_readParam? hvalue
    obtain ⟨w', hw'⟩ := Text.skipBlanks_suffix r''
    refine ⟨w, t, w', ?_, hspelt⟩
    rw [hw', ← (append_of_takeRun? hkey).1, hw]
  · cases h

theorem exists_of_readName? (h : readName? s = some (name, r)) : ∃ w w', s = w ++ (name ++ (w' ++ r)) := by
  obtain ⟨w, hw⟩ := Text.skipBlanks_suffix s
  unfold readName? at h
  split at h
  · rename_i name' c r' hname
    split at h
    · cases h
    · cases h
      obtain ⟨w', hw'⟩ := Text.skipBlanks_suffix (c :: r')
      exact ⟨w, w', by rw [hw', ← (append_of_takeRun? hname).1, hw]⟩
  · cases h

/-- What pairs were read from, up to a rest: each was spelt there, and together with the rest they are not longer. -/
structure Consumed (s : List Char) (pairs : List (List Char × List Char)) (r : List Char) : Prop where
  suffix : r <:+ s
  spelt : ∀ pair ∈ pairs, ∃ t, ParamSpelt pair.2 t ∧ pair.1 ++ '=' :: t <:+: s
  length_le : total (pairs.map fun pair => pair.1.length + pair.2.length + 1) + r.length ≤ s.length

theorem consumed_nil (s : List Char) : Consumed s [] s :=
  ⟨List.suffix_rfl, by simp, Nat.le_of_eq (Nat.zero_add _)⟩

theorem Consumed.cons {pair : List Char × List Char} {pairs : List (List Char × List Char)} {r' : List Char}
    (h : readPair? s = some (pair, r)) (hrest : Consumed r pairs r') : Consumed s (pair :: pairs) r' := by
  obtain ⟨key, value⟩ := pair
  obtain ⟨w, t, w', rfl, hspelt⟩ := exists_of_readPair? h
  have hr : r <:+ w ++ (key ++ '=' :: (t ++ (w' ++ r))) := ⟨w ++ (key ++ '=' :: (t ++ w')), by simp⟩
  have hitem : key ++ '=' :: t <:+: w ++ (key ++ '=' :: (t ++ (w' ++ r))) := ⟨w, w' ++ r, by simp⟩
  refine ⟨hrest.suffix.trans hr, List.forall_mem_cons.2 ⟨⟨t, hspelt, hitem⟩, fun pair hpair => ?_⟩, ?_⟩
  · obtain ⟨t', hspelt', hinfix⟩ := hrest.spelt pair hpair
    exact ⟨t', hspelt', hinfix.trans hr.isInfix⟩
  · have hvalue := hspelt.length_le
    have hlength := hrest.length_le
    simp only [List.map_cons, total_cons, List.length_append, List.length_cons]
    omega

theorem consumed_readPairs (s : List Char) : Consumed s (readPairs s).1 (readPairs s).2 := by
  fun_induction readPairs s with
  | case1 s h => exact consumed_nil s
  | case2 s pair r h pairs r' heq ih =>
    rw [heq] at ih
    exact ih.cons h

/-! ## All parameters -/

/-- How the text of a sub-query is taken from a text: it stands behind a closing brace, or was spelt as a value of
the parameter `v`. -/
inductive TakenFrom (s sub : List Char) : Prop
  | behind (h : '\x7d' :: sub <:+ s)
  | value {t : List Char} (ht : ParamSpelt sub t) (h : 'v' :: '=' :: t <:+: s)

theorem TakenFrom.mono {s' sub : List Char} (h : TakenFrom s sub) (hs : s <:+ s') : TakenFrom s' sub := by
  cases h with
  | behind h => exact .behind (h.trans hs)
  | value ht h => exact .value ht (h.trans hs.isInfix)

/-- The characters of a pair, with its equals sign. -/
def pairSize (pair : String × String) : Nat := pair.1.length + pair.2.length + 1

namespace LocalParams

variable {params : LocalParams} {keys : List String}

/-- The characters of the leading name, if there is one. -/
def nameSize (params : LocalParams) : Nat := params.name?.elim 0 String.length

/-- The characters that the parameters hold, with the signs that belong to them: an exclamation mark, two braces, and
an equals sign for each pair. -/
def size (params : LocalParams) : Nat :=
  params.nameSize + total (params.params.map pairSize) + params.rest.length + 3

theorem exists_of_read? (h : read? s = some params) :
    ∃ front r pairs, s = front ++ r ∧ params.nameSize + 2 ≤ front.length ∧
      Consumed r pairs ('\x7d' :: params.rest.toList) ∧
      params.params = pairs.map fun pair => (String.ofList pair.1, String.ofList pair.2) := by
  unfold read? at h
  split at h
  · rename_i s
    cases hname : readName? s with
    | none =>
      have hconsumed := consumed_readPairs s
      simp only [hname] at h
      split at h
      · rename_i rest hrest
        cases h
        rw [hrest] at hconsumed
        exact ⟨['\x7b', '!'], s, _, rfl, Nat.le_refl _, by rwa [String.toList_ofList], rfl⟩
      · cases h
    | some named =>
      obtain ⟨name, r⟩ := named
      have hconsumed := consumed_readPairs r
      obtain ⟨w, w', rfl⟩ := exists_of_readName? hname
      simp only [hname] at h
      split at h
      · rename_i rest hrest
        cases h
        rw [hrest] at hconsumed
        refine ⟨'\x7b' :: '!' :: (w ++ (name ++ w')), r, _, by simp, ?_, by rwa [String.toList_ofList], rfl⟩
        simp only [nameSize, Option.elim_some, String.length_ofList, List.length_cons, List.length_append]
        omega
      · cases h
  · cases h

/-- **The query text is taken from the text that the parameters are read from.** -/
theorem takenFrom_queryText (h : read? s = some params) : TakenFrom s params.queryText.toList := by
  obtain ⟨front, r, pairs, rfl, -, hconsumed, hparams⟩ := exists_of_read? h
  refine TakenFrom.mono ?_ (List.suffix_append front r)
  rw [queryText]
  cases hv : params.get? "v" with
  | none => exact .behind hconsumed.suffix
  | some value =>
    -- the last value of the key is that of one of the pairs that were read
    have hmem := mem_of_get? hv
    rw [hparams, List.mem_map] at hmem
    obtain ⟨⟨key, value⟩, hpair, heq⟩ := hmem
    obtain ⟨hkey, rfl⟩ := Prod.mk.inj heq
    obtain ⟨t, hspelt, hinfix⟩ := hconsumed.spelt _ hpair
    rw [show key = ['v'] from String.ofList_injective hkey] at hinfix
    rw [Option.getD_some, String.toList_ofList]
    exact .value hspelt hinfix

/-- **All that the parameters hold was in the text**, each character once. -/
theorem size_le_of_read? (h : read? s = some params) : params.size ≤ s.length := by
  obtain ⟨front, r, pairs, rfl, hfront, hconsumed, hparams⟩ := exists_of_read? h
  have hpairs : total (params.params.map pairSize) =
      total (pairs.map fun pair => pair.1.length + pair.2.length + 1) := by
    simp [hparams, pairSize, Function.comp_def]
  have hlength := hconsumed.length_le
  rw [List.length_cons, String.length_toList] at hlength
  rw [size, hpairs, List.length_append]
  omega

/-! ## Values of different keys -/

/-- The characters that the last value of a key takes up, with the key and the equals sign. -/
def valueSize (params : LocalParams) (key : String) : Nat :=
  (params.get? key).elim 0 fun value => pairSize (key, value)

theorem valueSize_of_get? {key value : String} (h : params.get? key = some value) :
    params.valueSize key = key.length + value.length + 1 := by
  rw [valueSize, h]
  rfl

/-- The last values of some keys, with their keys. -/
def lastPairs (params : LocalParams) (keys : List String) : List (String × String) :=
  keys.filterMap fun key => (params.get? key).map (key, ·)

theorem lastPairs_subset : params.lastPairs keys ⊆ params.params := by
  intro pair hpair
  obtain ⟨key, -, hpair⟩ := List.mem_filterMap.1 hpair
  obtain ⟨value, hvalue, rfl⟩ := Option.map_eq_some_iff.1 hpair
  exact mem_of_get? hvalue

theorem nodup_lastPairs (hkeys : keys.Nodup) : (params.lastPairs keys).Nodup := by
  refine hkeys.filterMap fun key key' pair h h' => ?_
  obtain ⟨value, -, rfl⟩ := Option.map_eq_some_iff.1 h
  obtain ⟨value', -, heq⟩ := Option.map_eq_some_iff.1 h'
  exact (congrArg Prod.fst heq).symm

theorem total_lastPairs (params : LocalParams) (keys : List String) :
    total ((params.lastPairs keys).map pairSize) = total (keys.map params.valueSize) := by
  induction keys with
  | nil => rfl
  | cons key keys ih =>
    rw [List.map_cons, total_cons, ← ih, lastPairs, List.filterMap_cons, valueSize]
    cases params.get? key with
    | none => exact (Nat.zero_add _).symm
    | some value => rfl

/-- **The values of different keys count once each**: they belong to different pairs. -/
theorem total_valueSize_le (params : LocalParams) (hkeys : keys.Nodup) :
    total (keys.map params.valueSize) ≤ total (params.params.map pairSize) := by
  rw [← total_lastPairs]
  exact total_map_le_of_subset pairSize (nodup_lastPairs hkeys) lastPairs_subset

theorem length_kind_le (h : params.kind ≠ "lucene") :
    params.kind.length ≤ params.nameSize + params.valueSize "type" := by
  rw [kind] at h ⊢
  cases htype : params.get? "type" with
  | some type =>
    rw [valueSize_of_get? htype]
    change type.length ≤ _
    omega
  | none =>
    cases hname : params.name? with
    | some name =>
      rw [nameSize, hname]
      exact Nat.le_add_right _ _
    | none =>
      rw [htype, hname] at h
      exact absurd rfl h

theorem length_queryText_le (params : LocalParams) :
    params.queryText.length ≤ params.rest.length + params.valueSize "v" := by
  rw [queryText]
  cases hv : params.get? "v" with
  | none => exact Nat.le_add_right _ _
  | some value =>
    rw [valueSize_of_get? hv, Option.getD_some]
    omega

/-- **The parameters of a join hold more than its query text and the names of its fields**: the braces, the
exclamation mark, the word `join` and the two keys with their equals signs are 15 characters. -/
theorem length_queryText_add_le_size (hkind : params.kind = "join") {source target : String}
    (hfrom : params.get? "from" = some source) (hto : params.get? "to" = some target) :
    params.queryText.length + source.length + target.length + 15 ≤ params.size := by
  have hkeys : ["from", "to", "type", "v"].Nodup := by decide
  have hlengths : "join".length = 4 ∧ "from".length = 4 ∧ "to".length = 2 := by decide
  have hother : params.kind ≠ "lucene" := by
    rw [hkind]
    decide
  have hword := length_kind_le hother
  have htext := params.length_queryText_le
  have htotal := params.total_valueSize_le hkeys
  simp only [List.map_cons, List.map_nil, total_cons, total_nil, valueSize_of_get? hfrom,
    valueSize_of_get? hto] at htotal
  -- 4 of the word, 5 and 3 of the keys, and 3 of the braces and the exclamation mark
  rw [hkind] at hword
  rw [size]
  omega

end LocalParams

end Syntax

end TermJoin
