import TermJoin.Proofs.Syntax.WellFormed
import TermJoin.Proofs.Syntax.WrittenParams

/-!
# Gaps between parameters

Blanks of all sorts are skipped around parameters, but only a space, a tab or a line feed ends a name, a key or a
value without quotes. Any other blank is read on into the word in front of it, and takes what follows with it.

* `Separates`: a gap begins with a blank that ends a word; `EndsWords`: the classes of characters that words are
  made of, as far as blanks go.
* `Query.gappedText`: a join with gaps of all sorts between its parameters.
* **`Query.read?_gappedText`**: its parameters if both gaps separate; `Query.exists_read?_gappedText`: what they
  tell of the gaps otherwise.
* `Query.readChars_gappedText_of_all`: how a join gets lost.
* **`Query.read_gapped`**: the text is read as the join exactly if both gaps separate.
-/

namespace TermJoin

open Syntax

namespace Syntax

open Text (Blank Stops)

/-! ## Ends of words -/

/-- The gap begins with a blank that ends a word: a space, a tab or a line feed. -/
def Separates (gap : List Char) : Prop := gap.head? ∈ [some ' ', some '\t', some '\n']

instance (gap : List Char) : Decidable (Separates gap) :=
  inferInstanceAs (Decidable (gap.head? ∈ [some ' ', some '\t', some '\n']))

/-- Of the blanks, those that end a word are not in the class, and all others are. -/
def EndsWords (p : Char → Bool) : Prop :=
  ∀ c, Text.isBlank c = true → (p c = false ↔ c = ' ' ∨ c = '\t' ∨ c = '\n')

theorem endsWords_isKeyChar : EndsWords isKeyChar := by
  intro c hc
  have hbrace : c ≠ '\x7d' := ne_of_class hc (by decide)
  have hequals : c ≠ '=' := ne_of_class hc (by decide)
  rw [isKeyChar, Bool.not_eq_false', List.contains_iff_mem]
  simp [hbrace, hequals]

theorem endsWords_isBareChar : EndsWords isBareChar := by
  intro c hc
  have hbrace : c ≠ '\x7d' := ne_of_class hc (by decide)
  have hsingle : c ≠ '\'' := ne_of_class hc (by decide)
  have hdouble : c ≠ '"' := ne_of_class hc (by decide)
  rw [isBareChar, Bool.not_eq_false', List.contains_iff_mem]
  simp [hbrace, hsingle, hdouble]

variable {p : Char → Bool} {gap : List Char}

theorem EndsWords.separates_iff (hp : EndsWords p) (hgap : Blank gap) (hne : gap ≠ []) :
    Separates gap ↔ Stops p gap := by
  cases gap with
  | nil => exact absurd rfl hne
  | cons c gap => simp [Separates, Stops, hp c (hgap c (.head _))]

theorem Separates.ne_nil (h : Separates gap) : gap ≠ [] := by
  rintro rfl
  simp [Separates] at h

theorem Separates.append (h : Separates gap) (r : List Char) : Separates (gap ++ r) := by
  obtain ⟨c, gap, rfl⟩ := List.exists_cons_of_ne_nil h.ne_nil
  exact h

/-- A gap begins with what is read on into the word in front of it, which is nothing only if it separates. -/
theorem EndsWords.exists_split (hp : EndsWords p) (hgap : Blank gap) (hne : gap ≠ []) :
    ∃ taken left, gap = taken ++ left ∧ (∀ c ∈ taken, p c = true) ∧ Stops p left ∧
      (taken = [] → Separates gap) := by
  have hstops : Stops p (gap.dropWhile p) := by
    intro c hc
    have hhead := List.head?_dropWhile_not p gap
    rwa [Option.mem_def.1 hc] at hhead
  refine ⟨gap.takeWhile p, gap.dropWhile p, List.takeWhile_append_dropWhile.symm,
    List.all_eq_true.1 List.all_takeWhile, hstops, fun hnil => ?_⟩
  have hall : gap.dropWhile p = gap := by
    simpa [hnil] using List.takeWhile_append_dropWhile (p := p) (l := gap)
  rwa [hp.separates_iff hgap hne, ← hall]

theorem isBareChar_of_isWordChar {c : Char} (h : isWordChar c = true) : isBareChar c = true := by
  have hnone : ∀ a ∈ [' ', '\t', '\n', '\x7d', '\'', '"'], ¬ isWordChar a = true := List.any_eq_false.1 rfl
  rw [isBareChar, Bool.not_eq_true', ← Bool.not_eq_true, List.contains_iff_mem]
  exact fun hmem => hnone c hmem h

theorem isBareParam_of_isWordChar {value : List Char} (hne : value ≠ [])
    (h : ∀ c ∈ value, isWordChar c = true) : IsBareParam value :=
  ⟨hne, fun c hc => isBareChar_of_isWordChar (h c hc)⟩

end Syntax

namespace Query

open Text (Blank Stops)

variable {schema : Schema} {source target sub gap gap' : List Char} {params : LocalParams} {q : Query}

/-! ## Parameters between gaps -/

/-- The text of a join with these gaps in front of its two parameters. -/
def gappedText (gap source gap' target sub : List Char) : List Char :=
  '\x7b' :: '!' :: (joinWord ++
    (gap ++ (fromKey ++ '=' :: (source ++ (gap' ++ (toKey ++ '=' :: (target ++ '\x7d' :: sub)))))))

/-- A pair and another one behind a gap. If the gap does not separate them, the value of the first one has at
least some of it in it. -/
theorem exists_pairsWritten {w key : List Char} (hw : Blank w) (hkey : IsKey key) (hsource : IsBareParam source)
    (htarget : IsBareParam target) (hgap : Blank gap) (hne : gap ≠ []) :
    ∃ value more, PairsWritten ((key, value) :: more)
        (w ++ (key ++ '=' :: (source ++ (gap ++ (toKey ++ '=' :: target))))) ∧
      (more = [] ∨ more = [(toKey, target)]) ∧ (value = source → Separates gap) := by
  obtain ⟨taken, left, rfl, htaken, hleft, hsep⟩ := endsWords_isBareChar.exists_split hgap hne
  cases left with
  | nil =>
    -- the gap and the second pair belong to the value
    have hvalue : IsBareParam (source ++ (taken ++ (toKey ++ '=' :: target))) := by
      refine ⟨by simp [hsource.nonempty], ?_⟩
      have hto : ∀ c ∈ toKey, isBareChar c = true := List.all_eq_true.1 rfl
      simp only [List.forall_mem_append, List.forall_mem_cons]
      exact ⟨hsource.bare, htaken, hto, by decide, htarget.bare⟩
    refine ⟨source ++ (taken ++ (toKey ++ '=' :: target)), [], ?_, .inl rfl, fun heq => ?_⟩
    · simpa using PairsWritten.cons hw hkey (.bare hvalue) Text.stops_nil (.nil Text.blank_nil)
    · simp at heq
  | cons c left =>
    have hvalue : IsBareParam (source ++ taken) :=
      ⟨by simp [hsource.nonempty], List.forall_mem_append.2 ⟨hsource.bare, htaken⟩⟩
    have hto : IsKey toKey := by decide
    have hblank : Blank (c :: left) := fun a ha => hgap a (List.mem_append_right _ ha)
    have hpair := PairsWritten.cons hblank hto (.bare htarget) Text.stops_nil (.nil Text.blank_nil)
    refine ⟨source ++ taken, _, ?_, .inr rfl, fun heq => hsep (by simpa using heq)⟩
    simpa using PairsWritten.cons hw hkey (.bare hvalue) (hleft.append (List.cons_ne_nil c left) _) hpair

theorem get?_of_pairs {key value : List Char} {more : List (List Char × List Char)}
    (hparams : params.params = ((key, value) :: more).map fun pair => (String.ofList pair.1, String.ofList pair.2))
    (hmore : more = [] ∨ more = [(toKey, target)]) {x : String} (hx : x ≠ "to") :
    params.get? x = if String.ofList key = x then some (String.ofList value) else none := by
  have hto : String.ofList toKey ≠ x := hx.symm
  rw [LocalParams.get?, lookup_eq_head?, List.filter_reverse, hparams]
  rcases hmore with rfl | rfl
  · by_cases h : String.ofList key = x <;> simp [h]
  · by_cases h : String.ofList key = x <;> simp [h, hto]

section

variable (hsource : IsBareParam source) (htarget : IsBareParam target) (hgap' : Blank gap') (hne' : gap' ≠ [])
include hsource htarget hgap' hne'

/-- If nothing in the gap ends a word, there is no leading name, but a key that goes on to the end of the first
one. -/
theorem exists_read?_of_all (hgap : ∀ c ∈ gap, isKeyChar c = true) (sub : List Char) :
    ∃ params, LocalParams.read? (gappedText gap source gap' target sub) = some params ∧
      params.kind = "lucene" ∧ params.get? "from" = none ∧ params.queryText = String.ofList sub := by
  have hkey : IsKey (joinWord ++ (gap ++ fromKey)) := by
    have hjoin : ∀ c ∈ joinWord, isKeyChar c = true := List.all_eq_true.1 rfl
    have hfrom : ∀ c ∈ fromKey, isKeyChar c = true := List.all_eq_true.1 rfl
    refine ⟨by simp [joinWord], ?_, Text.stops_cons (by decide)⟩
    simp only [List.forall_mem_append]
    exact ⟨hjoin, hgap, hfrom⟩
  obtain ⟨value, more, hpairs, hmore, -⟩ := exists_pairsWritten Text.blank_nil hkey hsource htarget hgap' hne'
  have hread := LocalParams.read?_unnamed hpairs (Text.stops_cons (by decide)) sub
  have hnot : ∀ x : String, x.toList.head? ≠ some 'j' → String.ofList (joinWord ++ (gap ++ fromKey)) ≠ x := by
    rintro _ hx rfl
    simp [joinWord] at hx
  refine ⟨_, (congrArg _ (by simp [gappedText])).trans hread, ?_, ?_, ?_⟩
  · rw [LocalParams.kind, get?_of_pairs rfl hmore (by decide), if_neg (hnot "type" (by decide))]
    rfl
  · rw [get?_of_pairs rfl hmore (by decide), if_neg (hnot "from" (by decide))]
  · rw [LocalParams.queryText, get?_of_pairs rfl hmore (by decide), if_neg (hnot "v" (by decide))]
    rfl

theorem exists_read?_of_stops {taken left : List Char} (htaken : ∀ c ∈ taken, isKeyChar c = true)
    (hleft : Blank left) (hne : left ≠ []) (hstops : Stops isKeyChar left) (sub : List Char) :
    ∃ params, LocalParams.read? (gappedText (taken ++ left) source gap' target sub) = some params ∧
      params.kind = String.ofList (joinWord ++ taken) ∧
      (params.get? "from" = some (String.ofList source) → Separates gap') := by
  have hname : IsKey (joinWord ++ taken) := by
    have hjoin : ∀ c ∈ joinWord, isKeyChar c = true := List.all_eq_true.1 rfl
    exact ⟨by simp [joinWord], List.forall_mem_append.2 ⟨hjoin, htaken⟩, Text.stops_cons (by decide)⟩
  have hfrom : IsKey fromKey := by decide
  obtain ⟨value, more, hpairs, hmore, hvalue⟩ := exists_pairsWritten hleft hfrom hsource htarget hgap' hne'
  obtain ⟨c, left, rfl⟩ := List.exists_cons_of_ne_nil hne
  have hequals : c ≠ '=' := ne_of_class (hleft c (.head _)) (by decide)
  have hread := LocalParams.read?_named hname hpairs (by simpa using ⟨hstops c rfl, hequals⟩) sub
  refine ⟨_, (congrArg _ (by simp [gappedText])).trans hread, ?_, fun hfirst => hvalue ?_⟩
  · rw [LocalParams.kind, get?_of_pairs rfl hmore (by decide), if_neg (by decide)]
    rfl
  · have hkey : String.ofList fromKey = "from" := rfl
    rw [get?_of_pairs rfl hmore (by decide), if_pos hkey] at hfirst
    exact String.ofList_inj.1 (Option.some.inj hfirst)

theorem exists_read?_gappedText (hgap : Blank gap) (hne : gap ≠ []) (sub : List Char) :
    ∃ params, LocalParams.read? (gappedText gap source gap' target sub) = some params ∧
      (params.kind = "join" → Separates gap) ∧
      (params.get? "from" = some (String.ofList source) → Separates gap') := by
  obtain ⟨taken, left, rfl, htaken, hstops, hsep⟩ := endsWords_isKeyChar.exists_split hgap hne
  by_cases hleft : left = []
  · subst hleft
    obtain ⟨params, hread, hkind, hfrom, -⟩ :=
      exists_read?_of_all hsource htarget hgap' hne' (by simpa using htaken) sub
    refine ⟨params, by rwa [List.append_nil], fun hjoin => ?_, fun hsome => ?_⟩
    · rw [hkind] at hjoin
      exact absurd hjoin (by decide)
    · rw [hfrom] at hsome
      cases hsome
  · have hblank : Blank left := fun a ha => hgap a (List.mem_append_right _ ha)
    obtain ⟨params, hread, hkind, hfrom⟩ :=
      exists_read?_of_stops hsource htarget hgap' hne' htaken hblank hleft hstops sub
    refine ⟨params, hread, fun hjoin => hsep ?_, hfrom⟩
    rw [hkind] at hjoin
    simpa [joinWord] using congrArg String.toList hjoin

end

theorem readPairs_eq_nil {key r : List Char} (hkey : IsKey key) (hr : Separates r ∨ r.head? = some '\x7d') :
    readPairs (key ++ '=' :: r) = ([], key ++ '=' :: r) := by
  have hvalue : readParam? r = none := by
    cases r with
    | nil => simp [Separates] at hr
    | cons c r =>
      have hc : c = ' ' ∨ c = '\t' ∨ c = '\n' ∨ c = '\x7d' := by simpa [Separates, or_assoc] using hr
      rcases hc with rfl | rfl | rfl | rfl <;> rfl
  have hnone : readPair? (key ++ '=' :: r) = none := by
    rw [readPair?, Text.skipBlanks_of_stops (hkey.stops_isBlank _),
      takeRun?_append hkey.nonempty hkey.plain (Text.stops_cons (by decide))]
    change Option.map _ (readParam? r) = _
    rw [hvalue]
    rfl
  rw [readPairs, hnone]

section

variable {key key' value : List Char} (hgap : Blank gap) (hsep : Separates gap) (hkey : IsKey key)
  (hkey' : IsKey key')
include hgap hsep hkey hkey'

theorem readName?_gap (r : List Char) : readName? (key ++ (gap ++ (key' ++ r))) = some (key, key' ++ r) := by
  have hstops := (endsWords_isKeyChar.separates_iff hgap hsep.ne_nil).1 hsep
  obtain ⟨c, gap, rfl⟩ := List.exists_cons_of_ne_nil hsep.ne_nil
  have hequals : c ≠ '=' := ne_of_class (hgap c (.head _)) (by decide)
  rw [List.cons_append, readName?_append hkey (hstops c rfl) hequals, ← List.cons_append,
    Text.skipBlanks_append hgap, Text.skipBlanks_of_stops (hkey'.stops_isBlank r)]

theorem readPairs_gap (hvalue : IsBareParam value) (r : List Char) :
    readPairs (key ++ '=' :: (value ++ (gap ++ (key' ++ r)))) =
      ((key, value) :: (readPairs (key' ++ r)).1, (readPairs (key' ++ r)).2) := by
  have hstops := (endsWords_isBareChar.separates_iff hgap hsep.ne_nil).1 hsep
  have hread := readPairs_cons Text.blank_nil hkey (.bare hvalue) (hstops.append hsep.ne_nil (key' ++ r))
  rwa [List.nil_append, Text.skipBlanks_append hgap, Text.skipBlanks_of_stops (hkey'.stops_isBlank r)] at hread

end

/-- **Gaps that separate make no difference.** Fields without a name cannot be written at all. -/
theorem read?_gappedText (hgap : Blank gap) (hsep : Separates gap) (hgap' : Blank gap') (hsep' : Separates gap')
    (hsource : ∀ c ∈ source, isWordChar c = true) (htarget : ∀ c ∈ target, isWordChar c = true)
    (sub : List Char) :
    LocalParams.read? (gappedText gap source gap' target sub) =
      if source = [] ∨ target = [] then none
      else some (joinParams (String.ofList source) (String.ofList target) (String.ofList sub)) := by
  have hjoin : IsKey joinWord := by decide
  have hfrom : IsKey fromKey := by decide
  have hto : IsKey toKey := by decide
  rw [gappedText, LocalParams.read?, readName?_gap hgap hsep hjoin hfrom]
  dsimp only
  by_cases hs : source = []
  · rw [if_pos (.inl hs), hs, List.nil_append, readPairs_eq_nil hfrom (.inl (hsep'.append _))]
    rfl
  · rw [readPairs_gap hgap' hsep' hfrom hto (isBareParam_of_isWordChar hs hsource)]
    by_cases ht : target = []
    · rw [if_pos (.inr ht), ht, List.nil_append, readPairs_eq_nil hto (.inr rfl)]
      rfl
    · have hend : Stops isBareChar ('\x7d' :: sub) := Text.stops_cons (by decide)
      have hlast := readPairs_cons Text.blank_nil hto (.bare (isBareParam_of_isWordChar ht htarget)) hend
      rw [List.nil_append, Text.skipBlanks_of_stops (Text.stops_cons (by decide)), readPairs_close] at hlast
      rw [hlast, if_neg (not_or.2 ⟨hs, ht⟩)]
      rfl

/-! ## Joins between gaps -/

theorem exists_join_of_readBehind (hkind : params.kind = "join") (h : readBehind schema params = .ok q) :
    ∃ first second sub, params.get? "from" = some first ∧ q = .join first second sub .one := by
  rw [readBehind, if_pos hkind] at h
  obtain ⟨⟨first, second⟩, hfields, h⟩ := exists_of_bind_eq_ok h
  obtain ⟨sub, -, h⟩ := exists_of_bind_eq_ok h
  exact ⟨first, second, sub, (get?_of_readJoinFields hfields).1, (Except.ok.inj h).symm⟩

theorem kind_of_readBehind (h : readBehind schema params = .ok q) (hjoin : q.isJoin = true) :
    params.kind = "join" := by
  by_cases hkind : params.kind = "join"
  · exact hkind
  · rw [readBehind, if_neg hkind] at h
    split at h
    · rw [(plain_of_readStandard h q (mem_parts_self q)).2] at hjoin
      cases hjoin
    · cases h

theorem readChars_gappedText (hsource : ∀ c ∈ source, isWordChar c = true)
    (htarget : ∀ c ∈ target, isWordChar c = true) (hgap : Blank gap) (hsep : Separates gap) (hgap' : Blank gap')
    (hsep' : Separates gap') (sub : List Char) :
    readChars schema (gappedText gap source gap' target sub) =
      readChars schema (gappedText [' '] source [' '] target sub) := by
  have hspace : Blank [' '] := by decide
  have hread : LocalParams.read? (gappedText gap source gap' target sub) =
      LocalParams.read? (gappedText [' '] source [' '] target sub) := by
    rw [read?_gappedText hgap hsep hgap' hsep' hsource htarget,
      read?_gappedText hspace (by decide) hspace (by decide) hsource htarget]
  rw [gappedText, gappedText] at hread ⊢
  rw [readChars_params, readChars_params, hread]

/-- **A join is read exactly if its gaps separate.** -/
theorem readChars_gappedText_eq_ok_iff (hsource : ∀ c ∈ source, isWordChar c = true)
    (htarget : ∀ c ∈ target, isWordChar c = true) (hgap : Blank gap) (hne : gap ≠ []) (hgap' : Blank gap')
    (hne' : gap' ≠ []) (hspaced : readChars schema (gappedText [' '] source [' '] target sub) = .ok q) :
    readChars schema (gappedText gap source gap' target sub) = .ok q ↔ Separates gap ∧ Separates gap' := by
  refine ⟨fun hgapped => ?_, fun ⟨hsep, hsep'⟩ => ?_⟩
  · have hspace : Blank [' '] := by decide
    have hparams := read?_gappedText hspace (by decide) hspace (by decide) hsource htarget sub
    by_cases hempty : source = [] ∨ target = []
    · rw [if_pos hempty] at hparams
      rw [gappedText] at hparams hspaced
      rw [readChars_params, hparams] at hspaced
      cases hspaced
    · rw [if_neg hempty] at hparams
      obtain ⟨hs, ht⟩ := not_or.1 hempty
      rw [readChars_of_params hparams] at hspaced
      obtain ⟨first, second, inner, hfirst, rfl⟩ := exists_join_of_readBehind rfl hspaced
      -- the other text gives the same join only if its parameters name the same kind and source
      obtain ⟨params, hread, hkind, hfrom⟩ := exists_read?_gappedText (isBareParam_of_isWordChar hs hsource)
        (isBareParam_of_isWordChar ht htarget) hgap' hne' hgap hne sub
      rw [readChars_of_params hread] at hgapped
      have hjoin := kind_of_readBehind hgapped rfl
      obtain ⟨_, _, _, hget, heq⟩ := exists_join_of_readBehind hjoin hgapped
      cases heq
      have hsame : some (String.ofList source) = some first := hfirst
      exact ⟨hkind hjoin, hfrom (hget.trans hsame.symm)⟩
  · rwa [readChars_gappedText hsource htarget hgap hsep hgap' hsep']

/-- If nothing in the first gap ends a word, the join is lost: its sub-query is read in the standard syntax. -/
theorem readChars_gappedText_of_all (hsource : IsBareParam source) (htarget : IsBareParam target)
    (hgap : ∀ c ∈ gap, isKeyChar c = true) (hgap' : Blank gap') (hne' : gap' ≠ []) (sub : List Char) :
    readChars schema (gappedText gap source gap' target sub) = readStandard schema sub := by
  obtain ⟨params, hread, hkind, -, htext⟩ := exists_read?_of_all hsource htarget hgap' hne' hgap sub
  have hjoin : params.kind ≠ "join" := by
    rw [hkind]
    decide
  rw [readChars_of_params hread, readBehind, if_neg hjoin, if_pos hkind, htext, String.toList_ofList]

/-! ## Texts -/

/-- A join with these gaps in front of its two parameters. -/
def gapped (gap source gap' target sub : String) : String :=
  "\x7b!join" ++ gap ++ "from=" ++ source ++ gap' ++ "to=" ++ target ++ "\x7d" ++ sub

theorem toList_gapped (gap source gap' target sub : String) :
    (gapped gap source gap' target sub).toList =
      gappedText gap.toList source.toList gap'.toList target.toList sub.toList := by
  simp [gapped, gappedText, joinWord, fromKey, toKey]

/-- **A join may have gaps that begin with a space, a tab or a line feed, and no others.** Such gaps are read as
single spaces, whatever the result is. With any other blank at the start of a gap, a join that is read with
single spaces is not read any more. -/
theorem read_gapped {source target gap gap' : String} (hsource : ∀ c ∈ source.toList, isWordChar c = true)
    (htarget : ∀ c ∈ target.toList, isWordChar c = true) (hgap : Blank gap.toList) (hne : gap ≠ "")
    (hgap' : Blank gap'.toList) (hne' : gap' ≠ "") (schema : Schema) (sub : String) :
    (Separates gap.toList → Separates gap'.toList → Query.read schema (gapped gap source gap' target sub) =
      Query.read schema (gapped " " source " " target sub)) ∧
    ∀ q, Query.read schema (gapped " " source " " target sub) = .ok q →
      (Query.read schema (gapped gap source gap' target sub) = .ok q ↔
        Separates gap.toList ∧ Separates gap'.toList) := by
  have hchars : gap.toList ≠ [] := mt String.toList_eq_nil_iff.1 hne
  have hchars' : gap'.toList ≠ [] := mt String.toList_eq_nil_iff.1 hne'
  simp only [Query.read, toList_gapped]
  exact ⟨fun hsep hsep' => readChars_gappedText hsource htarget hgap hsep hgap' hsep' sub.toList,
    fun q hspaced => readChars_gappedText_eq_ok_iff hsource htarget hgap hchars hgap' hchars' hspaced⟩

theorem read_gapped_spaces {source target : String} (hsource : IsBareParam source.toList)
    (htarget : IsBareParam target.toList) (hfrom : schema.hasField source = true)
    (hto : schema.hasField target = true) :
    Query.read schema (gapped " " source " " target "*:*") = .ok (.join source target .all .one) := by
  have hjoin := readChars_joinText hsource htarget hfrom hto "*:*".toList
  have hall : readChars schema "*:*".toList = .ok .all := readChars_leaf .all rfl
  rw [hall] at hjoin
  rw [Query.read, toList_gapped]
  exact hjoin

/-- A tab, and a line feed with a space behind it, are read as spaces; a carriage return is not, even with a line
feed behind it. -/
theorem familyTree_read_gapped :
    let join := Query.join "id" "parent" .all .one
    Query.read .familyTree (gapped "\t" "id" "\n " "parent" "*:*") = .ok join ∧
      Query.read .familyTree (gapped "\r\n" "id" " " "parent" "*:*") ≠ .ok join := by
  intro join
  have hspaced : Query.read .familyTree (gapped " " "id" " " "parent" "*:*") = .ok join :=
    read_gapped_spaces (by decide) (by decide) (by decide) (by decide)
  have hid : ∀ c ∈ "id".toList, isWordChar c = true := List.all_eq_true.1 rfl
  have hparent : ∀ c ∈ "parent".toList, isWordChar c = true := List.all_eq_true.1 rfl
  constructor
  · refine ((read_gapped hid hparent (by decide) (by decide) (by decide) (by decide) _ _).2 join hspaced).2 ?_
    decide
  · intro hread
    have hsep := ((read_gapped hid hparent (by decide) (by decide) (by decide) (by decide) _ _).2
      join hspaced).1 hread
    exact absurd hsep (by decide)

/-- With a carriage return in place of a space the join is lost, and all documents are asked for. -/
theorem carriageReturn_loses_join :
    let schema : Schema := ⟨[("a", .text)]⟩
    Blank "\r".toList ∧ Query.read schema (gapped "\r" "a" " " "a" "*:*") = .ok .all ∧
      Query.read schema (gapped " " "a" " " "a" "*:*") = .ok (.join "a" "a" .all .one) := by
  intro schema
  have hstart : Stops Text.isBlank "*:*".toList := by decide
  have hall : readChars schema "*:*".toList = .ok .all := readChars_leaf .all rfl
  have hlost : readChars schema (gappedText ['\r'] ['a'] [' '] ['a'] "*:*".toList) = _ :=
    readChars_gappedText_of_all (by decide) (by decide) (List.all_eq_true.1 rfl) (by decide) (by decide) _
  rw [← readChars_standard hstart rfl, hall] at hlost
  exact ⟨by decide, hlost, read_gapped_spaces (by decide) (by decide) (by decide) (by decide)⟩

end Query

end TermJoin
