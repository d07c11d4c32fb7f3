import Mathlib.Order.Bounds.Basic
import TermJoin.Proofs.DocSet.Filter

/-!
# Moves of a cursor

A cursor takes its moves in any order: to the next document, and to targets, which may lie behind it. Each leads
to the least document that it allows, and none leads back.

* `MatchCursor.Move`, `MatchCursor.move?`, `MatchCursor.moveAll?`: a move can only be made from an index that
  is not past the end of the documents.
* `MatchCursor.ahead_next`, `MatchCursor.ahead_advance`: what a move leaves of the documents ahead.
* `MatchCursor.FirstOf`: the least document with a property; **`MatchCursor.firstOf_next`**,
  **`MatchCursor.firstOf_advance`**: where the moves lead.
* `MatchCursor.Reached`: what holds of a cursor after moves; **`MatchCursor.Reached.moveAll`**: all moves can be
  made, and keep to it.
* **`MatchCursor.moves_lead_on`**: the law of all moves.
-/

namespace TermJoin

/-! ## Ends of ascending lists -/

section Ascending

variable {docs : List Nat} {bound d : Nat}

theorem mem_drop_iff_le (hdocs : docs.Pairwise (· < ·)) (hbound : ∀ d ∈ docs, d < bound) (i : Nat) :
    d ∈ docs.drop i ↔ d ∈ docs ∧ docs[i]?.getD bound ≤ d := by
  induction docs generalizing i with
  | nil => simp
  | cons first rest ih =>
    obtain ⟨hfirst, hrest⟩ := List.pairwise_cons.1 hdocs
    obtain ⟨hlt, hbound⟩ := List.forall_mem_cons.1 hbound
    cases i with
    | zero =>
      rw [List.drop_zero, List.getElem?_cons_zero, Option.getD_some]
      refine (and_iff_left_of_imp fun hd => ?_).symm
      rcases List.mem_cons.1 hd with rfl | hd
      · exact Nat.le_refl d
      · exact Nat.le_of_lt (hfirst d hd)
    | succ i =>
      have hnot : ¬ rest[i]?.getD bound ≤ first := by
        cases hi : rest[i]? with
        | none => exact Nat.not_le.2 hlt
        | some e => exact Nat.not_le.2 (hfirst e (List.mem_of_getElem? hi))
      rw [List.drop_succ_cons, List.getElem?_cons_succ, ih hrest hbound, List.mem_cons, or_and_right]
      refine (or_iff_right ?_).symm
      rintro ⟨rfl, hle⟩
      exact hnot hle

theorem mem_drop_succ_iff_lt (hdocs : docs.Pairwise (· < ·)) (hbound : ∀ d ∈ docs, d < bound) (i : Nat) :
    d ∈ docs.drop (i + 1) ↔ d ∈ docs ∧ docs[i]?.getD bound < d := by
  rw [Nat.lt_iff_le_and_ne, ← and_assoc, ← mem_drop_iff_le hdocs hbound]
  cases hi : docs[i]? with
  | none =>
    have hlength := List.getElem?_eq_none_iff.1 hi
    rw [List.drop_eq_nil_of_le hlength, List.drop_eq_nil_of_le (Nat.le_succ_of_le hlength)]
    simp
  | some e =>
    obtain ⟨hlt, rfl⟩ := List.getElem?_eq_some_iff.1 hi
    have hsorted := hdocs.sublist (List.drop_sublist i docs)
    rw [List.drop_eq_getElem_cons hlt] at hsorted ⊢
    have hne : d ∈ docs.drop (i + 1) → docs[i] ≠ d := fun hd =>
      Nat.ne_of_lt (List.rel_of_pairwise_cons hsorted hd)
    rw [Option.getD_some, List.mem_cons]
    exact ⟨fun hd => ⟨.inr hd, hne hd⟩, fun h => h.1.resolve_left (Ne.symm h.2)⟩

theorem mem_dropWhile_lt_iff (hdocs : docs.Pairwise (· < ·)) (target : Nat) :
    d ∈ docs.dropWhile (· < target) ↔ d ∈ docs ∧ target ≤ d := by
  induction docs with
  | nil => simp
  | cons first rest ih =>
    obtain ⟨hfirst, hrest⟩ := List.pairwise_cons.1 hdocs
    rw [List.dropWhile_cons]
    split
    · rename_i hlt
      rw [decide_eq_true_eq] at hlt
      rw [ih hrest, List.mem_cons, or_and_right]
      refine (or_iff_right ?_).symm
      rintro ⟨rfl, hle⟩
      exact Nat.not_le.2 hlt hle
    · rename_i hge
      rw [decide_eq_true_eq, Nat.not_lt] at hge
      refine (and_iff_left_of_imp fun hd => ?_).symm
      rcases List.mem_cons.1 hd with rfl | hd
      · exact hge
      · exact Nat.le_trans hge (Nat.le_of_lt (hfirst d hd))

theorem drop_length_takeWhile {α : Type} (p : α → Bool) (l : List α) :
    l.drop (l.takeWhile p).length = l.dropWhile p := by
  have hsplit := List.takeWhile_append_dropWhile (p := p) (l := l)
  calc l.drop (l.takeWhile p).length
      = (l.takeWhile p ++ l.dropWhile p).drop (l.takeWhile p).length := by rw [hsplit]
    _ = l.dropWhile p := List.drop_left

end Ascending

namespace MatchCursor

variable {c c' : MatchCursor} {docs : Ascending} {d : Nat}

/-! ## The documents ahead -/

theorem toList_ahead (c : MatchCursor) : c.ahead.toList = c.docs.toList.drop c.current := by
  rw [ahead, Array.toList_extract, List.extract_eq_take_drop, List.take_of_length_le, Ascending.toList]
  rw [List.length_drop, Array.length_toList]

theorem doc_eq_head?_ahead (h : c.position ≠ none) : c.doc = c.ahead.toList.head?.getD noMoreDocs := by
  obtain ⟨i, hi⟩ := Option.ne_none_iff_exists'.1 h
  rw [toList_ahead, current, doc, hi, Option.getD_some, Option.bind_some, List.head?_drop, Ascending.toList,
    Array.getElem?_toList]

theorem pairwise_ahead (c : MatchCursor) : c.ahead.toList.Pairwise (· < ·) := by
  rw [toList_ahead]
  exact c.docs.pairwise_toList.sublist (List.drop_sublist _ _)

theorem ahead_next (c : MatchCursor) : c.next.ahead.toList = c.rest := toList_ahead c.next

theorem ahead_advance (c : MatchCursor) (target : Nat) :
    (c.advance target).ahead.toList = c.ahead.toList.dropWhile (· < target) := by
  have hmono : c.ahead.toList.Pairwise fun a b => decide (b < target) = true → decide (a < target) = true := by
    refine c.pairwise_ahead.imp fun hab => ?_
    rw [decide_eq_true_eq, decide_eq_true_eq]
    exact Nat.lt_trans hab
  rw [toList_ahead (c.advance target), ← drop_length_takeWhile, ← partitionPoint_eq hmono, toList_ahead c,
    List.drop_drop]
  rfl

section

variable (hdocs : ∀ d ∈ c.docs.toList, d < noMoreDocs)
include hdocs

theorem mem_ahead_iff : d ∈ c.ahead.toList ↔ d ∈ c.docs.toList ∧ (c.position ≠ none → c.doc ≤ d) := by
  rw [toList_ahead, current, doc]
  cases c.position with
  | none => simp
  | some i =>
    rw [Option.getD_some, Option.bind_some, mem_drop_iff_le c.docs.pairwise_toList hdocs, Ascending.toList,
      Array.getElem?_toList]
    simp

theorem mem_rest_iff : d ∈ c.rest ↔ d ∈ c.docs.toList ∧ (c.position ≠ none → c.doc < d) := by
  rw [rest, following, doc]
  cases c.position with
  | none => simp
  | some i =>
    have hdrop : c.docs.toList.drop (min (i + 1) c.size) = c.docs.toList.drop (i + 1) := by
      have hlength : c.docs.toList.length = c.size := c.docs.length_toList
      rcases Nat.le_total (i + 1) c.size with hle | hle
      · rw [Nat.min_eq_left hle]
      · rw [List.drop_eq_nil_of_le (by omega), List.drop_eq_nil_of_le (by omega)]
    rw [Option.bind_some]
    dsimp only
    rw [hdrop, mem_drop_succ_iff_lt c.docs.pairwise_toList hdocs, Ascending.toList, Array.getElem?_toList]
    simp

theorem doc_le : c.doc ≤ noMoreDocs := by
  by_cases hstart : c.position = none
  · rw [doc, hstart]
    exact Nat.le_refl _
  · rw [doc_eq_head?_ahead hstart]
    cases hhead : c.ahead.toList.head? with
    | none => exact Nat.le_refl _
    | some d => exact Nat.le_of_lt (hdocs d ((mem_ahead_iff hdocs).1 (List.mem_of_head? hhead)).1)

end

/-! ## Where moves lead -/

/-- The least of the documents with a property, or `noMoreDocs` if none has it. -/
def FirstOf (docs : Ascending) (p : Nat → Prop) (first : Nat) : Prop :=
  IsLeast {d | d ∈ docs.toList ∧ p d} first ∨ first = noMoreDocs ∧ ∀ d ∈ docs.toList, ¬ p d

theorem firstOf_head? {p : Nat → Prop} {l : List Nat} (hl : l.Pairwise (· < ·))
    (hmem : ∀ d, d ∈ l ↔ d ∈ docs.toList ∧ p d) : FirstOf docs p (l.head?.getD noMoreDocs) := by
  cases l with
  | nil => exact .inr ⟨rfl, fun d hd hp => List.not_mem_nil ((hmem d).2 ⟨hd, hp⟩)⟩
  | cons first rest =>
    refine .inl ⟨(hmem first).1 (.head _), fun d hd => ?_⟩
    rcases List.mem_cons.1 ((hmem d).2 hd) with rfl | hrest
    · exact Nat.le_refl d
    · exact Nat.le_of_lt (List.rel_of_pairwise_cons hl hrest)

section

variable (hdocs : ∀ d ∈ c.docs.toList, d < noMoreDocs)
include hdocs

/-- **The next document is the least one behind the current one.** -/
theorem firstOf_next : FirstOf c.docs (fun d => c.position ≠ none → c.doc < d) c.next.doc := by
  have hposition : c.next.position ≠ none := Option.some_ne_none _
  rw [doc_eq_head?_ahead hposition, ahead_next]
  exact firstOf_head? (c.docs.pairwise_toList.sublist (List.drop_sublist _ _)) fun d => mem_rest_iff hdocs

/-- **A target leads to the least document at or after it**, and at or after the current one. -/
theorem firstOf_advance (target : Nat) :
    FirstOf c.docs (fun d => target ≤ d ∧ (c.position ≠ none → c.doc ≤ d)) (c.advance target).doc := by
  have hposition : (c.advance target).position ≠ none := Option.some_ne_none _
  rw [doc_eq_head?_ahead hposition, ahead_advance]
  refine firstOf_head? (c.pairwise_ahead.sublist (List.dropWhile_sublist _)) fun d => ?_
  rw [mem_dropWhile_lt_iff c.pairwise_ahead, mem_ahead_iff hdocs, and_assoc, and_comm (b := target ≤ d)]

end

/-! ## Moves in any order -/

/-- What a cursor can be told to do. -/
inductive Move
  | next
  | advance (target : Nat)

/-- The cursor after a move. To look for a target it cuts the documents at its index, which must not lie past
their end. -/
def move? (c : MatchCursor) : Move → Option MatchCursor
  | .next => some c.next
  | .advance target => if c.current ≤ c.size then some (c.advance target) else none

/-- The cursor after moves, if all of them can be made. -/
def moveAll? (c : MatchCursor) (moves : List Move) : Option MatchCursor := moves.foldlM move? c

/-- Where moves leave a fresh cursor: it has no index before the first one, and one that is not past the end of
the documents from then on. -/
structure Reached (docs : Ascending) (moves : List Move) (c : MatchCursor) : Prop where
  docs_eq : c.docs = docs
  position_eq_none_iff : c.position = none ↔ moves = []
  current_le : c.current ≤ c.size

theorem reached_start (docs : Ascending) : Reached docs [] ⟨docs, none⟩ :=
  ⟨rfl, iff_of_true rfl rfl, Nat.zero_le _⟩

namespace Reached

variable {moves : List Move} (h : Reached docs moves c)
include h

theorem move (m : Move) : ∃ c', c.move? m = some c' ∧ Reached docs (moves ++ [m]) c' := by
  have hmoved : ∀ i : Nat, some i = none ↔ moves ++ [m] = [] := fun i =>
    iff_of_false (Option.some_ne_none i) (by simp)
  cases m with
  | next =>
    refine ⟨_, rfl, h.docs_eq, hmoved _, ?_⟩
    change c.following ≤ c.size
    rw [following]
    split
    · exact Nat.zero_le _
    · exact Nat.min_le_right _ _
  | advance target =>
    refine ⟨_, if_pos h.current_le, h.docs_eq, hmoved _, ?_⟩
    have hahead : partitionPoint c.ahead (· < target) ≤ c.size - c.current := by
      refine Nat.le_trans partitionPoint_le ?_
      rw [ahead, Array.size_extract, Nat.min_self]
      exact Nat.le_refl _
    have hcurrent := h.current_le
    change c.current + partitionPoint c.ahead (· < target) ≤ c.size
    omega

theorem moveAll (later : List Move) :
    ∃ c', c.moveAll? later = some c' ∧ Reached docs (moves ++ later) c' := by
  induction later generalizing c moves with
  | nil => exact ⟨c, rfl, by rwa [List.append_nil]⟩
  | cons m later ih =>
    obtain ⟨next, hnext, hreached⟩ := h.move m
    obtain ⟨c', hc', hlater⟩ := ih hreached
    refine ⟨c', ?_, by rwa [List.append_assoc] at hlater⟩
    rw [moveAll?, List.foldlM_cons, hnext]
    exact hc'

end Reached

theorem doc_le_of_move? (hdocs : ∀ d ∈ c.docs.toList, d < noMoreDocs) (hposition : c.position ≠ none) {m : Move}
    (h : c.move? m = some c') : c.doc ≤ c'.doc := by
  have hforward : ∀ {p : Nat → Prop}, (∀ d, p d → c.doc ≤ d) → FirstOf c.docs p c'.doc → c.doc ≤ c'.doc := by
    intro p hp hfirst
    rcases hfirst with hleast | hnone
    · exact hp _ hleast.1.2
    · rw [hnone.1]
      exact doc_le hdocs
  cases m with
  | next =>
    cases h
    exact hforward (fun d hd => Nat.le_of_lt (hd hposition)) (firstOf_next hdocs)
  | advance target =>
    rw [move?] at h
    split at h
    · cases h
      exact hforward (fun d hd => hd.2 hposition) (firstOf_advance hdocs target)
    · cases h

theorem Reached.doc_le_of_moveAll? {moves later : List Move} (h : Reached docs moves c)
    (hdocs : ∀ d ∈ docs.toList, d < noMoreDocs) (hmoves : moves ≠ []) (hlater : c.moveAll? later = some c') :
    c.doc ≤ c'.doc := by
  induction later generalizing c moves with
  | nil =>
    cases hlater
    exact Nat.le_refl _
  | cons m later ih =>
    obtain ⟨next, hnext, hreached⟩ := h.move m
    rw [moveAll?, List.foldlM_cons, hnext] at hlater
    have hstep := doc_le_of_move? (by rwa [h.docs_eq]) (mt h.position_eq_none_iff.1 hmoves) hnext
    exact Nat.le_trans hstep (ih hreached (by simp) hlater)

/-- **Moves lead on, in any order.** Whatever moves were made before, a cursor over documents can make another
one. The next document is the least one after the current one, and the first of all before the first move; a
target, wherever it lies, leads to the least document that is neither before it nor before the current one.
Where there is none, the cursor is at `noMoreDocs`, as it is before its first move, and stays there. It never
goes back. -/
theorem moves_lead_on (hdocs : ∀ d ∈ docs.toList, d < noMoreDocs) (moves : List Move) :
    ∃ c, (⟨docs, none⟩ : MatchCursor).moveAll? moves = some c ∧ (moves = [] → c.doc = noMoreDocs) ∧
      (∃ next, c.move? .next = some next ∧ FirstOf docs (fun d => moves ≠ [] → c.doc < d) next.doc) ∧
      (∀ target, ∃ advanced, c.move? (.advance target) = some advanced ∧
        FirstOf docs (fun d => target ≤ d ∧ (moves ≠ [] → c.doc ≤ d)) advanced.doc) ∧
      (moves ≠ [] → ∀ later, ∃ c', c.moveAll? later = some c' ∧ c.doc ≤ c'.doc ∧
        (c.doc = noMoreDocs → c'.doc = noMoreDocs)) := by
  obtain ⟨c, hc, hreached⟩ := (reached_start docs).moveAll moves
  rw [List.nil_append] at hreached
  have hposition : c.position ≠ none ↔ moves ≠ [] := not_congr hreached.position_eq_none_iff
  have hdocs' : ∀ d ∈ c.docs.toList, d < noMoreDocs := by rwa [hreached.docs_eq]
  refine ⟨c, hc, fun hstart => ?_, ⟨_, rfl, ?_⟩, fun target => ⟨_, if_pos hreached.current_le, ?_⟩,
    fun hmoves later => ?_⟩
  · rw [doc, hreached.position_eq_none_iff.2 hstart]
    rfl
  · simpa only [hreached.docs_eq, hposition] using firstOf_next hdocs'
  · simpa only [hreached.docs_eq, hposition] using firstOf_advance hdocs' target
  · obtain ⟨c', hc', hreached'⟩ := hreached.moveAll later
    have hle := hreached.doc_le_of_moveAll? hdocs hmoves hc'
    have hbound : c'.doc ≤ noMoreDocs := doc_le (by rwa [hreached'.docs_eq])
    exact ⟨c', hc', hle, fun hend => Nat.le_antisymm hbound (hend ▸ hle)⟩

/-- Behind the documents 2 and 5 a cursor stands at 9: a target that lies behind it keeps it there, and no other
document follows. -/
theorem moves_lead_on_to_nine :
    let docs : Ascending := ⟨#[2, 5, 9], by decide⟩
    ∃ c, (⟨docs, none⟩ : MatchCursor).moveAll? [.advance 3, .next] = some c ∧ c.doc = 9 ∧
      (∃ advanced, c.move? (.advance 4) = some advanced ∧ advanced.doc = 9) ∧
      (∃ next, c.move? .next = some next ∧ next.doc = noMoreDocs) ∧
      ∀ later, ∃ c', c.moveAll? later = some c' ∧ 9 ≤ c'.doc := by
  intro docs
  have hdocs : ∀ d ∈ docs.toList, d < noMoreDocs := by decide
  have hnine : ((⟨docs, none⟩ : MatchCursor).moveAll? [.advance 3, .next]).map doc = some 9 := by
    decide +kernel
  obtain ⟨c, hc, -, ⟨next, hnext, hfirst⟩, hadvance, hlater⟩ := moves_lead_on hdocs [.advance 3, .next]
  rw [hc, Option.map_some, Option.some.injEq] at hnine
  rw [hnine] at hfirst hadvance hlater
  obtain ⟨advanced, hadvanced, hleast⟩ := hadvance 4
  refine ⟨c, hc, hnine, ⟨advanced, hadvanced, ?_⟩, ⟨next, hnext, ?_⟩, fun later => ?_⟩
  · have hmem : 9 ∈ docs.toList := by decide
    rcases hleast with hleast | hnone
    · exact Nat.le_antisymm (hleast.2 ⟨hmem, by decide, fun _ => Nat.le_refl 9⟩) (hleast.1.2.2 (by simp))
    · exact absurd ⟨by decide, fun _ => Nat.le_refl 9⟩ (hnone.2 9 hmem)
  · rcases hfirst with hleast | hnone
    · have hall : ∀ d ∈ docs.toList, d ≤ 9 := by decide
      exact absurd (hleast.1.2 (by simp)) (Nat.not_lt.2 (hall _ hleast.1.1))
    · exact hnone.1
  · obtain ⟨c', hc', hle, -⟩ := hlater (by simp) later
    exact ⟨c', hc', hle⟩

end MatchCursor

end TermJoin
