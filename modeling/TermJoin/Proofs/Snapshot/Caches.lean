import TermJoin.Proofs.Snapshot.Stops
import TermJoin.Query.Evaluation

/-!
# Computations on remembered results

The caches hold nothing that would not be computed anew, and not more than there is room for. On such caches
a computation always has the same result, and it leaves such caches, with all that stood there before.

* `Snapshot.Faithful`: each entry is what a computation on empty caches has as its result, and there is room
  for all of them.
* `Caches.KeptIn`: no entry was removed or changed.
* **`Snapshot.Settles`**: one result on all faithful caches, a property of it, and afterwards faithful caches
  that keep every entry.
* `Settles.pure`, `Settles.bind`, `Settles.bindExec`, `Settles.mapM`: a computation settles if its steps do.
* **`Settles.cachedTermDocs`**, **`Settles.throughCache`**: going through a cache settles.
* **`TermCursor.settles_docSet`**: and so do the live documents of a cursor, which come from either side.
-/

namespace TermJoin

namespace Caches

/-- Each entry of the first caches stands unchanged in the second. -/
structure KeptIn (before after : Caches) : Prop where
  terms : ∀ (term : Term) (set : DocSet),
    before.terms[term]? = some set → after.terms[term]? = some set
  queries : ∀ (q : Query) (set : DocSet),
    before.queries[q]? = some set → after.queries[q]? = some set

variable {a b c : Caches}

theorem KeptIn.refl (caches : Caches) : caches.KeptIn caches where
  terms _ _ h := h
  queries _ _ h := h

theorem KeptIn.trans (hab : a.KeptIn b) (hbc : b.KeptIn c) : a.KeptIn c where
  terms term set h := hbc.terms term set (hab.terms term set h)
  queries q set h := hbc.queries q set (hab.queries q set h)

end Caches

namespace Snapshot

/-- Each entry is what a computation on empty caches has as its result, and there is room for all of them. -/
structure Faithful (s : Snapshot) (caches : Caches) : Prop where
  terms : ∀ (term : Term) (set : DocSet),
    caches.terms[term]? = some set → set = s.termDocs term.field term.text
  queries : ∀ (q : Query) (set : DocSet),
    caches.queries[q]? = some set → ((s.docSet q).run.run {}).1 = .ok set
  size_terms : caches.terms.size ≤ s.config.termCapacity
  size_queries : caches.queries.size ≤ s.config.queryCapacity

/-- The computation has one result on all faithful caches, with the property, and leaves faithful caches that
keep every entry. -/
def Settles (s : Snapshot) {α : Type} (act : Cached α) (P : α → Prop) : Prop :=
  ∃ a, P a ∧ ∀ caches, s.Faithful caches →
    (act.run caches).1 = a ∧ s.Faithful (act.run caches).2 ∧ caches.KeptIn (act.run caches).2

variable {s : Snapshot} {α β : Type}

theorem faithful_empty : s.Faithful {} where
  terms term set h := by
    rw [Std.HashMap.getElem?_empty] at h
    cases h
  queries q set h := by
    rw [Std.HashMap.getElem?_empty] at h
    cases h
  size_terms := Nat.zero_le _
  size_queries := Nat.zero_le _

/-! ## Steps -/

namespace Settles

variable {act : Cached α} {P Q : α → Prop} {caches : Caches}

theorem result (h : s.Settles act P) (hcaches : s.Faithful caches) : P (act.run caches).1 := by
  obtain ⟨a, ha, hact⟩ := h
  rw [(hact caches hcaches).1]
  exact ha

theorem faithful (h : s.Settles act P) (hcaches : s.Faithful caches) :
    s.Faithful (act.run caches).2 := by
  obtain ⟨a, _, hact⟩ := h
  exact (hact caches hcaches).2.1

theorem keptIn (h : s.Settles act P) (hcaches : s.Faithful caches) : caches.KeptIn (act.run caches).2 := by
  obtain ⟨a, _, hact⟩ := h
  exact (hact caches hcaches).2.2

theorem result_eq (h : s.Settles act P) (hcaches : s.Faithful caches) :
    (act.run caches).1 = (act.run {}).1 := by
  obtain ⟨a, _, hact⟩ := h
  rw [(hact caches hcaches).1, (hact {} faithful_empty).1]

theorem exists_eq (h : s.Settles act P) : ∃ a, P a ∧ s.Settles act (· = a) := by
  obtain ⟨a, ha, hact⟩ := h
  exact ⟨a, ha, a, rfl, hact⟩

theorem mono (h : s.Settles act P) (hPQ : ∀ a, P a → Q a) : s.Settles act Q := by
  obtain ⟨a, ha, hact⟩ := h
  exact ⟨a, hPQ a ha, hact⟩

theorem pure {a : α} (h : P a) : s.Settles (pure a) P :=
  ⟨a, h, fun caches hcaches => ⟨rfl, hcaches, .refl caches⟩⟩

theorem bind {next : α → Cached β} {R : β → Prop} (h : s.Settles act P)
    (hnext : ∀ a, P a → s.Settles (next a) R) : s.Settles (act >>= next) R := by
  obtain ⟨a, ha, hact⟩ := h
  obtain ⟨b, hb, hnext⟩ := hnext a ha
  refine ⟨b, hb, fun caches hcaches => ?_⟩
  obtain ⟨hresult, hfaithful, hkept⟩ := hact caches hcaches
  obtain ⟨hresult', hfaithful', hkept'⟩ := hnext _ hfaithful
  rw [StateT.run_bind]
  change (StateT.run (next (act.run caches).1) (act.run caches).2).1 = b ∧
    s.Faithful (StateT.run (next (act.run caches).1) (act.run caches).2).2 ∧
      caches.KeptIn (StateT.run (next (act.run caches).1) (act.run caches).2).2
  rw [hresult]
  exact ⟨hresult', hfaithful', hkept.trans hkept'⟩

theorem map {f : α → β} {R : β → Prop} (h : s.Settles act P) (hf : ∀ a, P a → R (f a)) :
    s.Settles (f <$> act) R := by
  obtain ⟨a, ha, hact⟩ := h
  refine ⟨f a, hf a ha, fun caches hcaches => ?_⟩
  obtain ⟨hresult, hleft⟩ := hact caches hcaches
  exact ⟨congrArg f hresult, hleft⟩

end Settles

/-! ## Steps that can fail -/

namespace Settles

variable {act : Exec α} {P : Except Fault α → Prop}

theorem ok {a : α} (h : P (.ok a)) : s.Settles (Pure.pure a : Exec α).run P := .pure h

theorem fail {fault : Fault} (h : P (.error fault)) : s.Settles (throw fault : Exec α).run P := .pure h

theorem ofExcept (result : Except Fault α) :
    s.Settles (MonadExcept.ofExcept result : Exec α).run (· = result) := by
  cases result with
  | ok a => exact .ok rfl
  | error fault => exact .fail rfl

theorem bindExec {next : α → Exec β} {R : Except Fault β → Prop} (h : s.Settles act.run P)
    (hok : ∀ a, P (.ok a) → s.Settles (next a).run R)
    (herror : ∀ fault, P (.error fault) → R (.error fault)) : s.Settles (act >>= next).run R := by
  rw [ExceptT.run_bind]
  refine Settles.bind h fun r hr => ?_
  cases r with
  | ok a => exact hok a hr
  | error fault => exact .pure (herror fault hr)

theorem lift {act : Cached α} {P : α → Prop} {R : Except Fault α → Prop} (h : s.Settles act P)
    (hR : ∀ a, P a → R (.ok a)) : s.Settles (liftM act : Exec α).run R :=
  h.map hR

theorem bindLift {act : Cached α} {P : α → Prop} {next : α → Exec β} {R : Except Fault β → Prop}
    (h : s.Settles act P) (hnext : ∀ a, P a → s.Settles (next a).run R) :
    s.Settles ((liftM act : Exec α) >>= next).run R := by
  obtain ⟨a, ha, hact⟩ := h
  have hact' : s.Settles act (· = a) := ⟨a, rfl, hact⟩
  have hlift : s.Settles (liftM act : Exec α).run (· = .ok a) :=
    hact'.lift fun _ heq => congrArg Except.ok heq
  refine hlift.bindExec (fun a' ha' => ?_) fun fault hfault => nomatch hfault
  cases ha'
  exact hnext a ha

theorem mapM {l : List β} {f : β → Exec α} {g : β → α}
    (h : ∀ b ∈ l, s.Settles (f b).run (· = .ok (g b))) :
    s.Settles (l.mapM f).run (· = .ok (l.map g)) := by
  induction l with
  | nil => exact .ok rfl
  | cons b rest ih =>
    obtain ⟨hb, hrest⟩ := List.forall_mem_cons.1 h
    rw [List.mapM_cons]
    refine hb.bindExec (fun a ha => ?_) fun fault hfault => nomatch hfault
    cases ha
    refine (ih hrest).bindExec (fun as has => ?_) fun fault hfault => nomatch hfault
    cases has
    exact .ok rfl

end Settles

/-! ## Tables -/

/-- An entry that agrees with what stands under its key takes the place of nothing. -/
theorem getElem?_insert_of_getElem? {κ ν : Type} [BEq κ] [LawfulBEq κ] [Hashable κ] [LawfulHashable κ]
    {table : Std.HashMap κ ν} {key : κ} {value : ν} (hkey : ∀ old, table[key]? = some old → value = old)
    {k : κ} {v : ν} (h : table[k]? = some v) : (table.insert key value)[k]? = some v := by
  rw [Std.HashMap.getElem?_insert]
  split
  · rename_i heq
    rw [hkey v (eq_of_beq heq ▸ h)]
  · exact h

theorem Faithful.rememberTerm {caches : Caches} (h : s.Faithful caches) (field text : String) :
    s.Faithful (caches.rememberTerm s.config.termCapacity ⟨field, text⟩ (s.termDocs field text)) := by
  rw [Caches.rememberTerm]
  split
  · rename_i hroom
    refine ⟨fun term set hset => ?_, h.queries, ?_, h.size_queries⟩
    · rw [Std.HashMap.getElem?_insert] at hset
      split at hset
      · rename_i heq
        cases hset
        rw [← eq_of_beq heq]
      · exact h.terms term set hset
    · exact Nat.le_trans Std.HashMap.size_insert_le hroom
  · exact h

theorem Faithful.rememberQuery {caches : Caches} (h : s.Faithful caches) {q : Query} {set : DocSet}
    (hq : ((s.docSet q).run.run {}).1 = .ok set) :
    s.Faithful (caches.rememberQuery s.config.queryCapacity q set) := by
  rw [Caches.rememberQuery]
  split
  · rename_i hroom
    refine ⟨h.terms, fun q' set' hset => ?_, h.size_terms, ?_⟩
    · rw [Std.HashMap.getElem?_insert] at hset
      split at hset
      · rename_i heq
        cases hset
        rw [← eq_of_beq heq]
        exact hq
      · exact h.queries q' set' hset
    · exact Nat.le_trans Std.HashMap.size_insert_le hroom
  · exact h

theorem Faithful.keptIn_rememberTerm {caches : Caches} (h : s.Faithful caches) (capacity : Nat)
    (field text : String) :
    caches.KeptIn (caches.rememberTerm capacity ⟨field, text⟩ (s.termDocs field text)) := by
  rw [Caches.rememberTerm]
  split
  · refine ⟨fun term set hset => ?_, fun _ _ hset => hset⟩
    exact getElem?_insert_of_getElem? (fun old hold => (h.terms _ old hold).symm) hset
  · exact .refl caches

theorem Faithful.keptIn_rememberQuery {caches : Caches} (h : s.Faithful caches) (capacity : Nat)
    {q : Query} {set : DocSet} (hq : ((s.docSet q).run.run {}).1 = .ok set) :
    caches.KeptIn (caches.rememberQuery capacity q set) := by
  rw [Caches.rememberQuery]
  split
  · refine ⟨fun _ _ hset => hset, fun q' set' hset => ?_⟩
    refine getElem?_insert_of_getElem? (fun old hold => ?_) hset
    exact Except.ok.inj (hq.symm.trans (h.queries q old hold))
  · exact .refl caches

theorem run_cachedTermDocs (field text : String) (caches : Caches) :
    (s.cachedTermDocs field text).run caches =
      match caches.terms[Term.mk field text]? with
      | some set => (set, caches)
      | none => (s.termDocs field text,
          caches.rememberTerm s.config.termCapacity ⟨field, text⟩ (s.termDocs field text)) := by
  change (match caches.terms[Term.mk field text]? with
    | some set => _
    | none => _ : Cached DocSet).run caches = _
  cases caches.terms[Term.mk field text]? <;> rfl

/-- **The set of a term is the same from the cache and without it.** -/
theorem Settles.cachedTermDocs (field text : String) :
    s.Settles (s.cachedTermDocs field text) (· = s.termDocs field text) := by
  refine ⟨_, rfl, fun caches hcaches => ?_⟩
  rw [run_cachedTermDocs]
  cases hget : caches.terms[Term.mk field text]? with
  | some set => exact ⟨hcaches.terms _ set hget, hcaches, .refl caches⟩
  | none => exact ⟨rfl, hcaches.rememberTerm field text, hcaches.keptIn_rememberTerm _ field text⟩

theorem run_throughCache (q : Query) (compute : Exec DocSet) (caches : Caches) :
    (s.throughCache q compute).run.run caches =
      match caches.queries[q]? with
      | some set => (.ok set, caches)
      | none =>
        match compute.run.run caches with
        | (.ok set, caches) => (.ok set, caches.rememberQuery s.config.queryCapacity q set)
        | (.error fault, caches) => (.error fault, caches) := by
  change (match caches.queries[q]? with
    | some set => Pure.pure set
    | none => _ : Exec DocSet).run.run caches = _
  cases caches.queries[q]? with
  | some set => rfl
  | none =>
    dsimp only
    rw [ExceptT.run_bind, StateT.run_bind]
    cases compute.run.run caches with
    | mk result caches' => cases result <;> rfl

theorem fst_run_docSet_empty (q : Query) :
    ((s.docSet q).run.run {}).1 = ((s.computeDocs q).run.run {}).1 := by
  rw [docSet, run_throughCache, Std.HashMap.getElem?_empty]
  cases (s.computeDocs q).run.run {} with
  | mk result caches => cases result <;> rfl

theorem Settles.throughCache {q : Query} {P : Except Fault DocSet → Prop}
    (h : s.Settles (s.computeDocs q).run P) :
    s.Settles (s.throughCache q (s.computeDocs q)).run P := by
  obtain ⟨r, hr, hcompute⟩ := h
  have hfresh : ((s.docSet q).run.run {}).1 = r :=
    (fst_run_docSet_empty q).trans (hcompute {} faithful_empty).1
  refine ⟨r, hr, fun caches hcaches => ?_⟩
  rw [run_throughCache]
  cases hget : caches.queries[q]? with
  | some set => exact ⟨(hcaches.queries q set hget).symm.trans hfresh, hcaches, .refl caches⟩
  | none =>
    obtain ⟨hresult, hfaithful, hkept⟩ := hcompute caches hcaches
    cases hrun : (s.computeDocs q).run.run caches with
    | mk result caches' =>
      rw [hrun] at hresult hfaithful hkept
      cases hresult
      cases result with
      | ok set =>
        exact ⟨rfl, hfaithful.rememberQuery hfresh, hkept.trans (hfaithful.keptIn_rememberQuery _ hfresh)⟩
      | error fault => exact ⟨rfl, hfaithful, hkept⟩

end Snapshot

/-! ## Cursors -/

namespace TermCursor

variable {c : TermCursor} {s : Snapshot}

/-- The live documents of the current term, be they remembered or not. -/
def liveSet (c : TermCursor) : DocSet :=
  match c.term? with
  | none => .empty
  | some text => c.snapshot.termDocs c.field text

/-- **The live documents of a cursor are the same from the cache and without it.** -/
theorem settles_docSet (h : c.snapshot = s) : s.Settles c.docSet (· = c.liveSet) := by
  rw [docSet, liveSet, h]
  cases c.term? with
  | none => exact .pure rfl
  | some text =>
    dsimp only
    split
    · exact .cachedTermDocs _ _
    · exact .pure rfl

theorem OnTerm.liveSet_eq {field text : String} (h : c.OnTerm s field text) :
    c.liveSet = s.termDocs field text := by
  rw [liveSet, h.term?_eq, h.snapshot_eq, h.field_eq]

end TermCursor

end TermJoin
