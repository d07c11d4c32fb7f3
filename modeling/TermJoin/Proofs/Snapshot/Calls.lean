import TermJoin.Proofs.Index.Sound
import TermJoin.Proofs.Scoring.Search

/-!
# Calls to a snapshot

A snapshot and its copies serve calls in any order, and all of them read and fill the same caches. Nobody can
tell from an answer what was asked before.

* `Call`, `Answer`, `Snapshot.serve`: what can be asked, and what comes back.
* `Snapshot.cachesAfter`: the caches after some calls, empty before the first.
* **`Snapshot.Sound.settles_serve`**: a call settles, whatever weight or cursor it is made on.
* **`Snapshot.Sound.faithful_cachesAfter`**, **`Snapshot.Sound.keptIn_cachesAfter`**: the caches are faithful
  at any time, and drop nothing.
* **`Snapshot.Reachable.caches_invisible`**: all of it for the snapshots that some history leads to.
-/

namespace TermJoin

/-- What can be asked of a snapshot. Weights and cursors are those of the snapshot, in any state. -/
inductive Call
  | termDocs (field text : String)
  | cursorDocs (cursor : TermCursor)
  | docSet (q : Query)
  | join (source target : String) (selected : DocSet)
  | runJoin (source target : String) (sub : Query)
  | search (q : Query)
  | searchScheduled (schedule : List SegmentView) (q : Query)
  | explain (q : Query) (doc : Nat)
  | scorer (w : Weight) (view : SegmentView)
  | explainIn (w : Weight) (view : SegmentView) (doc : Nat)

/-- What comes back from a call, with the weight it was made on. -/
inductive Answer
  | docs (result : Except Fault DocSet)
  | joined (result : Except Fault (DocSet × JoinStatistics))
  | hits (result : Except Fault (List Hit))
  | explanation (result : Except Fault Explanation)
  | scorer (result : Except Fault Scorer × Weight)
  | explanationIn (result : Except Fault Explanation × Weight)

namespace Snapshot

/-- The answer to a call. -/
def serve (s : Snapshot) : Call → Cached Answer
  | .termDocs field text => (.docs <| .ok ·) <$> s.cachedTermDocs field text
  | .cursorDocs cursor => (.docs <| .ok ·) <$> TermCursor.docSet { cursor with snapshot := s }
  | .docSet q => .docs <$> (s.docSet q).run
  | .join source target selected => .joined <$> (s.joinDocs source target selected).run
  | .runJoin source target sub => .joined <$> (s.runJoin source target sub).run
  | .search q => .hits <$> (s.search q).run
  | .searchScheduled schedule q => .hits <$> (s.searchScheduled schedule q).run
  | .explain q doc => .explanation <$> (s.explain q doc).run
  | .scorer w view => .scorer <$> (Weight.scorer view).run.run { w with snapshot := s }
  | .explainIn w view doc => .explanationIn <$> (Weight.explain view doc).run.run { w with snapshot := s }

/-- The caches after calls, one after the other, that were empty before the first. -/
def cachesAfter (s : Snapshot) (calls : List Call) : Caches :=
  calls.foldl (fun caches call => ((s.serve call).run caches).2) {}

/-- The result of a computation after some calls. -/
def resultAfter {α : Type} (s : Snapshot) (calls : List Call) (act : Exec α) : Except Fault α :=
  (act.run.run (s.cachesAfter calls)).1

/-! ## Weights in any state -/

variable {s : Snapshot} {w : Weight}

namespace Settles

variable {α β : Type} {l : List β}

theorem mapMState {f : β → StateT Weight Cached α} {R : β → α → Prop} {Q : Weight → Prop} (hw : Q w)
    (h : ∀ b ∈ l, ∀ w, Q w → s.Settles ((f b).run w) fun r => R b r.1 ∧ Q r.2) :
    s.Settles ((l.mapM f).run w) fun r => List.Forall₂ R l r.1 ∧ Q r.2 := by
  induction l generalizing w with
  | nil => exact .pure ⟨.nil, hw⟩
  | cons b rest ih =>
    obtain ⟨hb, hrest⟩ := List.forall_mem_cons.1 h
    rw [List.mapM_cons, StateT.run_bind]
    refine (hb w hw).bind fun r hr => ?_
    rw [StateT.run_bind]
    exact (ih hr.2 hrest).bind fun r' hr' => .pure ⟨.cons hr.1 hr'.1, hr'.2⟩

theorem mapM_of_forall {f : β → Exec α} (h : ∀ b ∈ l, s.Settles (f b).run fun _ => True) :
    s.Settles (l.mapM f).run fun _ => True := by
  induction l with
  | nil => exact .ok trivial
  | cons b rest ih =>
    obtain ⟨hb, hrest⟩ := List.forall_mem_cons.1 h
    rw [List.mapM_cons]
    refine hb.bindExec (fun a _ => ?_) fun _ _ => trivial
    exact (ih hrest).bindExec (fun as _ => .ok trivial) fun _ _ => trivial

end Settles

theorem snapshot_normalizedWeight {q : Query} (h : s.normalizedWeight q = .ok w) : w.snapshot = s := by
  obtain ⟨q', _, heq⟩ := exists_of_bind_eq_ok h
  cases heq
  rfl

namespace Sound

variable (hs : s.Sound)
include hs

theorem settles_scorer (hw : w.snapshot = s) (view : SegmentView) :
    s.Settles ((Weight.scorer view).run.run w) fun r => r.2.snapshot = s := by
  by_cases hview : view.stamp = w.snapshot.stamp
  · have hready : Weight.Ready w w fun _ => True := ⟨rfl, fun _ _ => trivial⟩
    have hfind : s.Settles w.find.run fun _ => True := (hs.settles_find hw).mono fun _ _ => trivial
    exact (hready.settles_scorer hfind hview).mono fun r hr => hr.1.snapshot_eq.trans hw
  · rw [Weight.run_scorer_of_ne hview]
    exact .pure hw

theorem settles_explainIn (hw : w.snapshot = s) (view : SegmentView) (doc : Nat) :
    s.Settles ((Weight.explain view doc).run.run w) fun r => r.2.snapshot = s := by
  rw [Weight.explain]
  refine (hs.settles_scorer hw view).bindWeight (fun scorer w' hw' => ?_) fun fault w' hw' => hw'
  rw [Weight.run_get_bind]
  split
  · exact .pure hw'
  · exact .pure hw'

theorem settles_hitsOf (hw : w.snapshot = s) (view : SegmentView) :
    s.Settles ((segmentHits view).run.run w) fun r => r.2.snapshot = s := by
  rw [segmentHits]
  exact (hs.settles_scorer hw view).bindWeight (fun scorer w' hw' => .pure hw') fun fault w' hw' => hw'

theorem settles_scheduledHits (hw : w.snapshot = s) (schedule : List SegmentView) :
    s.Settles ((scheduledHits schedule).run w) fun r => r.2.snapshot = s := by
  rw [scheduledHits]
  refine (Settles.mapMState (Q := fun w => w.snapshot = s) (R := fun _ _ => True) hw
    fun view _ w' hw' => ?_).mono fun r hr => hr.2
  rw [StateT.run_bind]
  exact (hs.settles_hitsOf hw' view).bind fun r hr => .pure ⟨trivial, hr⟩

/-! ## Searches and explanations -/

theorem settles_searchScheduled (schedule : List SegmentView) (q : Query) :
    s.Settles (s.searchScheduled schedule q).run fun _ => True := by
  rw [searchScheduled]
  refine (Settles.ofExcept _).bindExec (fun w hw => ?_) fun _ _ => trivial
  have hsnapshot := snapshot_normalizedWeight hw.symm
  refine Settles.bindLift ((hs.settles_scheduledHits hsnapshot schedule).map fun _ _ => trivial)
    fun results (_ : True) => ?_
  have hlist : s.Settles (s.segments.mapM fun view =>
      (ofExcept ((results.lookup view.ord).getD (.ok [])) : Exec (List Hit))).run fun _ => True :=
    Settles.mapM_of_forall fun view _ => (Settles.ofExcept _).mono fun _ _ => trivial
  exact hlist.bindExec (fun hits _ => .ok trivial) fun _ _ => trivial

theorem settles_explain (q : Query) (doc : Nat) :
    s.Settles (s.explain q doc).run fun _ => True := by
  rw [explain]
  refine (Settles.ofExcept _).bindExec (fun w hw => ?_) fun _ _ => trivial
  have hsnapshot := snapshot_normalizedWeight hw.symm
  split
  · exact Settles.withWeight ((hs.settles_explainIn hsnapshot _ _).mono fun _ _ => trivial)
  · exact .ok trivial

/-! ## Calls -/

/-- **A call has the same answer whatever calls came before**, and leaves faithful caches. -/
theorem settles_serve (call : Call) : s.Settles (s.serve call) fun _ => True := by
  cases call with
  | termDocs field text => exact (Settles.cachedTermDocs field text).map fun _ _ => trivial
  | cursorDocs cursor =>
    have hset := TermCursor.settles_docSet (c := { cursor with snapshot := s }) rfl
    exact hset.map fun _ _ => trivial
  | docSet q => exact (hs.settles_docSet q).map fun _ _ => trivial
  | join source target selected => exact (settles_joinDocs s source target selected).map fun _ _ => trivial
  | runJoin source target sub =>
    exact (hs.settles_joinOf source target .one (hs.settles_computeDocs sub)).map fun _ _ => trivial
  | search q => exact (hs.settles_search q).map fun _ _ => trivial
  | searchScheduled schedule q => exact (hs.settles_searchScheduled schedule q).map fun _ _ => trivial
  | explain q doc => exact (hs.settles_explain q doc).map fun _ _ => trivial
  | scorer w view => exact (hs.settles_scorer rfl view).map fun _ _ => trivial
  | explainIn w view doc => exact (hs.settles_explainIn rfl view doc).map fun _ _ => trivial

theorem faithful_cachesAfter (calls : List Call) : s.Faithful (s.cachesAfter calls) := by
  rw [cachesAfter]
  refine List.foldlRecOn calls _ faithful_empty fun caches hcaches call _ => ?_
  exact (hs.settles_serve call).faithful hcaches

theorem resultAfter_of_settles {α : Type} {act : Exec α} {P : Except Fault α → Prop}
    (h : s.Settles act.run P) (calls : List Call) : P (s.resultAfter calls act) :=
  h.result (hs.faithful_cachesAfter calls)

theorem keptIn_cachesAfter (calls later : List Call) :
    (s.cachesAfter calls).KeptIn (s.cachesAfter (calls ++ later)) := by
  have hstart : s.Faithful (s.cachesAfter calls) ∧ (s.cachesAfter calls).KeptIn (s.cachesAfter calls) :=
    ⟨hs.faithful_cachesAfter calls, .refl _⟩
  rw [cachesAfter, cachesAfter, List.foldl_append, ← cachesAfter]
  refine (List.foldlRecOn (motive := fun caches => s.Faithful caches ∧ (s.cachesAfter calls).KeptIn caches)
    later _ hstart fun caches hcaches call _ => ?_).2
  have hserve := hs.settles_serve call
  exact ⟨hserve.faithful hcaches.1, hcaches.2.trans (hserve.keptIn hcaches.1)⟩

end Sound

/-! ## What can be told from answers -/

/-- **The caches are bounded, and no answer depends on them.** After any calls, each entry for a term is the
set of the term, and each one for a query is the set that is computed for it with nothing remembered; there are
no more entries than there is room for, and later calls remove and change none. So a call is answered as it is
with nothing remembered. A weight comes to a call as earlier calls left it, and goes back with the answer. -/
theorem Reachable.caches_invisible (h : s.Reachable) (calls : List Call) :
    let caches := s.cachesAfter calls
    (∀ (term : Term) (set : DocSet),
      caches.terms[term]? = some set → set = s.termDocs term.field term.text) ∧
    (∀ (q : Query) (set : DocSet),
      caches.queries[q]? = some set → ((s.computeDocs q).run.run {}).1 = .ok set) ∧
    caches.terms.size ≤ s.config.termCapacity ∧
    caches.queries.size ≤ s.config.queryCapacity ∧
    (∀ later, caches.KeptIn (s.cachesAfter (calls ++ later))) ∧
    ∀ call, ((s.serve call).run caches).1 = ((s.serve call).run {}).1 := by
  intro caches
  have hfaithful : s.Faithful caches := h.sound.faithful_cachesAfter calls
  refine ⟨hfaithful.terms, ?_, hfaithful.size_terms, hfaithful.size_queries, ?_, ?_⟩
  · intro q set hset
    rw [← fst_run_docSet_empty]
    exact hfaithful.queries q set hset
  · intro later
    exact h.sound.keptIn_cachesAfter calls later
  · intro call
    exact (h.sound.settles_serve call).result_eq hfaithful

/-- Two documents in two segments, with room for one term and for no query. -/
def crampedSnapshot : Snapshot :=
  afterHistory ⟨[("a", .text), ("b", .text)]⟩
    { (default : Config) with termCapacity := 1, queryCapacity := 0 } 0
    [.add (.ofList [("a", "x")]), .commit, .add (.ofList [("b", "x")]), .commit]

/-- A join is answered as ever when another term has taken the room, and it leaves that entry alone. -/
theorem crampedSnapshot_join :
    let caches := crampedSnapshot.cachesAfter [.docSet (.term ⟨"a", "y"⟩), .search .all]
    let join := Call.docSet (.join "a" "b" (.term ⟨"a", "x"⟩) .one)
    caches.terms.size ≤ 1 ∧ caches.queries.size ≤ 0 ∧
      caches.KeptIn (crampedSnapshot.cachesAfter [.docSet (.term ⟨"a", "y"⟩), .search .all, join]) ∧
      ((crampedSnapshot.serve join).run caches).1 = ((crampedSnapshot.serve join).run {}).1 := by
  intro caches join
  have hreachable : crampedSnapshot.Reachable := reachable_afterHistory _ _ _ _
  obtain ⟨_, _, hterms, hqueries, hkept, hanswer⟩ :=
    hreachable.caches_invisible [.docSet (.term ⟨"a", "y"⟩), .search .all]
  exact ⟨hterms, hqueries, hkept [join], hanswer join⟩

end Snapshot

end TermJoin
