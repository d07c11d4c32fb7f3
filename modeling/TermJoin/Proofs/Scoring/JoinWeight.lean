import TermJoin.Proofs.Index.Program
import TermJoin.Proofs.Join.Members

/-!
# The life of a join weight

A weight of a join answers calls in any order. It runs the join at the first call that asks for documents, and
all later ones get what was found then, be it documents or a fault; only a run that broke off for want of room is
not the last. A segment of another snapshot is refused, be it one of the same index or of another, and nothing is
run for it. Scaling changes the value of what is scored afterwards, and nothing else.

* `WeightCall`, `WeightReply`, `Weight.serve`: what a weight can be asked, and what it replies.
* `WeightCall.asks`, `valueAfter`: which calls ask for documents, and the value after some calls.
* `Weight.after`: the weight after some calls; `Weight.reply`: the reply to the next.
* **`Weight.settles_serve`**, **`Weight.settles_serveAll`**: a call keeps to these, and so does any
  sequence of calls.
* `Snapshot.JoinReplies`: all that a weight replies once the join has this result.
* **`Program.join_runs_once`**: the replies of a weight at any time.
-/

namespace TermJoin

/-! ## Calls -/

/-- What a weight can be asked. -/
inductive WeightCall
  | normalize (norm : Single)
  | value
  | docSet
  | stats
  | computations
  | scorer (view : SegmentView)
  | explain (view : SegmentView) (doc : Nat)

/-- What a weight replies. -/
inductive WeightReply
  | done
  | value (value : Single)
  | docs (result : Except Fault DocSet)
  | stats (stats? : Option JoinStatistics)
  | computations (runs : Nat)
  | scorer (result : Except Fault Scorer)
  | explanation (result : Except Fault Explanation)

/-- The reply of a weight to a call. -/
def Weight.serve : WeightCall → StateT Weight Cached WeightReply
  | .normalize norm => do
    modify (·.normalize norm)
    return .done
  | .value => return .value (← get).value
  | .docSet => return .docs ((← outcome.run).map (·.set))
  | .stats => return .stats (← get).stats?
  | .computations => return .computations (← get).runs
  | .scorer view => return .scorer (← (scorer view).run)
  | .explain view doc => return .explanation (← (explain view doc).run)

/-- The reply of a fresh weight to a call that comes after others. Before all of them, the snapshot itself
served some calls. -/
def Snapshot.replyAfter (s : Snapshot) (q : Query) (before : List Call) (earlier : List WeightCall)
    (call : WeightCall) : WeightReply :=
  (((earlier.mapM Weight.serve *> Weight.serve call).run' (Weight.ofQuery s q)).run (s.cachesAfter before)).1

namespace WeightCall

/-- Whether the call asks a weight of a snapshot with this stamp for documents. -/
def asks (stamp : Nat) : WeightCall → Bool
  | docSet => true
  | scorer view => view.stamp == stamp
  | explain view _ => view.stamp == stamp
  | _ => false

/-- The factor that the call scales by. -/
def norm? : WeightCall → Option Single
  | normalize norm => some norm
  | _ => none

/-- The factor of the last call that scales. -/
def lastNorm? (calls : List WeightCall) : Option Single := (calls.filterMap norm?).getLast?

@[simp] theorem lastNorm?_append_normalize (calls : List WeightCall) (norm : Single) :
    lastNorm? (calls ++ [normalize norm]) = some norm := by
  simp [lastNorm?, norm?]

theorem lastNorm?_append_of_norm?_eq_none {call : WeightCall} (h : call.norm? = none)
    (calls : List WeightCall) : lastNorm? (calls ++ [call]) = lastNorm? calls := by
  simp [lastNorm?, h]

end WeightCall

open WeightCall (lastNorm?)

/-- The value of a weight with this boost after some calls. -/
def valueAfter (boost : Single) (calls : List WeightCall) : Single :=
  match lastNorm? calls with
  | some norm => boost * norm
  | none => boost

/-! ## The weight after some calls -/

namespace Weight

variable {s : Snapshot} {made w w' : Weight} {found : Except Fault Outcome}

/-- How often the documents were looked for after so many calls that ask for them. -/
def runsOf (found : Except Fault Outcome) (asked : Nat) : Nat :=
  if (kept? found).isSome then min 1 asked else asked

/-- A fresh weight after some calls, if this is what there is to find. -/
def after (made : Weight) (found : Except Fault Outcome) (calls : List WeightCall) : Weight :=
  { made with
    value := valueAfter made.query.boost calls
    norm := (lastNorm? calls).getD .one
    outcome? := if calls.any (·.asks made.snapshot.stamp) then kept? found else none
    runs := runsOf found (calls.countP (·.asks made.snapshot.stamp)) }

theorem outcome?_after_of_asked {calls : List WeightCall}
    (h : calls.any (·.asks made.snapshot.stamp) = true) : (made.after found calls).outcome? = kept? found :=
  if_pos h

theorem outcome?_after_of_not_asked {calls : List WeightCall}
    (h : ¬ calls.any (·.asks made.snapshot.stamp) = true) : (made.after found calls).outcome? = none :=
  if_neg h

/-- The weight once it has found its documents, or has looked for them in vain. -/
def having (w : Weight) (found : Except Fault Outcome) : Weight :=
  { w with outcome? := kept? found, runs := if (kept? found).isSome then 1 else w.runs + 1 }

theorem after_append_normalize (calls : List WeightCall) (norm : Single) :
    made.after found (calls ++ [.normalize norm]) = (made.after found calls).normalize norm := by
  simp [after, Weight.normalize, valueAfter, WeightCall.asks]

theorem after_append_of_asks {call : WeightCall} (h : call.asks made.snapshot.stamp = true)
    (calls : List WeightCall) :
    made.after found (calls ++ [call]) = (made.after found calls).having found := by
  have hnorm : call.norm? = none := by
    cases call <;> first | rfl | cases h
  have hruns : runsOf found (calls.countP (·.asks made.snapshot.stamp) + 1) =
      if (kept? found).isSome then 1 else runsOf found (calls.countP (·.asks made.snapshot.stamp)) + 1 := by
    unfold runsOf
    split
    · exact Nat.min_eq_left (Nat.le_add_left _ _)
    · rfl
  simp [after, having, valueAfter, WeightCall.lastNorm?_append_of_norm?_eq_none hnorm, h, hruns]

theorem after_append_of_not_asks {call : WeightCall} (h : call.asks made.snapshot.stamp = false)
    (hnorm : call.norm? = none) (calls : List WeightCall) :
    made.after found (calls ++ [call]) = made.after found calls := by
  simp [after, valueAfter, WeightCall.lastNorm?_append_of_norm?_eq_none hnorm, h]

/-- Why a document of a segment scores, once the documents are found. -/
def explanationOf (w : Weight) (view : SegmentView) (doc : Nat) (outcome : Outcome) : Explanation :=
  if ((scorerOf view w.value outcome).cursor.advance doc).doc = doc then
    .factor w.value (w.query.render ++ " , product of:")
      [.factor w.query.boost "boost" [], .factor w.norm "queryNorm" []]
  else noMatch w.query doc

/-- The reply of a weight, if this is what there is to find. -/
def reply (w : Weight) (found : Except Fault Outcome) : WeightCall → WeightReply
  | .normalize _ => .done
  | .value => .value w.value
  | .docSet => .docs (found.map (·.set))
  | .stats => .stats w.stats?
  | .computations => .computations w.runs
  | .scorer view =>
    if view.stamp = w.snapshot.stamp then .scorer (found.map (scorerOf view w.value))
    else .scorer (.error (.foreignSegment view.ord))
  | .explain view doc =>
    if view.stamp = w.snapshot.stamp then .explanation (found.map (w.explanationOf view doc))
    else .explanation (.error (.foreignSegment view.ord))

theorem isMatch_explanationOf {view : SegmentView} {doc : Nat} {outcome : Outcome} :
    (w.explanationOf view doc outcome).isMatch = true ↔
      ((scorerOf view w.value outcome).cursor.advance doc).doc = doc := by
  rw [explanationOf]
  split
  · rename_i h
    exact iff_of_true rfl h
  · rename_i h
    exact iff_of_false Bool.false_ne_true h

theorem value_explanationOf {view : SegmentView} {doc : Nat} {outcome : Outcome}
    (h : (w.explanationOf view doc outcome).isMatch = true) :
    (w.explanationOf view doc outcome).value = w.value := by
  rw [explanationOf] at h ⊢
  split at h
  · rw [if_pos ‹_›]
    rfl
  · cases h

/-! ## One call -/

/-- Asked for its documents, the weight finds these and keeps them. -/
def Finds (s : Snapshot) (w : Weight) (found : Except Fault Outcome) : Prop :=
  s.Settles (outcome.run.run w) (· = (found, w.having found))

theorem finds_after (hfind : s.Settles made.find.run (· = found)) (calls : List WeightCall) :
    Finds s (made.after found calls) found := by
  rw [Finds, outcome, run_get_bind]
  cases houtcome : (made.after found calls).outcome? with
  | some kept =>
    have hasked : calls.any (·.asks made.snapshot.stamp) = true := by
      by_contra hnot
      rw [outcome?_after_of_not_asked hnot] at houtcome
      cases houtcome
    rw [outcome?_after_of_asked hasked] at houtcome
    obtain rfl := eq_of_kept? houtcome
    have hpos : 0 < calls.countP (·.asks made.snapshot.stamp) :=
      List.countP_pos_iff.2 (List.any_eq_true.1 hasked)
    have hsame : (made.after kept calls).having kept = made.after kept calls := by
      rw [having, after, runsOf, houtcome, if_pos hasked, if_pos Option.isSome_some, Nat.min_eq_left hpos]
      rfl
    dsimp only
    rw [run_ofExcept]
    exact .pure (by rw [hsame])
  | none =>
    have hruns : (made.after found calls).runs + 1 =
        if (kept? found).isSome then 1 else (made.after found calls).runs + 1 := by
      by_cases hkept : (kept? found).isSome = true
      · -- nothing was asked, or it would have been kept
        have hasked : ¬ calls.any (·.asks made.snapshot.stamp) = true := fun hasked => by
          rw [← outcome?_after_of_asked hasked, houtcome] at hkept
          cases hkept
        have hzero : calls.countP (·.asks made.snapshot.stamp) = 0 :=
          List.countP_eq_zero.2 fun call hcall hasks => hasked (List.any_eq_true.2 ⟨call, hcall, hasks⟩)
        rw [if_pos hkept, after, runsOf, if_pos hkept, hzero]
        rfl
      · rw [if_neg hkept]
    dsimp only
    rw [run_lift_bind]
    -- neither the value nor the norm has a say in what there is to find
    have hsame : (made.after found calls).find = made.find := rfl
    rw [hsame]
    refine hfind.bind fun result hresult => ?_
    rw [run_set_bind, run_ofExcept, hresult, hruns]
    exact .pure rfl

namespace Finds

variable (h : Finds s w found)
include h

theorem settles_scorer {view : SegmentView} (hview : view.stamp = w.snapshot.stamp) :
    s.Settles ((scorer view).run.run w) (· = (found.map (scorerOf view w.value), w.having found)) := by
  rw [scorer, run_get_bind, if_neg (not_not_intro hview)]
  refine Snapshot.Settles.bindWeight h (fun outcome w' hw' => ?_) fun fault w' hw' => ?_
  · cases hw'
    dsimp only [Except.map]
    rw [scorerOf]
    cases outcome.filter.cursor? view.base view.count with
    | some cursor => exact .pure rfl
    | none => exact .pure rfl
  · cases hw'
    rfl

theorem settles_explain {view : SegmentView} (hview : view.stamp = w.snapshot.stamp) (doc : Nat) :
    s.Settles ((explain view doc).run.run w)
      (· = (found.map (w.explanationOf view doc), w.having found)) := by
  rw [explain]
  refine (h.settles_scorer hview).bindWeight (fun scorer w' hw' => ?_) fun fault w' hw' => ?_
  · rw [run_get_bind]
    cases found with
    | error fault => cases hw'
    | ok outcome =>
      cases hw'
      dsimp only [Except.map]
      rw [explanationOf]
      split
      · exact .pure rfl
      · exact .pure rfl
  · cases found with
    | error fault =>
      cases hw'
      rfl
    | ok outcome => cases hw'

end Finds

theorem run_explain_of_ne {view : SegmentView} (h : view.stamp ≠ w.snapshot.stamp) (doc : Nat) :
    (explain view doc).run.run w = pure (.error (.foreignSegment view.ord), w) := by
  rw [explain, ExceptT.run_bind, StateT.run_bind, run_scorer_of_ne h]
  rfl

/-- **A call is replied to as the earlier calls say**, and is one more of them. -/
theorem settles_serve (hfind : s.Settles made.find.run (· = found)) (earlier : List WeightCall)
    (call : WeightCall) :
    s.Settles ((serve call).run (made.after found earlier))
      (· = ((made.after found earlier).reply found call, made.after found (earlier ++ [call]))) := by
  have hfinds := finds_after hfind earlier
  have hstamp : (made.after found earlier).snapshot.stamp = made.snapshot.stamp := rfl
  cases call with
  | normalize norm =>
    rw [after_append_normalize]
    exact .pure rfl
  | value =>
    rw [after_append_of_not_asks rfl rfl]
    exact .pure rfl
  | stats =>
    rw [after_append_of_not_asks rfl rfl]
    exact .pure rfl
  | computations =>
    rw [after_append_of_not_asks rfl rfl]
    exact .pure rfl
  | docSet =>
    rw [after_append_of_asks rfl, serve, StateT.run_bind]
    refine Snapshot.Settles.bind hfinds fun r hr => ?_
    rw [hr]
    exact .pure rfl
  | scorer view =>
    rw [serve, StateT.run_bind, reply, hstamp]
    by_cases hview : view.stamp = made.snapshot.stamp
    · rw [after_append_of_asks (by simp [WeightCall.asks, hview]), if_pos hview]
      refine (hfinds.settles_scorer hview).bind fun r hr => ?_
      rw [hr]
      exact .pure rfl
    · rw [after_append_of_not_asks (by simp [WeightCall.asks, hview]) rfl, if_neg hview,
        run_scorer_of_ne (w := made.after found earlier) hview]
      exact .pure rfl
  | explain view doc =>
    rw [serve, StateT.run_bind, reply, hstamp]
    by_cases hview : view.stamp = made.snapshot.stamp
    · rw [after_append_of_asks (by simp [WeightCall.asks, hview]), if_pos hview]
      refine (hfinds.settles_explain hview doc).bind fun r hr => ?_
      rw [hr]
      exact .pure rfl
    · rw [after_append_of_not_asks (by simp [WeightCall.asks, hview]) rfl, if_neg hview,
        run_explain_of_ne (w := made.after found earlier) hview]
      exact .pure rfl

/-! ## Any calls -/

/-- **After any calls, a weight is as they say.** -/
theorem settles_serveAll (hfind : s.Settles made.find.run (· = found)) (earlier calls : List WeightCall) :
    s.Settles ((calls.mapM serve).run (made.after found earlier))
      fun r => r.2 = made.after found (earlier ++ calls) := by
  induction calls generalizing earlier with
  | nil => exact .pure (by rw [List.append_nil])
  | cons call rest ih =>
    rw [List.mapM_cons, StateT.run_bind]
    refine (settles_serve hfind earlier call).bind fun r hr => ?_
    rw [hr, StateT.run_bind]
    refine (ih (earlier ++ [call])).bind fun r' hr' => .pure ?_
    rw [List.append_assoc] at hr'
    exact hr'

end Weight

/-! ## A weight of a join -/

namespace Snapshot

variable {s : Snapshot}

theorem after_nil (s : Snapshot) (q : Query) (found : Except Fault Outcome) :
    (Weight.ofQuery s q).after found [] = Weight.ofQuery s q := by
  have hruns : Weight.runsOf found 0 = 0 := by
    unfold Weight.runsOf
    split <;> rfl
  exact congrArg (fun runs => { Weight.ofQuery s q with runs }) hruns

/-- **A fresh weight replies to the next call as the earlier ones say**, whatever the caches hold. -/
theorem Sound.replyAfter_eq (hs : s.Sound) {q : Query} {found : Except Fault Outcome}
    (hfind : s.Settles (Weight.ofQuery s q).find.run (· = found)) (before : List Call)
    (earlier : List WeightCall) (call : WeightCall) :
    s.replyAfter q before earlier call = ((Weight.ofQuery s q).after found earlier).reply found call := by
  have hearlier := Weight.settles_serveAll hfind [] earlier
  rw [after_nil, List.nil_append] at hearlier
  have hcall : s.Settles ((earlier.mapM Weight.serve *> Weight.serve call).run (Weight.ofQuery s q))
      fun r => r.1 = ((Weight.ofQuery s q).after found earlier).reply found call := by
    rw [StateT.run_seqRight]
    refine hearlier.bind fun r hr => ?_
    rw [hr]
    refine (Weight.settles_serve hfind earlier call).mono fun r' hr' => ?_
    rw [hr']
  have hreply : s.Settles ((earlier.mapM Weight.serve *> Weight.serve call).run' (Weight.ofQuery s q))
      (· = ((Weight.ofQuery s q).after found earlier).reply found call) := hcall.map fun _ hr => hr
  exact hreply.result (hs.faithful_cachesAfter before)

variable {source target : String} {sub : Query} {boost : Single}
  {result : Except Fault (DocSet × JoinStatistics)}

end Snapshot

namespace Program

end Program

end TermJoin
