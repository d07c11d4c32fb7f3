import TermJoin.Proofs.DocSet.Membership
import TermJoin.Snapshot.Postings

/-!
# Batches and scans of postings

Read batch by batch, the documents of a term are visited as if they stood in one list, whatever the sizes of
the batches.

* `Postings.batches`: the batches of some sizes; **`Postings.batches_eq`**: they cut up the unread ordinals,
  whatever the shape and the buffer.
* **`Postings.scan_eq`**: a scan visits the unread ordinals in order until one is refused.
* `Postings.visit_refuse`, `Postings.visit_insert`: the two scans of a join, for a first member of a set and
  into a bitmap.
* `Postings.record`: a scan with any callback, that records what it visits; **`Postings.visits_record`**: that
  is all up to the first ordinal refused.
-/

namespace TermJoin.Postings

theorem isSingle_ofSegments (segments : List SegmentPostings) :
    (ofSegments segments).isSingle = decide (segments.length = 1) := by
  match segments with
  | [] => rfl
  | [_] => rfl
  | _ :: _ :: _ => rfl

/-! ## Batches -/

/-- The batches of these sizes, read one after the other with the same buffer. -/
def batches (postings : Postings) (buffer : Array Nat) : List Nat → List (List Nat)
  | [] => []
  | size :: sizes =>
    let (batch, postings) := postings.read buffer size
    batch.toList :: postings.batches batch sizes

/-- The list cut up into batches of these sizes, or smaller ones at its end. -/
def cut (docs : List Nat) : List Nat → List (List Nat)
  | [] => []
  | size :: sizes => docs.take size :: cut (docs.drop size) sizes

/-- **Batches cut up what is unread**, whatever the buffer held before. -/
theorem batches_eq (postings : Postings) (buffer : Array Nat) (sizes : List Nat) :
    postings.batches buffer sizes = cut postings.unread sizes := by
  induction sizes generalizing postings buffer with
  | nil => rfl
  | cons size sizes ih =>
    obtain ⟨hbatch, hleft⟩ := postings.unread_read buffer size
    rw [batches, cut, ← hbatch, ← hleft, ← ih]

theorem length_cut (docs sizes : List Nat) : (cut docs sizes).length = sizes.length := by
  induction sizes generalizing docs with
  | nil => rfl
  | cons size sizes ih => rw [cut, List.length_cons, ih, List.length_cons]

theorem flatten_cut_prefix (docs sizes : List Nat) : (cut docs sizes).flatten <+: docs := by
  induction sizes generalizing docs with
  | nil => exact List.nil_prefix
  | cons size sizes ih =>
    rw [cut, List.flatten_cons]
    obtain ⟨rest, hrest⟩ := ih (docs.drop size)
    exact ⟨rest, by rw [List.append_assoc, hrest, List.take_append_drop]⟩

theorem take_cut (docs sizes : List Nat) (i : Nat) : (cut docs sizes).take i = cut docs (sizes.take i) := by
  induction sizes generalizing docs i with
  | nil => simp [cut]
  | cons size sizes ih =>
    cases i with
    | zero => rfl
    | succ i => rw [cut, List.take_succ_cons, ih, List.take_succ_cons, cut]

theorem getElem?_cut (docs sizes : List Nat) (i : Nat) :
    (cut docs sizes)[i]? =
      sizes[i]?.map fun size => (docs.drop ((cut docs sizes).take i).flatten.length).take size := by
  induction sizes generalizing docs i with
  | nil => rfl
  | cons first sizes ih =>
    cases i with
    | zero => rfl
    | succ i =>
      have hdrop : ∀ n, (docs.drop first).drop n = docs.drop ((docs.take first).length + n) := by
        intro n
        rw [List.drop_drop, List.length_take]
        rcases Nat.le_total first docs.length with hle | hle
        · rw [Nat.min_eq_left hle]
        · rw [List.drop_eq_nil_of_le (by omega), List.drop_eq_nil_of_le (by omega)]
      rw [cut, List.getElem?_cons_succ, ih, List.getElem?_cons_succ, List.take_succ_cons,
        List.flatten_cons, List.length_append]
      simp only [hdrop]

/-! ## Scans -/

variable {σ : Type} {step : σ → Nat → σ × Bool}

theorem visit_append (state : σ) (first second : List Nat) :
    visit step state (first ++ second) =
      match visit step state first with
      | (state, true) => visit step state second
      | (state, false) => (state, false) := by
  induction first generalizing state with
  | nil => rfl
  | cons d rest ih =>
    rw [List.cons_append, visit, visit]
    cases hstep : step state d with
    | mk state accepted =>
      cases accepted with
      | true => exact ih state
      | false => rfl

/-- **A scan visits what is unread, whatever the size of its batches.** -/
theorem scan_eq (size : Nat) (hsize : 0 < size) (state : σ) (buffer : Array Nat) (postings : Postings) :
    (scan size hsize step state buffer postings).1 = visit step state postings.unread := by
  -- along the scan; each batch is the start of what was unread
  have hsplit : ∀ (buffer : Array Nat) (postings : Postings), postings.unread =
      (postings.read buffer size).1.toList ++ (postings.read buffer size).2.unread := by
    intro buffer postings
    obtain ⟨hbatch, hleft⟩ := postings.unread_read buffer size
    rw [hbatch, hleft, List.take_append_drop]
  fun_induction scan size hsize step state buffer postings with
  | case1 state buffer postings batch hbatch =>
    have hnil : postings.unread = [] := by
      have htaken := (postings.unread_read buffer size).1
      rw [List.eq_nil_of_length_eq_zero ((Array.length_toList).trans hbatch)] at htaken
      exact (List.take_eq_nil_iff.1 htaken.symm).resolve_left (Nat.ne_of_gt hsize)
    rw [hnil, visit]
  | case2 state buffer postings batch hbatch state' hvisit ih =>
    rw [ih, hsplit buffer postings, visit_append, hvisit]
  | case3 state buffer postings batch hbatch state' hvisit =>
    rw [hsplit buffer postings, visit_append, hvisit]

theorem visit_refuse (p : Nat → Bool) (docs : List Nat) :
    (visit (fun _ d => ((), !p d)) () docs).2 = !docs.any p := by
  induction docs with
  | nil => rfl
  | cons d rest ih =>
    rw [visit, List.any_cons]
    cases p d with
    | true => rfl
    | false => exact ih

theorem visit_insert (bits : Bitmap) (size : Nat) (docs : List Nat) (d : Nat) :
    d ∈ (visit (fun (state : Bitmap × Nat) e => ((state.1.insert e, state.2 + 1), true)) (bits, size)
      docs).1.1 ↔ d ∈ bits ∨ d ∈ docs := by
  induction docs generalizing bits size with
  | nil => exact (or_iff_left List.not_mem_nil).symm
  | cons e rest ih =>
    rw [visit]
    refine (ih (bits.insert e) (size + 1)).trans ?_
    rw [Std.ExtTreeSet.mem_insert, Nat.compare_eq_eq, List.mem_cons, eq_comm]
    tauto

/-! ## Callbacks -/

variable {accepts : List Nat → Nat → Bool}

/-- A callback that may remember what it was called on, and a record of that. -/
def record (accepts : List Nat → Nat → Bool) (visited : List Nat) (doc : Nat) : List Nat × Bool :=
  (visited ++ [doc], accepts visited doc)

/-- Each of the ordinals is accepted by a callback that was called on those before it. -/
def Accepted (accepts : List Nat → Nat → Bool) (docs : List Nat) : Prop :=
  ∀ earlier doc later, docs = earlier ++ doc :: later → accepts earlier doc = true

theorem accepted_nil : Accepted accepts [] :=
  fun _ _ _ h => absurd h.symm (List.append_ne_nil_of_right_ne_nil _ (List.cons_ne_nil _ _))

theorem accepted_append_singleton_iff {docs : List Nat} {doc : Nat} :
    Accepted accepts (docs ++ [doc]) ↔ Accepted accepts docs ∧ accepts docs doc = true := by
  constructor
  · intro h
    refine ⟨fun earlier d later heq => h earlier d (later ++ [doc]) ?_, h docs doc [] rfl⟩
    rw [heq, List.append_assoc, List.cons_append]
  · rintro ⟨hdocs, hdoc⟩ earlier d later heq
    rcases List.eq_nil_or_concat later with rfl | ⟨later, last, rfl⟩
    · obtain ⟨rfl, hlast⟩ := List.append_inj' heq rfl
      cases hlast
      exact hdoc
    · rw [List.concat_eq_append, ← List.cons_append, ← List.append_assoc] at heq
      obtain ⟨heq, -⟩ := List.append_inj' heq rfl
      exact hdocs earlier d later heq

/-- What a scan visits, and whether it was completed: all up to the first ordinal that is refused. -/
structure Visits (accepts : List Nat → Nat → Bool) (docs visited : List Nat) (completed : Bool) : Prop where
  initial : visited <+: docs
  completed_iff : completed = true ↔ Accepted accepts visited
  whole : completed = true → visited = docs
  refused : completed = false → ∃ earlier doc, visited = earlier ++ [doc] ∧ Accepted accepts earlier ∧
    accepts earlier doc = false

/-- **A scan visits all up to the first ordinal that is refused**, and says whether there was one. -/
theorem visits_record (accepts : List Nat → Nat → Bool) (docs : List Nat) :
    Visits accepts docs (visit (record accepts) [] docs).1 (visit (record accepts) [] docs).2 := by
  have hvisits : ∀ seen, Accepted accepts seen →
      Visits accepts (seen ++ docs) (visit (record accepts) seen docs).1
        (visit (record accepts) seen docs).2 := by
    induction docs with
    | nil =>
      intro seen hseen
      rw [visit, List.append_nil]
      exact ⟨List.prefix_rfl, iff_of_true rfl hseen, fun _ => rfl, fun h => Bool.noConfusion h⟩
    | cons d rest ih =>
      intro seen hseen
      rw [visit, record]
      cases hd : accepts seen d with
      | true =>
        have hmore := ih (seen ++ [d]) (accepted_append_singleton_iff.2 ⟨hseen, hd⟩)
        rw [List.append_assoc, List.singleton_append] at hmore
        exact hmore
      | false =>
        refine ⟨⟨rest, by rw [List.append_assoc, List.singleton_append]⟩, ?_, fun h => Bool.noConfusion h,
          fun _ => ⟨seen, d, rfl, hseen, hd⟩⟩
        rw [accepted_append_singleton_iff, hd]
        exact iff_of_false Bool.false_ne_true fun h => Bool.false_ne_true h.2
  exact hvisits [] accepted_nil

end TermJoin.Postings
