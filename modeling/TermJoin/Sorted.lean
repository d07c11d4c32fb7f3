/-!
# Search in sorted arrays

* `partitionPoint`: the number of leading elements with a property that no later element has, found
  by halving.
* **`partitionPoint_eq`**: it is the length of the leading run of such elements, as soon as the
  property holds of no element after one without it.
-/

namespace TermJoin

variable {α : Type}

/-- The first index from `lo` on, and before `hi`, whose element lacks the property; `hi` if there is
none. -/
def partitionBetween (xs : Array α) (p : α → Bool) (lo hi : Nat) (hhi : hi ≤ xs.size) : Nat :=
  if h : lo < hi then
    if p xs[(lo + hi) / 2] then partitionBetween xs p ((lo + hi) / 2 + 1) hi hhi
    else partitionBetween xs p lo ((lo + hi) / 2) (by omega)
  else lo
termination_by hi - lo

/-- The number of leading elements with the property. -/
def partitionPoint (xs : Array α) (p : α → Bool) : Nat :=
  partitionBetween xs p 0 xs.size (Nat.le_refl _)

/-! ## Where the halving ends -/

variable {xs : Array α} {p : α → Bool}

theorem le_partitionBetween (lo hi : Nat) (hhi : hi ≤ xs.size) :
    lo ≤ partitionBetween xs p lo hi hhi := by
  fun_induction partitionBetween xs p lo hi hhi <;> omega

theorem partitionBetween_le (lo hi : Nat) (hhi : hi ≤ xs.size) (hlh : lo ≤ hi) :
    partitionBetween xs p lo hi hhi ≤ hi := by
  fun_induction partitionBetween xs p lo hi hhi <;> omega

/-- An element lies before the end of the halving exactly if it has the property. -/
theorem lt_partitionBetween_iff (mono : xs.toList.Pairwise fun a b => p b = true → p a = true)
    (lo hi : Nat) (hhi : hi ≤ xs.size) (i : Nat) (hi' : i < hi) (hlo : lo ≤ i) :
    i < partitionBetween xs p lo hi hhi ↔ p xs[i] = true := by
  have mono' : ∀ i j (hi : i < xs.size) (hj : j < xs.size), i ≤ j → p xs[j] = true →
      p xs[i] = true := by
    intro i j hi hj hij h
    rcases Nat.lt_or_eq_of_le hij with hlt | rfl
    · have := List.pairwise_iff_getElem.1 mono i j (by simpa using hi) (by simpa using hj) hlt
      simpa using this (by simpa using h)
    · exact h
  fun_induction partitionBetween xs p lo hi hhi with
  | case1 lo hi hhi hlt hp ih =>
    by_cases hmid : (lo + hi) / 2 + 1 ≤ i
    · exact ih hi' hmid
    · have := le_partitionBetween (p := p) ((lo + hi) / 2 + 1) hi hhi
      exact ⟨fun _ => mono' i ((lo + hi) / 2) (by omega) (by omega) (by omega) hp,
        fun _ => by omega⟩
  | case2 lo hi hhi hlt hp ih =>
    by_cases hmid : i < (lo + hi) / 2
    · exact ih hmid hlo
    · have hle : partitionBetween xs p lo ((lo + hi) / 2) (by omega) ≤ (lo + hi) / 2 :=
        partitionBetween_le lo _ _ (by omega)
      exact ⟨fun _ => by omega,
        fun h => absurd (mono' ((lo + hi) / 2) i (by omega) (by omega) (by omega) h) hp⟩
  | case3 lo hi hhi hlt => omega

theorem partitionPoint_le : partitionPoint xs p ≤ xs.size :=
  partitionBetween_le _ _ _ (Nat.zero_le _)

/-- An index lies before the partition point exactly if its element has the property. -/
theorem lt_partitionPoint_iff (mono : xs.toList.Pairwise fun a b => p b = true → p a = true)
    (i : Nat) (h : i < xs.size) : i < partitionPoint xs p ↔ p xs[i] = true :=
  lt_partitionBetween_iff mono _ _ _ i h (Nat.zero_le _)

/-- The partition point is the one index whose element lacks the property while all before it have
it. -/
theorem partitionPoint_eq_of (mono : xs.toList.Pairwise fun a b => p b = true → p a = true)
    (i : Nat) (h : i < xs.size) (here : p xs[i] = false)
    (below : ∀ j (hj : j < i), p xs[j] = true) : partitionPoint xs p = i := by
  rcases Nat.lt_trichotomy i (partitionPoint xs p) with hlt | heq | hgt
  · simp [(lt_partitionPoint_iff mono i h).1 hlt] at here
  · exact heq.symm
  · have := (lt_partitionPoint_iff mono _ (Nat.lt_trans hgt h)).2 (below _ hgt)
    omega

/-- **The partition point is the length of the leading run.** -/
theorem partitionPoint_eq (mono : xs.toList.Pairwise fun a b => p b = true → p a = true) :
    partitionPoint xs p = (xs.toList.takeWhile p).length := by
  have key : ∀ (l : List α) (n : Nat), n ≤ l.length →
      (∀ i (h : i < l.length), i < n ↔ p l[i] = true) → n = (l.takeWhile p).length := by
    intro l
    induction l with
    | nil => intro n hn _; simpa using hn
    | cons a l ih =>
      intro n hn hiff
      have h0 := hiff 0 (by simp)
      cases n with
      | zero => simp_all
      | succ n =>
        have hp : p a = true := h0.1 (by omega)
        have := ih n (by simpa using hn) fun i h => by
          have := hiff (i + 1) (by simpa using h)
          simpa using this
        simp [hp, ← this]
  exact key _ _ (by simpa using partitionPoint_le) fun i h => by
    simpa using lt_partitionPoint_iff mono i (by simpa using h)

end TermJoin
