import Mathlib.Algebra.Ring.Int.Defs
import Mathlib.Data.List.Lex
import Mathlib.Data.List.Sort
import TermJoin.Proofs.Schema.FullTerms
import TermJoin.Proofs.Text.ByteOrder

/-!
# The order and the precision of the terms of numbers

Flipping the sign bit adds `2 ^ 63` to a number, shifting bits out divides by a power of two, and digits
of a fixed width keep the order of what they write. So the full terms are in the order of the numbers,
and two terms agree only where the shifts do and what is left of the numbers does.

* `NumericTerm.toNat_sortable_shiftRight`: what is written behind a shift, as a number.
* `NumericTerm.strictMonoOn_fixedDigits`: a larger number has larger digits.
* `NumericTerm.encode_eq_encode_iff`, `full_lt_full_iff`, `decode?_full`: the terms themselves.
* `FieldType.shifts_eq`: the shifts of a step are its multiples.
* **`FieldType.numberTerms_faithful`**: the terms of numbers keep their order and their precision.
-/

namespace TermJoin

namespace NumericTerm

/-! ## The number behind a shift -/

/-- Flipping the highest bit adds it, and an overflow drops it. -/
theorem xor_highBit {n : Nat} (h : n < 2 ^ 64) : n ^^^ 2 ^ 63 = (n + 2 ^ 63) % 2 ^ 64 := by
  have hhigh : (n ^^^ 2 ^ 63) / 2 ^ 63 = n / 2 ^ 63 ^^^ 1 := by
    rw [Nat.xor_div_two_pow, Nat.div_self (Nat.two_pow_pos 63)]
  have hlow : (n ^^^ 2 ^ 63) % 2 ^ 63 = n % 2 ^ 63 := by
    rw [Nat.xor_mod_two_pow, Nat.mod_self, Nat.xor_zero]
  have hsplit := Nat.div_add_mod (n ^^^ 2 ^ 63) (2 ^ 63)
  rw [hhigh, hlow] at hsplit
  rcases (by omega : n / 2 ^ 63 = 0 ∨ n / 2 ^ 63 = 1) with hbit | hbit
  · rw [hbit, Nat.zero_xor] at hsplit
    omega
  · rw [hbit, Nat.xor_self] at hsplit
    omega

/-- The unsigned form is the number, moved up so that the least one is zero. -/
theorem toNat_sortable (v : Int64) : ((sortable v).toNat : Int) = v.toInt + 2 ^ 63 := by
  have hxor : (sortable v).toNat = (v.toUInt64.toNat + 2 ^ 63) % 2 ^ 64 := by
    rw [sortable, UInt64.toNat_xor]
    exact xor_highBit v.toUInt64.toNat_lt
  have hsigned : v.toInt =
      if 2 * v.toUInt64.toNat < 2 ^ 64 then (v.toUInt64.toNat : Int)
      else v.toUInt64.toNat - (2 ^ 64 : Nat) :=
    BitVec.toInt_eq_toNat_cond v.toBitVec
  have hlt := v.toUInt64.toNat_lt
  rw [hxor, hsigned]
  split <;> omega

theorem toNat_sortable_lt_iff {v w : Int64} : (sortable v).toNat < (sortable w).toNat ↔ v < w := by
  rw [Int64.lt_iff_toInt_lt, ← Int.ofNat_lt, toNat_sortable, toNat_sortable]
  omega

theorem ofSortable_sortable (v : Int64) : ofSortable (sortable v) = v := by
  rw [ofSortable, sortable, UInt64.xor_assoc, UInt64.xor_self, UInt64.xor_zero,
    Int64.toInt64_toUInt64]

theorem toInt_shiftRight (v : Int64) {shift : Nat} (h : shift < 64) :
    (v >>> Int64.ofNat shift).toInt = v.toInt / 2 ^ shift := by
  have hall : ∀ shift < 64, ((Int64.ofNat shift).toBitVec.smod 64).toNat = shift := by decide
  change (v.toBitVec.sshiftRight ((Int64.ofNat shift).toBitVec.smod 64).toNat).toInt = _
  rw [hall shift h, BitVec.toInt_sshiftRight, Int.shiftRight_eq_div_pow]
  norm_cast

theorem toNat_shiftRight (n : UInt64) {shift : Nat} (h : shift < 64) :
    (n >>> UInt64.ofNat shift).toNat = n.toNat / 2 ^ shift := by
  rw [UInt64.toNat_shiftRight, UInt64.toNat_ofNat', Nat.mod_eq_of_lt (by omega : shift < 2 ^ 64),
    Nat.mod_eq_of_lt h, Nat.shiftRight_eq_div_pow]

theorem toNat_sortable_shiftRight (v : Int64) {shift : Nat} (h : shift < 64) :
    ((sortable v >>> UInt64.ofNat shift).toNat : Int) =
      (v >>> Int64.ofNat shift).toInt + 2 ^ (63 - shift) := by
  have hsplit : (2 ^ 63 : Int) = 2 ^ (63 - shift) * 2 ^ shift := by
    rw [← Int.pow_add, Nat.sub_add_cancel (by omega)]
  rw [toNat_shiftRight _ h, toInt_shiftRight v h]
  push_cast
  rw [toNat_sortable, hsplit, Int.add_mul_ediv_right _ _ (Int.pow_ne_zero (by decide))]

theorem sortable_shiftRight_inj {v w : Int64} {shift : Nat} (h : shift < 64) :
    (sortable v >>> UInt64.ofNat shift).toNat = (sortable w >>> UInt64.ofNat shift).toNat ↔
      v >>> Int64.ofNat shift = w >>> Int64.ofNat shift := by
  rw [← Int64.toInt_inj, ← Int.ofNat_inj, toNat_sortable_shiftRight v h,
    toNat_sortable_shiftRight w h, Int.add_left_inj]

/-! ## Digits of a fixed width -/

theorem digit_lt_digit {a b : Nat} (hb : b < 16) (h : a < b) : digit a < digit b := by
  have hall : ∀ b < 16, ∀ a < b, digit a < digit b := by decide
  exact hall b hb a h

theorem digitValue?_digit {d : Nat} (h : d < 16) : Text.digitValue? 16 (digit d) = some d := by
  have hall : ∀ d < 16, Text.digitValue? 16 (digit d) = some d := by decide
  exact hall d h

theorem append_lt_append {l m : List Char} (hlength : l.length = m.length) (h : l < m)
    (s t : List Char) : l ++ s < m ++ t := by
  induction l generalizing m with
  | nil =>
    rw [List.length_eq_zero_iff.1 hlength.symm] at h
    exact absurd h (List.lt_irrefl _)
  | cons c l ih =>
    cases m with
    | nil => exact absurd h (List.not_lt_nil _)
    | cons d m =>
      rw [List.cons_append, List.cons_append, List.cons_lt_cons_iff]
      rcases List.cons_lt_cons_iff.1 h with hlt | ⟨rfl, hlt⟩
      · exact .inl hlt
      · exact .inr ⟨rfl, ih (Nat.succ.inj hlength) hlt⟩

theorem strictMonoOn_fixedDigits {base : Nat} (hbase : base ≤ 16) (width : Nat) :
    StrictMonoOn (fixedDigits base width) (Set.Iio (base ^ width)) := by
  induction width with
  | zero =>
    intro m _ n hn hlt
    rw [Set.mem_Iio, Nat.pow_zero] at hn
    omega
  | succ width ih =>
    intro m hm n hn hlt
    rw [Set.mem_Iio, Nat.pow_succ, Nat.mul_comm] at hm hn
    have hpos : 0 < base := Nat.pos_of_ne_zero fun hzero => by simp [hzero] at hn
    rw [fixedDigits, fixedDigits]
    -- either the digits before the last already differ, or they agree and the last one decides
    rcases Nat.lt_or_eq_of_le (Nat.div_le_div_right (c := base) hlt.le) with hhigh | hhigh
    · refine append_lt_append ?_ (ih ?_ ?_ hhigh) _ _
      · rw [length_fixedDigits, length_fixedDigits]
      · exact Nat.div_lt_of_lt_mul hm
      · exact Nat.div_lt_of_lt_mul hn
    · have hlow : m % base < n % base := by
        have hm' := Nat.div_add_mod m base
        have hn' := Nat.div_add_mod n base
        rw [hhigh] at hm'
        omega
      rw [hhigh]
      exact List.append_left_lt (List.cons_lt_cons_iff.2
        (.inl (digit_lt_digit ((Nat.mod_lt n hpos).trans_le hbase) hlow)))

theorem readHexDigits_fixedDigits (width acc n : Nat) (rest : List Char) (hn : n < 16 ^ width)
    (hfits : acc * 16 ^ width + n < 2 ^ 64) :
    Text.readHexDigits acc (fixedDigits 16 width n ++ rest) =
      Text.readHexDigits (acc * 16 ^ width + n) rest := by
  induction width generalizing n rest with
  | zero =>
    obtain rfl : n = 0 := by omega
    rw [fixedDigits, List.nil_append, Nat.pow_zero, Nat.mul_one, Nat.add_zero]
  | succ width ih =>
    rw [Nat.pow_succ] at hn hfits ⊢
    have hnext : (acc * 16 ^ width + n / 16) * 16 + n % 16 = acc * (16 ^ width * 16) + n := by
      rw [Nat.add_mul, Nat.mul_assoc]
      omega
    rw [fixedDigits, List.append_assoc, ih (n / 16) _ (by omega) (by omega), List.singleton_append,
      Text.readHexDigits, digitValue?_digit (Nat.mod_lt n (by decide))]
    dsimp only
    rw [hnext]
    exact if_pos hfits

theorem plus_notMem_fixedDigits (width n : Nat) : '+' ∉ fixedDigits 16 width n := by
  have hplus : ∀ d < 16, '+' ≠ digit d := by decide
  induction width generalizing n with
  | zero => exact List.not_mem_nil
  | succ width ih =>
    rw [fixedDigits, List.mem_append, List.mem_singleton, not_or]
    exact ⟨ih _, hplus _ (Nat.mod_lt n (by decide))⟩

theorem readHex64_fixedDigits {n : Nat} (h : n < 2 ^ 64) :
    Text.readHex64 (fixedDigits 16 16 n) = some n := by
  have hread : Text.readHexDigits 0 (fixedDigits 16 16 n) = some n := by
    have := readHexDigits_fixedDigits 16 0 n [] h (by omega)
    rwa [List.append_nil, Nat.zero_mul, Nat.zero_add, Text.readHexDigits] at this
  have hplus := plus_notMem_fixedDigits 16 n
  have hlength := length_fixedDigits 16 16 n
  revert hread hplus hlength
  generalize fixedDigits 16 16 n = digits
  intro hread hplus hlength
  -- no digit is a sign, so the text is read from its start
  unfold Text.readHex64
  split
  · exact nomatch hlength
  · exact nomatch hlength
  · exact absurd List.mem_cons_self hplus
  · exact hread

/-! ## Terms of numbers -/

/-- **Two terms agree only at one shift**, and there exactly if what is left of the numbers does. -/
theorem encode_eq_encode_iff {v w : Int64} {k l : Nat} (hk : k < 64) (hl : l < 64) :
    encode v k = encode w l ↔ k = l ∧ v >>> Int64.ofNat k = w >>> Int64.ofNat k := by
  have hshift : Set.InjOn (fixedDigits 10 2) (Set.Iio (10 ^ 2)) :=
    (strictMonoOn_fixedDigits (by decide) 2).injOn
  have hdigits : Set.InjOn (fixedDigits 16 16) (Set.Iio (16 ^ 16)) :=
    (strictMonoOn_fixedDigits (by decide) 16).injOn
  constructor
  · intro heq
    obtain ⟨hsame, hrest⟩ := List.append_inj (List.cons_injective (String.ofList_injective heq))
      (by rw [length_fixedDigits, length_fixedDigits])
    obtain rfl : k = l :=
      hshift (Set.mem_Iio.2 (by omega)) (Set.mem_Iio.2 (by omega)) hsame
    exact ⟨rfl, (sortable_shiftRight_inj hk).1
      (hdigits (UInt64.toNat_lt _) (UInt64.toNat_lt _) hrest)⟩
  · rintro ⟨rfl, heq⟩
    rw [encode, encode, (sortable_shiftRight_inj hk).2 heq]

theorem toList_full (v : Int64) :
    (full v).toList = '#' :: '0' :: '0' :: fixedDigits 16 16 (sortable v).toNat := by
  rw [full, encode, String.toList_ofList, toNat_shiftRight _ (by decide), Nat.pow_zero, Nat.div_one,
    (fixedDigits_shift_iff (by decide)).2 rfl, List.cons_append, List.cons_append, List.nil_append]

theorem full_lt_full_iff {v w : Int64} : full v < full w ↔ v < w := by
  have hdigits := (strictMonoOn_fixedDigits (Nat.le_refl 16) 16).lt_iff_lt
    (a := (sortable v).toNat) (b := (sortable w).toNat) (UInt64.toNat_lt _) (UInt64.toNat_lt _)
  rw [String.lt_iff_toList_lt, toList_full, toList_full, List.cons_lt_cons_self,
    List.cons_lt_cons_self, List.cons_lt_cons_self, hdigits, toNat_sortable_lt_iff]

theorem decode?_full (v : Int64) : decode? (full v) = some v := by
  rw [decode?, toList_full]
  change (Text.readHex64 (fixedDigits 16 16 (sortable v).toNat)).map _ = _
  rw [readHex64_fixedDigits (UInt64.toNat_lt _), Option.map_some, UInt64.ofNat_toNat,
    ofSortable_sortable]

end NumericTerm

namespace FieldType

variable {field value : String} {step : UInt8} {v : Int64}

theorem stride_pos (step : UInt8) : 0 < stride step :=
  Nat.lt_of_lt_of_le Nat.one_pos (Nat.le_max_left _ _)

theorem shifts_eq (step : UInt8) :
    shifts step = (List.range (63 / stride step + 1)).map (· * stride step) := by
  have hpos := stride_pos step
  refine List.Pairwise.eq_of_mem_iff (r := (· < ·)) ?_ ?_ fun shift => ?_
  · exact List.pairwise_lt_range.filter _
  · exact List.pairwise_lt_range.map _ fun i j hij => Nat.mul_lt_mul_of_pos_right hij hpos
  · rw [shifts, List.mem_filter, List.mem_range, List.mem_map, beq_iff_eq, ← Nat.dvd_iff_mod_eq_zero]
    constructor
    · rintro ⟨hlt, i, rfl⟩
      refine ⟨i, List.mem_range.2 (Nat.lt_succ_of_le ?_), Nat.mul_comm _ _⟩
      rw [Nat.le_div_iff_mul_le hpos, Nat.mul_comm]
      omega
    · rintro ⟨i, hi, rfl⟩
      have := (Nat.le_div_iff_mul_le hpos).1 (Nat.le_of_lt_succ (List.mem_range.1 hi))
      exact ⟨by omega, i, Nat.mul_comm _ _⟩

theorem indexTerms_of_readNumber (h : readNumber field value = .ok v) :
    (int64 step).indexTerms field value = .ok ((shifts step).map (NumericTerm.encode v)) := by
  rw [indexTerms, h]
  rfl

theorem queryTerm_of_readNumber (h : readNumber field value = .ok v) :
    (int64 step).queryTerm field value = .ok (NumericTerm.full v) := by
  rw [queryTerm, h]
  rfl

theorem getElem?_terms (step : UInt8) (v : Int64) (i : Nat) :
    ((shifts step).map (NumericTerm.encode v))[i]? =
      if i * stride step < 64 then some (NumericTerm.encode v (i * stride step)) else none := by
  have hbound : i < 63 / stride step + 1 ↔ i * stride step < 64 := by
    rw [Nat.lt_succ_iff, Nat.le_div_iff_mul_le (stride_pos step)]
    omega
  rw [shifts_eq, List.getElem?_map, List.getElem?_map]
  split_ifs with h
  · rw [List.getElem?_range (hbound.2 h)]
    rfl
  · rw [List.getElem?_eq_none (by rw [List.length_range]; omega)]
    rfl

theorem nodup_terms (step : UInt8) (v : Int64) :
    ((shifts step).map (NumericTerm.encode v)).Nodup := by
  refine List.Nodup.map_on (fun k hk l hl heq => ?_) (List.nodup_range.filter _)
  exact ((NumericTerm.encode_eq_encode_iff (lt_of_mem_shifts hk) (lt_of_mem_shifts hl)).1 heq).1

theorem indexTerms_eq_error_iff {type : FieldType} {fault : QueryFault} :
    type.indexTerms field value = .error fault ↔ type.queryTerm field value = .error fault := by
  cases type with
  | text => constructor <;> rintro ⟨⟩
  | int64 step =>
    rw [indexTerms, queryTerm]
    cases readNumber field value with
    | error cause => constructor <;> (rintro ⟨⟩; rfl)
    | ok v => constructor <;> rintro ⟨⟩

/-- **The terms of numbers keep their order and their precision.** A full term is read back as its
number, and the bytes of full terms are in the order of the numbers. The terms of a value are distinct,
one for each multiple of the stride below 64; only the first starts as a full one does, and it is the one
that queries look up. Whatever the steps of their fields, two terms agree only at one shift, where what
is left of the numbers agrees. And a value without terms has none for queries, for the same fault. -/
theorem numberTerms_faithful :
    (∀ v, NumericTerm.decode? (NumericTerm.full v) = some v) ∧
    (∀ v w, bytesOf (NumericTerm.full v) < bytesOf (NumericTerm.full w) ↔ v < w) ∧
    (∀ step field value v, readNumber field value = .ok v →
      ∃ texts, (int64 step).indexTerms field value = .ok texts ∧ texts.Nodup ∧
        (∀ i : Nat, texts[i]? =
          if i * stride step < 64 then some (NumericTerm.encode v (i * stride step)) else none) ∧
        ∀ (i : Nat) (text : String), texts[i]? = some text →
          (NumericTerm.fullStem.toList <+: text.toList ↔ i = 0) ∧
          ((int64 step).queryTerm field value = .ok text ↔ i = 0)) ∧
    (∀ v w k l, k < 64 → l < 64 → (NumericTerm.encode v k = NumericTerm.encode w l ↔
      k = l ∧ v >>> Int64.ofNat k = w >>> Int64.ofNat k)) ∧
    ∀ (type : FieldType) (field value : String) (fault : QueryFault),
      type.indexTerms field value = .error fault ↔ type.queryTerm field value = .error fault := by
  refine ⟨NumericTerm.decode?_full, fun v w => ?_, fun step field value v h => ?_,
    fun v w k l hk hl => NumericTerm.encode_eq_encode_iff hk hl,
    fun type field value fault => indexTerms_eq_error_iff⟩
  · rw [← lt_iff_bytesOf_lt, NumericTerm.full_lt_full_iff]
  · refine ⟨_, indexTerms_of_readNumber h, nodup_terms step v, getElem?_terms step v,
      fun i text htext => ?_⟩
    rw [getElem?_terms] at htext
    split_ifs at htext with hlt
    cases htext
    have hzero : i * stride step = 0 ↔ i = 0 := by
      rw [Nat.mul_eq_zero, or_iff_left (stride_pos step).ne']
    constructor
    · rw [← List.isPrefixOf_iff_prefix, NumericTerm.isPrefixOf_encode_iff hlt, hzero]
    · rw [queryTerm_of_readNumber h, Except.ok.injEq, NumericTerm.full]
      constructor
      · intro heq
        exact hzero.1 ((NumericTerm.encode_eq_encode_iff (by decide) hlt).1 heq).1.symm
      · rintro rfl
        rw [Nat.zero_mul]

/-- A negative number between blanks, at a step whose multiples leave a gap below 64. -/
theorem numberTerms_faithful_at_minus_five :
    readNumber "n" " -5 " = .ok (-5) ∧
      ∃ texts, (int64 48).indexTerms "n" " -5 " = .ok texts ∧ texts.Nodup ∧
        texts[0]? = some "#007ffffffffffffffb" ∧ texts[1]? = some "#480000000000007fff" ∧
        texts[2]? = none ∧ (int64 48).queryTerm "n" " -5 " = .ok "#007ffffffffffffffb" := by
  have hread : readNumber "n" " -5 " = .ok (-5) := by decide +kernel
  obtain ⟨texts, hterms, hnodup, hat, hfirst⟩ := numberTerms_faithful.2.2.1 48 "n" " -5 " (-5) hread
  have hzero : texts[0]? = some "#007ffffffffffffffb" := (hat 0).trans (by decide +kernel)
  exact ⟨hread, texts, hterms, hnodup, hzero, (hat 1).trans (by decide +kernel),
    (hat 2).trans (by decide +kernel), ((hfirst 0 _ hzero).2).2 rfl⟩

end FieldType

end TermJoin
