import Mathlib.Data.String.Basic

/-!
# The order of texts

Texts are compared character by character, which is the same as byte by byte in UTF-8.

* `bytesOf`: the bytes of a text.
* `utf8EncodeChar_append_lt`: of two characters, the smaller one has the smaller bytes.
* **`lt_iff_bytesOf_lt`**: texts are ordered by their bytes.
-/

namespace TermJoin

/-- The bytes of a text. -/
def bytesOf (text : String) : List UInt8 := text.toByteArray.data.toList

theorem bytesOf_eq (text : String) : bytesOf text = text.toList.flatMap String.utf8EncodeChar := by
  have hbytes := String.toByteArray_ofList (l := text.toList)
  rw [String.ofList_toList] at hbytes
  rw [bytesOf, hbytes, List.utf8Encode, List.data_toByteArray]

/-- The bytes of the smaller character come first, whatever follows them. -/
theorem utf8EncodeChar_append_lt {c d : Char} (h : c < d) (s t : List UInt8) :
    String.utf8EncodeChar c ++ s < String.utf8EncodeChar d ++ t := by
  have hlt : c.val.toNat < d.val.toNat := h
  have hmax : d.val.toNat < 1114112 := by
    rcases d.valid with hd | hd
    · exact Nat.lt_trans hd (by decide)
    · exact hd.2
  -- a code point is cut into groups of six bits, and what is left of it fits into the first byte
  have hgroups : ∀ v < 1114112, v / 64 / 64 = v / 4096 ∧ v / 4096 / 64 = v / 262144 ∧
      v / 262144 % 8 = v / 262144 := by
    omega
  obtain ⟨hc, hc', hcfirst⟩ := hgroups c.val.toNat (hlt.trans hmax)
  obtain ⟨hd, hd', hdfirst⟩ := hgroups d.val.toNat hmax
  unfold String.utf8EncodeChar
  generalize c.val.toNat = m at *
  generalize d.val.toNat = n at *
  dsimp only
  split_ifs <;> simp (disch := simp only [UInt8.size]; omega) only [List.cons_append, List.nil_append,
    List.cons_lt_cons_iff, UInt8.lt_iff_toNat_lt, ← UInt8.toNat_inj, UInt8.toNat_ofNat_of_lt', hcfirst,
    hdfirst] <;> omega

theorem flatMap_utf8EncodeChar_lt {l m : List Char} (h : l < m) :
    l.flatMap String.utf8EncodeChar < m.flatMap String.utf8EncodeChar := by
  induction l generalizing m with
  | nil =>
    cases m with
    | nil => exact absurd h (List.not_lt_nil _)
    | cons d m =>
      rw [List.flatMap_nil, List.flatMap_cons]
      cases hd : String.utf8EncodeChar d with
      | nil => exact absurd hd String.utf8EncodeChar_ne_nil
      | cons x xs => exact List.nil_lt_cons _ _
  | cons c l ih =>
    cases m with
    | nil => exact absurd h (List.not_lt_nil _)
    | cons d m =>
      rw [List.flatMap_cons, List.flatMap_cons]
      rcases List.cons_lt_cons_iff.1 h with hlt | ⟨rfl, hlt⟩
      · exact utf8EncodeChar_append_lt hlt _ _
      · exact List.append_left_lt (ih hlt)

/-- **Texts are ordered by their bytes.** -/
theorem lt_iff_bytesOf_lt {t u : String} : t < u ↔ bytesOf t < bytesOf u := by
  have hmono : ∀ {t u : String}, t < u → bytesOf t < bytesOf u := by
    intro t u h
    rw [bytesOf_eq, bytesOf_eq]
    exact flatMap_utf8EncodeChar_lt (String.lt_iff_toList_lt.1 h)
  refine ⟨hmono, fun h => ?_⟩
  rcases lt_trichotomy t u with hlt | rfl | hgt
  · exact hlt
  · exact absurd h (List.lt_irrefl _)
  · exact absurd h (List.lt_asymm (hmono hgt))

end TermJoin
