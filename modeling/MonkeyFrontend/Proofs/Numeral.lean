import Mathlib.Data.List.Basic
import Mathlib.Data.List.Induction
import Mathlib.Data.Nat.Digits.Defs
import MonkeyFrontend.Proofs.Lexeme.Alphabet

namespace MonkeyFrontend.Numeral

def IsDigits (cs : List Char) : Prop := cs ≠ [] ∧ ∀ c ∈ cs, IsDigit c

def value (digits : List Char) : Nat :=
  Nat.ofDigits 10 (digits.reverse.map fun d => d.toNat - '0'.toNat)

inductive Denotes : List Char → Int → Prop where
  | unsigned {digits : List Char} (h : IsDigits digits) : Denotes digits (value digits)
  | plus {digits : List Char} (h : IsDigits digits) : Denotes ('+' :: digits) (value digits)
  | minus {digits : List Char} (h : IsDigits digits) : Denotes ('-' :: digits) (-(value digits))

structure IsShort (cs : List Char) : Prop where
  digits : IsDigits cs
  head : cs.head? ≠ some '0'

/-- A text for a number with nothing needless in it: zero is a single digit, a number above it has
no sign, and none has a zero in front. -/
inductive IsCanonical : List Char → Prop where
  | zero : IsCanonical ['0']
  | positive {digits : List Char} (h : IsShort digits) : IsCanonical digits
  | negative {digits : List Char} (h : IsShort digits) : IsCanonical ('-' :: digits)

theorem ofDigitChars_eq_value (digits : List Char) :
    Nat.ofDigitChars 10 digits 0 = value digits := by
  induction digits using List.reverseRecOn with
  | nil => rfl
  | append_singleton digits d ih =>
    have hvalue : value (digits ++ [d]) = d.toNat - '0'.toNat + 10 * value digits := by
      rw [value, List.reverse_concat, List.map_cons, Nat.ofDigits_cons]
      rfl
    rw [Nat.ofDigitChars_append, ih, hvalue]
    exact Nat.add_comm _ _

theorem isDigits_iff {cs : List Char} : IsDigits cs ↔ cs ≠ [] ∧ cs.all Char.isDigit = true := by
  simp only [IsDigits, List.all_eq_true, isDigit_iff]

theorem magnitude?_eq_some_iff {digits : List Char} {n : Nat} :
    magnitude? digits = some n ↔ IsDigits digits ∧ n = value digits := by
  rw [magnitude?, isDigits_iff, ofDigitChars_eq_value]
  split
  · rename_i h
    simp [h, eq_comm]
  · rename_i h
    exact ⟨fun hn => (by cases hn), fun hd => absurd hd.1 h⟩

theorem signed?_eq_some_iff {cs : List Char} {n : Int} : signed? cs = some n ↔ Denotes cs n := by
  constructor
  · intro h
    unfold signed? at h
    split at h
    all_goals
      obtain ⟨m, hm, rfl⟩ := Option.map_eq_some_iff.mp h
      obtain ⟨hd, rfl⟩ := magnitude?_eq_some_iff.mp hm
    · exact .minus hd
    · exact .plus hd
    · exact .unsigned hd
  · intro h
    cases h with
    | unsigned h => exact signed?_of_magnitude? (magnitude?_eq_some_iff.mpr ⟨h, rfl⟩)
    | plus h => rw [signed?, magnitude?_eq_some_iff.mpr ⟨h, rfl⟩, Option.map_some]
    | minus h => rw [signed?, magnitude?_eq_some_iff.mpr ⟨h, rfl⟩, Option.map_some]

theorem read?_eq_some_iff {text : String} {v : Int64} :
    read? text = some v ↔ Denotes text.toList v.toInt := by
  rw [← signed?_eq_some_iff, read?]
  constructor
  · intro h
    split at h
    · rename_i n hn
      split at h
      · rename_i hr
        cases h
        rw [Int64.toInt_ofInt_of_le (by simp only [lowest] at hr; omega)
          (by simp only [highest] at hr; omega), hn]
      · cases h
    · cases h
  · intro h
    rw [h]
    dsimp only
    rw [if_pos (toInt_inRange v), Int64.ofInt_toInt]

theorem exists_read?_iff {text : String} {n : Int} :
    (∃ v : Int64, v.toInt = n ∧ read? text = some v) ↔
      Denotes text.toList n ∧ -2 ^ 63 ≤ n ∧ n < 2 ^ 63 := by
  constructor
  · rintro ⟨v, rfl, h⟩
    exact ⟨read?_eq_some_iff.mp h, v.le_toInt, v.toInt_lt⟩
  · rintro ⟨h, hlow, hhigh⟩
    have hv : (Int64.ofInt n).toInt = n := Int64.toInt_ofInt_of_le hlow hhigh
    exact ⟨.ofInt n, hv, read?_eq_some_iff.mpr (hv.symm ▸ h)⟩

theorem read?_eq_none_iff {text : String} :
    read? text = none ↔ ¬ ∃ n, Denotes text.toList n ∧ -2 ^ 63 ≤ n ∧ n < 2 ^ 63 := by
  rw [← Option.not_isSome_iff_eq_none, Option.isSome_iff_exists, not_iff_not]
  constructor
  · rintro ⟨v, hv⟩
    exact ⟨v.toInt, exists_read?_iff.mp ⟨v, rfl, hv⟩⟩
  · rintro ⟨n, hn⟩
    obtain ⟨v, -, hv⟩ := exists_read?_iff.mpr hn
    exact ⟨v, hv⟩

theorem Denotes.unique {cs : List Char} {n m : Int} (h : Denotes cs n) (h' : Denotes cs m) :
    n = m := by
  rw [← signed?_eq_some_iff] at h h'
  exact Option.some.inj (h.symm.trans h')

theorem exists_read?_digits_iff {digits : String} (h : IsDigits digits.toList) :
    (∃ v, read? digits = some v) ↔ value digits.toList < 2 ^ 63 := by
  constructor
  · rintro ⟨v, hv⟩
    obtain ⟨hdenotes, -, hhigh⟩ := exists_read?_iff.mp ⟨v, rfl, hv⟩
    rw [hdenotes.unique (.unsigned h)] at hhigh
    omega
  · intro hlt
    obtain ⟨v, -, hv⟩ := exists_read?_iff.mpr ⟨.unsigned h, by omega, by omega⟩
    exact ⟨v, hv⟩

theorem digitChar_of_digit {c : Char} (h : '0' ≤ c ∧ c ≤ '9') :
    c.toNat - '0'.toNat < 10 ∧ (c.toNat - '0'.toNat).digitChar = c := by
  have hrange : 48 ≤ c.toNat ∧ c.toNat ≤ 57 := Char.isDigit_iff_toNat.mp (isDigit_iff.mpr h)
  have hzero : '0'.toNat = 48 := rfl
  have hlt : c.toNat - '0'.toNat < 10 := by omega
  refine ⟨hlt, Char.toNat_inj.mp ?_⟩
  rw [Nat.toNat_digitChar_of_lt_ten hlt]
  omega

theorem toDigits_append_digits {n : Nat} (hn : 0 < n) {cs : List Char}
    (h : ∀ c ∈ cs, '0' ≤ c ∧ c ≤ '9') :
    Nat.toDigits 10 n ++ cs = Nat.toDigits 10 (Nat.ofDigitChars 10 cs n) := by
  induction cs generalizing n with
  | nil => exact List.append_nil _
  | cons c cs ih =>
    rw [List.forall_mem_cons] at h
    obtain ⟨hlt, hchar⟩ := digitChar_of_digit h.1
    have hone : Nat.toDigits 10 n ++ [c] = Nat.toDigits 10 (10 * n + (c.toNat - '0'.toNat)) := by
      rw [← Nat.toDigits_append_toDigits (by decide) hn hlt, Nat.toDigits_of_lt_base hlt, hchar]
    rw [Nat.ofDigitChars_cons, ← ih (by omega) h.2, ← hone, List.append_assoc]
    rfl

theorem IsShort.toDigits_value {digits : List Char} (h : IsShort digits) :
    0 < value digits ∧ Nat.toDigits 10 (value digits) = digits := by
  obtain ⟨⟨hne, hdigits⟩, hhead⟩ := h
  cases digits with
  | nil => exact absurd rfl hne
  | cons d ds =>
    rw [List.forall_mem_cons] at hdigits
    obtain ⟨hlt, hchar⟩ := digitChar_of_digit hdigits.1
    have hd : d ≠ '0' := fun hd => hhead (congrArg some hd)
    have hpos : 0 < d.toNat - '0'.toNat := by
      apply Nat.pos_of_ne_zero
      intro hzero
      rw [hzero] at hchar
      exact hd hchar.symm
    have hvalue : value (d :: ds) = Nat.ofDigitChars 10 ds (d.toNat - '0'.toNat) := by
      rw [← ofDigitChars_eq_value, Nat.ofDigitChars_cons, Nat.mul_zero, Nat.zero_add]
    have htoDigits : Nat.toDigits 10 (value (d :: ds)) = d :: ds := by
      rw [hvalue, ← toDigits_append_digits hpos hdigits.2, Nat.toDigits_of_lt_base hlt, hchar]
      rfl
    refine ⟨Nat.pos_of_ne_zero fun hzero => ?_, htoDigits⟩
    rw [hzero] at htoDigits
    exact hd (List.cons.inj htoDigits).1.symm

theorem isDigits_toDigits (n : Nat) : IsDigits (Nat.toDigits 10 n) :=
  (magnitude?_eq_some_iff.mp (magnitude?_toDigits n)).1

theorem isShort_toDigits {n : Nat} (h : 0 < n) : IsShort (Nat.toDigits 10 n) := by
  refine ⟨isDigits_toDigits n, ?_⟩
  induction n using Nat.strongRecOn with
  | ind n ih =>
    by_cases hn : n < 10
    · rw [Nat.toDigits_of_lt_base hn]
      intro hzero
      have hchar : n.digitChar = Nat.digitChar 0 := Option.some.inj hzero
      have hnat := congrArg Char.toNat hchar
      rw [Nat.toNat_digitChar_of_lt_ten hn, Nat.toNat_digitChar_of_lt_ten (by decide)] at hnat
      omega
    · rw [Nat.toDigits_of_base_le (by decide) (by omega), List.head?_append_of_ne_nil]
      · exact ih (n / 10) (by omega) (by omega)
      · exact Nat.toDigits_ne_nil

theorem isCanonical_write (v : Int64) : IsCanonical (write v).toList := by
  by_cases hneg : v.toInt < 0
  · rw [toList_write_of_neg hneg]
    exact .negative (isShort_toDigits (by omega))
  · rw [toList_write_of_nonneg hneg]
    by_cases hzero : v.toInt.natAbs = 0
    · rw [hzero]
      exact .zero
    · exact .positive (isShort_toDigits (by omega))

/-- A number has one canonical text, and it is the one that is written. -/
theorem canonical_iff {v : Int64} {cs : List Char} :
    IsCanonical cs ∧ Denotes cs v.toInt ↔ cs = (write v).toList := by
  constructor
  · rintro ⟨hcanonical, hdenotes⟩
    cases hcanonical with
    | zero =>
      have hv : v.toInt = 0 := hdenotes.unique (signed?_eq_some_iff.mp rfl)
      rw [toList_write_of_nonneg (by omega), hv]
      rfl
    | positive h =>
      have hv := hdenotes.unique (.unsigned h.digits)
      rw [toList_write_of_nonneg (by omega), hv]
      exact h.toDigits_value.2.symm
    | negative h =>
      have hv := hdenotes.unique (.minus h.digits)
      obtain ⟨hpos, htoDigits⟩ := h.toDigits_value
      rw [toList_write_of_neg (by omega), hv, Int.natAbs_neg, Int.natAbs_natCast, htoDigits]
  · rintro rfl
    exact ⟨isCanonical_write v, signed?_eq_some_iff.mp (signed?_write v)⟩

end MonkeyFrontend.Numeral
