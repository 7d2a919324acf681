namespace MonkeyFrontend.Numeral

def magnitude? (digits : List Char) : Option Nat :=
  if digits ≠ [] ∧ digits.all Char.isDigit then some (Nat.ofDigitChars 10 digits 0) else none

def signed? : List Char → Option Int
  | '-' :: digits => (magnitude? digits).map fun n : Nat => -(n : Int)
  | '+' :: digits => (magnitude? digits).map fun n : Nat => (n : Int)
  | digits => (magnitude? digits).map fun n : Nat => (n : Int)

def lowest : Int := -9223372036854775808

def highest : Int := 9223372036854775807

/-- Reads a decimal integer of 64 bits. Leading zeros are allowed, a number out of range is not. -/
def read? (text : String) : Option Int64 :=
  match signed? text.toList with
  | some n => if lowest ≤ n ∧ n ≤ highest then some (Int64.ofInt n) else none
  | none => none

def write (n : Int64) : String :=
  let digits := String.ofList (Nat.toDigits 10 n.toInt.natAbs)
  if n.toInt < 0 then "-" ++ digits else digits

theorem magnitude?_toDigits (n : Nat) : magnitude? (Nat.toDigits 10 n) = some n := by
  have hne : Nat.toDigits 10 n ≠ [] := Nat.toDigits_ne_nil
  have hall : (Nat.toDigits 10 n).all Char.isDigit = true :=
    List.all_eq_true.2 fun c hc => Nat.isDigit_of_mem_toDigits (by omega) (by omega) hc
  simp [magnitude?, hne, hall, Nat.ofDigitChars_ten_toDigits]

theorem signed?_of_magnitude? {digits : List Char} {n : Nat} (h : magnitude? digits = some n) :
    signed? digits = some (n : Int) := by
  unfold signed?
  split
  · simp [magnitude?] at h
  · simp [magnitude?] at h
  · simp [h]

theorem toInt_inRange (n : Int64) : lowest ≤ n.toInt ∧ n.toInt ≤ highest := by
  have := n.le_toInt
  have := n.toInt_lt
  simp only [lowest, highest]
  omega

theorem toList_write_of_neg {n : Int64} (h : n.toInt < 0) :
    (write n).toList = '-' :: Nat.toDigits 10 n.toInt.natAbs := by
  rw [write, if_pos h, String.toList_append, String.toList_ofList, String.toList_ofList]
  rfl

theorem toList_write_of_nonneg {n : Int64} (h : ¬ n.toInt < 0) :
    (write n).toList = Nat.toDigits 10 n.toInt.natAbs := by
  rw [write, if_neg h, String.toList_ofList]

theorem signed?_write (n : Int64) : signed? (write n).toList = some n.toInt := by
  have hm := magnitude?_toDigits n.toInt.natAbs
  by_cases hn : n.toInt < 0
  · rw [toList_write_of_neg hn]
    have habs : -(n.toInt.natAbs : Int) = n.toInt := by omega
    rw [signed?, hm, Option.map_some, habs]
  · rw [toList_write_of_nonneg hn, signed?_of_magnitude? hm]
    have habs : (n.toInt.natAbs : Int) = n.toInt := by omega
    rw [habs]

theorem read?_write (n : Int64) : read? (write n) = some n := by
  rw [read?, signed?_write]
  dsimp only
  rw [if_pos (toInt_inRange n), Int64.ofInt_toInt]

end MonkeyFrontend.Numeral
