import SlotColoring.Text.Numeral

/-!
# Written numbers are read back

A number is written by its digits, with a minus sign in front if it is negative
(`toList_toString_int`).  Reading the digits gives the number again (`numeral?_toDigits`), and so
does reading an integer with its sign (`integer?_toString`).
-/

namespace SlotColoring.Text

/-- Reads one or more digits, with or without a sign in front. -/
def integer? : List Char → Option Int
  | ['-'] => none
  | '-' :: cs => (digitsValue? 0 cs).map fun n : Nat => -(n : Int)
  | cs => (numeral? cs).map fun n : Nat => (n : Int)

theorem digitsValue?_eq : ∀ {cs : List Char} {n : Nat}, (∀ c ∈ cs, c.isDigit = true) →
    digitsValue? n cs = some (Nat.ofDigitChars 10 cs n)
  | [], n, _ => by rw [digitsValue?, Nat.ofDigitChars_nil]
  | c :: cs, n, h => by
    rw [digitsValue?, if_pos (h c (by simp)), Nat.ofDigitChars_cons]
    exact digitsValue?_eq fun d hd => h d (List.mem_cons_of_mem _ hd)

theorem isDigit_of_mem_digits {n : Nat} {c : Char} (hc : c ∈ Nat.toDigits 10 n) :
    c.isDigit = true :=
  Nat.isDigit_of_mem_toDigits (by omega) (by omega) hc

theorem digitsValue?_toDigits (n : Nat) : digitsValue? 0 (Nat.toDigits 10 n) = some n := by
  rw [digitsValue?_eq fun _ => isDigit_of_mem_digits, Nat.ofDigitChars_ten_toDigits]

theorem numeral?_toDigits (n : Nat) : numeral? (Nat.toDigits 10 n) = some n := by
  have hvalue := digitsValue?_toDigits n
  have hdigits : ∀ c ∈ Nat.toDigits 10 n, c.isDigit = true := fun _ => isDigit_of_mem_digits
  rcases hcs : Nat.toDigits 10 n with _ | ⟨c, cs⟩
  · exact absurd hcs Nat.toDigits_ne_nil
  · rw [hcs] at hvalue hdigits
    have hplus : c ≠ '+' := fun hc => by simpa [hc] using hdigits c (by simp)
    rw [← hvalue]
    unfold numeral?
    split
    · simp_all
    · simp_all
    · simp_all
    · rfl

theorem toList_toString_int (i : Int) :
    (toString i).toList = (if i < 0 then ['-'] else []) ++ Nat.toDigits 10 i.natAbs := by
  cases i with
  | ofNat n =>
    show (Int.repr _).toList = _
    simp [Int.repr]
  | negSucc n =>
    show (Int.repr _).toList = _
    simp [Int.repr, Int.negSucc_lt_zero]

theorem integer?_toString (i : Int) : integer? (toString i).toList = some i := by
  rw [toList_toString_int]
  rcases hcs : Nat.toDigits 10 i.natAbs with _ | ⟨c, cs⟩
  · exact absurd hcs Nat.toDigits_ne_nil
  by_cases hneg : i < 0
  · have habs : -(i.natAbs : Int) = i := by omega
    rw [if_pos hneg, List.singleton_append, integer?, ← hcs, digitsValue?_toDigits,
      Option.map_some, habs]
    simp
  · have habs : (i.natAbs : Int) = i := by omega
    have hminus : c ≠ '-' := fun hc => by
      have hdigit := isDigit_of_mem_digits (n := i.natAbs) (c := c) (by simp [hcs])
      simp [hc] at hdigit
    rw [if_neg hneg, List.nil_append]
    unfold integer?
    split
    · simp_all
    · simp_all
    · rw [← hcs, numeral?_toDigits, Option.map_some, habs]

end SlotColoring.Text
