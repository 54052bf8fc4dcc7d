import AgentsCanCommunicate.Library.Text

/-!
# Numbers in file names

A number is written in decimal and padded with zeros to a width, which a large
number outgrows.  It is read back from its digits.
-/

namespace Library.Decimal

/-- `String(n).padStart(width, "0")`. -/
def pad (width n : Nat) : Text := (Nat.toDigits 10 n).leftpad width '0'

/-- The number of a text of digits alone. -/
def read? (s : Text) : Option Nat :=
  if s ≠ [] ∧ s.all Char.isDigit = true then some (Nat.ofDigitChars 10 s 0) else none

variable {width m n : Nat}

theorem read?_pad : read? (pad width n) = some n := by
  have hne : pad width n ≠ [] := by
    rw [pad, List.leftpad]
    exact List.append_ne_nil_of_right_ne_nil _ Nat.toDigits_ne_nil
  have hdigits : (pad width n).all Char.isDigit = true := by
    rw [pad, List.leftpad, List.all_append, Bool.and_eq_true, List.all_eq_true, List.all_eq_true]
    refine ⟨fun c hc => ?_, fun c hc => Nat.isDigit_of_mem_toDigits (by decide) (by decide) hc⟩
    rw [List.eq_of_mem_replicate hc]
    decide
  rw [read?, if_pos ⟨hne, hdigits⟩, pad, List.leftpad, Nat.ofDigitChars_append,
    Nat.ofDigitChars_replicate_zero, Nat.mul_zero, Nat.ofDigitChars_ten_toDigits]

theorem pad_inj (h : pad width m = pad width n) : m = n := by
  have hread := congrArg read? h
  rw [read?_pad, read?_pad] at hread
  exact Option.some.inj hread

end Library.Decimal
