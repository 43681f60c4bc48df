/-!
# Escapes

Escapes write a character by a letter or by the hexadecimal digits of its code units. A character
beyond the basic plane has a pair of code units; neither half of a pair is a character.

## Main definitions

* `Text.hex`, `Text.hexQuad?`: hexadecimal digits of a number, and the number of four digits
* `Text.isHighSurrogate`, `Text.isLowSurrogate`, `Text.pairChar`: pairs of code units
* `Text.letterEscape?`: escapes by one letter
-/

namespace OperationTools.Text

/-! ## Hexadecimal digits -/

/-- The hexadecimal digits of `n` in lower case, padded with zeros to `width`. -/
def hex (width n : Nat) : List Char :=
  let digits := Nat.toDigits 16 n
  List.replicate (width - digits.length) '0' ++ digits

/-- The value of a hexadecimal digit. -/
def hexDigit? (c : Char) : Option Nat :=
  if c.isDigit then some (c.toNat - 48)
  else if 'a' ≤ c ∧ c ≤ 'f' then some (c.toNat - 87)
  else if 'A' ≤ c ∧ c ≤ 'F' then some (c.toNat - 55)
  else none

theorem lt_of_hexDigit? {c : Char} {n : Nat} (h : hexDigit? c = some n) : n < 16 := by
  unfold hexDigit? at h
  split at h
  · rename_i hd
    simp only [Char.isDigit, Bool.and_eq_true, decide_eq_true_eq] at hd
    have h9 : c.toNat ≤ 57 := UInt32.le_iff_toNat_le.1 hd.2
    cases h
    omega
  · split at h
    · rename_i hc
      have hu : c.toNat ≤ 102 := UInt32.le_iff_toNat_le.1 hc.2
      cases h
      omega
    · split at h
      · rename_i hc
        have hu : c.toNat ≤ 70 := UInt32.le_iff_toNat_le.1 hc.2
        cases h
        omega
      · cases h

/-- The value of four hexadecimal digits. -/
def hexQuad? (a b c d : Char) : Option Nat := do
  let a ← hexDigit? a
  let b ← hexDigit? b
  let c ← hexDigit? c
  let d ← hexDigit? d
  pure (((a * 16 + b) * 16 + c) * 16 + d)

/-! ## Code units -/

/-- The code unit is the first of a pair. -/
def isHighSurrogate (n : Nat) : Bool := 0xd800 ≤ n && n < 0xdc00

/-- The code unit is the second of a pair. -/
def isLowSurrogate (n : Nat) : Bool := 0xdc00 ≤ n && n < 0xe000

/-- The character of a pair of code units. -/
def pairChar (high low : Nat) : Char :=
  Char.ofNat (0x10000 + (high - 0xd800) * 0x400 + (low - 0xdc00))

/-! ## Letters -/

/-- The character of an escape by one letter. -/
def letterEscape? (c : Char) : Option Char :=
  match c with
  | '"' => some '"'
  | '\\' => some '\\'
  | '/' => some '/'
  | 'b' => some '\x08'
  | 'f' => some '\x0c'
  | 'n' => some '\n'
  | 'r' => some '\r'
  | 't' => some '\t'
  | _ => none

end OperationTools.Text
