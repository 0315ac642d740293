/-! The ways in which a table refuses a new entry, and their wording. -/

namespace Treewalk

/-- The largest number that fits in 32 bits, the greatest index of a table. -/
def maxIndex : Nat := 4294967295

/-- The largest number that fits in 16 bits, the greatest length of one argument or parameter
list. -/
def maxListLength : Nat := 65535

theorem toNat_ofNat_index {n : Nat} (h : n ≤ maxIndex) : (UInt32.ofNat n).toNat = n :=
  UInt32.toNat_ofNat_of_lt' (Nat.lt_succ_of_le h)

theorem toNat_ofNat_listLength {n : Nat} (h : n ≤ maxListLength) : (UInt16.ofNat n).toNat = n :=
  UInt16.toNat_ofNat_of_lt' (Nat.lt_succ_of_le h)

/-- A refused entry: each cause carries the size that was found too large. -/
inductive Refusal where
  | strings (count : Nat)
  | nodes (count : Nat)
  | argumentEntries (count : Nat)
  | parameterEntries (count : Nat)
  | arguments (count : Nat)
  | parameters (count : Nat)
deriving DecidableEq

namespace Refusal

/-- The wording shared by the refusals of an arena. -/
def tooMany (what : String) (count : Nat) (bound : String) : String :=
  "too many " ++ what ++ ": " ++ toString count ++ " exceeds " ++ bound

/-- The text of a refusal. -/
def message : Refusal → String
  | strings n =>
    "interner exceeded capacity: " ++ toString n ++ " strings, max is " ++ toString maxIndex
  | nodes n => tooMany "expressions" n "u32::MAX"
  | argumentEntries n => tooMany "argument entries" n "u32::MAX"
  | parameterEntries n => tooMany "parameter entries" n "u32::MAX"
  | arguments n => tooMany "arguments" n "u16::MAX"
  | parameters n => tooMany "parameters" n "u16::MAX"

end Refusal

end Treewalk
