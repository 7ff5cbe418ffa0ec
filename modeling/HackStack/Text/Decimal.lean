import HackStack.Word

/-! Decimal numerals: unsigned ones in commands, signed ones in assembly. -/
namespace HackStack.Decimal

/-- The value of a nonempty run of ASCII digits. Leading zeros are allowed. -/
def natural? (digits : List Char) : Option Nat :=
  if digits = [] ∨ digits.all Char.isDigit = false then none
  else some (Nat.ofDigitChars 10 digits 0)

def unsigned? (digits : List Char) : Option Word :=
  match natural? digits with
  | some n => if n < 65536 then some (BitVec.ofNat 16 n) else none
  | none => none

def signedWord? (negative : Bool) (magnitude : Nat) : Option Word :=
  if negative then
    if magnitude ≤ 32768 then some (-BitVec.ofNat 16 magnitude) else none
  else
    if magnitude ≤ 32767 then some (BitVec.ofNat 16 magnitude) else none

/-- A numeral with an optional sign, read as a two's complement word. -/
def signed? : List Char → Option Word
  | '-' :: digits => (natural? digits).bind (signedWord? true)
  | '+' :: digits => (natural? digits).bind (signedWord? false)
  | digits => (natural? digits).bind (signedWord? false)

def signedText (word : Word) : String :=
  if word.msb then "-" ++ (-word).toNat.repr else word.toNat.repr

theorem natural?_toDigits (n : Nat) : natural? (Nat.toDigits 10 n) = some n := by
  have digits : (Nat.toDigits 10 n).all Char.isDigit = true :=
    List.all_eq_true.mpr fun _ mem =>
      Nat.isDigit_of_mem_toDigits (by decide) (by decide) mem
  simp [natural?, digits, Nat.toDigits_ne_nil, Nat.ofDigitChars_ten_toDigits]

theorem unsigned?_repr (word : Word) : unsigned? word.toNat.repr.toList = some word := by
  have bound := word.isLt
  simp [unsigned?, natural?_toDigits, bound]

theorem signed?_of_natural? {digits : List Char} {n : Nat} (value : natural? digits = some n) :
    signed? digits = signedWord? false n := by
  unfold signed?
  split
  · simp [natural?] at value
  · simp [natural?] at value
  · simp [value]

theorem signed?_signedText (word : Word) : signed? (signedText word).toList = some word := by
  have bound := word.isLt
  have sign := BitVec.msb_eq_decide word
  cases negative : word.msb with
  | false =>
    have small : word.toNat ≤ 32767 := by
      simp [negative] at sign
      omega
    simp [signedText, negative, signed?_of_natural? (natural?_toDigits _), signedWord?, small]
  | true =>
    have magnitude : (-word).toNat ≤ 32768 := by
      simp [negative] at sign
      rw [BitVec.toNat_neg]
      omega
    simp only [signedText, negative, if_true, String.toList_append, Nat.toList_repr]
    change (natural? (Nat.toDigits 10 (-word).toNat)).bind (signedWord? true) = some word
    rw [natural?_toDigits, Option.bind_some, signedWord?, if_pos rfl, if_pos magnitude,
      BitVec.ofNat_toNat, BitVec.setWidth_eq, BitVec.neg_neg]

end HackStack.Decimal
