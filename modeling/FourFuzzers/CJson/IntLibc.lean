import FourFuzzers.CJson.Basic

/-!
# A C library for integers

The model runs with any `Libc`. `intLibc` is one whose doubles are integers: `strtod` reads an
optional minus and digits, and the `%g` formats print an integer in full. On texts without fraction
and exponent it behaves as the C library does.
-/

namespace FourFuzzers.CJson

/-- The value of an ASCII digit. -/
def digitValue (c : UInt8) : Option Nat :=
  if 0x30 ≤ c ∧ c ≤ 0x39 then some (c.toNat - 0x30) else none

/-- The number written by the leading digits, continuing from `acc`, and how many there are. -/
def readDigits (acc : Nat) : List UInt8 → Nat × Nat
  | [] => (acc, 0)
  | c :: cs => match digitValue c with
    | some d => ((readDigits (10 * acc + d) cs).1, (readDigits (10 * acc + d) cs).2 + 1)
    | none => (acc, 0)

theorem readDigits_le (acc : Nat) (s : List UInt8) : (readDigits acc s).2 ≤ s.length := by
  induction s generalizing acc with
  | nil => exact Nat.le_refl _
  | cons c cs ih =>
    rw [readDigits]
    split
    · exact Nat.succ_le_succ (ih _)
    · exact Nat.zero_le _

/-- `strtod` on texts of digits. -/
def readInt : List UInt8 → Int × Nat
  | [] => (0, 0)
  | c :: cs =>
    if c = 0x2D then
      if (readDigits 0 cs).2 = 0 then (0, 0)
      else (-((readDigits 0 cs).1 : Int), (readDigits 0 cs).2 + 1)
    else (((readDigits 0 (c :: cs)).1 : Int), (readDigits 0 (c :: cs)).2)

theorem readInt_le (s : List UInt8) : (readInt s).2 ≤ s.length := by
  cases s with
  | nil => exact Nat.le_refl _
  | cons c cs =>
    rw [readInt]
    split
    · split
      · exact Nat.zero_le _
      · exact Nat.succ_le_succ (readDigits_le 0 cs)
    · exact readDigits_le 0 (c :: cs)

/-- `(int)d` -/
def truncInt (d : Int) : CInt := if h : intMin ≤ d ∧ d ≤ intMax then ⟨d, h⟩ else ⟨0, by decide⟩

/-- The decimal text of an integer, at most 25 characters of it. -/
def decimalText (d : Int) : List UInt8 :=
  let digits := (Nat.toDigits 10 d.natAbs).map fun c => c.toNat.toUInt8
  (if d < 0 then 0x2D :: digits else digits).take 25

def intLibc : Libc Int where
  strtod := readInt
  strtod_le := readInt_le
  geIntMax d := (intMax : Int) ≤ d
  leIntMin d := d ≤ intMin
  toInt := truncInt
  ofInt i := i.1
  isnan _ := false
  isinf _ := false
  eq a b := a = b
  compareDouble a b := a = b
  sprintf15g := decimalText
  sprintf17g := decimalText
  sprintf15g_le _ := List.length_take_le 25 _
  sprintf17g_le _ := List.length_take_le 25 _
  sscanfLg s := some (readInt s).1

end FourFuzzers.CJson
