import FourFuzzers.Lib.Network
import FourFuzzers.Re2.Range

/-!
# Running an instruction array

What an instruction of `prog.h` does to a position of the text, and the empty-width flags that
`Prog::EmptyFlags` reports there. A text is the list of the bytes in the order in which the program
reads them, with everything around the searched part, and a position is an index into it.

An instruction is left through a slot, numbered like the entries of a patch list, or it signals a
match. While a program is built, some slots are holes: the links of a patch list are no targets.
-/

namespace FourFuzzers.Re2

open FourFuzzers.Lib

/-! ## Instructions -/

namespace Inst

/-- `kInstAltMatch` -/
def opAltMatch : Nat := 1

/-- `kInstCapture` -/
def opCapture : Nat := 3

/-- `kInstEmptyWidth` -/
def opEmptyWidth : Nat := 4

/-- `kInstMatch` -/
def opMatch : Nat := 5

/-- `kInstNop` -/
def opNop : Nat := 6

def matchId (ip : Inst) : Nat := ip.arg

def empty (ip : Inst) : Nat := ip.arg

def initCapture (ip : Inst) (cap out : Nat) : Inst :=
  { ip.setOutOpcode out opCapture with arg := cap % 2 ^ 32 }

def initEmptyWidth (ip : Inst) (empty out : Nat) : Inst :=
  { ip.setOutOpcode out opEmptyWidth with arg := empty % 2 ^ 32 }

def initMatch (ip : Inst) (id : Nat) : Inst := { ip.setOpcode opMatch with arg := id % 2 ^ 32 }

def initNop (ip : Inst) : Inst := ip.setOpcode opNop

/-- A byte as a range with `foldcase` sees it: `A-Z -> a-z`. -/
def foldByte (foldcase c : Nat) : Nat := if foldcase ≠ 0 ∧ 0x41 ≤ c ∧ c ≤ 0x5A then c + 32 else c

/-- `Matches` -/
def admits (ip : Inst) (c : Nat) : Bool :=
  ip.lo ≤ foldByte ip.foldcase c ∧ foldByte ip.foldcase c ≤ ip.hi

end Inst

/-! ## Empty-width flags -/

/-- `kEmptyBeginLine` -/
def emptyBeginLine : Nat := 1

/-- `kEmptyEndLine` -/
def emptyEndLine : Nat := 2

/-- `kEmptyBeginText` -/
def emptyBeginText : Nat := 4

/-- `kEmptyEndText` -/
def emptyEndText : Nat := 8

/-- `kEmptyWordBoundary` -/
def emptyWordBoundary : Nat := 16

/-- `kEmptyNonWordBoundary` -/
def emptyNonWordBoundary : Nat := 32

/-- `IsWordChar` -/
def isWordChar (c : Nat) : Bool :=
  (0x41 ≤ c ∧ c ≤ 0x5A) ∨ (0x61 ≤ c ∧ c ≤ 0x7A) ∨ (0x30 ≤ c ∧ c ≤ 0x39) ∨ c = 0x5F

/-- `Prog::EmptyFlags` -/
def emptyFlags (text : List Nat) (p : Nat) : Nat :=
  -- ^ and \A
  let flags :=
    if p = 0 then emptyBeginText ||| emptyBeginLine
    else if text.getD (p - 1) 0 = 0x0A then emptyBeginLine
    else 0
  -- $ and \z
  let flags :=
    if p = text.length then flags ||| (emptyEndText ||| emptyEndLine)
    else if p < text.length ∧ text.getD p 0 = 0x0A then flags ||| emptyEndLine
    else flags
  -- \b and \B
  let flags :=
    if p = 0 ∧ p = text.length then flags
    else if p = 0 then
      if isWordChar (text.getD p 0) then flags ||| emptyWordBoundary else flags
    else if p = text.length then
      if isWordChar (text.getD (p - 1) 0) then flags ||| emptyWordBoundary else flags
    else if isWordChar (text.getD (p - 1) 0) ≠ isWordChar (text.getD p 0) then
      flags ||| emptyWordBoundary
    else flags
  if flags &&& emptyWordBoundary = 0 then flags ||| emptyNonWordBoundary else flags

/-! ## Steps -/

/-- How an instruction is left. -/
inductive Port
  | slot (p : Nat)  -- the `out` of instruction `p >> 1`, or its `out1` when `p` is odd
  | matched (id : Nat)
  deriving DecidableEq, Repr

/-- The ways out of instruction `x` at position `p`, each with the position behind it. -/
def Inst.next (text : List Nat) (x : Nat) (ip : Inst) (p : Nat) : List (Port × Nat) :=
  if ip.opcode = opAlt ∨ ip.opcode = opAltMatch then [(.slot (x * 2), p), (.slot (x * 2 + 1), p)]
  else if ip.opcode = opByteRange then
    match text[p]? with
    | some c => if ip.admits c then [(.slot (x * 2), p + 1)] else []
    | none => []
  else if ip.opcode = opCapture ∨ ip.opcode = opNop then [(.slot (x * 2), p)]
  else if ip.opcode = opEmptyWidth then
    if ip.empty &&& emptyFlags text p = ip.empty then [(.slot (x * 2), p)] else []
  else if ip.opcode = opMatch then [(.matched ip.matchId, p)]
  else []

/-- Where slot `p` leads. -/
def target (cell : Nat → Inst) (p : Nat) : Nat :=
  if p % 2 = 1 then (cell (p / 2)).out1 else (cell (p / 2)).out

/-- The instructions as a network. A hole is left under the label `none`, a match under its id. -/
def net (cell : Nat → Inst) (holes : List Nat) (text : List Nat) :
    Network Nat Port (Option Nat) Nat where
  acts x p port p' := (port, p') ∈ (cell x).next text x p
  wire
    | .slot p => if p ∈ holes then .inr none else .inl (target cell p)
    | .matched id => .inr (some id)

end FourFuzzers.Re2
