import FourFuzzers.Lib.RawArray

/-!
# The RE2 target: the instruction array of the compiler

`Compiler::Compiler` and `Compiler::AllocInst` of `compile.cc`, with the injected bug BUG_RE1: an
array that grows is copied with one instruction too many once it holds 16. `PODArray` is the list of
its elements, and the empty list is the null array a compiler starts with. `ninst_` is never
negative and a natural number here; each value the source computes as an `int` is recorded.
-/

namespace FourFuzzers.Re2

open FourFuzzers.Lib FourFuzzers.Lib.Traced

/-! ## Instructions -/

/-- `Prog::Inst`, as its two words of 32 bits. -/
structure Inst where
  outOpcode : Nat  -- 28 bits: out, 1 bit: last, 3 bits: opcode
  arg : Nat        -- the union
  deriving DecidableEq, Repr

namespace Inst

/-- The instruction `memset` leaves. -/
def zero : Inst := ⟨0, 0⟩

def opcode (ip : Inst) : Nat := ip.outOpcode % 8

def last (ip : Inst) : Nat := ip.outOpcode / 8 % 2

def out (ip : Inst) : Nat := ip.outOpcode / 16

/-- `set_opcode` -/
def setOpcode (ip : Inst) (opcode : Nat) : Inst :=
  { ip with outOpcode := ip.out * 16 + ip.last * 8 + opcode }

/-- `kInstFail` -/
def opFail : Nat := 7

def initFail (ip : Inst) : Inst := ip.setOpcode opFail

end Inst

/-- `PODArray<Prog::Inst>` -/
abbrev PODArray := List Inst

/-! ## The compiler -/

/-- The members of `Compiler` that `AllocInst` uses. -/
structure Compiler where
  failed : Bool
  inst : PODArray
  ninst : Nat
  maxNinst : Int
  deriving DecidableEq, Repr

/-- What indeterminate memory holds: a fresh array, and the memory behind the array that is
copied. -/
structure Garbage where
  fresh : Nat → Inst
  past : Nat → Inst

abbrev Run (α : Type) := Traced ArrayEvent α

/-- `copy_n` -/
def copyN (ninst : Nat) : Nat := if 16 ≤ ninst then ninst + 1 else ninst

/-- The new array with the old one copied into it, where there is an old one. -/
def copyInst (count : Nat → Nat) (g : Garbage) (cap : Nat) (c : Compiler) : Run PODArray :=
  let inst := (List.range cap).map g.fresh
  if c.inst = [] then pure inst else memmove g.past inst c.inst (count c.ninst)

/-- The array with room for `n` more instructions. -/
def growInst (count : Nat → Nat) (g : Garbage) (n : Nat) (c : Compiler) : Run PODArray := do
  emit (.int (c.ninst + n))
  if c.inst.length < c.ninst + n then do
    let cap ← doubleUntil (c.ninst + n) 32 (if c.inst.length = 0 then 8 else c.inst.length)
    let inst ← copyInst count g cap c
    memset inst Inst.zero c.ninst (cap - c.ninst)
  else pure c.inst

/-- `AllocInst` with `count ninst_` instructions copied. -/
def allocInstWith (count : Nat → Nat) (g : Garbage) (n : Nat) (c : Compiler) :
    Run (Int × Compiler) := do
  if c.failed then pure (-1, { c with failed := true })
  else do
    emit (.int (c.ninst + n))
    if c.maxNinst < c.ninst + n then pure (-1, { c with failed := true })
    else do
      let inst ← growInst count g n c
      pure (c.ninst, { c with inst := inst, ninst := c.ninst + n })

/-- `AllocInst` -/
def allocInst : Garbage → Nat → Compiler → Run (Int × Compiler) := allocInstWith copyN

/-- `AllocInst` without the injected bug: `ninst_` instructions are copied. -/
def allocInstCorrect : Garbage → Nat → Compiler → Run (Int × Compiler) := allocInstWith fun n => n

/-- A compiler before its constructor calls `AllocInst`. -/
def Compiler.blank : Compiler := ⟨false, [], 0, 1⟩

/-- `Compiler::Compiler` -/
def Compiler.new (g : Garbage) : Compiler :=
  let (fail, c) := (allocInst g 1 .blank).val
  { c with inst := c.inst.modify fail.toNat Inst.initFail, maxNinst := 0 }

/-! ## Runs -/

/-- What happens to the instruction array of a compiler. -/
inductive Op
  | allocInst (g : Garbage) (n : Nat)  -- `AllocInst(n)`
  | release                            -- the top slot is zeroed, `ninst_--`
  | write (i : Nat) (ip : Inst)        -- `inst_[i]` is written
  | setMaxNinst (m : Int)              -- `max_ninst_ = m`

/-- How the compiler uses its array. -/
def Op.Allowed (c : Compiler) : Op → Prop
  | allocInst _ n => 1 ≤ n ∧ n ≤ 2 ^ 24
  | release => 0 < c.ninst
  | write i _ => i < c.ninst
  | setMaxNinst m => m ≤ 2 ^ 24

def step (c : Compiler) : Op → Compiler
  | .allocInst g n => (Re2.allocInst g n c).val.2
  | .release => { c with inst := c.inst.set (c.ninst - 1) Inst.zero, ninst := c.ninst - 1 }
  | .write i ip => { c with inst := c.inst.set i ip }
  | .setMaxNinst m => { c with maxNinst := m }

/-- `c'` comes from `c` by allowed operations. -/
inductive Runs (c : Compiler) : Compiler → Prop
  | refl : Runs c c
  | step {c' : Compiler} {op : Op} : Runs c c' → op.Allowed c' → Runs c (step c' op)

/-- A compiler comes from the constructor, or is the one the constructor allocates its first
instruction in. -/
def Reachable (c : Compiler) : Prop := c = .blank ∨ ∃ g, Runs (.new g) c

end FourFuzzers.Re2
