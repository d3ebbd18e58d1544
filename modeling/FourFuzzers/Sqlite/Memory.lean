import FourFuzzers.Sqlite.Tokenize

/-!
# The tokenizer in memory

`sqlite3GetToken` of the fuzzed copy once more, a level lower: its argument is a pointer into memory
of which nothing is known behind the terminator of the text, and every byte it reads is recorded, in
the order in which the conditions of the source are evaluated; a byte that is read several times in
a row (`z[i] && z[i]!='\''`) is recorded once. A loop takes a budget and records `outOfFuel` when it
is used up. Indices are `i64` in the source and natural numbers here.
-/

namespace FourFuzzers.Sqlite

open FourFuzzers.Lib FourFuzzers.Lib.Traced

/-- The memory behind a pointer. -/
abbrev Memory := Nat → UInt8

/-- The memory behind `z + n`. -/
def Memory.advance (z : Memory) (n : Nat) : Memory := fun i => z (n + i)

/-- A NUL-terminated string of `length` bytes. -/
structure SqlText where
  z : Memory
  length : Nat
  nul : z length = 0
  ne_nul : ∀ i, i < length → z i ≠ 0

inductive Access
  /-- `z[i]` is read. -/
  | read (i : Nat)
  /-- `memcpy` of the first `n` bytes at `z` by `sqlite3CheckIdentifier` (BUG_S1) -/
  | copy (n : Nat)
  /-- A loop budget of the model ran out. -/
  | outOfFuel
  deriving DecidableEq, Repr

/-- Computations that read memory. -/
abbrev Reader (α : Type) := Traced Access α

/-- `z[i]` -/
def peek (z : Memory) (i : Nat) : Reader UInt8 := ⟨z i, [.read i]⟩

/-- A condition on `z[i]`. -/
def test (z : Memory) (i : Nat) (p : UInt8 → Bool) : Reader Bool := do
  let c ← peek z i
  pure (p c)

/-- The generated `keywordCode`: it returns the length it is given and reads the bytes of the
token. -/
structure KeywordCode where
  run : Memory → Nat → Reader (Nat × Tk)
  returns : ∀ z n, (run z n).val.1 = n
  reads : ∀ z n, ∀ a ∈ (run z n).log, ∃ i, a = .read i ∧ i < n

/-! ## Loops -/

/-- `for(; p(z[i]); i++){}` -/
def scanMem (z : Memory) (p : UInt8 → Bool) : Nat → Nat → Reader Nat
  | 0, i => do
    Traced.emit .outOfFuel
    pure i
  | fuel + 1, i => do
    let c ← peek z i
    if p c then scanMem z p fuel (i + 1) else pure i

/-- `for(;; i++)` over digits and separators -/
def scanDigitsMem (z : Memory) (p : UInt8 → Bool) : Nat → Nat → Tk → Reader (Nat × Tk)
  | 0, i, t => do
    Traced.emit .outOfFuel
    pure (i, t)
  | fuel + 1, i, t => do
    let c ← peek z i
    if p c then scanDigitsMem z p fuel (i + 1) t
    else if c = 0x5F then scanDigitsMem z p fuel (i + 1) Tk.qnumber
    else pure (i, t)

/-- `for(; (c!='*' || z[i]!='/') && (c=z[i])!=0; i++){}` -/
def skipCommentMem (z : Memory) : Nat → UInt8 → Nat → Reader (UInt8 × Nat)
  | 0, c, i => do
    Traced.emit .outOfFuel
    pure (c, i)
  | fuel + 1, c, i => do
    if ← both (pure (c = 0x2A)) (test z i (· = 0x2F)) then pure (c, i)
    else do
      let x ← peek z i
      if x = 0 then pure (0, i) else skipCommentMem z fuel x (i + 1)

/-- The loop over a quoted text. -/
def skipQuotedMem (z : Memory) (delim : UInt8) : Nat → Nat → Reader (UInt8 × Nat)
  | 0, i => do
    Traced.emit .outOfFuel
    pure (0, i)
  | fuel + 1, i => do
    let c ← peek z i
    if c = 0 then pure (0, i)
    else if c = delim then do
      let x ← peek z (i + 1)
      if x = delim then skipQuotedMem z delim fuel (i + 2) else pure (c, i)
    else skipQuotedMem z delim fuel (i + 1)

/-- `for(; c!=']' && (c=z[i])!=0; i++){}` -/
def skipBracketedMem (z : Memory) : Nat → UInt8 → Nat → Reader (UInt8 × Nat)
  | 0, c, i => do
    Traced.emit .outOfFuel
    pure (c, i)
  | fuel + 1, c, i =>
    if c = 0x5D then pure (c, i)
    else do
      let x ← peek z i
      if x = 0 then pure (0, i) else skipBracketedMem z fuel x (i + 1)

/-- The loop over a variable name. Behind a parenthesis `c` is the byte at which the inner loop
ended. -/
def scanVariableMem (z : Memory) : Nat → Nat → Int → Reader (Nat × Int × Tk)
  | 0, i, n => do
    Traced.emit .outOfFuel
    pure (i, n, Tk.variableName)
  | fuel + 1, i, n => do
    let c ← peek z i
    if c = 0 then pure (i, n, Tk.variableName)
    else if idChar c then scanVariableMem z fuel (i + 1) (Copy.full.int (n + 1))
    else if c = 0x28 ∧ 0 < n then do
      let k ← scanMem z (fun c => c ≠ 0 && !isspace c && c ≠ 0x29) fuel (i + 1)
      if z k = 0x29 then pure (k + 1, n, Tk.variableName) else pure (k, n, Tk.illegal)
    else do
      if ← both (pure (c = 0x3A)) (test z (i + 1) (· = 0x3A)) then scanVariableMem z fuel (i + 2) n
      else pure (i, n, Tk.variableName)

/-! ## One token -/

def scanFractionMem (z : Memory) (fuel i : Nat) (t : Tk) : Reader (Nat × Tk) := do
  if ← test z i (· = 0x2E) then
    scanDigitsMem z isdigit fuel (i + 1) (if t = Tk.integer then Tk.float else t)
  else pure (i, t)

def scanExponentMem (z : Memory) (fuel i : Nat) (t : Tk) : Reader (Nat × Tk) := do
  if ← both (test z i fun c => c = 0x65 || c = 0x45) (either (test z (i + 1) isdigit)
      (both (test z (i + 1) fun c => c = 0x2B || c = 0x2D) (test z (i + 2) isdigit))) then
    scanDigitsMem z isdigit fuel (i + 2) (if t = Tk.integer then Tk.float else t)
  else pure (i, t)

/-- The digits of a number, with its fraction and its exponent. -/
def scanNumeralMem (z : Memory) (fuel : Nat) : Reader (Nat × Tk) := do
  if ← both (test z 0 (· = 0x30)) (both (test z 1 fun c => c = 0x78 || c = 0x58)
      (test z 2 isxdigit)) then
    scanDigitsMem z isxdigit fuel 3 Tk.integer
  else do
    let (i, t) ← scanDigitsMem z isdigit fuel 0 Tk.integer
    let (i, t) ← scanFractionMem z fuel i t
    scanExponentMem z fuel i t

def scanNumberMem (z : Memory) (fuel : Nat) : Reader (Nat × Tk) := do
  let (i, t) ← scanNumeralMem z fuel
  let j ← scanMem z idChar fuel i
  pure (j, if j = i then t else Tk.illegal)

/-- A blob literal up to its closing quote. -/
def scanBlobBodyMem (z : Memory) (fuel : Nat) : Reader (Nat × Tk) := do
  let i ← scanMem z isxdigit fuel 2
  if ← either (test z i (· ≠ 0x27)) (pure (i % 2 ≠ 0)) then do
    let i ← scanMem z (fun c => c ≠ 0 && c ≠ 0x27) fuel i
    pure (i, Tk.illegal)
  else pure (i, Tk.blob)

def scanBlobMem (z : Memory) (fuel : Nat) : Reader (Nat × Tk) := do
  let (i, t) ← scanBlobBodyMem z fuel
  let c ← peek z i
  pure (if c ≠ 0 then i + 1 else i, t)

/-- `switch( aiClass[*z] )` -/
def switchClassMem (z : Memory) (fuel : Nat) : Reader Exit := do
  let c ← peek z 0
  match aiClass c with
  | .space => do
    let i ← scanMem z isspace fuel 1
    pure (.token i Tk.space)
  | .minus => do
    let c ← peek z 1
    if c = 0x2D then do
      let i ← scanMem z (fun c => c ≠ 0 && c ≠ 0x0A) fuel 2
      pure (.token i Tk.comment)
    else if c = 0x3E then do
      let c ← peek z 2
      pure (.token (if c = 0x3E then 3 else 2) Tk.ptr)
    else pure (.token 1 Tk.minus)
  | .lp => pure (.token 1 Tk.lp)
  | .rp => pure (.token 1 Tk.rp)
  | .semi => pure (.token 1 Tk.semi)
  | .plus => pure (.token 1 Tk.plus)
  | .star => pure (.token 1 Tk.star)
  | .slash => do
    if ← either (test z 1 (· ≠ 0x2A)) (test z 2 (· = 0)) then pure (.token 1 Tk.slash)
    else do
      let c ← peek z 2
      let (c, i) ← skipCommentMem z fuel c 3
      pure (.token (if c ≠ 0 then i + 1 else i) Tk.comment)
  | .percent => pure (.token 1 Tk.rem)
  | .eq => do
    let c ← peek z 1
    pure (.token (if c = 0x3D then 2 else 1) Tk.eq)
  | .lt => do
    let c ← peek z 1
    if c = 0x3D then pure (.token 2 Tk.le)
    else if c = 0x3E then pure (.token 2 Tk.ne)
    else if c = 0x3C then pure (.token 2 Tk.lshift)
    else pure (.token 1 Tk.lt)
  | .gt => do
    let c ← peek z 1
    if c = 0x3D then pure (.token 2 Tk.ge)
    else if c = 0x3E then pure (.token 2 Tk.rshift)
    else pure (.token 1 Tk.gt)
  | .bang => do
    let c ← peek z 1
    if c ≠ 0x3D then pure (.token 1 Tk.illegal) else pure (.token 2 Tk.ne)
  | .pipe => do
    let c ← peek z 1
    if c ≠ 0x7C then pure (.token 1 Tk.bitor) else pure (.token 2 Tk.concat)
  | .comma => pure (.token 1 Tk.comma)
  | .and => pure (.token 1 Tk.bitand)
  | .tilda => pure (.token 1 Tk.bitnot)
  | .quote => do
    let delim ← peek z 0
    let (c, i) ← skipQuotedMem z delim fuel 1
    if c = 0x27 then pure (.token (i + 1) Tk.string)
    else if c ≠ 0 then pure (.token (i + 1) Tk.id)
    else pure (.token i Tk.illegal)
  | .dot => do
    let c ← peek z 1
    if isdigit c then do
      let (n, t) ← scanNumberMem z fuel
      pure (.token n t)
    else pure (.token 1 Tk.dot)
  | .digit => do
    let (n, t) ← scanNumberMem z fuel
    pure (.token n t)
  | .quote2 => do
    let c ← peek z 0
    let (c, i) ← skipBracketedMem z fuel c 1
    pure (.token i (if c = 0x5D then Tk.id else Tk.illegal))
  | .varnum => do
    let i ← scanMem z isdigit fuel 1
    pure (.token i Tk.variableName)
  | .dollar | .varalpha => do
    let (i, n, t) ← scanVariableMem z fuel 1 0
    pure (.token i (if n = 0 then Tk.illegal else t))
  | .kywd0 => do
    let c ← peek z 1
    if !isKeywordChar c then pure (.identifier 1)
    else do
      let i ← scanMem z isKeywordChar fuel 2
      let c ← peek z i
      if idChar c then pure (.identifier (i + 1)) else pure (.keyword i)
  | .x => do
    let c ← peek z 1
    if c = 0x27 then do
      let (n, t) ← scanBlobMem z fuel
      pure (.token n t)
    else pure (.identifier 1)
  | .kywd | .id => pure (.identifier 1)
  | .bom => do
    if ← both (test z 1 (· = 0xBB)) (test z 2 (· = 0xBF)) then pure (.token 3 Tk.space)
    else pure (.identifier 1)
  | .nul => pure (.token 0 Tk.illegal)
  | .illegal => pure (.token 1 Tk.illegal)

/-- `sqlite3GetToken(z, &tokenType)` -/
def sqlite3GetTokenMem (K : KeywordCode) (z : Memory) (fuel : Nat) : Reader (Nat × Tk) := do
  match ← switchClassMem z fuel with
  | .token n t => pure (n, t)
  | .keyword i => K.run z i
  | .identifier i => do
    let i ← scanMem z idChar fuel i
    Traced.emit (.copy (castSize (castInt i)))
    pure (i, Tk.id)

/-- The tokens of a text, one behind the other from `offset` on up to the terminator, as pairs of a
start and a length; `none` when the budget of calls is used up. -/
def tokenize (K : KeywordCode) (z : Memory) (fuel : Nat) : Nat → Nat → Option (List (Nat × Nat))
  | 0, _ => none
  | calls + 1, offset =>
    let n := (sqlite3GetTokenMem K (z.advance offset) fuel).val.1
    if n = 0 then some [] else (tokenize K z fuel calls (offset + n)).map ((offset, n) :: ·)

end FourFuzzers.Sqlite
