import FourFuzzers.Sqlite.Basic

/-!
# The tokenizer of SQLite

`sqlite3GetToken`, `getToken`, the three `analyze…Keyword` functions and the loop of
`sqlite3RunParser`, for both copies. A pointer into the SQL text is the suffix it points to (`z`),
and an offset in `sqlite3RunParser`. The generated files are parameters: the keyword table
(`Keywords`), `sqlite3ParserFallback`, and the parser, of which the loop only sees the result code.
-/

namespace FourFuzzers.Sqlite

open FourFuzzers.Lib

/-- `z[i]` -/
def byte (z : List UInt8) (i : Nat) : UInt8 := z.getD i 0

/-- A word in capitals, as `keywordCode` compares it. -/
def upper (word : List UInt8) : List UInt8 := word.map (· &&& 0xDF)

/-- WINDOW -/
def windowWord : List UInt8 := [0x57, 0x49, 0x4E, 0x44, 0x4F, 0x57]

/-- OVER -/
def overWord : List UInt8 := [0x4F, 0x56, 0x45, 0x52]

/-- FILTER -/
def filterWord : List UInt8 := [0x46, 0x49, 0x4C, 0x54, 0x45, 0x52]

/-- A generated keyword table: the code of a word, `TK_ID` when it is no keyword. The loop of
`sqlite3RunParser` relies on three of its codes, each of which belongs to one keyword. -/
structure Keywords where
  code : List UInt8 → Tk
  window : ∀ word, code word = Tk.window ↔ upper word = windowWord
  overKw : ∀ word, code word = Tk.overKw ↔ upper word = overWord
  filter : ∀ word, code word = Tk.filter ↔ upper word = filterWord

/-! ## Scanning loops

Each works on the rest of the text behind `i` and counts `i` on. -/

/-- `for(; p(z[i]); i++){}` for a `p` that fails on the terminator -/
def scan (p : UInt8 → Bool) : List UInt8 → Nat → Nat
  | [], i => i
  | c :: z, i => if p c then scan p z (i + 1) else i

/-- The digits of a number with separators; a separator makes it a `TK_QNUMBER`. -/
def scanDigits (p : UInt8 → Bool) : List UInt8 → Nat → Tk → Nat × Tk
  | [], i, t => (i, t)
  | c :: z, i, t =>
    if p c then scanDigits p z (i + 1) t
    else if c = 0x5F then scanDigits p z (i + 1) Tk.qnumber
    else (i, t)

/-- The loop over a C comment; `c` is the byte before. Returns the last byte read too. -/
def skipComment (c : UInt8) : List UInt8 → Nat → UInt8 × Nat
  | [], i => (0, i)
  | x :: z, i =>
    if c = 0x2A ∧ x = 0x2F then (c, i)
    else if x = 0 then (0, i)
    else skipComment x z (i + 1)

/-- The loop over a quoted text, in which the delimiter is doubled. -/
def skipQuoted (delim : UInt8) : List UInt8 → Nat → UInt8 × Nat
  | [], i => (0, i)
  | [c], i =>
    if c = 0 then (0, i)
    else if c = delim then (c, i)
    else (0, i + 1)
  | c :: d :: z, i =>
    if c = 0 then (0, i)
    else if c = delim then
      if d = delim then skipQuoted delim z (i + 2) else (c, i)
    else skipQuoted delim (d :: z) (i + 1)

/-- The loop over a bracketed name; `c` is the byte before. -/
def skipBracketed (c : UInt8) : List UInt8 → Nat → UInt8 × Nat
  | [], i => if c = 0x5D then (c, i) else (0, i)
  | x :: z, i =>
    if c = 0x5D then (c, i)
    else if x = 0 then (0, i)
    else skipBracketed x z (i + 1)

/-- The loop over a variable name: the index behind it, `n` and the token type. -/
def scanVariable (copy : Copy) : List UInt8 → Nat → Int → Run (Nat × Int × Tk)
  | [], i, n => pure (i, n, Tk.variableName)
  | c :: z, i, n =>
    if c = 0 then pure (i, n, Tk.variableName)
    else if idChar c then do
      Traced.emit (.assign .nameLength (n + 1))
      scanVariable copy z (i + 1) (copy.int (n + 1))
    else if c = 0x28 ∧ 0 < n then
      let k := scan (fun c => c ≠ 0 && !isspace c && c ≠ 0x29) z 0
      if byte z k = 0x29 then pure (i + 1 + k + 1, n, Tk.variableName)
      else pure (i + 1 + k, n, Tk.illegal)
    else if c = 0x3A ∧ byte z 0 = 0x3A then scanVariable copy z.tail (i + 2) n
    else pure (i, n, Tk.variableName)
termination_by z => z.length
decreasing_by
  · exact Nat.lt_succ_self _
  · rw [List.length_tail, List.length_cons]
    omega

/-! ## One token -/

/-- The fraction of a number of which `i` bytes have been read. -/
def scanFraction (z : List UInt8) (i : Nat) (t : Tk) : Nat × Tk :=
  if byte z i = 0x2E then
    scanDigits isdigit (z.drop (i + 1)) (i + 1) (if t = Tk.integer then Tk.float else t)
  else (i, t)

/-- The exponent of a number of which `i` bytes have been read. -/
def scanExponent (z : List UInt8) (i : Nat) (t : Tk) : Nat × Tk :=
  if (byte z i = 0x65 ∨ byte z i = 0x45) ∧ (isdigit (byte z (i + 1)) ∨
      ((byte z (i + 1) = 0x2B ∨ byte z (i + 1) = 0x2D) ∧ isdigit (byte z (i + 2)))) then
    scanDigits isdigit (z.drop (i + 2)) (i + 2) (if t = Tk.integer then Tk.float else t)
  else (i, t)

/-- The number cases of the switch. -/
def scanNumber (z : List UInt8) : Nat × Tk :=
  let (i, t) :=
    if byte z 0 = 0x30 ∧ (byte z 1 = 0x78 ∨ byte z 1 = 0x58) ∧ isxdigit (byte z 2) then
      scanDigits isxdigit (z.drop 3) 3 Tk.integer
    else
      let (i, t) := scanDigits isdigit z 0 Tk.integer
      let (i, t) := scanFraction z i t
      scanExponent z i t
  let j := scan idChar (z.drop i) i
  (j, if j = i then t else Tk.illegal)

/-- A blob literal, behind its quote. -/
def scanBlob (z : List UInt8) : Nat × Tk :=
  let i := scan isxdigit (z.drop 2) 2
  if byte z i ≠ 0x27 ∨ i % 2 ≠ 0 then
    let i := scan (fun c => c ≠ 0 && c ≠ 0x27) (z.drop i) i
    (if byte z i ≠ 0 then i + 1 else i, Tk.illegal)
  else (if byte z i ≠ 0 then i + 1 else i, Tk.blob)

/-- How the switch of `sqlite3GetToken` is left. -/
inductive Exit
  | token (n : Nat) (tokenType : Tk)  -- `return n`
  | keyword (i : Nat)                 -- `return keywordCode(z, i, tokenType)`
  | identifier (i : Nat)              -- `break`
  deriving DecidableEq, Repr

/-- `switch( aiClass[*z] )` -/
def switchClass (copy : Copy) (z : List UInt8) : Run Exit :=
  match aiClass (byte z 0) with
  | .space => pure (.token (scan isspace (z.drop 1) 1) Tk.space)
  | .minus =>
    if byte z 1 = 0x2D then
      pure (.token (scan (fun c => c ≠ 0 && c ≠ 0x0A) (z.drop 2) 2) Tk.comment)
    else if byte z 1 = 0x3E then pure (.token (if byte z 2 = 0x3E then 3 else 2) Tk.ptr)
    else pure (.token 1 Tk.minus)
  | .lp => pure (.token 1 Tk.lp)
  | .rp => pure (.token 1 Tk.rp)
  | .semi => pure (.token 1 Tk.semi)
  | .plus => pure (.token 1 Tk.plus)
  | .star => pure (.token 1 Tk.star)
  | .slash =>
    if byte z 1 ≠ 0x2A ∨ byte z 2 = 0 then pure (.token 1 Tk.slash)
    else
      let (c, i) := skipComment (byte z 2) (z.drop 3) 3
      pure (.token (if c ≠ 0 then i + 1 else i) Tk.comment)
  | .percent => pure (.token 1 Tk.rem)
  | .eq => pure (.token (if byte z 1 = 0x3D then 2 else 1) Tk.eq)
  | .lt =>
    if byte z 1 = 0x3D then pure (.token 2 Tk.le)
    else if byte z 1 = 0x3E then pure (.token 2 Tk.ne)
    else if byte z 1 = 0x3C then pure (.token 2 Tk.lshift)
    else pure (.token 1 Tk.lt)
  | .gt =>
    if byte z 1 = 0x3D then pure (.token 2 Tk.ge)
    else if byte z 1 = 0x3E then pure (.token 2 Tk.rshift)
    else pure (.token 1 Tk.gt)
  | .bang => if byte z 1 ≠ 0x3D then pure (.token 1 Tk.illegal) else pure (.token 2 Tk.ne)
  | .pipe => if byte z 1 ≠ 0x7C then pure (.token 1 Tk.bitor) else pure (.token 2 Tk.concat)
  | .comma => pure (.token 1 Tk.comma)
  | .and => pure (.token 1 Tk.bitand)
  | .tilda => pure (.token 1 Tk.bitnot)
  | .quote =>
    let (c, i) := skipQuoted (byte z 0) (z.drop 1) 1
    if c = 0x27 then pure (.token (i + 1) Tk.string)
    else if c ≠ 0 then pure (.token (i + 1) Tk.id)
    else pure (.token i Tk.illegal)
  | .dot =>
    if isdigit (byte z 1) then
      let (n, t) := scanNumber z
      pure (.token n t)
    else pure (.token 1 Tk.dot)
  | .digit =>
    let (n, t) := scanNumber z
    pure (.token n t)
  | .quote2 =>
    let (c, i) := skipBracketed (byte z 0) (z.drop 1) 1
    pure (.token i (if c = 0x5D then Tk.id else Tk.illegal))
  | .varnum => pure (.token (scan isdigit (z.drop 1) 1) Tk.variableName)
  | .dollar | .varalpha => do
    let (i, n, t) ← scanVariable copy (z.drop 1) 1 0
    pure (.token i (if n = 0 then Tk.illegal else t))
  | .kywd0 =>
    if !isKeywordChar (byte z 1) then pure (.identifier 1)
    else
      let i := scan isKeywordChar (z.drop 2) 2
      if idChar (byte z i) then pure (.identifier (i + 1)) else pure (.keyword i)
  | .x =>
    if byte z 1 = 0x27 then
      let (n, t) := scanBlob z
      pure (.token n t)
    else pure (.identifier 1)
  | .kywd | .id => pure (.identifier 1)
  | .bom =>
    if byte z 1 = 0xBB ∧ byte z 2 = 0xBF then pure (.token 3 Tk.space) else pure (.identifier 1)
  | .nul => pure (.token 0 Tk.illegal)
  | .illegal => pure (.token 1 Tk.illegal)

/-- `keywordCode(z, i, tokenType)` -/
def keywordCode (copy : Copy) (k : Keywords) (z : List UInt8) (i : Nat) : Run (Nat × Tk) := do
  Traced.emit (.assign .keywordLength i)
  let n := (copy.int i).toNat
  pure (n, k.code (z.take n))

/-- BUG_S1, in the fuzzed copy only -/
def sqlite3CheckIdentifier (copy : Copy) (n : Int) : Run Unit :=
  match copy with
  | .full => Traced.emit (.checkIdentifier (castSize n))
  | .coverage => pure ()

/-- BUG_S2, in the fuzzed copy only -/
def sqlite3CopyWindowKeyword (copy : Copy) (n : Int) : Run Unit :=
  match copy with
  | .full => Traced.emit (.copyWindowKeyword (castSize n))
  | .coverage => pure ()

/-- The length and the type of the token at the start of `z`. -/
def sqlite3GetToken (copy : Copy) (k : Keywords) (z : List UInt8) : Run (Nat × Tk) := do
  match ← switchClass copy z with
  | .token n t => pure (n, t)
  | .keyword i => keywordCode copy k z i
  | .identifier i => do
    let i := scan idChar (z.drop i) i
    sqlite3CheckIdentifier copy (castInt i)
    pure (i, Tk.id)

/-- A call of `sqlite3GetToken` by `who`. -/
def tokenAt (copy : Copy) (k : Keywords) (who : Caller) (z : List UInt8) : Run (Nat × Tk) := do
  Traced.emit (.getToken who z)
  sqlite3GetToken copy k z

/-! ## Lookahead -/

/-- A token as the parser is given it. -/
structure Token where
  tokenType : Tk
  start : Nat
  n : Nat
  deriving DecidableEq, Repr

/-- What a run of `sqlite3RunParser` depends on besides the length limit. `ignoreComments` is
`db->init.busy || (db->flags & SQLITE_Comments)`; `parser` is the result code in `pParse->rc` after
the parser has been given these tokens. -/
structure Env where
  text : List UInt8
  keywords : Keywords
  fallback : Tk → Tk
  ignoreComments : Bool
  parser : List Token → Int

/-- The loop of `getToken`: the next token that is no space and no comment, and the text behind. -/
def skipSpace (copy : Copy) (k : Keywords) (who : Caller) :
    Nat → List UInt8 → Run (Tk × List UInt8)
  | 0, z => do
    Traced.emit .outOfFuel
    pure (Tk.illegal, z)
  | fuel + 1, z => do
    let (n, t) ← tokenAt copy k who z
    if t = Tk.space ∨ t = Tk.comment then skipSpace copy k who fuel (z.drop n)
    else pure (t, z.drop n)

def getToken (copy : Copy) (e : Env) (who : Caller) (z : List UInt8) :
    Run (Tk × List UInt8) := do
  let (t, z) ← skipSpace copy e.keywords who (z.length + 1) z
  let t :=
    if t = Tk.id ∨ t = Tk.string ∨ t = Tk.joinKw ∨ t = Tk.window ∨ t = Tk.overKw ∨
      e.fallback t = Tk.id then Tk.id else t
  pure (t, z)

def analyzeWindowKeyword (copy : Copy) (e : Env) (z : List UInt8) : Run Tk := do
  let (t, z) ← getToken copy e .window z
  if t ≠ Tk.id then pure Tk.id
  else do
  let (t, _) ← getToken copy e .window z
  if t ≠ Tk.as then pure Tk.id
  else pure Tk.window

def analyzeOverKeyword (copy : Copy) (e : Env) (z : List UInt8) (lastToken : Tk) : Run Tk :=
  if lastToken = Tk.rp then do
    let (t, _) ← getToken copy e .overKw z
    if t = Tk.lp ∨ t = Tk.id then pure Tk.overKw else pure Tk.id
  else pure Tk.id

def analyzeFilterKeyword (copy : Copy) (e : Env) (z : List UInt8) (lastToken : Tk) : Run Tk :=
  if lastToken = Tk.rp then do
    let (t, _) ← getToken copy e .filter z
    if t = Tk.lp then pure Tk.filter else pure Tk.id
  else pure Tk.id

/-! ## The loop -/

/-- The variables of the loop of `sqlite3RunParser`, and the tokens handed to the parser so far. -/
structure Loop where
  zSql : Nat
  mxSqlLen : Int
  lastTokenParsed : Tk
  parsed : List Token
  deriving DecidableEq, Repr

/-- Why the loop is left. -/
inductive Stop
  | tooBig                           -- `SQLITE_TOOBIG`
  | unrecognized (start n : Nat)     -- "unrecognized token"
  | endOfInput                       -- the terminator, with 0 handed to the parser
  | parser (rc : Int)                -- `pParse->rc != SQLITE_OK`
  deriving DecidableEq, Repr

/-- What an iteration ends with: `continue` or `break`. -/
inductive Outcome
  | next (s : Loop)
  | stop (s : Loop) (why : Stop)
  deriving DecidableEq, Repr

/-- The end of the loop body: hand a token to the parser. -/
def feed (e : Env) (s : Loop) (tokenType : Tk) (n : Nat) : Outcome :=
  let parsed := s.parsed ++ [⟨tokenType, s.zSql, castU32 n⟩]
  let s := { s with zSql := s.zSql + n, lastTokenParsed := tokenType, parsed := parsed }
  if e.parser parsed ≠ 0 then .stop s (.parser (e.parser parsed)) else .next s

/-- The body of the loop. -/
def iteration (copy : Copy) (e : Env) (s : Loop) : Run Outcome := do
  let z := e.text.drop s.zSql
  let (n, tokenType) ← tokenAt copy e.keywords .loop z
  Traced.emit (.assign .mxSqlLen (s.mxSqlLen - n))
  let s := { s with mxSqlLen := copy.int (s.mxSqlLen - n) }
  if s.mxSqlLen < 0 then pure (.stop s .tooBig)
  else if Tk.window ≤ tokenType then
    if tokenType = Tk.space then pure (.next { s with zSql := s.zSql + n })
    else if byte z 0 = 0 then
      if s.lastTokenParsed = Tk.semi then pure (feed e s 0 0)
      else if s.lastTokenParsed = 0 then pure (.stop s .endOfInput)
      else pure (feed e s Tk.semi 0)
    else if tokenType = Tk.window then do
      sqlite3CopyWindowKeyword copy (castInt n)
      let t ← analyzeWindowKeyword copy e (z.drop 6)
      pure (feed e s t n)
    else if tokenType = Tk.overKw then do
      let t ← analyzeOverKeyword copy e (z.drop 4) s.lastTokenParsed
      pure (feed e s t n)
    else if tokenType = Tk.filter then do
      sqlite3CopyWindowKeyword copy (castInt n)
      let t ← analyzeFilterKeyword copy e (z.drop 6) s.lastTokenParsed
      pure (feed e s t n)
    else if tokenType = Tk.comment ∧ e.ignoreComments then
      pure (.next { s with zSql := s.zSql + n })
    else if tokenType ≠ Tk.qnumber then pure (.stop s (.unrecognized s.zSql (castU32 n)))
    else pure (feed e s tokenType n)
  else pure (feed e s tokenType n)

/-- The loop; `none` when the budget is used up. -/
def runLoop (copy : Copy) (e : Env) : Nat → Loop → Run (Option (Loop × Stop))
  | 0, _ => do
    Traced.emit .outOfFuel
    pure none
  | fuel + 1, s => do
    match ← iteration copy e s with
    | .next s => runLoop copy e fuel s
    | .stop s why => pure (some (s, why))

/-- A value of `db->aLimit[SQLITE_LIMIT_SQL_LENGTH]`: an `int`, and `sqlite3_limit` stores no
negative one. -/
abbrev SqlLimit := { l : Int // 0 ≤ l ∧ l < 2 ^ 31 }

/-- The loop variables at entry. -/
def Loop.start (limit : SqlLimit) : Loop := ⟨0, limit.1, -1, []⟩

/-- Every iteration but the last three takes a byte. -/
def loopFuel (text : List UInt8) : Nat := text.length + 3

/-- The tokens handed to the parser, why the loop was left, and `pParse->zTail`. -/
structure Result where
  parsed : List Token
  stop : Stop
  zTail : Nat
  deriving DecidableEq, Repr

def sqlite3RunParser (copy : Copy) (e : Env) (limit : SqlLimit) : Run (Option Result) := do
  let r ← runLoop copy e (loopFuel e.text) (Loop.start limit)
  pure (r.map fun (s, why) => ⟨s.parsed, why, s.zSql⟩)

end FourFuzzers.Sqlite
