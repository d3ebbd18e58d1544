import FourFuzzers.Lib.Traced
import FourFuzzers.Lib.Block

/-!
# The SQLite target: token codes, character tables, events

The repository holds SQLite twice: `sqlite3_full`, which is fuzzed and has the injected bugs, and
the amalgamation `sqlite3.c`, which replays the corpora for coverage. Their tokenizers are one text
with two kinds of differences, and `Copy` names them: the width of three variables, and the calls of
the two helpers that hold the bugs.

A text is the list of its bytes; what is read at or behind its end is the terminator.
-/

namespace FourFuzzers.Sqlite

open FourFuzzers.Lib

/-! ## Token codes -/

/-- A token type; the codes are those of `parse.h`. -/
abbrev Tk := Int

namespace Tk

def semi : Tk := 1
def lp : Tk := 22
def rp : Tk := 23
def as : Tk := 24
def comma : Tk := 25
def ne : Tk := 53
def eq : Tk := 54
def gt : Tk := 55
def le : Tk := 56
def lt : Tk := 57
def ge : Tk := 58
def id : Tk := 60
def bitand : Tk := 103
def bitor : Tk := 104
def lshift : Tk := 105
def rshift : Tk := 106
def plus : Tk := 107
def minus : Tk := 108
def star : Tk := 109
def slash : Tk := 110
def rem : Tk := 111
def concat : Tk := 112
def ptr : Tk := 113
def bitnot : Tk := 115
def string : Tk := 118
def joinKw : Tk := 119
def dot : Tk := 142
def float : Tk := 154
def blob : Tk := 155
def integer : Tk := 156
def variableName : Tk := 157
def window : Tk := 165
def overKw : Tk := 166
def filter : Tk := 167
def qnumber : Tk := 183
def space : Tk := 184
def comment : Tk := 185
def illegal : Tk := 186

end Tk

/-! ## Character tables -/

/-- The `CC_` classes, in the order of their numbers. -/
inductive CharClass
  | x | kywd0 | kywd | digit | dollar | varalpha | varnum | space | quote | quote2 | pipe | minus
  | lt | gt | eq | bang | slash | lp | rp | semi | plus | star | percent | comma | and | tilda | dot
  | id | illegal | nul | bom
  deriving DecidableEq, Repr

/-- The class with a given number. -/
def CharClass.ofCode (n : Nat) : CharClass :=
  [x, kywd0, kywd, digit, dollar, varalpha, varnum, space, quote, quote2, pipe, minus, lt, gt, eq,
    bang, slash, lp, rp, semi, plus, star, percent, comma, and, tilda, dot, id, illegal, nul,
    bom].getD n illegal

/-- `aiClass`, 16 entries a row -/
def aiClassTable : List Nat :=
  [
   29, 28, 28, 28, 28, 28, 28, 28, 28,  7,  7, 28,  7,  7, 28, 28,
   28, 28, 28, 28, 28, 28, 28, 28, 28, 28, 28, 28, 28, 28, 28, 28,
    7, 15,  8,  5,  4, 22, 24,  8, 17, 18, 21, 20, 23, 11, 26, 16,
    3,  3,  3,  3,  3,  3,  3,  3,  3,  3,  5, 19, 12, 14, 13,  6,
    5,  1,  1,  1,  1,  1,  1,  1,  1,  1,  1,  1,  1,  1,  1,  1,
    1,  1,  1,  1,  1,  1,  1,  1,  0,  2,  2,  9, 28, 28, 28,  2,
    8,  1,  1,  1,  1,  1,  1,  1,  1,  1,  1,  1,  1,  1,  1,  1,
    1,  1,  1,  1,  1,  1,  1,  1,  0,  2,  2, 28, 10, 28, 25, 28,
   27, 27, 27, 27, 27, 27, 27, 27, 27, 27, 27, 27, 27, 27, 27, 27,
   27, 27, 27, 27, 27, 27, 27, 27, 27, 27, 27, 27, 27, 27, 27, 27,
   27, 27, 27, 27, 27, 27, 27, 27, 27, 27, 27, 27, 27, 27, 27, 27,
   27, 27, 27, 27, 27, 27, 27, 27, 27, 27, 27, 27, 27, 27, 27, 27,
   27, 27, 27, 27, 27, 27, 27, 27, 27, 27, 27, 27, 27, 27, 27, 27,
   27, 27, 27, 27, 27, 27, 27, 27, 27, 27, 27, 27, 27, 27, 27, 27,
   27, 27, 27, 27, 27, 27, 27, 27, 27, 27, 27, 27, 27, 27, 27, 30,
   27, 27, 27, 27, 27, 27, 27, 27, 27, 27, 27, 27, 27, 27, 27, 27]

/-- `sqlite3CtypeMap`, 16 entries a row -/
def sqlite3CtypeMap : List UInt8 :=
  [
   0x00, 0x00, 0x00, 0x00, 0x00, 0x00, 0x00, 0x00, 0x00, 0x01, 0x01, 0x01, 0x01, 0x01, 0x00, 0x00,
   0x00, 0x00, 0x00, 0x00, 0x00, 0x00, 0x00, 0x00, 0x00, 0x00, 0x00, 0x00, 0x00, 0x00, 0x00, 0x00,
   0x01, 0x00, 0x80, 0x00, 0x40, 0x00, 0x00, 0x80, 0x00, 0x00, 0x00, 0x00, 0x00, 0x00, 0x00, 0x00,
   0x0c, 0x0c, 0x0c, 0x0c, 0x0c, 0x0c, 0x0c, 0x0c, 0x0c, 0x0c, 0x00, 0x00, 0x00, 0x00, 0x00, 0x00,
   0x00, 0x0a, 0x0a, 0x0a, 0x0a, 0x0a, 0x0a, 0x02, 0x02, 0x02, 0x02, 0x02, 0x02, 0x02, 0x02, 0x02,
   0x02, 0x02, 0x02, 0x02, 0x02, 0x02, 0x02, 0x02, 0x02, 0x02, 0x02, 0x80, 0x00, 0x00, 0x00, 0x40,
   0x80, 0x2a, 0x2a, 0x2a, 0x2a, 0x2a, 0x2a, 0x22, 0x22, 0x22, 0x22, 0x22, 0x22, 0x22, 0x22, 0x22,
   0x22, 0x22, 0x22, 0x22, 0x22, 0x22, 0x22, 0x22, 0x22, 0x22, 0x22, 0x00, 0x00, 0x00, 0x00, 0x00,
   0x40, 0x40, 0x40, 0x40, 0x40, 0x40, 0x40, 0x40, 0x40, 0x40, 0x40, 0x40, 0x40, 0x40, 0x40, 0x40,
   0x40, 0x40, 0x40, 0x40, 0x40, 0x40, 0x40, 0x40, 0x40, 0x40, 0x40, 0x40, 0x40, 0x40, 0x40, 0x40,
   0x40, 0x40, 0x40, 0x40, 0x40, 0x40, 0x40, 0x40, 0x40, 0x40, 0x40, 0x40, 0x40, 0x40, 0x40, 0x40,
   0x40, 0x40, 0x40, 0x40, 0x40, 0x40, 0x40, 0x40, 0x40, 0x40, 0x40, 0x40, 0x40, 0x40, 0x40, 0x40,
   0x40, 0x40, 0x40, 0x40, 0x40, 0x40, 0x40, 0x40, 0x40, 0x40, 0x40, 0x40, 0x40, 0x40, 0x40, 0x40,
   0x40, 0x40, 0x40, 0x40, 0x40, 0x40, 0x40, 0x40, 0x40, 0x40, 0x40, 0x40, 0x40, 0x40, 0x40, 0x40,
   0x40, 0x40, 0x40, 0x40, 0x40, 0x40, 0x40, 0x40, 0x40, 0x40, 0x40, 0x40, 0x40, 0x40, 0x40, 0x40,
   0x40, 0x40, 0x40, 0x40, 0x40, 0x40, 0x40, 0x40, 0x40, 0x40, 0x40, 0x40, 0x40, 0x40, 0x40, 0x40]

/-- `aiClass[c]` -/
def aiClass (c : UInt8) : CharClass := .ofCode (aiClassTable.getD c.toNat 28)

/-- `aiClass[c] <= CC_KYWD` -/
def isKeywordChar (c : UInt8) : Bool := aiClassTable.getD c.toNat 28 ≤ 2

def ctype (c mask : UInt8) : Bool := sqlite3CtypeMap.getD c.toNat 0 &&& mask ≠ 0

/-- `sqlite3Isspace` -/
def isspace (c : UInt8) : Bool := ctype c 0x01

/-- `sqlite3Isdigit` -/
def isdigit (c : UInt8) : Bool := ctype c 0x04

/-- `sqlite3Isxdigit` -/
def isxdigit (c : UInt8) : Bool := ctype c 0x08

/-- `IdChar` -/
def idChar (c : UInt8) : Bool := ctype c 0x46

/-! ## The two copies -/

/-- Which of the two SQLites. -/
inductive Copy
  | full      -- `sqlite3_full/src/tokenize.c`
  | coverage  -- `sqlite/sqlite3.c`
  deriving DecidableEq, Repr

namespace Copy

/-- A value stored into a variable that is `i64` in one copy and `int` in the other. -/
def int : Copy → Int → Int
  | full, x => x.bmod (2 ^ 64)
  | coverage, x => x.bmod (2 ^ 32)

end Copy

/-- `(int)n` -/
def castInt (n : Int) : Int := n.bmod (2 ^ 32)

/-- `(u32)n` -/
def castU32 (n : Nat) : Nat := n % 2 ^ 32

/-- An `int` converted to `size_t`. -/
def castSize (n : Int) : Nat := (n % 2 ^ 64).toNat

/-! ## Events -/

/-- Who runs `sqlite3GetToken`: the loop of `sqlite3RunParser`, or the lookahead for a keyword. -/
inductive Caller
  | loop | window | overKw | filter
  deriving DecidableEq, Repr

/-- The variables whose type differs between the copies. -/
inductive Var
  | mxSqlLen       -- of `sqlite3RunParser`
  | nameLength     -- `n` of the variable-name case of `sqlite3GetToken`
  | keywordLength  -- the argument `n` of `keywordCode`
  deriving DecidableEq, Repr

inductive Event
  /-- `sqlite3GetToken` is run on the text `z`. -/
  | getToken (caller : Caller) (z : List UInt8)
  /-- `x` is stored into `v`; the event has the value before its conversion. -/
  | assign (v : Var) (x : Int)
  /-- `memcpy` of `n` bytes into `buf[32]` of `sqlite3CheckIdentifier` (BUG_S1) -/
  | checkIdentifier (n : Nat)
  /-- `memcpy` of `n` bytes into `kw[4]` of `sqlite3CopyWindowKeyword` (BUG_S2) -/
  | copyWindowKeyword (n : Nat)
  /-- A loop budget of the model ran out. -/
  | outOfFuel
  deriving DecidableEq, Repr

namespace Event

/-- How many bytes are written behind a buffer. -/
def overflow : Event → Nat
  | checkIdentifier n => n - 32
  | copyWindowKeyword n => n - 4
  | _ => 0

def isCheckIdentifier : Event → Bool
  | checkIdentifier _ => true
  | _ => false

def isCopyWindowKeyword : Event → Bool
  | copyWindowKeyword _ => true
  | _ => false

end Event

/-- Traced computations of the SQLite target. -/
abbrev Run (α : Type) := Traced Event α

end FourFuzzers.Sqlite
