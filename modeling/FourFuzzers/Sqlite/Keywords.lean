import FourFuzzers.Sqlite.Tokenize

/-!
# The keyword table of `sqlite3.c`

The words and codes of `keywordhash.h` as the amalgamation includes it, in the order of its tables.
-/

namespace FourFuzzers.Sqlite

/-- `zKWText` cut at `aKWOffset` and `aKWLen`, with `aKWCode` -/
def keywordTable : List (String × Tk) :=
  [("REINDEX", 99), ("INDEXED", 117), ("INDEX", 162), ("DESC", 39), ("ESCAPE", 59), ("EACH", 41),
    ("CHECK", 125), ("KEY", 68), ("BEFORE", 33), ("FOREIGN", 133), ("FOR", 63), ("IGNORE", 64),
    ("REGEXP", 48), ("EXPLAIN", 2), ("INSTEAD", 66), ("ADD", 164), ("DATABASE", 38), ("AS", 24),
    ("SELECT", 139), ("TABLE", 16), ("LEFT", 119), ("THEN", 160), ("END", 11),
    ("DEFERRABLE", 132), ("ELSE", 161), ("EXCLUDE", 92), ("DELETE", 129), ("TEMPORARY", 21),
    ("TEMP", 21), ("OR", 43), ("ISNULL", 51), ("NULLS", 83), ("SAVEPOINT", 13),
    ("INTERSECT", 138), ("TIES", 95), ("NOTNULL", 52), ("NOT", 19), ("NO", 67), ("NULL", 122),
    ("LIKE", 48), ("EXCEPT", 137), ("TRANSACTION", 6), ("ACTION", 28), ("ON", 116),
    ("NATURAL", 119), ("ALTER", 163), ("RAISE", 72), ("EXCLUSIVE", 9), ("EXISTS", 20),
    ("CONSTRAINT", 120), ("INTO", 152), ("OFFSET", 70), ("OF", 69), ("SET", 131), ("TRIGGER", 78),
    ("RANGE", 90), ("GENERATED", 96), ("DETACH", 40), ("HAVING", 148), ("GLOB", 48), ("BEGIN", 5),
    ("INNER", 119), ("REFERENCES", 126), ("UNIQUE", 124), ("QUERY", 3), ("WITHOUT", 26),
    ("WITH", 82), ("OUTER", 119), ("RELEASE", 14), ("ATTACH", 32), ("BETWEEN", 49),
    ("NOTHING", 153), ("GROUPS", 93), ("GROUP", 147), ("CASCADE", 35), ("ASC", 31),
    ("DEFAULT", 121), ("CASE", 158), ("COLLATE", 114), ("CREATE", 17), ("CURRENT_DATE", 101),
    ("IMMEDIATE", 8), ("JOIN", 144), ("INSERT", 128), ("MATCH", 47), ("PLAN", 4), ("ANALYZE", 30),
    ("PRAGMA", 71), ("MATERIALIZED", 98), ("DEFERRED", 7), ("DISTINCT", 141), ("IS", 45),
    ("UPDATE", 130), ("VALUES", 140), ("VIRTUAL", 81), ("ALWAYS", 97), ("WHEN", 159),
    ("WHERE", 150), ("RECURSIVE", 73), ("ABORT", 27), ("AFTER", 29), ("RENAME", 100), ("AND", 44),
    ("DROP", 134), ("PARTITION", 88), ("AUTOINCREMENT", 127), ("TO", 15), ("IN", 50),
    ("CAST", 36), ("COLUMN", 61), ("COMMIT", 10), ("CONFLICT", 37), ("CROSS", 119),
    ("CURRENT_TIMESTAMP", 101), ("CURRENT_TIME", 101), ("CURRENT", 86), ("PRECEDING", 89),
    ("FAIL", 42), ("LAST", 85), ("FILTER", 167), ("REPLACE", 74), ("FIRST", 84),
    ("FOLLOWING", 87), ("FROM", 143), ("FULL", 119), ("LIMIT", 149), ("IF", 18), ("ORDER", 146),
    ("RESTRICT", 75), ("OTHERS", 94), ("OVER", 166), ("RETURNING", 151), ("RIGHT", 119),
    ("ROLLBACK", 12), ("ROWS", 77), ("ROW", 76), ("UNBOUNDED", 91), ("UNION", 135),
    ("USING", 145), ("VACUUM", 79), ("VIEW", 80), ("WINDOW", 165), ("DO", 62), ("BY", 34),
    ("INITIALLY", 65), ("ALL", 136), ("PRIMARY", 123)]

/-- The bytes of an ASCII word. -/
def asciiBytes (s : String) : List UInt8 := s.toList.map fun c => c.toNat.toUInt8

/-- The code of a word in a table, `TK_ID` when it is not there. -/
def lookupKeyword (table : List (List UInt8 × Tk)) (word : List UInt8) : Tk :=
  match table.find? fun entry => entry.1 = upper word with
  | some entry => entry.2
  | none => Tk.id

def keywordBytes : List (List UInt8 × Tk) :=
  keywordTable.map fun (word, code) => (asciiBytes word, code)

theorem lookupKeyword_eq_iff {table : List (List UInt8 × Tk)} {t : Tk} {w : List UInt8}
    (hid : t ≠ Tk.id) (hfind : table.find? (fun entry => entry.1 = w) = some (w, t))
    (honly : ∀ entry ∈ table, entry.2 = t → entry.1 = w) (word : List UInt8) :
    lookupKeyword table word = t ↔ upper word = w := by
  rw [lookupKeyword]
  constructor
  · intro h
    split at h
    next entry he =>
      have hkey : entry.1 = upper word := by simpa using List.find?_some he
      rw [← hkey]
      exact honly entry (List.mem_of_find?_eq_some he) h
    next => exact absurd h.symm hid
  · intro h
    rw [h, hfind]

/-- `keywordCode` of the amalgamation. -/
def sqlite3Keywords : Keywords where
  code := lookupKeyword keywordBytes
  window := lookupKeyword_eq_iff (by decide) (by decide +kernel) (by decide +kernel)
  overKw := lookupKeyword_eq_iff (by decide) (by decide +kernel) (by decide +kernel)
  filter := lookupKeyword_eq_iff (by decide) (by decide +kernel) (by decide +kernel)

/-- A call of a window function whose window has a name of 33 bytes, a WINDOW clause behind it, and a
parser that accepts them. -/
def sampleEnv : Env where
  text := asciiBytes "SELECT f(x) OVER abcdefghijklmnopqrstuvwxyz_012345 WINDOW w AS ()"
  keywords := sqlite3Keywords
  fallback _ := 0
  ignoreComments := true
  parser _ := 0

def sampleLimit : SqlLimit := ⟨1000000000, by decide⟩

end FourFuzzers.Sqlite
