import FourFuzzers.Lib.Text

/-!
# Identifying a bug from a sanitizer report

`identify_bug.sh` replays a crash file and looks for the names of the functions with injected bugs
in the report, in a fixed order. `scan_crashes.sh` repeats the same chain on a fuzzer's log.
-/

namespace FourFuzzers.Bugs

open FourFuzzers.Lib

/-- The injected bugs. -/
inductive BugId
  | c1 | c2 | r1 | r2 | re1 | s1 | s2
  deriving DecidableEq, Repr

/-- A bug as the scripts print it. -/
def BugId.text : BugId → String
  | .c1 => "BUG_C1"
  | .c2 => "BUG_C2"
  | .r1 => "BUG_R1"
  | .r2 => "BUG_R2"
  | .re1 => "BUG_RE1"
  | .s1 => "BUG_S1"
  | .s2 => "BUG_S2"

/-- A text, line by line. -/
abbrev Lines := List (List Char)

/-- `grep -qE pattern` for a pattern without special characters. -/
def grep (pattern : String) (lines : Lines) : Bool :=
  lines.any fun line => decide (pattern.toList <:+: line)

/-- The patterns of the signature chain, in the order they are tried. -/
def signatures : List (String × BugId) :=
  [("in parse_string", .c1), ("in print_string_ptr", .c2), ("in rhash_md5_update", .r1),
    ("in rhash_sha1_final", .r2), ("AllocInst", .re1), ("sqlite3CheckIdentifier", .s1),
    ("sqlite3CopyWindowKeyword", .s2)]

/-- The bug of the first pattern found, `none` for `UNKNOWN`. -/
def matchSignatures (lines : Lines) : Option BugId :=
  (signatures.find? fun s => grep s.1 lines).map (·.2)

/-- `echo "$ASAN_OUT" | grep -qE pattern` under `set -o pipefail`: `grep` leaves at its first match,
and then the test fails unless the `echo` has written all of the output. -/
def pipedGrep (echoed : String → Bool) (pattern : String) (asanOut : Lines) : Bool :=
  grep pattern asanOut && echoed pattern

/-- `asanOut` is the output of the replay; `echoed` tells for which patterns the `echo` has written
it before `grep` leaves, as it has where the pipe holds the output. -/
def identifyBug (crashExists binaryExists : Bool) (echoed : String → Bool) (asanOut : Lines) :
    Option BugId :=
  if !crashExists || !binaryExists then none
  else (signatures.find? fun s => pipedGrep echoed s.1 asanOut).map (·.2)

theorem grep_eq_true {pattern : String} {lines : Lines} :
    grep pattern lines = true ↔ ∃ line ∈ lines, pattern.toList <:+: line := by
  simp [grep]

theorem identifyBug_c1 {echoed : String → Bool} {asanOut : Lines}
    (h : grep "in parse_string" asanOut = true) (hecho : echoed "in parse_string" = true) :
    identifyBug true true echoed asanOut = some .c1 := by
  simp [identifyBug, signatures, pipedGrep, h, hecho]

theorem identifyBug_c2 {echoed : String → Bool} {asanOut : Lines}
    (h₁ : grep "in parse_string" asanOut = false) (h₂ : grep "in print_string_ptr" asanOut = true)
    (hecho : echoed "in print_string_ptr" = true) :
    identifyBug true true echoed asanOut = some .c2 := by
  simp [identifyBug, signatures, pipedGrep, h₁, h₂, hecho]

end FourFuzzers.Bugs
