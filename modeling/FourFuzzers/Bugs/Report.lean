import FourFuzzers.Bugs.Scan

/-!
# From the crash directories to the published score

The bug section of the four `benchmark_*.sh` scripts, the `latest_*.env` files they write, and the
end of `run_all.sh`, which sources the four files one after the other into the same variables, takes
the bug strings apart again and counts.
-/

namespace FourFuzzers.Bugs

/-- The two fuzzers that are scored. -/
inductive Fuzzer
  | libFuzzer | ddFuzz
  deriving DecidableEq, Repr

/-- The target a bug was injected into. -/
def BugId.target : BugId → Target
  | .c1 | .c2 => .cjson
  | .r1 | .r2 => .rhash
  | .re1 => .re2
  | .s1 | .s2 => .sqlite

/-- The variables of a `latest_*.env` file. -/
inductive Var
  | lfBranchCov | lfExecs | wfBranchCov | wfExecs | ddfBranchCov | ddfExecs
  | lfBugs | wfBugs | ddfBugs
  deriving DecidableEq, Repr

/-- Shell variables; `none` is unset. -/
abbrev Vars := Var → Option (List Char)

/-- An env file: its assignments in order. -/
abbrev EnvFile := List (Var × List Char)

/-- `source file` -/
def source (file : EnvFile) (vars : Vars) : Vars :=
  file.foldl (fun vars a => Function.update vars a.1 (some a.2)) vars

/-- What the fuzzing runs of one target left behind. `crashDir` is `none` when there is no such
directory; `stats` are the assignments of coverage and speed, `wfBugs` the bug string of the fuzzer
that is not scored. -/
structure Campaign (F : Type) where
  identify : F → Option BugId
  start : Fuzzer → Int
  crashDir : Fuzzer → Option (List (Entry F))
  stats : EnvFile
  wfBugs : List Char

section

variable {F : Type}

/-- `LF_BUGS` and `DDF_BUGS` of the benchmark script of `target`, with `scan_crashes.sh` executable,
`identify_bug.sh` and the replay binary there, and DDFuzz enabled. -/
def bugString (c : Campaign F) (target : Target) : Fuzzer → List Char
  | .libFuzzer =>
    scanCrashes c.identify true (c.crashDir .libFuzzer) (c.start .libFuzzer) target none
  | .ddFuzz =>
    match c.crashDir .ddFuzz with
    | some entries => scanCrashes c.identify true (some entries) (c.start .ddFuzz) target none
    | none => "none".toList

/-- `latest_<target>.env` -/
def latestEnv (c : Campaign F) (target : Target) : EnvFile :=
  c.stats ++ [(.lfBugs, bugString c target .libFuzzer), (.wfBugs, c.wfBugs),
    (.ddfBugs, bugString c target .ddFuzz)]

/-- `${v:-none}` -/
def orNone (v : Option (List Char)) : List Char :=
  match v with
  | some s => if s = [] then "none".toList else s
  | none => "none".toList

/-- `SQ_LF_BUGS` and its like: the bug strings as `run_all.sh` keeps them per target. -/
structure Aggregate where
  sq : Fuzzer → List Char
  rh : Fuzzer → List Char
  cj : Fuzzer → List Char
  re : Fuzzer → List Char

/-- The two bug variables after a file has been sourced. -/
def bugVars (vars : Vars) : Fuzzer → List Char
  | .libFuzzer => orNone (vars .lfBugs)
  | .ddFuzz => orNone (vars .ddfBugs)

/-- The four `source` commands and the assignments behind them. -/
def aggregate (campaign : Target → Campaign F) (vars : Vars) : Aggregate :=
  let vars := source (latestEnv (campaign .sqlite) .sqlite) vars
  let sq := bugVars vars
  let vars := source (latestEnv (campaign .rhash) .rhash) vars
  let rh := bugVars vars
  let vars := source (latestEnv (campaign .cjson) .cjson) vars
  let cj := bugVars vars
  let vars := source (latestEnv (campaign .re2) .re2) vars
  let re := bugVars vars
  ⟨sq, rh, cj, re⟩

/-- `grep -oP "lit\K[^,]+"` on one line, with `skip` characters of a match left to pass over. -/
def grepKeep (lit : List Char) : Nat → List Char → List (List Char)
  | _, [] => []
  | skip + 1, _ :: s => grepKeep lit skip s
  | 0, c :: s =>
    if lit <+: c :: s then
      let found := ((c :: s).drop lit.length).takeWhile (· ≠ ',')
      if found ≠ [] then found :: grepKeep lit (lit.length + found.length - 1) s
      else grepKeep lit 0 s
    else grepKeep lit 0 s

/-- `extract_bug_time bug_id bug_string`: matches stand on lines of their own. -/
def extractBugTime (b : BugId) (bugString : List Char) : List Char :=
  let val := ['\n'].intercalate (grepKeep (b.text.toList ++ [':']) 0 bugString)
  if val = [] then "not_found".toList else val

/-- `is_found` -/
def isFound (val : List Char) : Bool :=
  val ≠ "not_found".toList && val ≠ "none".toList && val ≠ []

/-- `count_found` -/
def countFound (vals : List (List Char)) : Nat :=
  vals.foldl (fun count val => if isFound val then count + 1 else count) 0

/-- `C1_LF` and its like: the table cell of a bug. -/
def cell (a : Aggregate) (f : Fuzzer) (b : BugId) : List Char :=
  match b with
  | .c1 | .c2 => extractBugTime b (a.cj f)
  | .r1 | .r2 => extractBugTime b (a.rh f)
  | .re1 => extractBugTime b (a.re f)
  | .s1 | .s2 => extractBugTime b (a.sq f)

/-- `LF_SCORE` and `DDF_SCORE` -/
def score (a : Aggregate) (f : Fuzzer) : Nat :=
  countFound [cell a f .c1, cell a f .c2, cell a f .r1, cell a f .r2, cell a f .re1, cell a f .s1,
    cell a f .s2]

end

end FourFuzzers.Bugs
