import FourFuzzers.Bugs.Identify
import Mathlib

/-!
# Scanning a crash directory

`scan_crashes.sh`: the first time each injected bug was seen among the crash artifacts of a
directory or, for a fuzzer that writes none, in its log. Times are seconds of the epoch; a file is
known by what `identify_bug.sh` makes of it.
-/

namespace FourFuzzers.Bugs

/-- The `<target>` argument; `other` is any text the `case` does not know. -/
inductive Target
  | cjson | rhash | re2 | sqlite | other
  deriving DecidableEq, Repr

/-- `KNOWN_BUGS` -/
def knownBugs : Target → List BugId
  | .cjson => [.c1, .c2]
  | .rhash => [.r1, .r2]
  | .re2 => [.re1]
  | .sqlite => [.s1, .s2]
  | .other => []

/-- An entry of a directory. -/
structure Entry (F : Type) where
  name : List Char
  regular : Bool
  mtime : Int
  file : F

/-- `-name "crash-*" -o -name "id:*,sig:*"` -/
def isCrashName (name : List Char) : Bool :=
  decide ("crash-".toList <+: name) ||
    (decide ("id:".toList <+: name) && decide (",sig:".toList <:+: name.drop 3))

/-- What `find` lists. -/
def Entry.isArtifact {F : Type} (e : Entry F) : Bool := isCrashName e.name && e.regular

/-- Seconds since the start, 0 for what is older. -/
def elapsed (mtime start : Int) : Nat := (mtime - start).toNat

/-- `first_seen`: bug to earliest elapsed seconds -/
abbrev FirstSeen := BugId → Option Nat

/-- Keep `t` for the bug if it is the first or earlier than what is kept. -/
def FirstSeen.record (m : FirstSeen) (b : BugId) (t : Nat) : FirstSeen :=
  match m b with
  | none => Function.update m b (some t)
  | some t' => if t < t' then Function.update m b (some t) else m

section

variable {F : Type}

/-- The loop over the artifacts. -/
def scanArtifacts (identify : F → Option BugId) (start : Int) (entries : List (Entry F))
    (firstSeen : FirstSeen) : FirstSeen :=
  (entries.filter Entry.isArtifact).foldl (fun m e =>
    match identify e.file with
    | some b => m.record b (elapsed e.mtime start)
    | none => m) firstSeen

/-- A fuzzer's log. -/
structure Log where
  lines : Lines
  mtime : Int

/-- The log scan: one bug and one time for the whole log. -/
def scanLog (start : Int) (log : Option Log) (firstSeen : FirstSeen) : FirstSeen :=
  match log with
  | none => firstSeen
  | some log =>
    match matchSignatures log.lines with
    | some b => firstSeen.record b (elapsed log.mtime start)
    | none => firstSeen

/-- `${first_seen[$bug_id]:-not_found}` -/
def timeText : Option Nat → List Char
  | some t => Nat.toDigits 10 t
  | none => "not_found".toList

/-- The output loop. -/
def renderResult (known : List BugId) (firstSeen : FirstSeen) : List Char :=
  known.foldl (fun result b =>
    (if result ≠ [] then result ++ [','] else result) ++
      (b.text.toList ++ ':' :: timeText (firstSeen b))) []

/-- `dir` is `none` when there is no such directory; `canIdentify` is
`[ -x "$IDENTIFY" ] && [ -f "$BINARY" ]`. -/
def scanCrashes (identify : F → Option BugId) (canIdentify : Bool) (dir : Option (List (Entry F)))
    (start : Int) (target : Target) (log : Option Log) : List Char :=
  let firstSeen : FirstSeen := fun _ => none
  let firstSeen := match dir with
    | some entries => if canIdentify then scanArtifacts identify start entries firstSeen
        else firstSeen
    | none => firstSeen
  let firstSeen := scanLog start log firstSeen
  let result := renderResult (knownBugs target) firstSeen
  if result = [] then "none".toList else result

end

end FourFuzzers.Bugs
