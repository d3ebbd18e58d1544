import FourFuzzers.Bugs.Verify.Score

/-!
# Artifacts against the log

`scan_crashes.sh` reads the crashes of one run from the artifacts or from the fuzzer's log. The log
is read once as a whole: it gives the bug that comes first in the signature chain and the time of
the last write. So the two agree exactly when all crashes of the run show the same bug and none of
them is earlier than the last one.
-/

namespace FourFuzzers.Bugs

/-! ## The crashes of a run -/

section

variable {F : Type}

/-- A crash of a run on `target`: the bug, when it happened, the artifact a fuzzer with artifacts
writes for it, and the lines it adds to the log of a fuzzer without. -/
structure CrashEvent (identify : F → Option BugId) (target : Target) (start : Int) where
  bug : BugId
  time : Int
  name : List Char
  file : F
  report : Lines
  bug_mem : bug ∈ knownBugs target
  start_le : start ≤ time
  name_ok : isCrashName name = true
  identify_eq : identify file = some bug
  report_eq : matchSignatures report = some bug

variable {identify : F → Option BugId} {target : Target} {start : Int}

/-- The artifact of a crash. -/
def CrashEvent.artifact (e : CrashEvent identify target start) : Entry F :=
  ⟨e.name, true, e.time, e.file⟩

/-- The log of a run: every report, and the time of the last line. An empty log is as old as the
run. -/
def runLog (events : List (CrashEvent identify target start)) : Log :=
  ⟨events.flatMap (·.report), (events.getLast?.map (·.time)).getD start⟩

/-! ## What the log gives -/

theorem grep_flatMap {pattern : String} (events : List (CrashEvent identify target start)) :
    grep pattern (events.flatMap (·.report)) = true ↔ ∃ e ∈ events, grep pattern e.report = true := by
  simp only [grep_eq_true, List.mem_flatMap]
  constructor
  · rintro ⟨line, ⟨e, he, hline⟩, hin⟩
    exact ⟨e, he, line, hline, hin⟩
  · rintro ⟨e, he, line, hline, hin⟩
    exact ⟨line, ⟨e, he, hline⟩, hin⟩

/-- The signature chain finds one of the bugs of the run in the log. -/
theorem matchSignatures_runLog {events : List (CrashEvent identify target start)} (h : events ≠ []) :
    ∃ e ∈ events, matchSignatures (runLog events).lines = some e.bug := by
  obtain ⟨e₀, he₀⟩ := List.exists_mem_of_ne_nil _ h
  have hsome : (signatures.find? fun s => grep s.1 (runLog events).lines).isSome = true := by
    obtain ⟨s, hs, -⟩ := Option.map_eq_some_iff.1 e₀.report_eq
    rw [List.find?_isSome]
    have hgrep : grep s.1 e₀.report = true := (List.find?_eq_some_iff_append.1 hs).1
    exact ⟨s, List.mem_of_find?_eq_some hs, (grep_flatMap events).2 ⟨e₀, he₀, hgrep⟩⟩
  obtain ⟨s, hs⟩ := Option.isSome_iff_exists.1 hsome
  obtain ⟨hgrep, before, after, hsig, hbefore⟩ := List.find?_eq_some_iff_append.1 hs
  obtain ⟨e, he, hreport⟩ := (grep_flatMap events).1 hgrep
  refine ⟨e, he, ?_⟩
  -- a pattern before `s` in the report of `e` would be in the log as well
  have hfind : (signatures.find? fun s => grep s.1 e.report) = some s := by
    refine List.find?_eq_some_iff_append.2 ⟨hreport, before, after, hsig, fun s' hs' => ?_⟩
    have hnot := hbefore s' hs'
    rw [Bool.not_eq_true', ← Bool.not_eq_true] at hnot ⊢
    exact fun hin => hnot ((grep_flatMap events).2 ⟨e, he, hin⟩)
  have hbug : some s.2 = some e.bug := by
    rw [← e.report_eq, matchSignatures, hfind]
    rfl
  rw [matchSignatures, hs]
  exact hbug

theorem scanLog_runLog {events : List (CrashEvent identify target start)}
    {last : CrashEvent identify target start} (h : events.getLast? = some last) :
    ∃ e ∈ events, scanLog start (some (runLog events)) (fun _ => none) =
      Function.update (fun _ => none) e.bug (some (elapsed last.time start)) := by
  have hne : events ≠ [] := by
    rintro rfl
    cases h
  obtain ⟨e, he, hmatch⟩ := matchSignatures_runLog hne
  refine ⟨e, he, ?_⟩
  rw [scanLog, hmatch]
  dsimp only
  rw [FirstSeen.record, runLog, h]
  rfl

/-! ## What the artifacts give -/

theorem scanArtifacts_run {events : List (CrashEvent identify target start)}
    {entries : List (Entry F)} (hperm : entries.Perm (events.map CrashEvent.artifact)) (b : BugId) :
    Keeps { n | ∃ e ∈ events, e.bug = b ∧ n = elapsed e.time start }
      (scanArtifacts identify start entries (fun _ => none) b) := by
  have hset : times identify start entries b =
      { n | ∃ e ∈ events, e.bug = b ∧ n = elapsed e.time start } := by
    ext n
    simp only [times, Set.mem_ofPred_eq, eq_elapsed_iff]
    constructor
    · rintro ⟨x, hx, -, hid, hn⟩
      obtain ⟨e, he, rfl⟩ := List.mem_map.1 (hperm.mem_iff.1 hx)
      exact ⟨e, he, Option.some.inj (e.identify_eq.symm.trans hid), hn⟩
    · rintro ⟨e, he, rfl, hn⟩
      refine ⟨e.artifact, hperm.mem_iff.2 (List.mem_map_of_mem he), ?_, e.identify_eq, hn⟩
      simp [Entry.isArtifact, CrashEvent.artifact, e.name_ok]
  rw [← hset]
  exact scanArtifacts_keeps entries b

/-! ## Comparing the two strings -/

theorem Keeps.eq_iff {S : Set Nat} {v v' : Option Nat} (h : Keeps S v) : v = v' ↔ Keeps S v' := by
  constructor
  · rintro rfl
    exact h
  · intro h'
    cases v with
    | none =>
      cases v' with
      | none => rfl
      | some n' => exact (Set.eq_empty_iff_forall_notMem.1 h n' h'.1).elim
    | some n =>
      cases v' with
      | none => exact (Set.eq_empty_iff_forall_notMem.1 h' n h.1).elim
      | some n' => rw [IsLeast.unique h h']

theorem elapsed_le_iff {t t' : Int} (h : start ≤ t) (h' : start ≤ t') :
    elapsed t start ≤ elapsed t' start ↔ t ≤ t' := by
  rw [elapsed, elapsed]
  omega

theorem timeText_injective {t t' : Option Nat} (h : timeText t = timeText t') : t = t' := by
  have hfound : t.isSome = t'.isSome := by
    rw [← isFound_timeText, ← isFound_timeText, h]
  cases t with
  | none =>
    cases t' with
    | none => rfl
    | some n' => cases hfound
  | some n =>
    cases t' with
    | none => cases hfound
    | some n' =>
      have hval := congrArg (Nat.ofDigitChars 10 · 0) (show Nat.toDigits 10 n = Nat.toDigits 10 n' from h)
      simp only [Nat.ofDigitChars_ten_toDigits] at hval
      rw [hval]

theorem count_known {b : BugId} (h : b ∈ knownBugs target) : (knownBugs target).count b = 1 := by
  cases target <;> revert h <;> cases b <;> decide

/-- A printed string determines the time of every bug of the target. -/
theorem renderResult_inj {m m' : FirstSeen} :
    renderResult (knownBugs target) m = renderResult (knownBugs target) m' ↔
      ∀ b ∈ knownBugs target, m b = m' b := by
  constructor
  · intro h b hb
    have hcount := count_known hb
    apply timeText_injective
    rw [← extractBugTime_renderResult hcount, ← extractBugTime_renderResult hcount, h]
  · intro h
    have hmore : ∀ known, (∀ b ∈ known, m b = m' b) → moreEntries m known = moreEntries m' known := by
      intro known hknown
      refine List.flatMap_congr fun b hb => ?_
      rw [entryText, entryText, hknown b hb]
    rw [renderResult_eq, renderResult_eq]
    cases hk : knownBugs target with
    | nil => rfl
    | cons b known =>
      rw [hk] at h
      dsimp only
      rw [entryText, entryText, h b List.mem_cons_self,
        hmore known fun b hb => h b (List.mem_cons_of_mem _ hb)]

/-- The two ways of scanning a run print the same exactly when every crash shows the bug of the last
one and none is earlier than it. -/
theorem scanCrashes_agree_iff (events : List (CrashEvent identify target start))
    (entries : List (Entry F)) (hperm : entries.Perm (events.map CrashEvent.artifact)) :
    scanCrashes identify true (some entries) start target none =
        scanCrashes identify true (some []) start target (some (runLog events)) ↔
      ∀ last ∈ events.getLast?, ∀ e ∈ events, e.bug = last.bug ∧ last.time ≤ e.time := by
  cases hlast : events.getLast? with
  | none =>
    obtain rfl := List.getLast?_eq_none_iff.1 hlast
    obtain rfl := hperm.eq_nil
    simp only [reduceCtorEq, Option.mem_def, false_implies, implies_true, iff_true]
    rfl
  | some last =>
    have hmem : last ∈ events := List.mem_of_getLast? hlast
    have hother : target ≠ .other := by
      rintro rfl
      exact nomatch last.bug_mem
    rw [(scanCrashes_eq identify (some entries) start none hother).1,
      (scanCrashes_eq identify (some []) start _ hother).1, renderResult_inj]
    obtain ⟨e₀, he₀, hlog⟩ := scanLog_runLog hlast
    have hlog' : scanLog start (some (runLog events))
        (scanArtifacts identify start ((some []).getD []) fun _ => none) =
          Function.update (fun _ => none) e₀.bug (some (elapsed last.time start)) := hlog
    rw [hlog']
    simp only [Option.mem_def, Option.some.injEq, forall_eq']
    constructor
    · intro heq
      have hkeeps : ∀ b ∈ knownBugs target, Keeps _ _ := fun b hb =>
        (scanArtifacts_run hperm b).eq_iff.1 (heq b hb)
      -- every bug of the run is the one the log shows
      have hbug : ∀ e ∈ events, e.bug = e₀.bug := by
        intro e he
        by_contra hne
        have hnone := hkeeps e.bug e.bug_mem
        rw [Function.update_of_ne hne] at hnone
        exact Set.eq_empty_iff_forall_notMem.1 hnone _ ⟨e, he, rfl, rfl⟩
      have hleast := hkeeps e₀.bug e₀.bug_mem
      rw [Function.update_self] at hleast
      intro e he
      refine ⟨(hbug e he).trans (hbug last hmem).symm, ?_⟩
      exact (elapsed_le_iff last.start_le e.start_le).1 (hleast.2 ⟨e, he, hbug e he, rfl⟩)
    · intro h b _
      refine (scanArtifacts_run hperm b).eq_iff.2 ?_
      by_cases hb : b = e₀.bug
      · subst hb
        rw [Function.update_self]
        refine ⟨⟨last, hmem, (h e₀ he₀).1.symm, rfl⟩, ?_⟩
        rintro n ⟨e, he, -, rfl⟩
        exact (elapsed_le_iff last.start_le e.start_le).2 (h e he).2
      · rw [Function.update_of_ne hb]
        refine Set.eq_empty_iff_forall_notMem.2 ?_
        rintro n ⟨e, he, rfl, -⟩
        exact hb ((h e he).1.trans (h e₀ he₀).1.symm)

end

/-! ## A run on which they differ -/

/-- A crash in `parse_string`, found `time` seconds after the start. -/
def parseStringCrash (time : Nat) : CrashEvent (fun b : BugId => some b) .cjson 0 where
  bug := .c1
  time := time
  name := "crash-1".toList
  file := .c1
  report := ["    #1 0x4 in parse_string cJSON.c:1".toList]
  bug_mem := by decide
  start_le := by omega
  name_ok := by decide +kernel
  identify_eq := rfl
  report_eq := by decide +kernel

/-- A crash in `print_string_ptr`. -/
def printStringCrash (time : Nat) : CrashEvent (fun b : BugId => some b) .cjson 0 where
  bug := .c2
  time := time
  name := "crash-2".toList
  file := .c2
  report := ["    #1 0x4 in print_string_ptr cJSON.c:1".toList]
  bug_mem := by decide
  start_le := by omega
  name_ok := by decide +kernel
  identify_eq := rfl
  report_eq := by decide +kernel

/-- The log shows neither the second bug nor the time of the first. -/
theorem scanCrashes_two_bugs_differ :
    scanCrashes some true (some [(parseStringCrash 10).artifact, (printStringCrash 20).artifact]) 0
        .cjson none = "BUG_C1:10,BUG_C2:20".toList ∧
      scanCrashes (F := BugId) some true (some []) 0 .cjson
        (some (runLog [parseStringCrash 10, printStringCrash 20])) =
          "BUG_C1:20,BUG_C2:not_found".toList ∧
      "BUG_C1:10,BUG_C2:20".toList ≠ "BUG_C1:20,BUG_C2:not_found".toList := by
  decide +kernel

/-- The crash in `parse_string` once more, saved under another name with another stack. -/
def parseStringRepeat (time : Nat) : CrashEvent (fun b : BugId => some b) .cjson 0 where
  bug := .c1
  time := time
  name := "crash-3".toList
  file := .c1
  report := ["    #1 0x4 in parse_string cJSON.c:1".toList,
    "    #2 0x8 in parse_value cJSON.c:2".toList]
  bug_mem := by decide
  start_le := by omega
  name_ok := by decide +kernel
  identify_eq := rfl
  report_eq := by decide +kernel

/-- Two crashes of one bug in one second, listed in the other order. -/
theorem scanCrashes_agree_iff_one_bug :
    scanCrashes some true (some [(parseStringRepeat 10).artifact, (parseStringCrash 10).artifact]) 0
        .cjson none =
      scanCrashes some true (some []) 0 .cjson
        (some (runLog [parseStringCrash 10, parseStringRepeat 10])) := by
  have hperm : [(parseStringRepeat 10).artifact, (parseStringCrash 10).artifact].Perm
      ([parseStringCrash 10, parseStringRepeat 10].map CrashEvent.artifact) :=
    List.Perm.swap _ _ _
  have hsame : ∀ e ∈ [parseStringCrash 10, parseStringRepeat 10], e.bug = .c1 ∧ e.time = 10 := by
    intro e he
    simp only [List.mem_cons, List.not_mem_nil, or_false] at he
    rcases he with rfl | rfl
    · exact ⟨rfl, rfl⟩
    · exact ⟨rfl, rfl⟩
  refine (scanCrashes_agree_iff [parseStringCrash 10, parseStringRepeat 10] _ hperm).2 ?_
  intro last hlast e he
  obtain ⟨hbug, htime⟩ := hsame e he
  obtain ⟨hbug', htime'⟩ := hsame last (List.mem_of_getLast? hlast)
  rw [hbug, hbug', htime, htime']
  exact ⟨rfl, Int.le_refl _⟩

end FourFuzzers.Bugs
