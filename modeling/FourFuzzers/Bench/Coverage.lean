import Mathlib

/-!
# Measuring branch coverage

The coverage part of the four `benchmark_*.sh` scripts: where each fuzzer is told to keep its corpus
and its crashing inputs, and which directory is replayed for it afterwards. LibFuzzer's artifacts go
into the directory that is replayed, those of WingFuzz and DDFuzz do not; and of the three only
DDFuzz has no seeds to fall back on.
-/

namespace FourFuzzers.Bench

/-- The four scripts. -/
inductive Script
  | sqlite | rhash | cjson | re2
  deriving DecidableEq, Repr

abbrev Input := List UInt8

/-- The directories of a run; `seeds` is `$SEEDS`, the others are under `$OUTDIR`. -/
inductive Dir
  | seeds | lfCorpus | wfCorpus | wfCrashes | wfSafeSeeds | ddfQueue | ddfCrashes
  deriving DecidableEq, Repr

/-- The regular files of each directory. -/
abbrev Files := Dir → Finset Input

/-! ## The fuzzing runs -/

/-- Where a fuzzer keeps what it generates. -/
structure Store where
  corpus : Dir
  crashes : Dir

/-- `"$OUTDIR/lf_corpus"` and `-artifact_prefix="$OUTDIR/lf_corpus/"` -/
def lfStore : Script → Store
  | .sqlite | .rhash | .cjson | .re2 => ⟨.lfCorpus, .lfCorpus⟩

/-- `"$OUTDIR/wf_corpus"` and `-artifact_prefix="$OUTDIR/wf_crashes/"` -/
def wfStore : Script → Store
  | .sqlite | .rhash | .cjson | .re2 => ⟨.wfCorpus, .wfCrashes⟩

/-- `$DDF_OUT_HOST/default/queue` and `$DDF_OUT_HOST/default/crashes` -/
def ddfStore : Script → Store
  | .sqlite | .rhash | .cjson | .re2 => ⟨.ddfQueue, .ddfCrashes⟩

/-- What a fuzzer generated. -/
structure Outcome where
  corpus : Finset Input
  crashes : Finset Input

/-- A run adds to the directories of its store. -/
def Store.save (s : Store) (o : Outcome) (files : Files) : Files := fun d =>
  files d ∪ ((if d = s.corpus then o.corpus else ∅) ∪ (if d = s.crashes then o.crashes else ∅))

/-- `WF_SAFE_SEEDS`: the seeds that survive, or one file with a zero byte. -/
def wfSafeSeeds (survives : Input → Bool) (seeds : Finset Input) : Finset Input :=
  let safe := seeds.filter fun f => survives f
  if safe = ∅ then {[0]} else safe

/-- What the fuzzers of one benchmark are and do: the seeds, those that `$WF_BIN` survives, whether
DDFuzz is there, and what each run generates. -/
structure Runs where
  seeds : Finset Input
  survives : Input → Bool
  hasDDFuzz : Bool
  lf : Outcome
  wf : Outcome
  ddf : Outcome

/-- The directories after the three runs. -/
def Runs.files (r : Runs) (script : Script) : Files :=
  let files : Files := fun d => if d = .seeds then r.seeds else ∅
  let files := (lfStore script).save r.lf files
  let files := Function.update files .wfSafeSeeds (wfSafeSeeds r.survives r.seeds)
  let files := (wfStore script).save r.wf files
  if r.hasDDFuzz then (ddfStore script).save r.ddf files else files

/-! ## The measurement -/

/-- Branch coverage in hundredths of a percent, as `llvm-cov` prints it; `none` is `N/A`. -/
structure BranchCov where
  lf : Option Nat
  wf : Option Nat
  ddf : Option Nat
  deriving DecidableEq, Repr

/-- `measure_coverage` and `get_branch_cov`. `cov` is `none` when no replay wrote a profile. -/
def measureCoverage (cov : Finset Input → Option Nat) (files : Finset Input) : Option Nat :=
  if files = ∅ then none else cov files

/-- The section "Coverage measurement". -/
def coverageMeasurement (cov : Finset Input → Option Nat) (hasDDFuzz : Bool) (files : Files) :
    BranchCov :=
  let lfCovSrc : Dir := if files .lfCorpus = ∅ then .seeds else .lfCorpus
  let wfCovSrc : Dir := if files .wfCorpus = ∅ then .wfSafeSeeds else .wfCorpus
  { lf := measureCoverage cov (files lfCovSrc)
    wf := measureCoverage cov (files wfCovSrc)
    ddf := if hasDDFuzz ∧ files .ddfQueue ≠ ∅ then measureCoverage cov (files .ddfQueue) else none }

/-- `LF_BRANCH_COV`, `WF_BRANCH_COV` and `DDF_BRANCH_COV` of a script. -/
def benchmark (script : Script) (cov : Finset Input → Option Nat) (r : Runs) : BranchCov :=
  coverageMeasurement cov r.hasDDFuzz (r.files script)

/-! ## Equal outcomes -/

/-- The three fuzzers generated the same. -/
def Runs.same (survives : Input → Bool) (seeds : Finset Input) (o : Outcome) : Runs :=
  ⟨seeds, survives, true, o, o, o⟩

/-- The same coverage for all three. -/
def BranchCov.Fair (c : BranchCov) : Prop := c.lf = c.wf ∧ c.wf = c.ddf

section

variable {script : Script} {cov : Finset Input → Nat} {survives : Input → Bool}
  {seeds : Finset Input} {o : Outcome}

theorem wfSafeSeeds_ne_empty : wfSafeSeeds survives seeds ≠ ∅ := by
  rw [wfSafeSeeds]
  split
  next => exact Finset.singleton_ne_empty _
  next h => exact h

@[simp]
theorem hasDDFuzz_same : (Runs.same survives seeds o).hasDDFuzz = true := rfl

theorem files_same (d : Dir) : (Runs.same survives seeds o).files script d = match d with
    | .seeds => seeds
    | .lfCorpus => o.corpus ∪ o.crashes
    | .wfCorpus => o.corpus
    | .wfCrashes => o.crashes
    | .wfSafeSeeds => wfSafeSeeds survives seeds
    | .ddfQueue => o.corpus
    | .ddfCrashes => o.crashes := by
  cases script <;> cases d <;>
    simp [Runs.files, Runs.same, Store.save, lfStore, wfStore, ddfStore, Function.update]

theorem benchmark_corpus (h : o.corpus ≠ ∅) :
    benchmark script (fun s => some (cov s)) (Runs.same survives seeds o) =
      ⟨some (cov (o.corpus ∪ o.crashes)), some (cov o.corpus), some (cov o.corpus)⟩ := by
  have hunion : o.corpus ∪ o.crashes ≠ ∅ := fun hempty => h (Finset.union_eq_empty.1 hempty).1
  simp [benchmark, coverageMeasurement, measureCoverage, files_same, h, hunion]

theorem benchmark_no_corpus (h : o.corpus = ∅) :
    (benchmark script (fun s => some (cov s)) (Runs.same survives seeds o)).wf =
        some (cov (wfSafeSeeds survives seeds)) ∧
      (benchmark script (fun s => some (cov s)) (Runs.same survives seeds o)).ddf = none := by
  simp [benchmark, coverageMeasurement, measureCoverage, files_same, h, wfSafeSeeds_ne_empty]

theorem benchmark_fair : (benchmark script (fun s => some (cov s))
      (Runs.same survives seeds o)).Fair ↔
    o.corpus.Nonempty ∧ cov (o.corpus ∪ o.crashes) = cov o.corpus := by
  rw [BranchCov.Fair, Finset.nonempty_iff_ne_empty]
  by_cases h : o.corpus = ∅
  · have hwf_ddf : (benchmark script (fun s => some (cov s)) (Runs.same survives seeds o)).wf ≠
        (benchmark script (fun s => some (cov s)) (Runs.same survives seeds o)).ddf := by
      rw [(benchmark_no_corpus h).1, (benchmark_no_corpus h).2]
      exact Option.some_ne_none _
    exact iff_of_false (fun hfair => hwf_ddf hfair.2) fun hne => hne.1 h
  · rw [benchmark_corpus h]
    simp [h]

/-- With equal outcomes the three numbers are equal exactly when there is a corpus and replaying the
crashing inputs along with it covers nothing more; so they are equal under every coverage function
exactly when there is a corpus and all crashing inputs are in it. -/
theorem benchmark_fair_iff (script : Script) (survives : Input → Bool) (seeds : Finset Input)
    (o : Outcome) :
    (∀ cov : Finset Input → Nat,
      (benchmark script (fun s => some (cov s)) (Runs.same survives seeds o)).Fair ↔
        o.corpus.Nonempty ∧ cov (o.corpus ∪ o.crashes) = cov o.corpus) ∧
      ((∀ cov : Finset Input → Nat,
        (benchmark script (fun s => some (cov s)) (Runs.same survives seeds o)).Fair) ↔
          o.corpus.Nonempty ∧ o.crashes ⊆ o.corpus) := by
  refine ⟨fun cov => benchmark_fair, ?_⟩
  simp only [benchmark_fair]
  constructor
  · intro h
    -- the number of inputs is a coverage function
    obtain ⟨hne, hcard⟩ := h Finset.card
    have hunion : o.corpus = o.corpus ∪ o.crashes :=
      Finset.eq_of_subset_of_card_le Finset.subset_union_left (Nat.le_of_eq hcard)
    exact ⟨hne, Finset.union_eq_left.1 hunion.symm⟩
  · rintro ⟨hne, hsub⟩ cov
    exact ⟨hne, by rw [Finset.union_eq_left.2 hsub]⟩

/-- One corpus input and one crashing input. -/
theorem benchmark_crash_unfair :
    benchmark .sqlite (fun s => some s.card)
        (Runs.same (fun _ => true) {[83]} ⟨{[83, 69]}, {[87]}⟩) = ⟨some 2, some 1, some 1⟩ ∧
      ¬ (benchmark .sqlite (fun s => some s.card)
        (Runs.same (fun _ => true) {[83]} ⟨{[83, 69]}, {[87]}⟩)).Fair := by
  have h : benchmark .sqlite (fun s => some s.card)
      (Runs.same (fun _ => true) {[83]} ⟨{[83, 69]}, {[87]}⟩) = ⟨some 2, some 1, some 1⟩ := by decide
  refine ⟨h, ?_⟩
  rw [h, BranchCov.Fair]
  decide

end

end FourFuzzers.Bench
