import FourFuzzers.Bugs.Report
import Mathlib

/-!
# The published score is the ground truth

Scanning keeps the least time of each bug, whatever order the files are listed in (`Keeps`). The
string `scan_crashes.sh` prints and the regular expression of `run_all.sh` are inverse to each
other: every bug id starts with a letter that occurs nowhere else in the string, and the character
behind an id cannot be part of one. Together they give the score and the table in terms of the crash
files.
-/

namespace FourFuzzers.Bugs

open FourFuzzers.Lib

/-! ## Scanning -/

/-- `v` is what is kept of the times `S`: the least, if there is any. -/
def Keeps (S : Set Nat) (v : Option Nat) : Prop :=
  match v with
  | some n => IsLeast S n
  | none => S = ∅

theorem Keeps.nonempty_iff {S : Set Nat} {v : Option Nat} (h : Keeps S v) :
    S.Nonempty ↔ v.isSome = true := by
  cases v with
  | some n => exact ⟨fun _ => rfl, fun _ => ⟨n, h.1⟩⟩
  | none =>
    have h : S = ∅ := h
    simp [h]

section

variable {m : FirstSeen} {b b' : BugId} {t : Nat} {S : Set Nat}

theorem FirstSeen.record_of_ne (h : b' ≠ b) : m.record b t b' = m b' := by
  rw [FirstSeen.record]
  cases m b with
  | none => exact Function.update_of_ne h _ _
  | some t' =>
    dsimp only
    split
    · exact Function.update_of_ne h _ _
    · rfl

theorem Keeps.record (h : Keeps S (m b)) : Keeps (insert t S) (m.record b t b) := by
  rw [FirstSeen.record]
  cases hb : m b with
  | none =>
    rw [hb] at h
    have h : S = ∅ := h
    dsimp only
    rw [Function.update_self, h, insert_empty_eq]
    exact isLeast_singleton (a := t)
  | some t' =>
    rw [hb] at h
    have h : IsLeast S t' := h
    dsimp only
    split
    next hlt =>
      rw [Function.update_self]
      refine ⟨Set.mem_insert _ _, ?_⟩
      rintro n (rfl | hn)
      · exact Nat.le_refl _
      · exact Nat.le_trans (Nat.le_of_lt hlt) (h.2 hn)
    next hge =>
      rw [hb]
      refine ⟨Set.mem_insert_of_mem _ h.1, ?_⟩
      rintro n (rfl | hn)
      · exact Nat.le_of_not_lt hge
      · exact h.2 hn

end

section

variable {F : Type} {identify : F → Option BugId} {start : Int}

/-- The times at which artifacts of a directory show the bug `b`. -/
def times (identify : F → Option BugId) (start : Int) (entries : List (Entry F)) (b : BugId) :
    Set Nat :=
  { n | ∃ e ∈ entries, e.isArtifact = true ∧ identify e.file = some b ∧
    (n : Int) = max 0 (e.mtime - start) }

theorem eq_elapsed_iff {n : Nat} {mtime : Int} :
    (n : Int) = max 0 (mtime - start) ↔ n = elapsed mtime start := by
  rw [elapsed]
  omega

/-- The fold over the artifacts, one of them at a time. -/
theorem foldl_keeps {b : BugId} {S : Set Nat} {m : FirstSeen} (h : Keeps S (m b))
    (files : List (Entry F)) :
    Keeps (S ∪ { n | ∃ e ∈ files, identify e.file = some b ∧ n = elapsed e.mtime start })
      (files.foldl (fun m e => match identify e.file with
        | some b => m.record b (elapsed e.mtime start)
        | none => m) m b) := by
  induction files generalizing m S with
  | nil => simpa using h
  | cons e files ih =>
    have hset : S ∪ { n | ∃ e' ∈ e :: files, identify e'.file = some b ∧
          n = elapsed e'.mtime start } =
        (S ∪ { n | identify e.file = some b ∧ n = elapsed e.mtime start }) ∪
          { n | ∃ e' ∈ files, identify e'.file = some b ∧ n = elapsed e'.mtime start } := by
      ext n
      simp [or_assoc]
    rw [hset, List.foldl_cons]
    refine ih ?_
    cases hid : identify e.file with
    | none => simpa using h
    | some b' =>
      by_cases hb : b' = b
      · subst hb
        have hone : S ∪ { n | some b' = some b' ∧ n = elapsed e.mtime start } =
            insert (elapsed e.mtime start) S := by
          ext n
          simp [or_comm]
        rw [hone]
        exact h.record
      · have hnone : S ∪ { n | some b' = some b ∧ n = elapsed e.mtime start } = S := by
          simp [hb]
        rw [hnone]
        dsimp only
        rw [FirstSeen.record_of_ne (Ne.symm hb)]
        exact h

theorem scanArtifacts_keeps (entries : List (Entry F)) (b : BugId) :
    Keeps (times identify start entries b)
      (scanArtifacts identify start entries (fun _ => none) b) := by
  have hempty : Keeps ∅ ((fun _ => none : FirstSeen) b) := rfl
  have hset : times identify start entries b = ∅ ∪ { n | ∃ e ∈ entries.filter Entry.isArtifact,
      identify e.file = some b ∧ n = elapsed e.mtime start } := by
    ext n
    simp [times, eq_elapsed_iff, and_assoc]
  rw [hset]
  exact foldl_keeps hempty (entries.filter Entry.isArtifact)

end

/-! ## Taking a bug string apart -/

section

variable {lit s t v : List Char}

theorem grepKeep_skip (n : Nat) (h : t.length = n) :
    grepKeep lit n (t ++ s) = grepKeep lit 0 s := by
  induction t generalizing n with
  | nil =>
    subst h
    rfl
  | cons c t ih =>
    subst h
    exact ih t.length rfl

/-- No match starts in a text without the first character of the literal. -/
theorem grepKeep_append {c : Char} (hlit : lit.head? = some c) (ht : c ∉ t) :
    grepKeep lit 0 (t ++ s) = grepKeep lit 0 s := by
  induction t with
  | nil => rfl
  | cons d t ih =>
    have hne : ¬ lit <+: d :: (t ++ s) := by
      intro hpre
      cases lit with
      | nil => cases hlit
      | cons x lit =>
        rw [List.cons_prefix_cons] at hpre
        obtain rfl := Option.some.inj hlit
        exact ht (hpre.1 ▸ List.mem_cons_self)
    rw [List.cons_append, grepKeep, if_neg hne]
    exact ih fun hm => ht (List.mem_cons_of_mem _ hm)

/-- The literal with a value behind it, up to the next comma. -/
theorem grepKeep_match (hlit : lit ≠ []) (hv : v ≠ []) (hcomma : ',' ∉ v)
    (hs : s = [] ∨ s.head? = some ',') :
    grepKeep lit 0 (lit ++ (v ++ s)) = v :: grepKeep lit 0 s := by
  obtain ⟨c, l, rfl⟩ := List.exists_cons_of_ne_nil hlit
  have htake : (v ++ s).takeWhile (· ≠ ',') = v := by
    rw [List.takeWhile_append_of_pos (by simpa using fun c hc => ne_of_mem_of_not_mem hc hcomma)]
    rcases hs with rfl | hs
    · simp
    · obtain ⟨s', rfl⟩ := List.head?_eq_some_iff.1 hs
      simp
  have hdrop : (c :: (l ++ (v ++ s))).drop (c :: l).length = v ++ s := by
    rw [← List.cons_append, List.drop_left]
  have hpre : c :: l <+: c :: (l ++ (v ++ s)) := List.prefix_append (c :: l) (v ++ s)
  rw [List.cons_append, grepKeep, if_pos hpre, hdrop]
  dsimp only
  rw [htake, if_pos hv, ← List.append_assoc]
  refine congrArg (v :: ·) (grepKeep_skip _ ?_)
  rw [List.length_append, List.length_cons]
  omega

theorem timeText_ok (t : Option Nat) : timeText t ≠ [] ∧ ',' ∉ timeText t ∧ 'B' ∉ timeText t := by
  cases t with
  | none => decide
  | some n =>
    have hdigit : ∀ c ∈ Nat.toDigits 10 n, c.isDigit = true :=
      fun c hc => Nat.isDigit_of_mem_toDigits (by decide) (by decide) hc
    refine ⟨Nat.toDigits_ne_nil, fun hm => ?_, fun hm => ?_⟩
    · exact absurd (hdigit _ hm) (by decide)
    · exact absurd (hdigit _ hm) (by decide)

/-- The entry of one bug in a bug string. -/
def entryText (m : FirstSeen) (b : BugId) : List Char := b.text.toList ++ ':' :: timeText (m b)

theorem text_ok (b : BugId) : (b.text.toList ++ [':']).head? = some 'B' ∧ ',' ∉ b.text.toList ∧
    b.text.toList ++ [':'] ≠ [] ∧ 'B' ∉ (b.text.toList ++ [':']).tail ∧ ':' ∉ b.text.toList := by
  cases b <;> decide

theorem text_injective {b b' : BugId} (h : b.text.toList = b'.text.toList) : b = b' := by
  cases b <;> cases b' <;> first | rfl | exact absurd h (by decide)

variable {m : FirstSeen} {b b' : BugId}

/-- The entry of the bug looked for is found. -/
theorem grepKeep_entry_self (hs : s = [] ∨ s.head? = some ',') :
    grepKeep (b.text.toList ++ [':']) 0 (entryText m b ++ s) =
      timeText (m b) :: grepKeep (b.text.toList ++ [':']) 0 s := by
  obtain ⟨hne, hcomma, -⟩ := timeText_ok (m b)
  have htext : entryText m b ++ s = (b.text.toList ++ [':']) ++ (timeText (m b) ++ s) := by
    simp [entryText]
  rw [htext]
  exact grepKeep_match (text_ok b).2.2.1 hne hcomma hs

/-- The entry of another bug is passed over. -/
theorem grepKeep_entry_ne (h : b' ≠ b) :
    grepKeep (b.text.toList ++ [':']) 0 (entryText m b' ++ s) =
      grepKeep (b.text.toList ++ [':']) 0 s := by
  have hne : ¬ b.text.toList ++ [':'] <+: entryText m b' ++ s := by
    rintro ⟨r, hr⟩
    rw [entryText, List.append_assoc, List.append_assoc, List.singleton_append, List.cons_append] at hr
    exact h (text_injective
      (append_sep_inj (text_ok b).2.2.2.2 (text_ok b').2.2.2.2 hr).1.symm)
  have htext : entryText m b' =
      'B' :: ((b'.text.toList ++ [':']).tail ++ timeText (m b')) := by
    obtain ⟨l, hl⟩ := List.head?_eq_some_iff.1 (text_ok b').1
    rw [entryText, ← List.singleton_append, ← List.append_assoc, hl]
    rfl
  rw [htext] at hne ⊢
  rw [List.cons_append] at hne ⊢
  rw [grepKeep, if_neg hne]
  refine grepKeep_append (text_ok b).1 fun hm => ?_
  rcases List.mem_append.1 hm with hm | hm
  · exact (text_ok b').2.2.2.1 hm
  · exact (timeText_ok (m b')).2.2 hm

/-- The entries behind the first one of a bug string. -/
def moreEntries (m : FirstSeen) (known : List BugId) : List Char :=
  known.flatMap fun b => ',' :: entryText m b

theorem moreEntries_head (known : List BugId) :
    moreEntries m known = [] ∨ (moreEntries m known).head? = some ',' := by
  cases known with
  | nil => exact .inl rfl
  | cons b known => exact .inr rfl

theorem renderResult_eq (known : List BugId) :
    renderResult known m = match known with
      | [] => []
      | b :: known => entryText m b ++ moreEntries m known := by
  have hloop : ∀ (known : List BugId) (result : List Char), result ≠ [] →
      known.foldl (fun result b => (if result ≠ [] then result ++ [','] else result) ++
        entryText m b) result = result ++ moreEntries m known := by
    intro known
    induction known with
    | nil => intro result _; exact (List.append_nil _).symm
    | cons b known ih =>
      intro result hne
      rw [List.foldl_cons, if_pos hne, ih _ (by simp)]
      simp [moreEntries]
  cases known with
  | nil => rfl
  | cons b known => exact hloop known (entryText m b) (by simp [entryText])

/-- Only the entry of the bug looked for is found in a bug string. -/
theorem grepKeep_moreEntries (known : List BugId) :
    grepKeep (b.text.toList ++ [':']) 0 (moreEntries m known) =
      List.replicate (known.count b) (timeText (m b)) := by
  induction known with
  | nil => rfl
  | cons b' known ih =>
    have hcons : moreEntries m (b' :: known) =
        [','] ++ (entryText m b' ++ moreEntries m known) := by
      simp [moreEntries]
    rw [hcons, grepKeep_append (text_ok b).1 (by decide), List.count_cons]
    by_cases h : b' = b
    · subst h
      rw [grepKeep_entry_self (moreEntries_head known), ih]
      simp [List.replicate_succ]
    · rw [grepKeep_entry_ne h, ih]
      simp [h]

theorem grepKeep_renderResult (known : List BugId) :
    grepKeep (b.text.toList ++ [':']) 0 (renderResult known m) =
      List.replicate (known.count b) (timeText (m b)) := by
  rw [renderResult_eq]
  cases known with
  | nil => rfl
  | cons b' known =>
    dsimp only
    rw [List.count_cons]
    by_cases h : b' = b
    · subst h
      rw [grepKeep_entry_self (moreEntries_head known), grepKeep_moreEntries]
      simp [List.replicate_succ]
    · rw [grepKeep_entry_ne h, grepKeep_moreEntries]
      simp [h]

theorem extractBugTime_renderResult {known : List BugId} (h : known.count b = 1) :
    extractBugTime b (renderResult known m) = timeText (m b) := by
  rw [extractBugTime, grepKeep_renderResult, h, List.replicate_one, List.intercalate_singleton,
    if_neg (timeText_ok (m b)).1]

theorem isFound_timeText (t : Option Nat) : isFound (timeText t) = t.isSome := by
  cases t with
  | none => decide
  | some n =>
    have hdigit : ∀ c ∈ Nat.toDigits 10 n, c.isDigit = true :=
      fun c hc => Nat.isDigit_of_mem_toDigits (by decide) (by decide) hc
    have hword : ∀ c w, c.isDigit = false → Nat.toDigits 10 n ≠ c :: w := by
      intro c w hc heq
      have := hdigit c (heq ▸ List.mem_cons_self)
      rw [hc] at this
      exact Bool.false_ne_true this
    have hnf : timeText (some n) ≠ "not_found".toList := hword 'n' _ (by decide)
    have hnone : timeText (some n) ≠ "none".toList := hword 'n' _ (by decide)
    rw [isFound, decide_eq_true hnf, decide_eq_true hnone,
      decide_eq_true (timeText_ok (some n)).1]
    rfl

end

/-! ## The published numbers -/

section

variable {F : Type} {campaign : Target → Campaign F} {vars : Vars} {f : Fuzzer} {b : BugId}

/-- The times at which a fuzzer's artifacts show `b` on its own target. -/
def Campaign.times (c : Campaign F) (f : Fuzzer) (b : BugId) : Set Nat :=
  Bugs.times c.identify (c.start f) ((c.crashDir f).getD []) b

theorem count_knownBugs (b : BugId) : (knownBugs b.target).count b = 1 := by
  cases b <;> decide

theorem scanCrashes_eq (identify : F → Option BugId) (dir : Option (List (Entry F))) (start : Int)
    (log : Option Log) {target : Target} (h : target ≠ .other) :
    scanCrashes identify true dir start target log = renderResult (knownBugs target)
      (scanLog start log (scanArtifacts identify start (dir.getD []) fun _ => none)) ∧
    renderResult (knownBugs target)
      (scanLog start log (scanArtifacts identify start (dir.getD []) fun _ => none)) ≠ [] := by
  have hne : ∀ m : FirstSeen, renderResult (knownBugs target) m ≠ [] := by
    intro m
    cases target <;> first
      | exact absurd rfl h
      | simp [renderResult_eq, knownBugs, entryText]
  refine ⟨?_, hne _⟩
  cases dir with
  | none => exact if_neg (hne _)
  | some entries => exact if_neg (hne _)

/-- What `extract_bug_time` gets out of the bug string of a bug's own target. -/
theorem extractBugTime_bugString (c : Campaign F) (f : Fuzzer) (b : BugId) :
    bugString c b.target f ≠ [] ∧
      ∃ v, extractBugTime b (bugString c b.target f) = timeText v ∧ Keeps (c.times f b) v := by
  have hother : b.target ≠ .other := by cases b <;> decide
  have hscan : ∀ g, scanCrashes c.identify true (c.crashDir g) (c.start g) b.target none ≠ [] ∧
      ∃ v, extractBugTime b (scanCrashes c.identify true (c.crashDir g) (c.start g) b.target none) =
        timeText v ∧ Keeps (c.times g b) v := by
    intro g
    obtain ⟨heq, hne⟩ := scanCrashes_eq c.identify (c.crashDir g) (c.start g) none hother
    rw [heq, extractBugTime_renderResult (count_knownBugs b)]
    exact ⟨hne, _, rfl, scanArtifacts_keeps _ b⟩
  cases f with
  | libFuzzer => exact hscan .libFuzzer
  | ddFuzz =>
    have h := hscan .ddFuzz
    cases hdir : c.crashDir .ddFuzz with
    | some entries =>
      rw [hdir] at h
      rw [bugString, hdir]
      exact h
    | none =>
      have hnone : bugString c b.target .ddFuzz = "none".toList := by rw [bugString, hdir]
      rw [hnone]
      refine ⟨by decide, none, by cases b <;> decide, ?_⟩
      show c.times .ddFuzz b = ∅
      rw [Campaign.times, hdir]
      simp [times]

/-- A sourced env file overwrites both bug variables. -/
theorem bugVars_source (c : Campaign F) (f : Fuzzer) (b : BugId) :
    bugVars (source (latestEnv c b.target) vars) f = bugString c b.target f := by
  have hne := (extractBugTime_bugString c f b).1
  rw [source, latestEnv, List.foldl_append]
  cases f with
  | libFuzzer => simp [bugVars, orNone, Function.update, hne]
  | ddFuzz => simp [bugVars, orNone, Function.update, hne]

theorem cell_eq : cell (aggregate campaign vars) f b =
    extractBugTime b (bugString (campaign b.target) b.target f) := by
  cases b with
  | c1 => exact congrArg (extractBugTime .c1) (bugVars_source (campaign .cjson) f .c1)
  | c2 => exact congrArg (extractBugTime .c2) (bugVars_source (campaign .cjson) f .c2)
  | r1 => exact congrArg (extractBugTime .r1) (bugVars_source (campaign .rhash) f .r1)
  | r2 => exact congrArg (extractBugTime .r2) (bugVars_source (campaign .rhash) f .r2)
  | re1 => exact congrArg (extractBugTime .re1) (bugVars_source (campaign .re2) f .re1)
  | s1 => exact congrArg (extractBugTime .s1) (bugVars_source (campaign .sqlite) f .s1)
  | s2 => exact congrArg (extractBugTime .s2) (bugVars_source (campaign .sqlite) f .s2)

/-- What a table cell shows of a set of times. -/
def Shows (cell : List Char) (S : Set Nat) : Prop :=
  (S = ∅ ∧ cell = "not_found".toList) ∨ ∃ n, IsLeast S n ∧ cell = Nat.toDigits 10 n

theorem Keeps.shows {S : Set Nat} {v : Option Nat} (h : Keeps S v) : Shows (timeText v) S := by
  cases v with
  | none => exact .inl ⟨h, rfl⟩
  | some n => exact .inr ⟨n, h, rfl⟩

instance : Fintype BugId where
  elems := {.c1, .c2, .r1, .r2, .re1, .s1, .s2}
  complete b := by cases b <;> decide

/-- The order in which the score is counted is of no account: every bug has one cell. -/
theorem countFound_cells (g : BugId → List Char) :
    countFound [g .c1, g .c2, g .r1, g .r2, g .re1, g .s1, g .s2] =
      (Finset.univ.filter fun b => isFound (g b) = true).card := by
  have hcount : ∀ (vals : List (List Char)) (n : Nat),
      vals.foldl (fun count val => if isFound val then count + 1 else count) n =
        n + vals.countP isFound := by
    intro vals
    induction vals with
    | nil => intro n; rfl
    | cons v vals ih =>
      intro n
      rw [List.foldl_cons, ih, List.countP_cons]
      split <;> omega
  have huniv : (Finset.univ : Finset BugId) =
      [BugId.c1, .c2, .r1, .r2, .re1, .s1, .s2].toFinset := by decide
  have hnodup : [BugId.c1, .c2, .r1, .r2, .re1, .s1, .s2].Nodup := by decide
  rw [huniv, ← List.toFinset_filter, List.toFinset_card_of_nodup (hnodup.filter _),
    ← List.countP_eq_length_filter, countFound, hcount, Nat.zero_add]
  simp only [List.countP_cons, List.countP_nil]

open Classical in
/-- The published score is the number of bugs that some artifact on the bug's own target shows, and
the table has the least time of each. -/
theorem score_eq_card (campaign : Target → Campaign F) (vars : Vars) (f : Fuzzer) :
    score (aggregate campaign vars) f =
        (Finset.univ.filter fun b => ((campaign b.target).times f b).Nonempty).card ∧
      ∀ b, Shows (cell (aggregate campaign vars) f b) ((campaign b.target).times f b) := by
  have hcell : ∀ b, ∃ v, cell (aggregate campaign vars) f b = timeText v ∧
      Keeps ((campaign b.target).times f b) v := by
    intro b
    rw [cell_eq]
    exact (extractBugTime_bugString (campaign b.target) f b).2
  refine ⟨?_, fun b => ?_⟩
  · rw [score, countFound_cells]
    refine congrArg Finset.card (Finset.filter_congr fun b _ => ?_)
    obtain ⟨v, hv, hkeeps⟩ := hcell b
    rw [hv, isFound_timeText, hkeeps.nonempty_iff]
  · obtain ⟨v, hv, hkeeps⟩ := hcell b
    rw [hv]
    exact hkeeps.shows

end

end FourFuzzers.Bugs
