import FourFuzzers.Sqlite.Verify.Loop

/-!
# Which injected bug a text is charged to

Both injected overflows of the SQLite target happen in the loop of `sqlite3RunParser`: BUG_S2 in an
iteration on WINDOW or FILTER, before the lookahead for the keyword, and BUG_S1 in any call of
`sqlite3GetToken` on a long identifier. So the lookaheads of WINDOW and FILTER never count, and the
first overflow of a run is BUG_S1 exactly when a long identifier is read, by the loop or by the
lookahead for an OVER behind a parenthesis, before the first WINDOW or FILTER.
-/

namespace FourFuzzers.Sqlite

open FourFuzzers.Lib FourFuzzers.Lib.Traced

section

variable {e : Env} {limit : SqlLimit} {s : Loop}

/-- The loop variables at the head of each iteration. -/
def iterations (e : Env) : Nat → Loop → List Loop
  | 0, _ => []
  | fuel + 1, s => s :: match (iteration .full e s).val with
    | .next s' => iterations e fuel s'
    | .stop _ _ => []

/-- The token at the head of an iteration. -/
def Loop.token (e : Env) (s : Loop) : Nat × Tk :=
  (sqlite3GetToken .full e.keywords (e.text.drop s.zSql)).val

/-- The text of the token at the head of an iteration. -/
def Loop.tokenText (e : Env) (s : Loop) : List UInt8 := (e.text.drop s.zSql).take (s.token e).1

/-- The iteration passes the check of the length limit and its token is WINDOW or FILTER. -/
def Loop.AtWindow (e : Env) (limit : SqlLimit) (s : Loop) : Prop :=
  (s.zSql + (s.token e).1 : Int) ≤ limit.1 ∧
    (upper (s.tokenText e) = windowWord ∨ upper (s.tokenText e) = filterWord)

instance (s : Loop) : Decidable (s.AtWindow e limit) := inferInstanceAs (Decidable (_ ∧ _))

/-- Who may read the identifier that BUG_S1 overflows on: the loop, or the lookahead for an OVER
behind a closing parenthesis. -/
def Loop.Reads (e : Env) (s : Loop) (who : Caller) : Prop :=
  who = .loop ∨ who = .overKw ∧ upper (s.tokenText e) = overWord ∧ s.lastTokenParsed = Tk.rp

/-! ## One iteration -/

theorem tokenLog_mono {copy : Copy} {C C' : Caller → Prop} (h : ∀ who, C who → C' who)
    {l : List Event} (hl : (tokenLog copy C).Holds l) : (tokenLog copy C').Holds l := by
  refine ⟨fun ev hev => ?_, hl.2⟩
  have := hl.1 ev hev
  cases ev with
  | getToken who z => exact h who this
  | assign | checkIdentifier | copyWindowKeyword | outOfFuel => exact this

theorem tokenLog_assign {copy : Copy} {C : Caller → Prop} {v : Var} {x : Int} (h₁ : -2 ^ 31 ≤ x)
    (h₂ : x < 2 ^ 31) : (tokenLog copy C).Holds [.assign v x] := by
  refine ⟨fun ev hev => ?_, fun _ => ?_⟩
  · rw [List.mem_singleton.1 hev]
    exact ⟨h₁, h₂⟩
  · simp [Event.overflow]

theorem drop_length_lt (hlen : e.text.length < 2 ^ 31) (n : Nat) :
    (e.text.drop n).length < 2 ^ 31 := by
  rw [List.length_drop]
  omega

theorem drop_drop_length_lt (hlen : e.text.length < 2 ^ 31) (n m : Nat) :
    ((e.text.drop n).drop m).length < 2 ^ 31 := by
  rw [List.drop_drop]
  exact drop_length_lt hlen _

/-- What the limit check sees. -/
theorem Loop.Inv.charge (hs : s.Inv e limit) (hlen : e.text.length < 2 ^ 31) :
    -2 ^ 31 ≤ s.mxSqlLen - (s.token e).1 ∧ s.mxSqlLen - (s.token e).1 < 2 ^ 31 ∧
      (s.mxSqlLen - (s.token e).1 < 0 ↔ ¬ (s.zSql + (s.token e).1 : Int) ≤ limit.1) := by
  have hle : (s.token e).1 ≤ (e.text.drop s.zSql).length :=
    sqlite3GetToken_le (drop_length_lt hlen _)
  rw [List.length_drop] at hle
  have hnonneg := hs.nonneg
  have hleft := hs.left
  have hlimit := limit.2
  omega

/-- An iteration that is not on WINDOW or FILTER, or that fails the limit check. -/
theorem iteration_tokenLog (hlen : e.text.length < 2 ^ 31) (hs : s.Inv e limit)
    (hw : ¬ s.AtWindow e limit) :
    (tokenLog .full (s.Reads e)).Holds (iteration .full e s).log := by
  obtain ⟨h₁, h₂, hcheck⟩ := hs.charge hlen
  have hz := drop_length_lt hlen s.zSql
  have htoken := @tokenAt_meets .full (s.Reads e) e.keywords .loop _ (.inl rfl) hz
  have hassign : (tokenLog .full (s.Reads e)).Holds
      [.assign .mxSqlLen (s.mxSqlLen - (s.token e).1)] := tokenLog_assign h₁ h₂
  rw [iteration, log_bind]
  refine (tokenLog _ _).append htoken.log ?_
  rw [show (tokenAt .full e.keywords .loop (e.text.drop s.zSql)).val = s.token e from rfl]
  have hwindow := @tokenType_window .full _ e.keywords hz
  have hover := @tokenType_over .full _ e.keywords hz
  have hfilter := @tokenType_filter .full _ e.keywords hz
  dsimp only
  rw [log_bind, log_emit]
  refine (tokenLog _ _).append hassign ?_
  rw [Copy.full.int_eq h₁ h₂]
  split
  · exact (tokenLog _ _).nil
  next hpass =>
  have hpass := not_not.1 (mt hcheck.2 hpass)
  split
  next =>
    split
    next => exact (tokenLog _ _).nil
    next =>
    split
    next =>
      split
      next => exact (tokenLog _ _).nil
      next =>
      split
      next => exact (tokenLog _ _).nil
      next => exact (tokenLog _ _).nil
    next =>
    split
    next ht => exact absurd ⟨hpass, .inl (hwindow.1 ht)⟩ hw
    next =>
    split
    next ht =>
      rw [log_bind, log_pure, List.append_nil]
      refine tokenLog_mono ?_ (analyzeOverKeyword_meets _ (drop_drop_length_lt hlen _ 4)).log
      rintro who ⟨rfl, hrp⟩
      exact .inr ⟨rfl, hover.1 ht, hrp⟩
    next =>
    split
    next ht => exact absurd ⟨hpass, .inr (hfilter.1 ht)⟩ hw
    next =>
    split
    next => exact (tokenLog _ _).nil
    next =>
    split
    next => exact (tokenLog _ _).nil
    next => exact (tokenLog _ _).nil
  next => exact (tokenLog _ _).nil

/-- A token that is no plain identifier does not reach `sqlite3CheckIdentifier`. -/
theorem identifierLength_eq_none {k : Keywords} {z : List UInt8}
    (h : (sqlite3GetToken .full k z).val.2 ≠ Tk.id) : identifierLength z = none := by
  rw [sqlite3GetToken, val_bind] at h
  rw [identifierLength]
  cases hsw : (switchClass .full z).val with
  | token n t => rfl
  | keyword i => rfl
  | identifier i =>
    rw [hsw] at h
    exact absurd rfl h

theorem Loop.AtWindow.token (hlen : e.text.length < 2 ^ 31) (hw : s.AtWindow e limit) :
    (s.token e).1 = 6 ∧ byte (e.text.drop s.zSql) 0 ≠ 0 ∧
      ((s.token e).2 = Tk.window ∨ (s.token e).2 = Tk.filter) := by
  have hz := drop_length_lt hlen s.zSql
  have hle : (s.token e).1 ≤ (e.text.drop s.zSql).length := sqlite3GetToken_le hz
  have hsix : (s.token e).1 = 6 := by
    have hlength : (upper (s.tokenText e)).length = 6 := by
      rcases hw.2 with h | h <;> rw [h] <;> rfl
    rw [upper, List.length_map, Loop.tokenText, List.length_take] at hlength
    omega
  refine ⟨hsix, fun h0 => ?_, hw.2.imp (tokenType_window hz).2 (tokenType_filter hz).2⟩
  rw [Loop.token, sqlite3GetToken_nul h0] at hsix
  exact absurd hsix (by decide)

/-- The trace of an iteration on WINDOW or FILTER. -/
theorem Loop.AtWindow.log (hlen : e.text.length < 2 ^ 31) (hs : s.Inv e limit)
    (hw : s.AtWindow e limit) :
    ∃ C ahead, (tokenLog .full C).Holds ahead ∧
      (iteration .full e s).log = (tokenAt .full e.keywords .loop (e.text.drop s.zSql)).log ++
        (.assign .mxSqlLen (s.mxSqlLen - (s.token e).1) :: .copyWindowKeyword 6 :: ahead) := by
  obtain ⟨h₁, h₂, hcheck⟩ := hs.charge hlen
  obtain ⟨hsix, h0, htype⟩ := hw.token hlen
  have hpass : ¬ s.mxSqlLen - (s.token e).1 < 0 := mt hcheck.1 (not_not.2 hw.1)
  have hsize : castSize (castInt (s.token e).1) = 6 := by
    rw [hsix]
    rfl
  rcases htype with ht | ht
  · refine ⟨_, _, (analyzeWindowKeyword_meets (e := e) (drop_drop_length_lt hlen s.zSql 6)).log, ?_⟩
    rw [iteration, log_bind,
      show (tokenAt .full e.keywords .loop (e.text.drop s.zSql)).val = s.token e from rfl]
    dsimp only
    rw [log_bind, log_emit, Copy.full.int_eq h₁ h₂, if_neg hpass, ht, if_pos (by decide),
      if_neg (by decide), if_neg h0, if_pos rfl, log_bind, log_bind, log_pure, List.append_nil,
      sqlite3CopyWindowKeyword, hsize]
    rfl
  · refine ⟨_, _, (analyzeFilterKeyword_meets (e := e) s.lastTokenParsed
      (drop_drop_length_lt hlen s.zSql 6)).log, ?_⟩
    rw [iteration, log_bind,
      show (tokenAt .full e.keywords .loop (e.text.drop s.zSql)).val = s.token e from rfl]
    dsimp only
    rw [log_bind, log_emit, Copy.full.int_eq h₁ h₂, if_neg hpass, ht, if_pos (by decide),
      if_neg (by decide), if_neg h0, if_neg (by decide), if_neg (by decide), if_pos rfl, log_bind,
      log_bind, log_pure, List.append_nil, sqlite3CopyWindowKeyword, hsize]
    rfl

theorem Event.IsToken.not_copy {C : Caller → Prop} {ev : Event} (h : ev.IsToken C) :
    ev.isCopyWindowKeyword = false := by
  cases ev with
  | copyWindowKeyword => exact h.elim
  | getToken | assign | checkIdentifier | outOfFuel => rfl

/-- An iteration on WINDOW or FILTER overflows `kw` before anything else, and once. -/
theorem iteration_window (hlen : e.text.length < 2 ^ 31) (hs : s.Inv e limit)
    (hw : s.AtWindow e limit) :
    ∃ pre post, (iteration .full e s).log = pre ++ .copyWindowKeyword 6 :: post ∧
      (∀ ev ∈ pre, ev.overflow = 0 ∧ ev.isCopyWindowKeyword = false) ∧
      ∀ ev ∈ post, ev.isCopyWindowKeyword = false := by
  have hz := drop_length_lt hlen s.zSql
  obtain ⟨C, ahead, hahead, hlog⟩ := hw.log hlen hs
  obtain ⟨stores, hstores, htoken⟩ := tokenAt_log .full e.keywords .loop hz
  have hnone : identifierLength (e.text.drop s.zSql) = none := by
    refine identifierLength_eq_none (k := e.keywords) ?_
    rcases (hw.token hlen).2.2 with ht | ht <;> exact ht ▸ (by decide)
  rw [checks, hnone, Option.toList_none, List.map_nil, List.append_nil] at htoken
  refine ⟨(.getToken .loop (e.text.drop s.zSql) :: stores) ++
    [.assign .mxSqlLen (s.mxSqlLen - (s.token e).1)], ahead, ?_, fun ev hev => ?_,
    fun ev hev => (hahead.1 ev hev).not_copy⟩
  · rw [hlog, htoken, List.append_assoc, List.singleton_append]
  · rcases List.mem_append.1 hev with hev | hev
    · rcases List.mem_cons.1 hev with rfl | hev
      · exact ⟨rfl, rfl⟩
      · have hassign := hstores ev hev
        cases ev with
        | assign => exact ⟨rfl, rfl⟩
        | getToken | checkIdentifier | copyWindowKeyword | outOfFuel => exact hassign.elim
    · rw [List.mem_singleton.1 hev]
      exact ⟨rfl, rfl⟩

/-! ## The run -/

theorem log_runLoop (e : Env) (fuel : Nat) (s : Loop) (h : (runLoop .full e fuel s).val.isSome) :
    (runLoop .full e fuel s).log = (iterations e fuel s).flatMap fun s => (iteration .full e s).log := by
  induction fuel generalizing s with
  | zero => cases h
  | succ fuel ih =>
    rw [runLoop, val_bind] at h
    rw [runLoop, log_bind, iterations, List.flatMap_cons]
    cases hval : (iteration .full e s).val with
    | next s' =>
      rw [hval] at h
      exact congrArg _ (ih s' h)
    | stop s' why => rfl

theorem inv_of_mem_iterations (hlen : e.text.length < 2 ^ 31) (fuel : Nat) (hs : s.Inv e limit) :
    ∀ s' ∈ iterations e fuel s, s'.Inv e limit := by
  induction fuel generalizing s with
  | zero => exact fun _ h => nomatch h
  | succ fuel ih =>
    intro s' hs'
    rw [iterations] at hs'
    rcases List.mem_cons.1 hs' with rfl | hs'
    · exact hs
    · have hcont := (@iteration_meets .full e limit _ hlen hs).val.2
      cases hval : (iteration .full e s).val with
      | next s₁ =>
        rw [hval] at hs' hcont
        exact ih hcont.1 s' hs'
      | stop s₁ why =>
        rw [hval] at hs'
        cases hs'

/-- The overflows of a run of the fuzzed copy. -/
structure OverflowReport (e : Env) (limit : SqlLimit) (its : List Loop) (log : List Event) :
    Prop where
  /-- The run is these iterations, one behind the other. -/
  log_eq : log = its.flatMap fun s => (iteration .full e s).log
  /-- BUG_S2: once in each iteration that passes the limit check on WINDOW or FILTER, by two bytes,
  and in no other. -/
  window : ∀ s ∈ its, (iteration .full e s).log.filter Event.isCopyWindowKeyword =
    if s.AtWindow e limit then [.copyWindowKeyword (4 + 2)] else []
  /-- BUG_S1 comes first iff a long identifier is read before the first such iteration. -/
  first : (∃ ev, log.find? (fun ev => ev.overflow ≠ 0) = some ev ∧ ev.isCheckIdentifier = true) ↔
    ∃ before s after, its = before ++ s :: after ∧ (∀ t ∈ before, ¬ t.AtWindow e limit) ∧
      ¬ s.AtWindow e limit ∧
      ∃ who z, .getToken who z ∈ (iteration .full e s).log ∧ LongIdentifier z ∧ s.Reads e who

/-- Ground truth of the SQLite target: where the two injected bugs overflow, and which comes
first. -/
theorem sqlite3RunParser_overflows (e : Env) (limit : SqlLimit) (hlen : e.text.length < 2 ^ 31) :
    (sqlite3RunParser .full e limit).val.isSome = true ∧
      OverflowReport e limit (iterations e (loopFuel e.text) (Loop.start limit))
        (sqlite3RunParser .full e limit).log := by
  have hrun := @runLoop_meets .full e limit _ hlen _ Loop.start_inv rounds_start_le
  have hinv := inv_of_mem_iterations hlen (loopFuel e.text) (@Loop.start_inv e limit)
  have hlog : (sqlite3RunParser .full e limit).log =
      (iterations e (loopFuel e.text) (Loop.start limit)).flatMap fun s => (iteration .full e s).log := by
    rw [sqlite3RunParser, log_bind, log_pure, List.append_nil]
    exact log_runLoop e _ _ hrun.val.2
  generalize iterations e (loopFuel e.text) (Loop.start limit) = its at hinv hlog ⊢
  refine ⟨by rw [sqlite3RunParser, val_bind, val_pure, Option.isSome_map]; exact hrun.val.2, hlog,
    fun s hs => ?_, ?_⟩
  · split
    next hw =>
      obtain ⟨pre, post, heq, hpre, hpost⟩ := iteration_window hlen (hinv s hs) hw
      rw [heq, List.filter_append, List.filter_cons_of_pos rfl,
        List.filter_eq_nil_iff.2 fun ev hev => by simp [(hpre ev hev).2],
        List.filter_eq_nil_iff.2 fun ev hev => by simp [hpost ev hev]]
      rfl
    next hw =>
      refine List.filter_eq_nil_iff.2 fun ev hev => ?_
      simp [((iteration_tokenLog hlen (hinv s hs) hw).1 ev hev).not_copy]
  · have hW : ∀ s ∈ its, s.AtWindow e limit →
        ∃ ev, (iteration .full e s).log.find? (fun ev => ev.overflow ≠ 0) = some ev ∧
          ¬ ev.isCheckIdentifier = true := by
      intro s hs hw
      obtain ⟨pre, post, heq, hpre, -⟩ := iteration_window hlen (hinv s hs) hw
      refine ⟨.copyWindowKeyword 6, ?_, by decide⟩
      rw [heq, List.find?_append, List.find?_eq_none.2 fun ev hev => by simp [(hpre ev hev).1]]
      rfl
    have hB : ∀ s ∈ its, ¬ s.AtWindow e limit → ∀ ev ∈ (iteration .full e s).log,
        decide (ev.overflow ≠ 0) = true → ev.isCheckIdentifier = true := by
      intro s hs hw ev hev hover
      have htoken := (iteration_tokenLog hlen (hinv s hs) hw).1 ev hev
      cases ev with
      | checkIdentifier => rfl
      | copyWindowKeyword => exact htoken.elim
      | getToken | assign | outOfFuel => exact absurd rfl (of_decide_eq_true hover)
    rw [hlog, find?_flatMap_iff hW hB]
    refine exists_congr fun before => exists_congr fun s => exists_congr fun after =>
      and_congr_right fun hits => and_congr_right fun _ => and_congr_right fun hw => ?_
    have hs : s ∈ its := by
      rw [hits]
      simp
    obtain ⟨htoken, hlong⟩ := iteration_tokenLog hlen (hinv s hs) hw
    have hlong := hlong rfl
    constructor
    · rintro ⟨ev, hev, hover⟩
      obtain ⟨who, z, hcall, hz⟩ := hlong.1 ⟨ev, hev, of_decide_eq_true hover⟩
      exact ⟨who, z, hcall, hz, htoken _ hcall⟩
    · rintro ⟨who, z, hcall, hz, -⟩
      obtain ⟨ev, hev, hover⟩ := hlong.2 ⟨who, z, hcall, hz⟩
      exact ⟨ev, hev, decide_eq_true hover⟩

theorem sqlite3RunParser_overflows_sample :
    sampleEnv.text.length < 2 ^ 31 ∧
      OverflowReport sampleEnv sampleLimit
        (iterations sampleEnv (loopFuel sampleEnv.text) (Loop.start sampleLimit))
        (sqlite3RunParser .full sampleEnv sampleLimit).log ∧
      ∃ s ∈ iterations sampleEnv (loopFuel sampleEnv.text) (Loop.start sampleLimit),
        s.AtWindow sampleEnv sampleLimit :=
  have hlen : sampleEnv.text.length < 2 ^ 31 := by decide +kernel
  ⟨hlen, (sqlite3RunParser_overflows sampleEnv sampleLimit hlen).2, by decide +kernel⟩

/-- The lookahead for OVER reads the long name first, before the WINDOW behind it. -/
example : (sqlite3RunParser .full sampleEnv sampleLimit).log.find? (fun ev => ev.overflow ≠ 0) =
    some (.checkIdentifier 33) := by
  decide +kernel

end

end FourFuzzers.Sqlite
