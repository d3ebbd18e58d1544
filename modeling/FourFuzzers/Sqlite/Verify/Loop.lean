import FourFuzzers.Sqlite.Keywords
import FourFuzzers.Sqlite.Verify.Tokenizer

/-!
# The loop of `sqlite3RunParser` in both copies

Every function above `sqlite3GetToken` is specified by what it returns, which is what the fuzzed
copy returns, and by its trace, in which no stored value leaves the range of `int`. The loop keeps
`mxSqlLen` at the limit less the bytes read (`Loop.Inv`), and it ends: an iteration that goes on
takes a byte, or it is one of the last three at the end of the text (`rounds`).
-/

namespace FourFuzzers.Sqlite

open FourFuzzers.Lib FourFuzzers.Lib.Traced

/-! ## Lookahead -/

/-- The text starts with an identifier that `sqlite3CheckIdentifier` cannot hold. -/
def LongIdentifier (z : List UInt8) : Prop := ∃ n, identifierLength z = some n ∧ 32 < n

/-- An event of calls of `sqlite3GetToken` made by callers in `C`. -/
def Event.IsToken (C : Caller → Prop) : Event → Prop
  | getToken who _ => C who
  | assign _ x => -2 ^ 31 ≤ x ∧ x < 2 ^ 31
  | checkIdentifier _ => True
  | copyWindowKeyword _ => False
  | outOfFuel => False

/-- The trace of calls of `sqlite3GetToken` made by callers in `C`. In the fuzzed copy something
overflows exactly when one of them was on a long identifier. -/
def tokenLog (copy : Copy) (C : Caller → Prop) : LogProp Event where
  Holds l := (∀ e ∈ l, e.IsToken C) ∧ (copy = .full →
    ((∃ e ∈ l, e.overflow ≠ 0) ↔ ∃ who z, .getToken who z ∈ l ∧ LongIdentifier z))
  nil := ⟨by simp, by simp⟩
  append h₁ h₂ := by
    refine ⟨fun e he => ?_, fun hfull => ?_⟩
    · rcases List.mem_append.1 he with he | he
      · exact h₁.1 e he
      · exact h₂.1 e he
    · simp only [List.mem_append, or_and_right, exists_or, h₁.2 hfull, h₂.2 hfull]

section

variable {copy : Copy} {C : Caller → Prop} {k : Keywords} {who : Caller} {z : List UInt8}

theorem tokenAt_log (copy : Copy) (k : Keywords) (who : Caller) (hlen : z.length < 2 ^ 31) :
    ∃ stores, (∀ e ∈ stores, Event.IsAssign e) ∧
      (tokenAt copy k who z).log = .getToken who z :: (stores ++ checks copy z) := by
  obtain ⟨stores, hstores, hlog⟩ := @sqlite3GetToken_log copy _ k hlen
  refine ⟨stores, hstores, ?_⟩
  rw [tokenAt, log_bind, log_emit, hlog]
  rfl

theorem tokenAt_meets (hC : C who) (hlen : z.length < 2 ^ 31) :
    Meets (tokenLog copy C) (· = (sqlite3GetToken .full k z).val) (tokenAt copy k who z) := by
  obtain ⟨stores, hstores, hcall⟩ := tokenAt_log copy k who hlen
  have hstore : ∀ e ∈ stores, e.IsToken C ∧ e.overflow = 0 ∧ ∀ who z, e ≠ .getToken who z := by
    intro e he
    have hassign := hstores e he
    cases e with
    | assign v x => exact ⟨hassign, rfl, by simp⟩
    | getToken | checkIdentifier | copyWindowKeyword | outOfFuel => exact hassign.elim
  refine ⟨?_, sqlite3GetToken_val hlen⟩
  rw [hcall]
  refine ⟨fun e he => ?_, ?_⟩
  · rcases List.mem_cons.1 he with rfl | he
    · exact hC
    rcases List.mem_append.1 he with he | he
    · exact (hstore e he).1
    · cases copy with
      | full =>
        obtain ⟨n, -, rfl⟩ := List.mem_map.1 he
        trivial
      | coverage => cases he
  rintro rfl
  constructor
  · rintro ⟨e, he, hover⟩
    rcases List.mem_cons.1 he with rfl | he
    · exact absurd rfl hover
    rcases List.mem_append.1 he with he | he
    · exact absurd (hstore e he).2.1 hover
    · obtain ⟨n, hn, rfl⟩ := List.mem_map.1 he
      refine ⟨who, z, List.mem_cons_self, n, Option.mem_toList.1 hn, ?_⟩
      have hover : n - 32 ≠ 0 := hover
      omega
  · rintro ⟨who', z', he, n, hn, hlong⟩
    rcases List.mem_cons.1 he with heq | he
    · obtain ⟨-, rfl⟩ := Event.getToken.inj heq
      refine ⟨.checkIdentifier n, ?_, ?_⟩
      · simp [checks, hn]
      · show n - 32 ≠ 0
        omega
    rcases List.mem_append.1 he with he | he
    · exact absurd rfl ((hstore _ he).2.2 who' z')
    · obtain ⟨n, -, heq⟩ := List.mem_map.1 he
      cases heq

/-- Each round of `getToken` that goes on takes a byte. -/
theorem skipSpace_meets (hC : C who) (fuel : Nat) (hfuel : z.length < fuel)
    (hlen : z.length < 2 ^ 31) :
    Meets (tokenLog copy C)
      (fun r => r = (skipSpace .full k who fuel z).val ∧ r.2.length ≤ z.length)
      (skipSpace copy k who fuel z) := by
  induction fuel generalizing z with
  | zero => omega
  | succ fuel ih =>
    rw [skipSpace, skipSpace, val_bind, show (tokenAt .full k who z).val =
      (sqlite3GetToken .full k z).val from rfl]
    refine (tokenAt_meets hC hlen).bind fun r hr => ?_
    rw [← hr]
    obtain ⟨n, t⟩ := r
    dsimp only
    split
    next hskip =>
      have h0 : byte z 0 ≠ 0 := by
        intro h0
        rw [sqlite3GetToken_nul h0] at hr
        obtain ⟨-, rfl⟩ := Prod.mk.inj hr
        exact absurd hskip (by decide)
      obtain ⟨hpos, hle⟩ := @sqlite3GetToken_bounds .full _ k h0 hlen
      rw [← hr] at hpos hle
      have hdrop : (z.drop n).length < z.length := by
        rw [List.length_drop]
        omega
      exact (ih (by omega) (by omega)).mono fun r hr => ⟨hr.1, by omega⟩
    next => exact .pure ⟨rfl, by rw [List.length_drop]; omega⟩

variable {e : Env}

theorem getToken_meets (hC : C who) (hlen : z.length < 2 ^ 31) :
    Meets (tokenLog copy C) (fun r => r = (getToken .full e who z).val ∧ r.2.length ≤ z.length)
      (getToken copy e who z) := by
  refine (skipSpace_meets hC _ (Nat.lt_succ_self _) hlen).bind fun r hr => ?_
  obtain ⟨rfl, hle⟩ := hr
  exact .pure ⟨rfl, hle⟩

theorem analyzeWindowKeyword_meets (hlen : z.length < 2 ^ 31) :
    Meets (tokenLog copy (· = .window)) (· = (analyzeWindowKeyword .full e z).val)
      (analyzeWindowKeyword copy e z) := by
  rw [analyzeWindowKeyword, analyzeWindowKeyword, val_bind]
  refine (getToken_meets (C := (· = .window)) rfl hlen).bind fun r hr => ?_
  obtain ⟨rfl, hle⟩ := hr
  dsimp only
  split
  · exact .pure rfl
  refine (getToken_meets (C := (· = .window)) rfl (Nat.lt_of_le_of_lt hle hlen)).bind fun r hr => ?_
  obtain ⟨rfl, -⟩ := hr
  rw [val_bind]
  split
  · exact .pure rfl
  · exact .pure rfl

theorem analyzeOverKeyword_meets (lastToken : Tk) (hlen : z.length < 2 ^ 31) :
    Meets (tokenLog copy fun who => who = .overKw ∧ lastToken = Tk.rp)
      (· = (analyzeOverKeyword .full e z lastToken).val) (analyzeOverKeyword copy e z lastToken) := by
  rw [analyzeOverKeyword, analyzeOverKeyword]
  split
  next hrp =>
    rw [val_bind]
    refine (getToken_meets ⟨rfl, hrp⟩ hlen).bind fun r hr => ?_
    obtain ⟨rfl, -⟩ := hr
    dsimp only
    split
    · exact .pure rfl
    · exact .pure rfl
  next => exact .pure rfl

theorem analyzeFilterKeyword_meets (lastToken : Tk) (hlen : z.length < 2 ^ 31) :
    Meets (tokenLog copy (· = .filter)) (· = (analyzeFilterKeyword .full e z lastToken).val)
      (analyzeFilterKeyword copy e z lastToken) := by
  rw [analyzeFilterKeyword, analyzeFilterKeyword]
  split
  · rw [val_bind]
    refine (getToken_meets (C := (· = .filter)) rfl hlen).bind fun r hr => ?_
    obtain ⟨rfl, -⟩ := hr
    dsimp only
    split
    · exact .pure rfl
    · exact .pure rfl
  · exact .pure rfl

end

/-! ## One iteration -/

/-- Between iterations: `zSql` is inside the text and `mxSqlLen` is what is left of the limit. -/
structure Loop.Inv (e : Env) (limit : SqlLimit) (s : Loop) : Prop where
  inside : s.zSql ≤ e.text.length
  left : s.mxSqlLen = limit.1 - s.zSql
  nonneg : 0 ≤ s.mxSqlLen

/-- How many iterations are left at most. -/
def rounds (e : Env) (s : Loop) : Nat :=
  if byte (e.text.drop s.zSql) 0 = 0 then
    if s.lastTokenParsed = 0 then 1 else if s.lastTokenParsed = Tk.semi then 2 else 3
  else e.text.length - s.zSql + 3

/-- What an iteration that started in `s` ends with. -/
def Outcome.Continues (e : Env) (limit : SqlLimit) (s : Loop) : Outcome → Prop
  | next s' => s'.Inv e limit ∧ rounds e s' < rounds e s
  | stop _ _ => True

/-- No value leaves the range of `int`, and no budget is used up. -/
def Event.Fits : Event → Prop
  | assign _ x => -2 ^ 31 ≤ x ∧ x < 2 ^ 31
  | outOfFuel => False
  | _ => True

theorem Event.IsToken.fits {C : Caller → Prop} {ev : Event} (h : ev.IsToken C) : ev.Fits := by
  cases ev with
  | assign => exact h
  | getToken | checkIdentifier | copyWindowKeyword => trivial
  | outOfFuel => exact h

section

variable {copy : Copy} {e : Env} {limit : SqlLimit} {s s' : Loop} {n : Nat}

theorem fits_of_tokenLog {C : Caller → Prop} {α : Type} {Q : α → Prop} {x : Run α}
    (h : Meets (tokenLog copy C) Q x) : Meets (.every Event.Fits) Q x :=
  h.weaken fun _ hl ev hev => (hl.1 ev hev).fits

theorem rounds_lt_of_pos (h0 : byte (e.text.drop s.zSql) 0 ≠ 0) (hn : 0 < n)
    (hz : s'.zSql = s.zSql + n) (hle : s.zSql + n ≤ e.text.length) :
    rounds e s' < rounds e s := by
  rw [rounds, rounds, if_neg h0, hz]
  split
  · split
    · omega
    · split <;> omega
  · omega

theorem Loop.Inv.advance (hs : s.Inv e limit) (hle : s.zSql + n ≤ e.text.length)
    (hpass : 0 ≤ s.mxSqlLen - n) (hz : s'.zSql = s.zSql + n)
    (hmx : s'.mxSqlLen = s.mxSqlLen - n) : s'.Inv e limit := by
  have hleft := hs.left
  refine ⟨by omega, ?_, by omega⟩
  rw [hmx, hz, hleft]
  omega

/-- A token of at least one byte goes to the parser. -/
theorem feed_continues (hs : s.Inv e limit) (h0 : byte (e.text.drop s.zSql) 0 ≠ 0) (hn : 0 < n)
    (hle : s.zSql + n ≤ e.text.length) (hpass : 0 ≤ s.mxSqlLen - n) (t : Tk) :
    (feed e { s with mxSqlLen := s.mxSqlLen - n } t n).Continues e limit s := by
  rw [feed]
  dsimp only
  split
  · trivial
  · exact ⟨hs.advance hle hpass rfl rfl, rounds_lt_of_pos h0 hn rfl hle⟩

/-- At the end of the text the parser is given `TK_SEMI` and 0. -/
theorem feed_end_continues (hs : s.Inv e limit) (h0 : byte (e.text.drop s.zSql) 0 = 0) (t : Tk)
    (ht : t = 0 ∧ s.lastTokenParsed = Tk.semi ∨
      t = Tk.semi ∧ s.lastTokenParsed ≠ Tk.semi ∧ s.lastTokenParsed ≠ 0) :
    (feed e { s with mxSqlLen := s.mxSqlLen - (0 : Nat) } t 0).Continues e limit s := by
  rw [feed]
  dsimp only
  split
  · trivial
  · have hpass : 0 ≤ s.mxSqlLen - (0 : Nat) := by
      have := hs.nonneg
      omega
    refine ⟨hs.advance (n := 0) hs.inside hpass rfl rfl, ?_⟩
    rw [rounds, rounds, Nat.add_zero, if_pos h0, if_pos h0]
    rcases ht with ⟨rfl, hlast⟩ | ⟨rfl, hlast, hlast'⟩
    · rw [if_pos rfl, hlast]
      decide
    · rw [if_neg hlast', if_neg hlast]
      show (if Tk.semi = 0 then 1 else if Tk.semi = Tk.semi then 2 else 3) < 3
      decide

theorem copyWindowKeyword_fits {x : Int} :
    Meets (.every Event.Fits) (fun _ => True) (sqlite3CopyWindowKeyword copy x) := by
  cases copy with
  | full =>
    refine meets_emit (fun ev hev => ?_) trivial
    rw [List.mem_singleton.1 hev]
    trivial
  | coverage => exact .pure trivial

/-- The same branch is taken on both sides. -/
theorem meets_ite {α : Type} {Λ : LogProp Event} {P : α → Prop} {x x' y y' : Run α} {p : Prop}
    [Decidable p] (hx : p → Meets Λ (fun o => o = x'.val ∧ P o) x)
    (hy : ¬ p → Meets Λ (fun o => o = y'.val ∧ P o) y) :
    Meets Λ (fun o => o = (if p then x' else y').val ∧ P o) (if p then x else y) := by
  by_cases hp : p
  · rw [if_pos hp, if_pos hp]
    exact hx hp
  · rw [if_neg hp, if_neg hp]
    exact hy hp

/-- An iteration of either copy ends like one of the fuzzed copy. -/
theorem iteration_meets (hlen : e.text.length < 2 ^ 31) (hs : s.Inv e limit) :
    Meets (.every Event.Fits)
      (fun o => o = (iteration .full e s).val ∧ o.Continues e limit s) (iteration copy e s) := by
  have hz : (e.text.drop s.zSql).length < 2 ^ 31 := by
    rw [List.length_drop]
    omega
  have hdrop : ∀ m, ((e.text.drop s.zSql).drop m).length < 2 ^ 31 := by
    intro m
    rw [List.length_drop]
    omega
  have hle := @sqlite3GetToken_le .full _ e.keywords hz
  have hbounds := fun h0 => @sqlite3GetToken_bounds .full _ e.keywords h0 hz
  have hnul := @sqlite3GetToken_nul .full (e.text.drop s.zSql) e.keywords
  rw [iteration, iteration, val_bind, show (tokenAt .full e.keywords .loop (e.text.drop s.zSql)).val =
    (sqlite3GetToken .full e.keywords (e.text.drop s.zSql)).val from rfl]
  refine (fits_of_tokenLog (tokenAt_meets (C := fun _ => True) trivial hz)).bind fun r hr => ?_
  rw [← hr] at hle hbounds ⊢
  obtain ⟨n, t⟩ := r
  rw [List.length_drop] at hle hbounds
  have hnonneg := hs.nonneg
  have hleft := hs.left
  have hlimit := limit.2
  have hinside := hs.inside
  have hrange : -2 ^ 31 ≤ s.mxSqlLen - n ∧ s.mxSqlLen - n < 2 ^ 31 := by
    constructor <;> dsimp only at hle <;> omega
  have hassign : Meets (.every Event.Fits) (fun _ => True)
      (emit (.assign .mxSqlLen (s.mxSqlLen - n))) := by
    refine meets_emit (fun ev hev => ?_) trivial
    rw [List.mem_singleton.1 hev]
    exact hrange
  dsimp only
  rw [val_bind]
  refine hassign.bind fun _ _ => ?_
  rw [copy.int_eq hrange.1 hrange.2, Copy.full.int_eq hrange.1 hrange.2]
  refine meets_ite (fun _ => .pure ⟨rfl, trivial⟩) fun hpass => ?_
  have hpass : 0 ≤ s.mxSqlLen - n := Int.not_lt.1 hpass
  have hbyte : t ≠ Tk.illegal → byte (e.text.drop s.zSql) 0 ≠ 0 := by
    intro ht h0
    rw [hnul h0] at hr
    exact ht (Prod.mk.inj hr).2
  have hskip : byte (e.text.drop s.zSql) 0 ≠ 0 →
      Outcome.Continues e limit s
        (.next { s with mxSqlLen := s.mxSqlLen - n, zSql := s.zSql + n }) := by
    intro h0
    obtain ⟨hpos, hn⟩ := hbounds h0
    exact ⟨hs.advance (by omega) hpass rfl rfl, rounds_lt_of_pos h0 hpos rfl (by omega)⟩
  have hfeed : byte (e.text.drop s.zSql) 0 ≠ 0 → ∀ t,
      (feed e { s with mxSqlLen := s.mxSqlLen - n } t n).Continues e limit s := by
    intro h0
    obtain ⟨hpos, hn⟩ := hbounds h0
    exact feed_continues hs h0 hpos (by omega) hpass
  refine meets_ite (fun _ => ?_) fun hwindow => ?_
  · refine meets_ite (fun hspace => ?_) fun _ => ?_
    · exact .pure ⟨rfl, hskip (hbyte (by rw [hspace]; decide))⟩
    refine meets_ite (fun h0 => ?_) fun h0 => ?_
    · rw [hnul h0] at hr
      obtain ⟨rfl, rfl⟩ := Prod.mk.inj hr
      refine meets_ite (fun hsemi => ?_) fun hsemi => ?_
      · exact .pure ⟨rfl, feed_end_continues hs h0 _ (.inl ⟨rfl, hsemi⟩)⟩
      refine meets_ite (fun _ => .pure ⟨rfl, trivial⟩) fun hzero => ?_
      exact .pure ⟨rfl, feed_end_continues hs h0 _ (.inr ⟨rfl, hsemi, hzero⟩)⟩
    refine meets_ite (fun _ => ?_) fun _ => ?_
    · refine copyWindowKeyword_fits.bind fun _ _ => ?_
      refine (fits_of_tokenLog (analyzeWindowKeyword_meets (hdrop 6))).bind fun t ht => ?_
      exact .pure ⟨by rw [ht]; rfl, hfeed h0 t⟩
    refine meets_ite (fun _ => ?_) fun _ => ?_
    · refine (fits_of_tokenLog (analyzeOverKeyword_meets _ (hdrop 4))).bind fun t ht => ?_
      exact .pure ⟨by rw [ht]; rfl, hfeed h0 t⟩
    refine meets_ite (fun _ => ?_) fun _ => ?_
    · refine copyWindowKeyword_fits.bind fun _ _ => ?_
      refine (fits_of_tokenLog (analyzeFilterKeyword_meets _ (hdrop 6))).bind fun t ht => ?_
      exact .pure ⟨by rw [ht]; rfl, hfeed h0 t⟩
    refine meets_ite (fun _ => .pure ⟨rfl, hskip h0⟩) fun _ => ?_
    exact meets_ite (fun _ => .pure ⟨rfl, trivial⟩) fun _ => .pure ⟨rfl, hfeed h0 t⟩
  · refine .pure ⟨rfl, hfeed (hbyte ?_) t⟩
    rintro rfl
    exact hwindow (by decide)

/-! ## The run -/

/-- The whole loop: it ends, and either copy ends like the fuzzed one. -/
theorem runLoop_meets (hlen : e.text.length < 2 ^ 31) (fuel : Nat) (hs : s.Inv e limit)
    (hfuel : rounds e s ≤ fuel) :
    Meets (.every Event.Fits) (fun r => r = (runLoop .full e fuel s).val ∧ r.isSome = true)
      (runLoop copy e fuel s) := by
  induction fuel generalizing s with
  | zero =>
    have hpos : 0 < rounds e s := by
      rw [rounds]
      split
      · split
        · decide
        · split <;> decide
      · omega
    omega
  | succ fuel ih =>
    rw [runLoop, runLoop, val_bind]
    refine (iteration_meets hlen hs).bind fun o ho => ?_
    obtain ⟨rfl, hcont⟩ := ho
    cases hval : (iteration .full e s).val with
    | next s' =>
      rw [hval] at hcont
      have hrounds := hcont.2
      exact ih hcont.1 (by omega)
    | stop s' why => exact .pure ⟨rfl, rfl⟩

theorem Loop.start_inv : (Loop.start limit).Inv e limit := by
  refine ⟨Nat.zero_le _, ?_, limit.2.1⟩
  rw [Loop.start]
  simp

theorem rounds_start_le : rounds e (Loop.start limit) ≤ loopFuel e.text := by
  rw [rounds, loopFuel]
  split
  · split
    · omega
    · split <;> omega
  · omega

/-- The two SQLites hand their parser the same tokens, leave the loop at the same place for the same
reason and report the same tail. The loop ends, and no variable whose type differs between them is
ever given a value outside the range of `int`. -/
theorem sqlite3RunParser_agree (e : Env) (limit : SqlLimit) (hlen : e.text.length < 2 ^ 31) :
    (sqlite3RunParser .coverage e limit).val = (sqlite3RunParser .full e limit).val ∧
      (sqlite3RunParser .full e limit).val.isSome = true ∧
      ∀ copy v x, .assign v x ∈ (sqlite3RunParser copy e limit).log → -2 ^ 31 ≤ x ∧ x < 2 ^ 31 := by
  have hrun : ∀ copy, Meets (.every Event.Fits)
      (fun r => r = (sqlite3RunParser .full e limit).val ∧ r.isSome = true)
      (sqlite3RunParser copy e limit) := by
    intro copy
    refine (runLoop_meets hlen _ (@Loop.start_inv e limit) rounds_start_le).bind fun r hr => ?_
    obtain ⟨rfl, hsome⟩ := hr
    exact .pure ⟨rfl, by rw [Option.isSome_map]; exact hsome⟩
  exact ⟨(hrun .coverage).val.1, (hrun .full).val.2, fun copy v x hx => (hrun copy).log _ hx⟩

theorem sqlite3RunParser_agree_sample :
    sampleEnv.text.length < 2 ^ 31 ∧
      (sqlite3RunParser .coverage sampleEnv sampleLimit).val =
        (sqlite3RunParser .full sampleEnv sampleLimit).val ∧
      (sqlite3RunParser .full sampleEnv sampleLimit).val.isSome = true :=
  have hlen : sampleEnv.text.length < 2 ^ 31 := by decide +kernel
  ⟨hlen, (sqlite3RunParser_agree sampleEnv sampleLimit hlen).1,
    (sqlite3RunParser_agree sampleEnv sampleLimit hlen).2.1⟩

end

end FourFuzzers.Sqlite
