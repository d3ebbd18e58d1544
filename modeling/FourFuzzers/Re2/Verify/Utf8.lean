import FourFuzzers.Re2.Verify.Complete
import FourFuzzers.Re2.Verify.RuneTexts

/-!
# Classes in UTF-8

The ranges of a class are gathered one after the other: behind each of them the words of the trie
have the texts of the ranges so far. They are added in ascending order, so each suffix is compatible
with the words before it. Hence `ninst_--` gives back only the instruction at the top of the array,
which nothing uses, and `AllocInst` hands out only instructions that nothing uses.
-/

namespace FourFuzzers.Re2

open FourFuzzers.Lib FourFuzzers.Lib.Traced FourFuzzers.Lib.Stateful

/-! ## Sequences -/

section

variable {P : Plan} {base lo hi c c' : Nat} {ulo uhi : List Nat} {words : Set Word} {id kept : Nat}
  {v w : Word} {a : Sym} {g : Compiler → Garbage} {s₀ s : RangeCompiler} {T U : Set (List Nat)}
  {reversed f : Bool} {sound : Prop}

theorem sequenceSuffix_holding (h : Ranges ulo uhi) :
    Tries (Event.Ok base) (Refused sound) (Resting (.exact base reversed) s₀ words)
      (sequenceSuffix g ulo uhi) fun id =>
        Holding (.exact base reversed) s₀ words id (sequenceWord reversed ulo uhi) := by
  refine .of_keeps keeps_sequenceSuffix ?_
  intro s hs
  obtain ⟨G, -, hfits, -⟩ := hs.fits
  have hrev : s.reversed = reversed := hfits.reversed
  unfold sequenceSuffix
  apply Ensures.after Silent.read
  cases reversed with
  | false =>
    have hall := @allowsAll_forward base _ _ h ulo.length (Nat.le_refl _)
    rw [Nat.sub_self, List.range'_zero, List.map_nil] at hall
    have hfold := @foldlM_holding _ 0 s₀ _ g sound words _ _ _ _ hall s (.inr hs)
    rw [List.map_reverse, List.reverse_reverse, List.append_nil] at hfold
    rw [if_neg (by rw [hrev]; exact Bool.false_ne_true)]
    exact hfold
  | true =>
    have hall := @allowsAll_reversed base _ _ h ulo.length 0 (Nat.zero_add _)
    rw [← List.range_eq_range', List.range_zero, List.map_nil, List.reverse_nil] at hall
    have hfold := @foldlM_holding _ 0 s₀ _ g sound words _ _ _ _ hall s (.inr hs)
    rw [List.append_nil] at hfold
    rw [if_pos hrev]
    exact hfold

/-! ## 80-10FFFF -/

/-- The trie is complete, and the shared suffix `v` starts with instruction `id`. -/
def Sharing (P : Plan) (s₀ : RangeCompiler) (words : Set Word) (id : Nat) (v : Word)
    (s : RangeCompiler) : Prop :=
  ∃ G, G.words = words ∧ Fits P G s.ninst s ∧ Complete P G s₀ s ∧ G.role id = some (.shared v)

/-- In front of the shared suffix `v` at `kept`, the label `a` has been built as `id`. -/
def SharingBehind (P : Plan) (s₀ : RangeCompiler) (words : Set Word) (kept id : Nat) (v : Word)
    (a : Sym) (s : RangeCompiler) : Prop :=
  ∃ G B, G.words = words ∧ Fits P G B s ∧ Complete P G s₀ s ∧
    Chain P G B s.cell s.ninst id (a :: v) ∧ G.role kept = some (.shared v)

theorem uncached_sharing_end (ha : a.Valid) :
    Tries (Event.Ok P.base) (Refused sound) (Resting P s₀ words)
      (uncachedRuneByteSuffix g a.lo a.hi a.fold 0) fun id => Sharing P s₀ words id [a] := by
  refine .of_keeps keeps_uncachedRuneByteSuffix ?_
  intro s hs
  obtain ⟨G, rfl, hfits, hs⟩ := hs.fits
  apply (uncached_end hfits ha).mono
  rintro id s' (hfail | ⟨rfl, hninst, -, hbegin, hfits', hrefines⟩)
  · exact .inl hfail
  · rw [← hninst] at hfits'
    exact .inr ⟨G.addEnd s.ninst a, rfl, hfits', hs.step hfits hrefines rfl hbegin,
      Ghost.role_set_self⟩

theorem uncached_sharing (ha : a.Valid) (hloose : ¬ P.strict) :
    Tries (Event.Ok P.base) (Refused sound) (Sharing P s₀ words id v)
      (uncachedRuneByteSuffix g a.lo a.hi a.fold id) fun id' => Sharing P s₀ words id' (a :: v) := by
  refine .of_keeps keeps_uncachedRuneByteSuffix ?_
  rintro s ⟨G, rfl, hfits, hs, hid⟩
  apply (uncached_shared hfits ha hloose hid).mono
  rintro id' s' (hfail | ⟨G', hwords, hfits', hid', hrefines, hbegin⟩)
  · exact .inl hfail
  · exact .inr ⟨G', hwords, hfits', hs.step hfits hrefines hwords hbegin, hid'⟩

theorem uncached_sharing_behind (ha : a.Valid) (hloose : ¬ P.strict) :
    Tries (Event.Ok P.base) (Refused sound) (Sharing P s₀ words kept v)
      (uncachedRuneByteSuffix g a.lo a.hi a.fold kept)
      fun id => SharingBehind P s₀ words kept id v a := by
  refine .of_keeps keeps_uncachedRuneByteSuffix ?_
  rintro s ⟨G, rfl, hfits, hs, hid⟩
  apply (uncached_ensures ⟨hfits, .inr (.shared hid)⟩ ha fun _ hst => absurd hst hloose).mono
  rintro id' s' (hfail | ⟨G', B, hwords, ⟨hfits', ⟨hnil, -⟩ | hchain⟩, hrefines, hbegin⟩)
  · exact .inl hfail
  · cases hnil
  · exact .inr ⟨G', B, hwords, hfits', hs.step hfits hrefines hwords hbegin, hchain,
      hrefines.role hid⟩

theorem addSuffix_sharing (hlen : v.length < 4) (hcompat : ∀ y ∈ words, P.Compat y (a :: v)) :
    Tries (Event.Ok P.base) (Refused sound) (SharingBehind P s₀ words kept id v a) (addSuffix g id)
      fun _ => Sharing P s₀ (insert (a :: v) words) kept v := by
  refine .of_keeps keeps_addSuffix ?_
  rintro s ⟨G, B, rfl, hfits, hs, hchain, hkept⟩
  apply (addSuffix_ensures hfits hchain hlen hcompat hs).mono
  rintro _ s' (hfail | ⟨G', hG, hwords, hfits', hs'⟩)
  · exact .inl hfail
  · exact .inr ⟨G', hwords, hfits', hs', hG.role hkept⟩

theorem Sharing.resting (h : Sharing P s₀ words id v s) : Resting P s₀ words s := by
  obtain ⟨G, rfl, hfits, hs, -⟩ := h
  exact Resting.of_fits hfits hs

/-- The words that `Add_80_10ffff` adds. -/
def addWide (reversed : Bool) (words : Set Word) : Set Word :=
  if reversed then
    insert [contSym, contSym, contSym, lead4Sym] (insert [contSym, contSym, lead3Sym]
      (insert [contSym, lead2Sym] words))
  else
    insert [lead4Sym, contSym, contSym, contSym] (insert [lead3Sym, contSym, contSym]
      (insert [lead2Sym, contSym] words))

theorem mem_addWide : w ∈ addWide reversed words ↔
    w ∈ words ∨ ∃ u ∈ wideWords, w = if reversed then u.reverse else u := by
  cases reversed with
  | false =>
    simp only [addWide, wideWords, Set.mem_insert_iff, List.mem_cons, List.not_mem_nil, or_false,
      exists_eq_or_imp, exists_eq_left, Bool.false_eq_true, if_false]
    tauto
  | true =>
    simp only [addWide, wideWords, Set.mem_insert_iff, List.mem_cons, List.not_mem_nil, or_false,
      exists_eq_or_imp, exists_eq_left, if_true, List.reverse_cons, List.reverse_nil,
      List.nil_append, List.cons_append]
    tauto

theorem add_80_10ffff_resting (hascii : ∀ y ∈ words, ∃ b : Sym, y = [b] ∧ b.lo < 0x80) :
    Tries (Event.Ok base) (Refused sound) (Resting (.wide base reversed) s₀ words) (add_80_10ffff g)
      fun _ => Resting (.wide base reversed) s₀ (addWide reversed words) := by
  have hcont : contSym.Valid := by decide
  have hlead2 : lead2Sym.Valid := by decide
  have hlead3 : lead3Sym.Valid := by decide
  have hlead4 : lead4Sym.Valid := by decide
  have hwords₁ : ∀ {b : Sym} {w : Word}, 0x80 ≤ b.lo → ∀ y ∈ words,
      (Plan.wide base reversed).Compat y (b :: w) := by
    intro b w hb y hy
    obtain ⟨c, rfl, hc⟩ := hascii y hy
    exact compat_ascii hc hb
  refine .of_keeps keeps_add_80_10ffff ?_
  intro s hs
  obtain ⟨G, -, hfits, -⟩ := hs.fits
  have hrev : s.reversed = reversed := hfits.reversed
  unfold add_80_10ffff
  apply Ensures.after Silent.read
  cases reversed with
  | true =>
    rw [if_pos hrev]
    have hno : ∀ {a : Sym} {v : Word}, v ≠ [] → (Plan.wide base true).strict →
        ¬ (Plan.wide base true).flag (a :: v) := fun _ _ hf => hf
    refine Tries.bind (uncached_holding (a := lead2Sym) hlead2 hno) (fun _ => ?_) s (.inr hs)
    refine .bind (uncached_holding (a := contSym) hcont hno) fun _ => ?_
    refine .bind (addSuffix_resting (by simp) (by simp) ?_) fun _ => ?_
    · exact hwords₁ (by decide)
    refine .bind (uncached_holding (a := lead3Sym) hlead3 hno) fun _ => ?_
    refine .bind (uncached_holding (a := contSym) hcont hno) fun _ => ?_
    refine .bind (uncached_holding (a := contSym) hcont hno) fun _ => ?_
    refine .bind (addSuffix_resting (by simp) (by simp) ?_) fun _ => ?_
    · rintro y (rfl | hy)
      · simp [Plan.Compat, Plan.wide, contSym, lead2Sym]
      · exact hwords₁ (by decide) y hy
    refine .bind (uncached_holding (a := lead4Sym) hlead4 hno) fun _ => ?_
    refine .bind (uncached_holding (a := contSym) hcont hno) fun _ => ?_
    refine .bind (uncached_holding (a := contSym) hcont hno) fun _ => ?_
    refine .bind (uncached_holding (a := contSym) hcont hno) fun _ => ?_
    refine addSuffix_resting (by simp) (by simp) ?_
    rintro y (rfl | rfl | hy)
    · simp [Plan.Compat, Plan.wide, contSym, lead3Sym]
    · simp [Plan.Compat, Plan.wide, contSym, lead2Sym]
    · exact hwords₁ (by decide) y hy
  | false =>
    have hloose : ¬ (Plan.wide base false).strict := Bool.false_ne_true
    rw [if_neg (by rw [hrev]; exact Bool.false_ne_true)]
    refine Tries.bind (uncached_sharing_end (a := contSym) hcont) (fun _ => ?_) s (.inr hs)
    refine .bind (uncached_sharing_behind (a := lead2Sym) hlead2 hloose) fun _ => ?_
    refine .bind (addSuffix_sharing (by simp) ?_) fun _ => ?_
    · exact hwords₁ (by decide)
    refine .bind (uncached_sharing (a := contSym) hcont hloose) fun _ => ?_
    refine .bind (uncached_sharing_behind (a := lead3Sym) hlead3 hloose) fun _ => ?_
    refine .bind (addSuffix_sharing (by simp) ?_) fun _ => ?_
    · rintro y (rfl | hy)
      · simp [Plan.Compat, lead2Sym, lead3Sym]
      · exact hwords₁ (by decide) y hy
    refine .bind (uncached_sharing (a := contSym) hcont hloose) fun _ => ?_
    refine .bind (uncached_sharing_behind (a := lead4Sym) hlead4 hloose) fun _ => ?_
    refine (addSuffix_sharing (by simp) ?_).mono fun _ _ h => h.resting
    rintro y (rfl | rfl | hy)
    · simp [Plan.Compat, lead3Sym, lead4Sym]
    · simp [Plan.Compat, lead2Sym, lead4Sym]
    · exact hwords₁ (by decide) y hy

/-! ## A range -/

theorem turn_union : turn reversed (T ∪ U) = turn reversed T ∪ turn reversed U := by
  cases reversed <;> rfl

/-- Every word so far starts at a rune below `c`, and the words have the texts `T`. -/
def Gathered (P : Plan) (s₀ : RangeCompiler) (c : Nat) (T : Set (List Nat)) (s : RangeCompiler) :
    Prop :=
  ∃ words, Resting P s₀ words s ∧
    (c ≤ 0x10FFFF → ∀ y ∈ words, ∃ r, r < c ∧ P.bytes y = runetochar r) ∧
    ∀ t, (∃ w ∈ words, t ∈ wordTexts w) ↔ t ∈ turn P.reversed T

theorem Gathered.mono (h : Gathered P s₀ c T s) (hc : c ≤ c') : Gathered P s₀ c' T s := by
  obtain ⟨words, hrest, hwords, htexts⟩ := h
  refine ⟨words, hrest, fun hc' y hy => ?_, htexts⟩
  obtain ⟨r, hr, hbytes⟩ := hwords (Nat.le_trans hc hc') y hy
  exact ⟨r, Nat.lt_of_lt_of_le hr hc, hbytes⟩

/-- The suffix of a range is added, whose word starts at `lo` and has the texts `U`. -/
theorem gathered_insert (h : Resting P s₀ (insert w words) s) (hle : lo ≤ hi)
    (hbytes : P.bytes w = runetochar lo)
    (hwords : ∀ y ∈ words, ∃ r, r < lo ∧ P.bytes y = runetochar r)
    (htexts : ∀ t, (∃ w ∈ words, t ∈ wordTexts w) ↔ t ∈ turn P.reversed T)
    (hw : wordTexts w = turn P.reversed U) : Gathered P s₀ (hi + 1) (T ∪ U) s := by
  refine ⟨_, h, fun _ y hy => ?_, fun t => ?_⟩
  · rcases hy with rfl | hy
    · exact ⟨lo, Nat.lt_succ_of_le hle, hbytes⟩
    · obtain ⟨r, hr, hbytes⟩ := hwords y hy
      exact ⟨r, Nat.lt_succ_of_le (Nat.le_trans (Nat.le_of_lt hr) hle), hbytes⟩
  · rw [turn_union, Set.mem_union, ← htexts t, ← hw]
    constructor
    · rintro ⟨y, rfl | hy, ht⟩
      · exact .inr ht
      · exact .inl ⟨y, hy, ht⟩
    · rintro (⟨y, hy, ht⟩ | ht)
      · exact ⟨y, .inr hy, ht⟩
      · exact ⟨w, .inl rfl, ht⟩

/-- A state from which words and their texts are known is entered. -/
theorem tries_of_gathered {α : Type} {x : RangeM α} {Q : α → RangeCompiler → Prop}
    (hkeeps : Keeps (Event.Ok P.base) (Refused sound) x) (hc : c ≤ 0x10FFFF)
    (h : ∀ words, (∀ y ∈ words, ∃ r, r < c ∧ P.bytes y = runetochar r) →
      (∀ t, (∃ w ∈ words, t ∈ wordTexts w) ↔ t ∈ turn P.reversed T) →
      Tries (Event.Ok P.base) (Refused sound) (Resting P s₀ words) x Q) :
    Tries (Event.Ok P.base) (Refused sound) (Gathered P s₀ c T) x Q := by
  refine .of_keeps hkeeps ?_
  rintro s ⟨words, hrest, hwords, htexts⟩
  exact h words (hwords hc) htexts s (.inr hrest)

theorem addRuneRangeUTF8_gathered_ascii (hle : lo ≤ hi) (hhi : hi < 0x80) :
    Tries (Event.Ok P.base) (Refused sound) (Gathered P s₀ lo T) (do
        let id ← uncachedRuneByteSuffix g lo hi f.toNat 0
        addSuffix g id)
      fun _ => Gathered P s₀ (hi + 1) (T ∪ RuneRange.texts .utf8 ⟨lo, hi, f⟩) := by
  have hkeeps : Keeps (Event.Ok P.base) (Refused sound) (do
      let id ← uncachedRuneByteSuffix g lo hi f.toNat 0
      addSuffix g id) := keeps_uncachedRuneByteSuffix.bind fun _ => keeps_addSuffix
  apply tries_of_gathered hkeeps (by omega)
  intro words hwords htexts
  have hvalid : (⟨lo, hi, f.toNat⟩ : Sym).Valid :=
    ⟨by dsimp only; omega, by dsimp only; omega, f.toNat_lt⟩
  have hbytes : P.bytes [⟨lo, hi, f.toNat⟩] = runetochar lo := by
    rw [bytes_ascii, runetochar_one (by omega)]
  have hcompat : ∀ y ∈ words, P.Compat y [⟨lo, hi, f.toNat⟩] := by
    intro y hy
    obtain ⟨r, hr, hry⟩ := hwords y hy
    rw [runetochar_one (by omega)] at hry
    obtain ⟨b, rfl, hb⟩ := bytes_singleton hry
    intro heq
    rw [heq] at hb
    exact absurd (hb : lo = r) (Nat.ne_of_gt hr)
  have hw : wordTexts [⟨lo, hi, f.toNat⟩] =
      turn P.reversed (RuneRange.texts .utf8 ⟨lo, hi, f⟩) := by
    rw [texts_ascii hhi, wordTexts_single]
    exact turn_bytes.symm
  have hbuild := @uncached_holding P 0 s₀ [] ⟨lo, hi, f.toNat⟩ g sound words hvalid fun hne =>
    absurd rfl hne
  refine hbuild.bind fun id => ?_
  exact (addSuffix_resting (by simp) (by simp) hcompat).mono fun _ _ h =>
    gathered_insert h hle hbytes hwords htexts hw

theorem addRuneRangeUTF8_gathered_sequence (hle : lo ≤ hi) (hmin : 0x80 ≤ hi)
    (hmax : hi ≤ 0x10FFFF) (hwide : ¬ (lo ≤ 0x80 ∧ hi = 0x10FFFF))
    (hlen : splitLength lo hi = none) (hbytes : splitBytes lo hi = none) :
    Tries (Event.Ok base) (Refused sound) (Gathered (.exact base reversed) s₀ lo T) (do
        let id ← sequenceSuffix g (runetochar lo) (runetochar hi)
        addSuffix g id)
      fun _ => Gathered (.exact base reversed) s₀ (hi + 1)
        (T ∪ RuneRange.texts .utf8 ⟨lo, hi, f⟩) := by
  have hranges := ranges_runetochar hle hmax hmin hlen hbytes
  have hkeeps : Keeps (Event.Ok base) (Refused sound) (do
      let id ← sequenceSuffix g (runetochar lo) (runetochar hi)
      addSuffix g id) := keeps_sequenceSuffix.bind fun _ => keeps_addSuffix
  have hword := @bytes_sequenceWord base (runetochar lo) (runetochar hi) reversed
  have hlo : 0x80 ≤ lo := by
    have := splitLength_none hlen
    omega
  have hw : wordTexts (sequenceWord reversed (runetochar lo) (runetochar hi)) =
      turn reversed (RuneRange.texts .utf8 ⟨lo, hi, f⟩) := by
    rw [texts_long hlo hwide, ← wordTexts_sequence hle hmax hmin hlen hbytes]
    exact wordTexts_turn
  apply tries_of_gathered hkeeps (by omega)
  intro words hwords htexts
  have hcompat : ∀ y ∈ words, (Plan.exact base reversed).Compat y
      (sequenceWord reversed (runetochar lo) (runetochar hi)) := by
    intro y hy
    obtain ⟨r, hr, hry⟩ := hwords y hy
    exact compat_exact (by omega) (Nat.le_trans hle hmax) (Nat.ne_of_lt hr) hry hword
  have hlength := @length_sequenceWord (runetochar lo) (runetochar hi) reversed
  refine .bind (sequenceSuffix_holding hranges) fun id => ?_
  refine (addSuffix_resting ?_ ?_ hcompat).mono fun _ _ h =>
    gathered_insert h hle hword hwords htexts hw
  · intro hnil
    rw [hnil] at hlength
    have := hranges.two_le
    rw [← hlength] at this
    simp at this
  · rw [hlength]
    exact hranges.le_four

theorem addRuneRangeUTF8_gathered_wide :
    Tries (Event.Ok base) (Refused sound) (Gathered (.wide base reversed) s₀ 0x80 T) (add_80_10ffff g)
      fun _ => Gathered (.wide base reversed) s₀ (0x10FFFF + 1)
        (T ∪ RuneRange.texts .utf8 ⟨0x80, 0x10FFFF, f⟩) := by
  apply tries_of_gathered keeps_add_80_10ffff (by omega)
  intro words hwords htexts
  have hascii : ∀ y ∈ words, ∃ b : Sym, y = [b] ∧ b.lo < 0x80 := by
    intro y hy
    obtain ⟨r, hr, hry⟩ := hwords y hy
    rw [runetochar_one (by omega)] at hry
    obtain ⟨b, rfl, rfl⟩ := bytes_singleton hry
    exact ⟨b, rfl, hr⟩
  refine (add_80_10ffff_resting hascii).mono fun _ s hs =>
    ⟨_, hs, fun hc => absurd hc (by decide), fun t => ?_⟩
  have hturn : ∀ t, t ∈ turn reversed {w | WideText w} ↔
      ∃ u ∈ wideWords, t ∈ wordTexts (if reversed then u.reverse else u) := by
    intro t
    simp only [wordTexts_turn]
    cases reversed with
    | false => exact wordTexts_wide.symm
    | true => exact wordTexts_wide.symm
  rw [texts_wide, turn_union, Set.mem_union, ← htexts t]
  refine Iff.trans ?_ (or_congr_right (hturn t).symm)
  constructor
  · rintro ⟨w, hw, ht⟩
    rcases mem_addWide.1 hw with hw | ⟨u, hu, rfl⟩
    · exact .inl ⟨w, hw, ht⟩
    · exact .inr ⟨u, hu, ht⟩
  · rintro (⟨w, hw, ht⟩ | ⟨u, hu, ht⟩)
    · exact ⟨w, mem_addWide.2 (.inl hw), ht⟩
    · exact ⟨_, mem_addWide.2 (.inr ⟨u, hu, rfl⟩), ht⟩

theorem addRuneRangeUTF8_gathered (lo hi fold : Nat) (hle : lo ≤ hi) (hmax : hi ≤ 0x10FFFF)
    (hfold : fold = f.toNat) (hP : P.Covers lo hi) :
    Tries (Event.Ok P.base) (Refused sound) (Gathered P s₀ lo T) (addRuneRangeUTF8 g lo hi fold)
      fun _ => Gathered P s₀ (hi + 1) (T ∪ RuneRange.texts .utf8 ⟨lo, hi, f⟩) := by
  fun_induction addRuneRangeUTF8 g lo hi fold generalizing T with
  | case1 lo hi hlt => omega
  | case2 lo hi _ hwide =>
    obtain ⟨rfl, rfl⟩ := hwide
    rcases hP with ⟨base, reversed, rfl, hno⟩ | ⟨base, reversed, rfl, -⟩
    · exact absurd ⟨Nat.le_refl _, rfl⟩ hno
    · exact addRuneRangeUTF8_gathered_wide
  | case3 lo hi _ _ mid hmid ih1 ih2 =>
    obtain ⟨hlo, hhi⟩ := splitLength_bounds hmid
    have hwide : hi = 0x10FFFF → lo ≤ 0x80 → mid = 0x7F := by
      intro hhi' hlo'
      rw [splitLength_wide (by omega) (by omega)] at hmid
      exact (Option.some.inj hmid).symm
    obtain ⟨hP1, hP2⟩ := hP.split hlo hhi hmax hwide
    rw [texts_split hlo hhi hmax hwide, ← Set.union_assoc]
    exact (ih1 hlo (by omega) hP1).bind fun _ => ih2 (by omega) hmax hP2
  | case4 lo hi _ _ _ hhi =>
    rw [hfold]
    exact addRuneRangeUTF8_gathered_ascii hle hhi
  | case5 lo hi _ hwide hlen hmin mid hmid ih1 ih2 =>
    obtain ⟨hlo, hhi⟩ := splitBytes_bounds hle hmid
    have hno := not_wide hwide hlen
    have hsplit : hi = 0x10FFFF → lo ≤ 0x80 → mid = 0x7F := fun h h' => absurd ⟨h', h⟩ hno
    obtain ⟨hP1, hP2⟩ := hP.split hlo hhi hmax hsplit
    rw [texts_split hlo hhi hmax hsplit, ← Set.union_assoc]
    exact (ih1 hlo (by omega) hP1).bind fun _ => ih2 (by omega) hmax hP2
  | case6 lo hi _ hwide hlen hmin hbytes =>
    have hno := not_wide hwide hlen
    rcases hP with ⟨base, reversed, rfl, -⟩ | ⟨base, reversed, rfl, hc⟩
    · exact addRuneRangeUTF8_gathered_sequence hle (by omega) hmax hno hlen hbytes
    · exact absurd (hc.resolve_left hmin) hno

/-! ## A class -/

theorem ranges_gathered {ranges : List RuneRange} (h : ClassRanges ranges)
    (hc : ∀ r ∈ ranges, c ≤ r.lo) (hP : ∀ r ∈ ranges, P.Covers r.lo r.hi) :
    Tries (Event.Ok P.base) (Refused sound) (Gathered P s₀ c T)
      (ranges.forM fun r => addRuneRangeUTF8 g r.lo r.hi r.fold.toNat)
      fun _ s => ∃ c', Gathered P s₀ c' (T ∪ {w | ∃ r ∈ ranges, w ∈ r.texts .utf8}) s := by
  induction ranges generalizing c T with
  | nil =>
    refine .pure fun s hs => ⟨c, ?_⟩
    have hnone : {w | ∃ r ∈ ([] : List RuneRange), w ∈ r.texts .utf8} = ∅ := by simp
    rwa [hnone, Set.union_empty]
  | cons r ranges ih =>
    obtain ⟨⟨hle, hmax⟩, hbounds⟩ := List.forall_mem_cons.1 h.bounds
    obtain ⟨hlt, hsorted⟩ := List.pairwise_cons.1 h.sorted
    obtain ⟨hcr, -⟩ := List.forall_mem_cons.1 hc
    obtain ⟨hPr, hPrest⟩ := List.forall_mem_cons.1 hP
    have hrange := @addRuneRangeUTF8_gathered P g s₀ T r.fold sound r.lo r.hi r.fold.toNat hle hmax rfl hPr
    have hsplit : T ∪ {w | ∃ r' ∈ r :: ranges, w ∈ r'.texts .utf8} =
        T ∪ r.texts .utf8 ∪ {w | ∃ r' ∈ ranges, w ∈ r'.texts .utf8} := by
      rw [Set.union_assoc]
      congr 1
      ext w
      simp
    rw [hsplit]
    refine Tries.bind (hrange.weaken fun s hs => hs.mono hcr) fun _ => ?_
    exact ih ⟨hbounds, hsorted⟩ (fun r' hr' => hlt r' hr') hPrest

theorem beginRange_gathered (hinv : Inv s.toCompiler) (hpos : 0 < s.ninst) (hf : s.failed = false)
    (hbase : P.base = s.ninst) (hrev : P.reversed = s.reversed) :
    Gathered P s 0 ∅ { s with runeCache := fun _ => none, runeRange := ⟨0, .null⟩ } := by
  have hfits := fits_beginRange hinv hpos hf hbase hrev
  have hcomplete : Complete P ⟨fun _ => none, ∅, []⟩ s
      { s with runeCache := fun _ => none, runeRange := ⟨0, .null⟩ } :=
    ⟨fun hr => (by cases hr), fun _ _ => rfl, fun _ => rfl, fun w hw => absurd hw (Set.notMem_empty w)⟩
  refine ⟨∅, Resting.of_fits hfits hcomplete, fun _ y hy => absurd hy (Set.notMem_empty y),
    fun t => ?_⟩
  cases P.reversed <;> simp [turn]

end

/-! ## The instruction array -/

/-- What holds behind `EndRange`: the instructions in use are below `ninst_`, and what is above it
is zero. -/
structure Settled (base : Nat) (s : RangeCompiler) : Prop where
  base_le : base ≤ s.ninst
  live : ∀ x, s.Live x → x < s.ninst
  zero : ∀ i, s.ninst ≤ i → i < s.inst.length → s.inst[i]? = some Inst.zero

/-- Whatever the state of the allocator and its limit, and whatever indeterminate memory holds:
between `BeginRange` and `EndRange`, an instruction that is given back is the last one, not older
than the class, and not in use. So none that is handed out is in use, and every slot from it on is
zero. Instruction 0 is the fail instruction of the constructor. -/
theorem addClass_ok {s : RangeCompiler} (g : Compiler → Garbage) (hs : Reachable s.toCompiler)
    (hpos : 0 < s.ninst) {ranges : List RuneRange} (hranges : ClassRanges ranges) :
    (∀ e ∈ ((addClass g ranges).run s).log, e.Ok s.ninst) ∧
      (((addClass g ranges).run s).val.2.failed = true ∨
        Settled s.ninst ((addClass g ranges).run s).val.2) := by
  have hinv := Inv.of_reachable hs
  obtain ⟨P, hbase, hrev, hP⟩ := exists_plan hranges s.ninst s.reversed
  have hclass : Ensures (Event.Ok s.ninst) (addClass g ranges) s fun _ s' =>
      s'.failed = true ∨ Settled s.ninst s' := by
    unfold addClass
    apply Ensures.after Silent.write
    have hstart : Refused (s.failed = false)
          { s with runeCache := fun _ => none, runeRange := ⟨0, .null⟩ } ∨
        Gathered P s 0 ∅ { s with runeCache := fun _ => none, runeRange := ⟨0, .null⟩ } := by
      cases hf : s.failed with
      | true => exact .inl ⟨hf, fun hsound => by cases hsound⟩
      | false => exact .inr (beginRange_gathered hinv hpos hf hbase hrev)
    have hrun := ranges_gathered (g := g) hranges (fun r _ => Nat.zero_le r.lo) hP _ hstart
    rw [hbase] at hrun
    apply hrun.bind
    rintro _ s' (hrefused | ⟨c, words, hrest, -⟩)
    · exact .of_silent (Silent.read.bind .pure) (.inl hrefused.failed)
    · obtain ⟨G, -, hfits, -⟩ := hrest.fits
      have hsettled : Settled s.ninst s' :=
        ⟨hbase ▸ hfits.base, fun x hx => hfits.live_lt hx, hfits.inv.clear⟩
      exact .of_silent (Silent.read.bind .pure) (.inr hsettled)
  exact ⟨hclass.log, hclass.val⟩

def Event.isRelease : Event → Bool
  | release _ _ => true
  | _ => false

def sampleCompiler : RangeCompiler where
  toCompiler := step (.new sampleGarbage) (.setMaxNinst 100)
  reversed := false
  runeCache := fun _ => none
  runeRange := ⟨0, .null⟩

/-- Two ranges with the same first byte, which is given back once. -/
def sampleClass : List RuneRange := [⟨0xE0, 0xE1, false⟩, ⟨0xE4, 0xE5, false⟩]

theorem addClass_ok_sample :
    Reachable sampleCompiler.toCompiler ∧ ClassRanges sampleClass ∧
      ((addClass (fun _ => sampleGarbage) sampleClass).run sampleCompiler).log.countP
        Event.isRelease = 1 ∧
      (∀ e ∈ ((addClass (fun _ => sampleGarbage) sampleClass).run sampleCompiler).log,
        e.Ok sampleCompiler.ninst) ∧
      Settled sampleCompiler.ninst
        ((addClass (fun _ => sampleGarbage) sampleClass).run sampleCompiler).val.2 := by
  have hlimit : (Op.setMaxNinst 100).Allowed (.new sampleGarbage) := by
    change (100 : Int) ≤ 2 ^ 24
    decide
  have hs : Reachable sampleCompiler.toCompiler := .inr ⟨sampleGarbage, .step .refl hlimit⟩
  have hranges : ClassRanges sampleClass := ⟨by decide, by decide⟩
  have hnotFailed : ((addClass (fun _ => sampleGarbage) sampleClass).run
      sampleCompiler).val.2.failed ≠ true := by decide +kernel
  have hok := addClass_ok (fun _ => sampleGarbage) hs (by decide +kernel) hranges
  exact ⟨hs, hranges, by decide +kernel, hok.1, hok.2.resolve_left hnotFailed⟩

end FourFuzzers.Re2
