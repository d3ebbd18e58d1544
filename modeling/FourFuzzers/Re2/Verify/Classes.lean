import FourFuzzers.Re2.Verify.Literals
import FourFuzzers.Re2.Verify.Range

/-!
# Character classes

The ranges that are added for a class have its texts, whatever the case-folding optimization leaves
out. In Latin-1 a class is a chain of alternatives, which grows by one byte range at a time.
-/

namespace FourFuzzers.Re2

open FourFuzzers.Lib FourFuzzers.Lib.Traced FourFuzzers.Lib.Stateful

/-! ## The texts of a range -/

/-- The largest rune of one byte. -/
def Encoding.maxByte : Encoding → Nat
  | utf8 => 0x7F
  | latin1 => 0xFF

/-- The texts of two and more bytes of the runes from `lo` to `hi`. -/
def longTexts (enc : Encoding) (lo hi : Nat) : Set (List Nat) :=
  match enc with
  | .latin1 => ∅
  | .utf8 =>
    if lo ≤ 0x80 ∧ hi = 0x10FFFF then {w | WideText w}
    else {w | ∃ r, w = runetochar r ∧ 0x80 ≤ r ∧ lo ≤ r ∧ r ≤ hi}

/-- The texts that a range is compiled to. -/
def RuneRange.texts (enc : Encoding) (r : RuneRange) : Set (List Nat) :=
  byteTexts ⟨r.lo, min r.hi enc.maxByte, r.fold.toNat⟩ ∪ longTexts enc r.lo r.hi

section

variable {enc : Encoding} {lo hi c : Nat} {w : List Nat} {cc : CharClass}

theorem mem_rangeTexts : w ∈ rangeTexts enc lo hi ↔
    (∃ c, w = [c] ∧ lo ≤ c ∧ c ≤ min hi enc.maxByte) ∨ w ∈ longTexts enc lo hi := by
  unfold rangeTexts longTexts
  cases enc with
  | latin1 => simp [Encoding.maxByte]
  | utf8 =>
    dsimp only [Encoding.maxByte]
    split
    next hwide =>
      simp only [Set.mem_ofPred_eq, hwide.2]
      rw [or_comm]
      refine or_congr_left (exists_congr fun c => and_congr_right fun _ => ?_)
      omega
    next =>
      constructor
      · rintro ⟨r, rfl, hlo, hhi⟩
        by_cases hr : r ≤ 0x7F
        · exact .inl ⟨r, runetochar_one hr, hlo, Nat.le_min.2 ⟨hhi, hr⟩⟩
        · exact .inr ⟨r, rfl, by omega, hlo, hhi⟩
      · rintro (⟨c, rfl, hlo, hhi⟩ | ⟨r, rfl, -, hlo, hhi⟩)
        · obtain ⟨hhi, hc⟩ := Nat.le_min.1 hhi
          exact ⟨c, (runetochar_one hc).symm, hlo, hhi⟩
        · exact ⟨r, rfl, hlo, hhi⟩

/-! ## Case folding -/

theorem Inst.foldByte_true : foldByte true.toNat c = if 0x41 ≤ c ∧ c ≤ 0x5A then c + 32 else c := by
  simp [foldByte]

theorem Inst.foldByte_false : foldByte false.toNat c = c := by
  simp [foldByte]

/-- The ranges that stay, each with its flag. -/
theorem CharClass.mem_foldRanges {r : RuneRange} : r ∈ cc.foldRanges ↔
    (r.lo, r.hi) ∈ cc.ranges ∧ ¬ (cc.foldsAscii = true ∧ 0x41 ≤ r.lo ∧ r.hi ≤ 0x5A) ∧
      (r.fold = true ↔ cc.foldsAscii = true ∧ ¬ ((r.lo ≤ 0x41 ∧ 0x7A ≤ r.hi) ∨ r.hi < 0x41 ∨
        0x7A < r.lo ∨ (0x5A < r.lo ∧ r.hi < 0x61))) := by
  obtain ⟨lo, hi, fold⟩ := r
  have hkept : ∀ lo hi, (!(cc.foldsAscii && decide (0x41 ≤ lo) && decide (hi ≤ 0x5A))) = true ↔
      ¬ (cc.foldsAscii = true ∧ 0x41 ≤ lo ∧ hi ≤ 0x5A) := fun lo hi => by
    rw [Bool.not_eq_true', ← Bool.not_eq_true, Bool.and_eq_true, Bool.and_eq_true,
      decide_eq_true_iff, decide_eq_true_iff, and_assoc]
  unfold foldRanges
  simp only [List.mem_map, List.mem_filter, Prod.exists, RuneRange.mk.injEq, hkept]
  constructor
  · rintro ⟨lo, hi, ⟨hmem, hkept⟩, rfl, rfl, rfl⟩
    refine ⟨hmem, hkept, ?_⟩
    rw [Bool.and_eq_true, Bool.not_eq_true', decide_eq_false_iff_not]
  · rintro ⟨hmem, hkept, hfold⟩
    refine ⟨lo, hi, ⟨hmem, hkept⟩, rfl, rfl, ?_⟩
    rw [Bool.eq_iff_iff, hfold, Bool.and_eq_true, Bool.not_eq_true', decide_eq_false_iff_not]

/-- A byte that a class admits is admitted by one of the ranges that stay. -/
theorem CharClass.foldRanges_byte {m : Nat} (hm : 0x7F ≤ m) :
    (∃ r ∈ cc.foldRanges, r.lo ≤ Inst.foldByte r.fold.toNat c ∧
      Inst.foldByte r.fold.toNat c ≤ min r.hi m) ↔ InRanges cc.ranges c ∧ c ≤ m := by
  constructor
  · rintro ⟨⟨lo, hi, fold⟩, hr, hlo, hhi⟩
    obtain ⟨hmem, -, hfold⟩ := mem_foldRanges.1 hr
    obtain ⟨hhi, hle⟩ := Nat.le_min.1 hhi
    cases fold with
    | false =>
      rw [Inst.foldByte_false] at hlo hhi hle
      exact ⟨⟨_, hmem, hlo, hhi⟩, hle⟩
    | true =>
      rw [Inst.foldByte_true] at hlo hhi hle
      split at hlo
      next hupper =>
        rw [if_pos hupper] at hhi
        exact ⟨(cc.folds (hfold.1 rfl).1 c hupper.1 hupper.2).2 ⟨_, hmem, hlo, hhi⟩, by omega⟩
      next hupper =>
        rw [if_neg hupper] at hhi hle
        exact ⟨⟨_, hmem, hlo, hhi⟩, hle⟩
  · rintro ⟨hin, hle⟩
    by_cases hcase : cc.foldsAscii = true ∧ 0x41 ≤ c ∧ c ≤ 0x5A
    · -- the range of the lower-case letter stays
      obtain ⟨hfolds, hupper⟩ := hcase
      obtain ⟨⟨lo, hi⟩, hmem, hlo, hhi⟩ := (cc.folds hfolds c hupper.1 hupper.2).1 hin
      by_cases hplain : lo ≤ 0x41 ∧ 0x7A ≤ hi
      · refine ⟨⟨lo, hi, false⟩, mem_foldRanges.2 ⟨hmem, ?_, ?_⟩, ?_⟩
        · dsimp only at *
          omega
        · simp [hplain]
        · rw [Inst.foldByte_false]
          dsimp only at *
          omega
      · refine ⟨⟨lo, hi, true⟩, mem_foldRanges.2 ⟨hmem, ?_, ?_⟩, ?_⟩
        · dsimp only at *
          omega
        · dsimp only at *
          refine iff_of_true rfl ⟨hfolds, ?_⟩
          omega
        · rw [Inst.foldByte_true, if_pos hupper]
          dsimp only at *
          omega
    · obtain ⟨⟨lo, hi⟩, hmem, hlo, hhi⟩ := hin
      have hsame : ∀ fold : Bool, fold = true → cc.foldsAscii = true →
          Inst.foldByte fold.toNat c = c := by
        rintro _ rfl hfolds
        rw [Inst.foldByte_true, if_neg fun hupper => hcase ⟨hfolds, hupper⟩]
      by_cases hfold : cc.foldsAscii = true ∧ ¬ ((lo ≤ 0x41 ∧ 0x7A ≤ hi) ∨ hi < 0x41 ∨
          0x7A < lo ∨ (0x5A < lo ∧ hi < 0x61))
      · refine ⟨⟨lo, hi, true⟩, mem_foldRanges.2 ⟨hmem, ?_, by simpa using hfold⟩, ?_⟩
        · rintro ⟨hfolds, h⟩
          dsimp only at *
          exact hcase ⟨hfolds, by omega⟩
        · rw [hsame true rfl hfold.1]
          exact ⟨hlo, Nat.le_min.2 ⟨hhi, hle⟩⟩
      · refine ⟨⟨lo, hi, false⟩, mem_foldRanges.2 ⟨hmem, ?_, by simpa using hfold⟩, ?_⟩
        · rintro ⟨hfolds, h⟩
          dsimp only at *
          exact hcase ⟨hfolds, by omega⟩
        · rw [Inst.foldByte_false]
          exact ⟨hlo, Nat.le_min.2 ⟨hhi, hle⟩⟩

/-- The ranges that stay have the longer texts of the class. -/
theorem CharClass.foldRanges_long :
    (∃ r ∈ cc.foldRanges, w ∈ longTexts enc r.lo r.hi) ↔
      ∃ s ∈ cc.ranges, w ∈ longTexts enc s.1 s.2 := by
  constructor
  · rintro ⟨r, hr, hw⟩
    exact ⟨_, (mem_foldRanges.1 hr).1, hw⟩
  · rintro ⟨⟨lo, hi⟩, hmem, hw⟩
    have hhi : 0x5A < hi := by
      unfold longTexts at hw
      cases enc with
      | latin1 => exact hw.elim
      | utf8 =>
        dsimp only at hw
        split at hw
        next hwide => omega
        next =>
          obtain ⟨r, -, h80, -, hle⟩ := hw
          omega
    let fold := decide (cc.foldsAscii = true ∧ ¬ ((lo ≤ 0x41 ∧ 0x7A ≤ hi) ∨ hi < 0x41 ∨
      0x7A < lo ∨ (0x5A < lo ∧ hi < 0x61)))
    refine ⟨⟨lo, hi, fold⟩, mem_foldRanges.2 ⟨hmem, ?_, decide_eq_true_iff⟩, hw⟩
    dsimp only
    omega

/-- The ranges that are added for a class have its texts. -/
theorem CharClass.foldRanges_texts :
    {w | ∃ r ∈ cc.foldRanges, w ∈ r.texts enc} = classTexts enc cc.ranges := by
  have hm : 0x7F ≤ enc.maxByte := by cases enc <;> decide
  ext w
  have hbyte : (∃ r ∈ cc.foldRanges, w ∈ byteTexts ⟨r.lo, min r.hi enc.maxByte, r.fold.toNat⟩) ↔
      ∃ s ∈ cc.ranges, ∃ c, w = [c] ∧ s.1 ≤ c ∧ c ≤ min s.2 enc.maxByte := by
    constructor
    · rintro ⟨r, hr, c, rfl, hc⟩
      obtain ⟨⟨s, hs, hlo, hhi⟩, hle⟩ := (foldRanges_byte hm).1 ⟨r, hr, hc⟩
      exact ⟨s, hs, c, rfl, hlo, Nat.le_min.2 ⟨hhi, hle⟩⟩
    · rintro ⟨s, hs, c, rfl, hlo, hhi⟩
      obtain ⟨hhi, hle⟩ := Nat.le_min.1 hhi
      obtain ⟨r, hr, hc⟩ := (foldRanges_byte hm).2 ⟨⟨s, hs, hlo, hhi⟩, hle⟩
      exact ⟨r, hr, c, rfl, hc⟩
  change (∃ r ∈ cc.foldRanges, _ ∨ _) ↔ ∃ s ∈ cc.ranges, w ∈ rangeTexts enc s.1 s.2
  simp only [and_or_left, exists_or, mem_rangeTexts]
  exact or_congr hbyte foldRanges_long

end

/-- A range that is not folded. -/
theorem RuneRange.texts_false {enc : Encoding} {lo hi : Nat} :
    texts enc ⟨lo, hi, false⟩ = rangeTexts enc lo hi := by
  ext w
  rw [mem_rangeTexts]
  refine or_congr_left (exists_congr fun c => and_congr_right fun _ => ?_)
  rw [Inst.foldByte_false]

/-- The ranges that are added for a class are those of a class. -/
theorem CharClass.foldRanges_class (cc : CharClass) : ClassRanges cc.foldRanges where
  bounds _ hr := cc.bounds _ (mem_foldRanges.1 hr).1
  sorted := List.pairwise_map.2 (cc.sorted.filter _)

/-! ## Latin-1 -/

section

variable {s s' : RangeCompiler} {g : Compiler → Garbage} {T U : Set (List Nat)}

theorem Lang.spell_alt : (Lang.spell T).alt (.spell U) = .spell (T ∪ U) := by
  apply Lang.ext
  intro text p e p'
  constructor
  · rintro (⟨he, w, hw, h⟩ | ⟨he, w, hw, h⟩)
    · exact ⟨he, w, .inl hw, h⟩
    · exact ⟨he, w, .inr hw, h⟩
  · rintro ⟨he, w, hw | hw, h⟩
    · exact .inl ⟨he, w, hw, h⟩
    · exact .inr ⟨he, w, hw, h⟩

theorem Lang.spell_empty : Lang.spell ∅ = .none := by
  apply Lang.ext
  rintro text p e p'
  exact ⟨fun ⟨_, _, hw, _⟩ => hw, False.elim⟩

/-- `rune_range_` has the texts `T`. -/
def Collected (T : Set (List Nat)) (s s' : RangeCompiler) : Prop :=
  Yields ∅ (.spell T) s ⟨s'.runeRange, false⟩ s'

theorem beginRange_collected (hs : Good s) :
    ∃ s', Silent beginRange s ⟨⟩ s' ∧ Collected ∅ s s' := by
  have hs' : Good { s with runeCache := fun _ => none, runeRange := ⟨0, .null⟩ } :=
    ⟨hs.inv, hs.failed, hs.pos, hs.fail⟩
  refine ⟨_, Silent.write, ∅, by simp, ⟨hs', Nat.le_refl _, rfl, fun _ _ _ => rfl⟩, ?_⟩
  rw [Lang.spell_empty]
  exact realizes_noMatch hs'.fail

/-- A fragment is on the patch list, but not in the range yet. -/
structure Pending (T U : Set (List Nat)) (id : Nat) (own : Set Nat) (holes : List Nat)
    (s s' : RangeCompiler) : Prop where
  own_new : ∀ x ∈ own, x < s'.ninst ∧ s.ninst ≤ x
  step : Step ∅ s s'
  range : Wired s'.cell own holes s'.runeRange
  wired : Wired s'.cell own holes ⟨id, s'.runeRange.ends⟩
  texts : Denotes s'.cell holes s'.runeRange.begin (.spell T)
  new : Denotes s'.cell holes id (.spell U)
  nonempty : [] ∉ T ∪ U

theorem Lang.not_mem_nil (h : ∀ text p, ¬ Lang.spell T text p .none p) : [] ∉ T := fun hmem =>
  h [] 0 ⟨rfl, [], hmem, List.nil_prefix, rfl⟩

theorem Lang.not_spell (h : [] ∉ T) (text : List Nat) (p : Nat) :
    ¬ Lang.spell T text p .none p := by
  rintro ⟨-, w, hw, -, hlen⟩
  rw [List.eq_nil_of_length_eq_zero (show w.length = 0 by omega)] at hw
  exact h hw

theorem not_mem_byteTexts {c : Sym} : [] ∉ byteTexts c := fun ⟨_, h, _⟩ =>
  List.cons_ne_nil _ _ h.symm

/-- `UncachedRuneByteSuffix` with nothing behind it. -/
theorem uncached_pending {c : Sym} {s₀ : RangeCompiler} (hc : c.Valid) (h : Collected T s₀ s) :
    Ensures Event.Fueled (uncachedRuneByteSuffix g c.lo c.hi c.fold 0) s fun id s' =>
      Refused True s' ∨ ∃ own holes, Pending T (byteTexts c) id own holes s₀ s' := by
  obtain ⟨A, hA, hstep, hsa, wa, da, na⟩ := h
  have hs := hstep.good
  unfold uncachedRuneByteSuffix
  apply (byteRange_builds (W := ∅) hs hc).bind
  intro f s₁ hf
  rw [if_neg (by simp)]
  apply Ensures.after Silent.read
  rcases hf with ⟨rfl, hfail⟩ | ⟨⟨B, hB, hstep', hf⟩, hrange⟩
  · apply Ensures.after Silent.append_null
    apply Ensures.after Silent.write
    exact .pure (.inl (hfail.congr rfl))
  have hA' : ∀ x ∈ A, x < s.ninst := fun x hx => (hA x hx).1
  have hA₁ : ∀ x ∈ A, x < s₁.ninst := fun x hx => Nat.lt_of_lt_of_le (hA' x hx) hstep'.ninst
  have hdisj : Disjoint A B := Set.disjoint_left.2 fun x hx hx' => (hB x hx').2 (hA' x hx)
  obtain ⟨hsa', wa', da', -⟩ := hstep'.realizes hs ⟨hsa, wa, da, na⟩ hA' (Set.empty_disjoint A)
    (Set.notMem_empty 0)
  obtain ⟨hsb, wb, db, -⟩ := hf
  obtain ⟨ends, s₂, hrun, hrew, wa₂, wb₂, da₂, db₂⟩ := append_parts hstep'.good wa' da' wb db hA₁
    (fun x hx => (hB x hx).1) hdisj
  rw [← hrange] at hrun wa₂ da₂
  rw [← hrew.range] at wa₂ da₂
  apply Ensures.after hrun
  apply Ensures.after Silent.write
  have hstep₂ := (hstep.trans hstep' fun x hx => absurd hx (Set.notMem_empty x)).trans
    (hrew.step (W := A) hstep'.good fun r hr => (wa'.hole r hr).1) (W := ∅)
    fun x hx hlt => (hA x hx).2 hlt
  refine .pure (.inr ⟨A ∪ B, hsa' ++ hsb, ?_, ?_, wa₂, wb₂, da₂, db₂, ?_⟩)
  · rintro x (hx | hx)
    · exact ⟨hrew.ninst ▸ hA₁ x hx, Nat.le_of_not_lt (hA x hx).2⟩
    · exact ⟨hrew.ninst ▸ (hB x hx).1, Nat.le_trans hstep.ninst (Nat.le_of_not_lt (hB x hx).2)⟩
  · exact ⟨⟨hstep₂.good.inv, hstep₂.good.failed, hstep₂.good.pos, hstep₂.good.fail⟩, hstep₂.ninst,
      hstep₂.reversed, hstep₂.cell⟩
  · rintro (hmem | hmem)
    · exact Lang.not_mem_nil (na rfl) hmem
    · exact not_mem_byteTexts hmem

/-- `AddSuffix` -/
theorem addSuffixLatin1_collected {id : Nat} {own : Set Nat} {holes : List Nat}
    {s₀ : RangeCompiler} (h : Pending T U id own holes s₀ s) :
    Ensures Event.Fueled (addSuffixLatin1 g id) s fun _ s' =>
      Refused True s' ∨ Collected (T ∪ U) s₀ s' := by
  have hs := h.step.good
  have hnew : ∀ x ∈ own, x < s.ninst ∧ (x < s₀.ninst → x ∈ (∅ : Set Nat)) := fun x hx =>
    ⟨(h.own_new x hx).1, fun hlt => absurd (h.own_new x hx).2 (Nat.not_le.2 hlt)⟩
  unfold addSuffixLatin1
  apply Ensures.after Silent.read
  rw [if_neg (by rw [hs.failed]; decide)]
  by_cases h0 : s.runeRange.begin = 0
  · have hT : Lang.spell T = .none := by
      have htexts := h.texts
      rw [h0] at htexts
      exact htexts.unique (denotes_fail hs.fail)
    rw [if_pos h0]
    apply Ensures.of_silent Silent.write
    refine .inr ⟨own, hnew, ⟨⟨hs.inv, hs.failed, hs.pos, hs.fail⟩, h.step.ninst, h.step.reversed,
      h.step.cell⟩, holes, h.wired, ?_, fun _ => Lang.not_spell h.nonempty⟩
    rw [← Lang.spell_alt, hT, Lang.none_alt]
    exact h.new
  rw [if_neg h0]
  apply (alloc_fueled hs).bind
  rintro x s₁ (⟨hneg, hfail⟩ | ⟨rfl, hg⟩)
  · rw [if_pos hneg]
    exact .of_silent Silent.write (.inl (hfail.congr rfl))
  rw [if_neg (by omega), Int.toNat_natCast]
  apply Ensures.after Silent.update
  have hfresh := hs.fresh hg (F := (·.initAlt s.runeRange.begin id))
  have hrange : (s₁.modify s.ninst (·.initAlt s.runeRange.begin id)).runeRange = s.runeRange :=
    hg.range
  generalize s₁.modify s.ninst (·.initAlt s.runeRange.begin id) = s₂ at hfresh hrange ⊢
  have hs₂ := hfresh.good
  have hcell : ∀ x ∈ insert 0 own, s₂.cell x = s.cell x := by
    rintro x (rfl | hx)
    · exact hfresh.cell_of_lt hs.pos
    · exact hfresh.cell_of_lt (h.own_new x hx).1
  obtain ⟨wa, da⟩ := h.range.frame h.texts hs.fail hcell
  obtain ⟨wb, db⟩ := h.wired.frame h.new hs.fail hcell
  have hlt : s.ninst < s₂.ninst := by
    rw [hfresh.ninst]
    exact Nat.lt_succ_self _
  have hown : ∀ x ∈ own, x < s₂.ninst := fun x hx => Nat.lt_trans (h.own_new x hx).1 hlt
  have hxa : s.runeRange.begin < s₂.ninst :=
    @Wired.begin_lt s₂ own ⟨s.runeRange, false⟩ holes wa hs₂ hown
  have hxb : id < s₂.ninst :=
    @Wired.begin_lt s₂ own ⟨⟨id, s.runeRange.ends⟩, false⟩ holes wb hs₂ hown
  obtain ⟨hop, hout, hout1⟩ := hfresh.alternative (hs₂.lt_pow (by omega)) (hs₂.lt_pow (by omega))
  obtain ⟨hwired, hden⟩ := wa.alternative wb da db (fun hmem => Nat.lt_irrefl _ (h.own_new _ hmem).1)
    (Nat.ne_of_gt hs.pos) hop hout hout1
  have hstep : Step ∅ s₀ s₂ := h.step.trans (hfresh.step (W := ∅)) fun x hx =>
    absurd hx (Set.notMem_empty x)
  apply Ensures.of_silent Silent.write
  refine .inr ⟨insert s.ninst own, ?_, ⟨⟨hs₂.inv, hs₂.failed, hs₂.pos, hs₂.fail⟩, hstep.ninst,
    hstep.reversed, hstep.cell⟩, holes, ?_, ?_, fun _ => Lang.not_spell h.nonempty⟩
  · rintro x (rfl | hx)
    · exact ⟨hlt, fun hlt => absurd h.step.ninst (Nat.not_le.2 hlt)⟩
    · exact ⟨Nat.lt_trans (hnew x hx).1 hlt, (hnew x hx).2⟩
  · rw [hrange]
    exact hwired
  · rw [← Lang.spell_alt]
    exact hden

theorem Failed.addSuffixLatin1 {id : Nat} (h : Failed s) :
    Silent (addSuffixLatin1 g id) s ⟨⟩ s := by
  have hf : s.failed = true := h
  unfold Re2.addSuffixLatin1
  apply Silent.read.bind
  rw [if_pos hf]
  exact .pure

theorem Event.Ok.fueled {base : Nat} {e : Event} (h : e.Ok base) : e.Fueled := by
  cases e with
  | outOfFuel => exact h
  | handOut => trivial
  | release => trivial

theorem keeps_addRuneRangeLatin1 {lo hi fold : Nat} :
    Keeps Event.Fueled (Refused True) (addRuneRangeLatin1 g lo hi fold) := by
  intro s hs
  unfold addRuneRangeLatin1
  split
  · exact .pure hs
  · have hkeep : Ensures (Event.Ok 0) (uncachedRuneByteSuffix g lo (min hi 0xFF) fold 0) s
        fun _ s' => Refused True s' := keeps_uncachedRuneByteSuffix s hs
    apply (hkeep.weaken fun e he => he.fueled).bind
    intro id s' hs'
    exact .of_silent (Failed.addSuffixLatin1 hs'.failed) hs'

theorem Collected.empty_texts {s₀ : RangeCompiler} (h : Collected T s₀ s) (hU : U = ∅) :
    Collected (T ∪ U) s₀ s := by
  rw [hU, Set.union_empty]
  exact h

theorem addRuneRangeLatin1_collected {s₀ : RangeCompiler} (r : RuneRange) (h : Collected T s₀ s) :
    Ensures Event.Fueled (addRuneRangeLatin1 g r.lo r.hi r.fold.toNat) s fun _ s' =>
      Refused True s' ∨ Collected (T ∪ r.texts .latin1) s₀ s' := by
  have htexts : r.texts .latin1 = byteTexts ⟨r.lo, min r.hi 0xFF, r.fold.toNat⟩ :=
    Set.union_empty _
  unfold addRuneRangeLatin1
  rw [htexts]
  by_cases hno : r.hi < r.lo ∨ 0xFF < r.lo
  · rw [if_pos hno]
    refine .pure (.inr (h.empty_texts (Set.eq_empty_of_forall_notMem ?_)))
    rintro w ⟨c, -, hc⟩
    dsimp only at hc
    omega
  · rw [if_neg hno]
    apply (uncached_pending (c := ⟨r.lo, min r.hi 0xFF, r.fold.toNat⟩) ⟨by dsimp only; omega,
      by dsimp only; omega, r.fold.toNat_lt⟩ h).bind
    rintro id s' (hfail | ⟨own, holes, hpending⟩)
    · exact .of_silent (Failed.addSuffixLatin1 hfail.failed) (.inl hfail)
    · exact addSuffixLatin1_collected hpending

/-- The ranges of a class, one after the other. -/
theorem addRanges_latin1 {ranges : List RuneRange} (hs : Good s) :
    Ensures Event.Fueled (addRanges g .latin1 ranges) s fun f s' =>
      Refused True s' ∨ Yields ∅ (.spell {w | ∃ r ∈ ranges, w ∈ r.texts .latin1}) s f s' := by
  have hforM : ∀ (ranges : List RuneRange) T s', Refused True s' ∨ Collected T s s' →
      Ensures Event.Fueled (ranges.forM fun r => addRuneRangeLatin1 g r.lo r.hi r.fold.toNat) s'
        fun _ s'' => Refused True s'' ∨
          Collected (T ∪ {w | ∃ r ∈ ranges, w ∈ r.texts .latin1}) s s'' := by
    intro ranges
    induction ranges with
    | nil =>
      intro T s' h
      exact .pure (h.imp_right fun h => h.empty_texts (by simp))
    | cons r ranges ih =>
      intro T s' h
      have hset : T ∪ {w | ∃ r' ∈ r :: ranges, w ∈ r'.texts .latin1} =
          T ∪ r.texts .latin1 ∪ {w | ∃ r ∈ ranges, w ∈ r.texts .latin1} := by
        rw [Set.union_assoc]
        congr 1
        ext w
        simp
      have hone : Ensures Event.Fueled (addRuneRangeLatin1 g r.lo r.hi r.fold.toNat) s'
          fun _ s'' => Refused True s'' ∨ Collected (T ∪ r.texts .latin1) s s'' := by
        rcases h with hfail | h
        · exact (keeps_addRuneRangeLatin1 s' hfail).mono fun _ _ => .inl
        · exact addRuneRangeLatin1_collected r h
      rw [hset]
      apply hone.bind
      intro _ s'' h'
      exact ih _ s'' h'
  obtain ⟨s', hrun, hbegin⟩ := beginRange_collected hs
  unfold addRanges
  apply Ensures.after hrun
  apply (hforM ranges ∅ s' (.inr hbegin)).bind
  intro _ s'' h
  rw [Set.empty_union] at h
  apply Ensures.after Silent.read
  exact .pure h

end

end FourFuzzers.Re2
