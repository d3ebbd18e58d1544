import FourFuzzers.Re2.Verify.Classes

/-!
# The texts of rune ranges

A word of byte ranges admits the texts it admits byte by byte. Where `AddRuneRangeUTF8` splits a
range, the texts of the parts are those of the whole, and where it does not, one word has them all:
behind a proper range of bytes all continuation bytes follow, so the encodings of the runes from
`lo` to `hi` are the texts between those of `lo` and of `hi`.
-/

namespace FourFuzzers.Re2

/-- Byte `c` is in the range `a`. -/
def Sym.Admits (a : Sym) (c : Nat) : Prop :=
  a.lo ≤ Inst.foldByte a.fold c ∧ Inst.foldByte a.fold c ≤ a.hi

/-- The texts that a word admits. -/
def wordTexts (w : Word) : Set (List Nat) := {t | List.Forall₂ Sym.Admits w t}

section

variable {a : Sym} {w : Word} {t : List Nat} {lo hi mid fold r c : Nat} {reversed : Bool}

theorem wordTexts_single : wordTexts [a] = byteTexts a := by
  ext t
  change List.Forall₂ Sym.Admits [a] t ↔ _
  rw [List.forall₂_cons_left_iff]
  constructor
  · rintro ⟨c, u, hc, hu, rfl⟩
    rw [List.forall₂_nil_left_iff.1 hu]
    exact ⟨c, rfl, hc⟩
  · rintro ⟨c, rfl, hc⟩
    exact ⟨c, [], hc, .nil, rfl⟩

theorem mem_wordTexts_cons : t ∈ wordTexts (a :: w) ↔
    ∃ c u, t = c :: u ∧ a.Admits c ∧ u ∈ wordTexts w := by
  change List.Forall₂ Sym.Admits (a :: w) t ↔ _
  rw [List.forall₂_cons_left_iff]
  constructor
  · rintro ⟨c, u, hc, hu, rfl⟩
    exact ⟨c, u, rfl, hc, hu⟩
  · rintro ⟨c, u, rfl, hc, hu⟩
    exact ⟨c, u, hc, hu, rfl⟩

theorem mem_wordTexts_nil : t ∈ wordTexts [] ↔ t = [] := List.forall₂_nil_left_iff

/-- A word read against its order. -/
theorem wordTexts_turn : wordTexts (if reversed then w.reverse else w) =
    turn reversed (wordTexts w) := by
  cases reversed with
  | false => rfl
  | true =>
    ext t
    change List.Forall₂ Sym.Admits w.reverse t ↔ List.Forall₂ Sym.Admits w t.reverse
    rw [← List.forall₂_reverse_iff, List.reverse_reverse]

/-- A label that is not folded. -/
theorem Sym.admits_plain : (⟨lo, hi, 0⟩ : Sym).Admits c ↔ lo ≤ c ∧ c ≤ hi := by
  simp [Sym.Admits, Inst.foldByte]

/-! ## Parts of a range -/

theorem byteTexts_empty (h : hi < lo) : byteTexts ⟨lo, hi, fold⟩ = ∅ := by
  apply Set.eq_empty_of_forall_notMem
  rintro w ⟨c, -, hc⟩
  dsimp only at hc
  omega

theorem byteTexts_union (hlo : lo ≤ mid) (hhi : mid < hi) (m : Nat) :
    byteTexts ⟨lo, min hi m, fold⟩ =
      byteTexts ⟨lo, min mid m, fold⟩ ∪ byteTexts ⟨mid + 1, min hi m, fold⟩ := by
  ext w
  change (∃ c, w = [c] ∧ lo ≤ Inst.foldByte fold c ∧ Inst.foldByte fold c ≤ min hi m) ↔
    (∃ c, w = [c] ∧ lo ≤ Inst.foldByte fold c ∧ Inst.foldByte fold c ≤ min mid m) ∨
      ∃ c, w = [c] ∧ mid + 1 ≤ Inst.foldByte fold c ∧ Inst.foldByte fold c ≤ min hi m
  rw [← exists_or]
  refine exists_congr fun c => ?_
  rw [← and_or_left]
  refine and_congr_right fun _ => ?_
  generalize Inst.foldByte fold c = d
  omega

/-- A range that is split at `mid`: all of 80-10FFFF stays together. -/
theorem texts_split {f : Bool} (hlo : lo ≤ mid) (hhi : mid < hi) (hmax : hi ≤ 0x10FFFF)
    (hmid : hi = 0x10FFFF → lo ≤ 0x80 → mid = 0x7F) :
    RuneRange.texts .utf8 ⟨lo, hi, f⟩ =
      RuneRange.texts .utf8 ⟨lo, mid, f⟩ ∪ RuneRange.texts .utf8 ⟨mid + 1, hi, f⟩ := by
  have hlong : longTexts .utf8 lo hi = longTexts .utf8 lo mid ∪ longTexts .utf8 (mid + 1) hi := by
    have hleft : ¬ (lo ≤ 0x80 ∧ mid = 0x10FFFF) := by omega
    unfold longTexts
    dsimp only
    rw [if_neg hleft]
    by_cases hwide : lo ≤ 0x80 ∧ hi = 0x10FFFF
    · have hmid := hmid hwide.2 hwide.1
      rw [if_pos hwide, if_pos ⟨by omega, hwide.2⟩]
      ext w
      refine ⟨.inr, ?_⟩
      rintro (⟨r, -, h80, -, hle⟩ | hw)
      · omega
      · exact hw
    · rw [if_neg hwide, if_neg fun h => hwide ⟨by omega, h.2⟩]
      ext w
      constructor
      · rintro ⟨r, rfl, h80, hlo, hhi⟩
        by_cases hr : r ≤ mid
        · exact .inl ⟨r, rfl, h80, hlo, hr⟩
        · exact .inr ⟨r, rfl, h80, by omega, hhi⟩
      · rintro (⟨r, rfl, h80, hlo, hhi⟩ | ⟨r, rfl, h80, hlo, hhi⟩)
        · exact ⟨r, rfl, h80, hlo, by omega⟩
        · exact ⟨r, rfl, h80, by omega, hhi⟩
  unfold RuneRange.texts
  dsimp only
  rw [byteTexts_union hlo hhi, hlong, Set.union_union_union_comm]

/-- A range of ASCII. -/
theorem texts_ascii {f : Bool} (hhi : hi < 0x80) :
    RuneRange.texts .utf8 ⟨lo, hi, f⟩ = byteTexts ⟨lo, hi, f.toNat⟩ := by
  have hlong : longTexts .utf8 lo hi = ∅ := by
    unfold longTexts
    dsimp only
    rw [if_neg (by omega)]
    apply Set.eq_empty_of_forall_notMem
    rintro w ⟨r, -, h80, -, hle⟩
    omega
  unfold RuneRange.texts
  dsimp only [Encoding.maxByte]
  rw [hlong, Set.union_empty, Nat.min_eq_left (by omega)]

/-- 80-10FFFF -/
theorem texts_wide {f : Bool} : RuneRange.texts .utf8 ⟨0x80, 0x10FFFF, f⟩ = {w | WideText w} := by
  have hlong : longTexts .utf8 0x80 0x10FFFF = {w | WideText w} := by
    unfold longTexts
    exact if_pos ⟨Nat.le_refl _, rfl⟩
  unfold RuneRange.texts
  dsimp only [Encoding.maxByte]
  rw [hlong, byteTexts_empty (by decide), Set.empty_union]

/-- A range of longer sequences. -/
theorem texts_long {f : Bool} (hlo : 0x80 ≤ lo) (hwide : ¬ (lo ≤ 0x80 ∧ hi = 0x10FFFF)) :
    RuneRange.texts .utf8 ⟨lo, hi, f⟩ = {w | ∃ r, w = runetochar r ∧ lo ≤ r ∧ r ≤ hi} := by
  have hbyte : byteTexts ⟨lo, min hi 0x7F, f.toNat⟩ = ∅ := byteTexts_empty (by omega)
  unfold RuneRange.texts
  dsimp only [Encoding.maxByte]
  rw [hbyte, Set.empty_union]
  unfold longTexts
  dsimp only
  rw [if_neg hwide]
  ext w
  refine exists_congr fun r => and_congr_right fun _ => ?_
  exact ⟨fun h => h.2, fun h => ⟨Nat.le_trans hlo h.1, h⟩⟩

/-! ## One sequence -/

/-- Where a proper range of the leading digits is followed by all of the last ones, the numbers from
`lo` to `hi` are those between them digit by digit. -/
theorem digit_bounds (h : lo / 64 ≠ hi / 64 → lo % 64 = 0 ∧ hi % 64 = 63) :
    (lo / 64 ≤ r / 64 ∧ r / 64 ≤ hi / 64) ∧ (lo % 64 ≤ r % 64 ∧ r % 64 ≤ hi % 64) ↔
      lo ≤ r ∧ r ≤ hi := by
  omega

theorem digit_bounds_two (hle : lo ≤ hi) (h1 : lo / 64 ≠ hi / 64 → lo % 64 = 0 ∧ hi % 64 = 63)
    (h2 : lo / 4096 ≠ hi / 4096 → lo % 4096 = 0 ∧ hi % 4096 = 4095) :
    ((lo / 4096 ≤ r / 4096 ∧ r / 4096 ≤ hi / 4096) ∧
        (lo / 64 % 64 ≤ r / 64 % 64 ∧ r / 64 % 64 ≤ hi / 64 % 64)) ∧
      (lo % 64 ≤ r % 64 ∧ r % 64 ≤ hi % 64) ↔ lo ≤ r ∧ r ≤ hi := by
  have hdiv : ∀ x, x / 4096 = x / 64 / 64 := fun x => by omega
  have h2' : lo / 64 / 64 ≠ hi / 64 / 64 → lo / 64 % 64 = 0 ∧ hi / 64 % 64 = 63 := by omega
  rw [hdiv, hdiv, hdiv, digit_bounds h2', digit_bounds h1]

theorem digit_bounds_three (hle : lo ≤ hi) (h1 : lo / 64 ≠ hi / 64 → lo % 64 = 0 ∧ hi % 64 = 63)
    (h2 : lo / 4096 ≠ hi / 4096 → lo % 4096 = 0 ∧ hi % 4096 = 4095)
    (h3 : lo / 262144 ≠ hi / 262144 → lo % 262144 = 0 ∧ hi % 262144 = 262143) :
    (((lo / 262144 ≤ r / 262144 ∧ r / 262144 ≤ hi / 262144) ∧
          (lo / 4096 % 64 ≤ r / 4096 % 64 ∧ r / 4096 % 64 ≤ hi / 4096 % 64)) ∧
        (lo / 64 % 64 ≤ r / 64 % 64 ∧ r / 64 % 64 ≤ hi / 64 % 64)) ∧
      (lo % 64 ≤ r % 64 ∧ r % 64 ≤ hi % 64) ↔ lo ≤ r ∧ r ≤ hi := by
  have hdiv : ∀ x, x / 262144 = x / 4096 / 64 := fun x => by omega
  have h3' : lo / 4096 / 64 ≠ hi / 4096 / 64 → lo / 4096 % 64 = 0 ∧ hi / 4096 % 64 = 63 := by omega
  rw [hdiv, hdiv, hdiv, digit_bounds h3', digit_bounds_two hle h1 h2]

/-- A byte between two with the tag `k`. -/
theorem tagged {k m n c : Nat} (h : k + m ≤ c ∧ c ≤ k + n) :
    (m ≤ c - k ∧ c - k ≤ n) ∧ k + (c - k) = c := by
  omega

/-- Every row of digits is that of a number. -/
theorem digits_two {a b : Nat} (hb : b < 64) : ∃ r, r / 64 = a ∧ r % 64 = b :=
  ⟨a * 64 + b, by omega, by omega⟩

theorem digits_three {a b c : Nat} (hb : b < 64) (hc : c < 64) :
    ∃ r, r / 4096 = a ∧ r / 64 % 64 = b ∧ r % 64 = c := by
  obtain ⟨r, hr, hrb⟩ := @digits_two a b hb
  exact ⟨r * 64 + c, by omega, by omega, by omega⟩

theorem digits_four {a b c d : Nat} (hb : b < 64) (hc : c < 64) (hd : d < 64) :
    ∃ r, r / 262144 = a ∧ r / 4096 % 64 = b ∧ r / 64 % 64 = c ∧ r % 64 = d := by
  obtain ⟨r, hr, hrb, hrc⟩ := @digits_three a b c hb hc
  exact ⟨r * 64 + d, by omega, by omega, by omega, by omega⟩

/-- The encodings of a range of runes, by their lengths. -/
theorem sequence_two (hlo : 0x80 ≤ lo) (hhi : hi ≤ 0x7FF)
    (h1 : lo / 64 ≠ hi / 64 → lo % 64 = 0 ∧ hi % 64 = 63) :
    t ∈ wordTexts [⟨0xC0 + lo / 64, 0xC0 + hi / 64, 0⟩, ⟨0x80 + lo % 64, 0x80 + hi % 64, 0⟩] ↔
      ∃ r, t = runetochar r ∧ lo ≤ r ∧ r ≤ hi := by
  have hmod : ∀ n, n % 64 < 64 := fun n => Nat.mod_lt n (by decide)
  have hbounds := fun r => @digit_bounds lo hi r h1
  simp only [mem_wordTexts_cons, mem_wordTexts_nil, Sym.admits_plain]
  constructor
  · rintro ⟨c, _, rfl, hc, d, _, rfl, hd, rfl⟩
    obtain ⟨hc, hc'⟩ := tagged hc
    obtain ⟨hd, hd'⟩ := tagged hd
    obtain ⟨r, hr₁, hr₂⟩ := @digits_two (c - 0xC0) _ (Nat.lt_of_le_of_lt hd.2 (hmod _))
    have hin := (hbounds r).1 (by
      rw [hr₁, hr₂]
      exact ⟨hc, hd⟩)
    refine ⟨r, ?_, hin⟩
    rw [runetochar_two (Nat.le_trans hlo hin.1) (Nat.le_trans hin.2 hhi), hr₁, hr₂, hc', hd']
  · rintro ⟨r, rfl, hr⟩
    obtain ⟨hc, hd⟩ := (hbounds r).2 hr
    rw [runetochar_two (Nat.le_trans hlo hr.1) (Nat.le_trans hr.2 hhi)]
    exact ⟨0xC0 + r / 64, [0x80 + r % 64], rfl,
      ⟨Nat.add_le_add_left hc.1 0xC0, Nat.add_le_add_left hc.2 0xC0⟩,
      0x80 + r % 64, [], rfl, ⟨Nat.add_le_add_left hd.1 0x80, Nat.add_le_add_left hd.2 0x80⟩, rfl⟩

theorem sequence_three (hlo : 0x800 ≤ lo) (hle : lo ≤ hi) (hhi : hi ≤ 0xFFFF)
    (h1 : lo / 64 ≠ hi / 64 → lo % 64 = 0 ∧ hi % 64 = 63)
    (h2 : lo / 4096 ≠ hi / 4096 → lo % 4096 = 0 ∧ hi % 4096 = 4095) :
    t ∈ wordTexts [⟨0xE0 + lo / 4096, 0xE0 + hi / 4096, 0⟩,
        ⟨0x80 + lo / 64 % 64, 0x80 + hi / 64 % 64, 0⟩, ⟨0x80 + lo % 64, 0x80 + hi % 64, 0⟩] ↔
      ∃ r, t = runetochar r ∧ lo ≤ r ∧ r ≤ hi := by
  have hmod : ∀ n, n % 64 < 64 := fun n => Nat.mod_lt n (by decide)
  have hbounds := fun r => @digit_bounds_two lo hi r hle h1 h2
  simp only [mem_wordTexts_cons, mem_wordTexts_nil, Sym.admits_plain]
  constructor
  · rintro ⟨c, _, rfl, hc, d, _, rfl, hd, e, _, rfl, he, rfl⟩
    obtain ⟨hc, hc'⟩ := tagged hc
    obtain ⟨hd, hd'⟩ := tagged hd
    obtain ⟨he, he'⟩ := tagged he
    obtain ⟨r, hr₁, hr₂, hr₃⟩ := @digits_three (c - 0xE0) _ _
      (Nat.lt_of_le_of_lt hd.2 (hmod _)) (Nat.lt_of_le_of_lt he.2 (hmod _))
    have hin := (hbounds r).1 (by
      rw [hr₁, hr₂, hr₃]
      exact ⟨⟨hc, hd⟩, he⟩)
    refine ⟨r, ?_, hin⟩
    rw [runetochar_three (Nat.le_trans hlo hin.1) (Nat.le_trans hin.2 hhi), hr₁, hr₂, hr₃, hc', hd',
      he']
  · rintro ⟨r, rfl, hr⟩
    obtain ⟨⟨hc, hd⟩, he⟩ := (hbounds r).2 hr
    rw [runetochar_three (Nat.le_trans hlo hr.1) (Nat.le_trans hr.2 hhi)]
    exact ⟨0xE0 + r / 4096, [0x80 + r / 64 % 64, 0x80 + r % 64], rfl,
      ⟨Nat.add_le_add_left hc.1 0xE0, Nat.add_le_add_left hc.2 0xE0⟩,
      0x80 + r / 64 % 64, [0x80 + r % 64], rfl,
      ⟨Nat.add_le_add_left hd.1 0x80, Nat.add_le_add_left hd.2 0x80⟩,
      0x80 + r % 64, [], rfl, ⟨Nat.add_le_add_left he.1 0x80, Nat.add_le_add_left he.2 0x80⟩, rfl⟩

theorem sequence_four (hlo : 0x10000 ≤ lo) (hle : lo ≤ hi) (hhi : hi ≤ 0x10FFFF)
    (h1 : lo / 64 ≠ hi / 64 → lo % 64 = 0 ∧ hi % 64 = 63)
    (h2 : lo / 4096 ≠ hi / 4096 → lo % 4096 = 0 ∧ hi % 4096 = 4095)
    (h3 : lo / 262144 ≠ hi / 262144 → lo % 262144 = 0 ∧ hi % 262144 = 262143) :
    t ∈ wordTexts [⟨0xF0 + lo / 262144, 0xF0 + hi / 262144, 0⟩,
        ⟨0x80 + lo / 4096 % 64, 0x80 + hi / 4096 % 64, 0⟩,
        ⟨0x80 + lo / 64 % 64, 0x80 + hi / 64 % 64, 0⟩, ⟨0x80 + lo % 64, 0x80 + hi % 64, 0⟩] ↔
      ∃ r, t = runetochar r ∧ lo ≤ r ∧ r ≤ hi := by
  have hmod : ∀ n, n % 64 < 64 := fun n => Nat.mod_lt n (by decide)
  have hbounds := fun r => @digit_bounds_three lo hi r hle h1 h2 h3
  simp only [mem_wordTexts_cons, mem_wordTexts_nil, Sym.admits_plain]
  constructor
  · rintro ⟨c, _, rfl, hc, d, _, rfl, hd, e, _, rfl, he, f, _, rfl, hf, rfl⟩
    obtain ⟨hc, hc'⟩ := tagged hc
    obtain ⟨hd, hd'⟩ := tagged hd
    obtain ⟨he, he'⟩ := tagged he
    obtain ⟨hf, hf'⟩ := tagged hf
    obtain ⟨r, hr₁, hr₂, hr₃, hr₄⟩ := @digits_four (c - 0xF0) _ _ _
      (Nat.lt_of_le_of_lt hd.2 (hmod _)) (Nat.lt_of_le_of_lt he.2 (hmod _))
      (Nat.lt_of_le_of_lt hf.2 (hmod _))
    have hin := (hbounds r).1 (by
      rw [hr₁, hr₂, hr₃, hr₄]
      exact ⟨⟨⟨hc, hd⟩, he⟩, hf⟩)
    refine ⟨r, ?_, hin⟩
    rw [runetochar_four (Nat.le_trans hlo hin.1) (Nat.le_trans hin.2 hhi), hr₁, hr₂, hr₃, hr₄, hc',
      hd', he', hf']
  · rintro ⟨r, rfl, hr⟩
    obtain ⟨⟨⟨hc, hd⟩, he⟩, hf⟩ := (hbounds r).2 hr
    rw [runetochar_four (Nat.le_trans hlo hr.1) (Nat.le_trans hr.2 hhi)]
    exact ⟨0xF0 + r / 262144, [0x80 + r / 4096 % 64, 0x80 + r / 64 % 64, 0x80 + r % 64], rfl,
      ⟨Nat.add_le_add_left hc.1 0xF0, Nat.add_le_add_left hc.2 0xF0⟩,
      0x80 + r / 4096 % 64, [0x80 + r / 64 % 64, 0x80 + r % 64], rfl,
      ⟨Nat.add_le_add_left hd.1 0x80, Nat.add_le_add_left hd.2 0x80⟩,
      0x80 + r / 64 % 64, [0x80 + r % 64], rfl,
      ⟨Nat.add_le_add_left he.1 0x80, Nat.add_le_add_left he.2 0x80⟩,
      0x80 + r % 64, [], rfl, ⟨Nat.add_le_add_left hf.1 0x80, Nat.add_le_add_left hf.2 0x80⟩, rfl⟩

/-- The labels of a sequence. -/
theorem map_byteSym {a b c d a' b' c' d' : Nat} :
    (List.range [a, b].length).map (byteSym [a, b] [a', b']) = [⟨a, a', 0⟩, ⟨b, b', 0⟩] ∧
      (List.range [a, b, c].length).map (byteSym [a, b, c] [a', b', c']) =
        [⟨a, a', 0⟩, ⟨b, b', 0⟩, ⟨c, c', 0⟩] ∧
      (List.range [a, b, c, d].length).map (byteSym [a, b, c, d] [a', b', c', d']) =
        [⟨a, a', 0⟩, ⟨b, b', 0⟩, ⟨c, c', 0⟩, ⟨d, d', 0⟩] :=
  ⟨rfl, rfl, rfl⟩

/-- A range that is not split has the texts of one word. -/
theorem wordTexts_sequence (hle : lo ≤ hi) (hmax : hi ≤ 0x10FFFF) (hmin : 0x80 ≤ hi)
    (hlen : splitLength lo hi = none) (hbytes : splitBytes lo hi = none) :
    wordTexts ((List.range (runetochar lo).length).map (byteSym (runetochar lo) (runetochar hi))) =
      {t | ∃ r, t = runetochar r ∧ lo ≤ r ∧ r ≤ hi} := by
  have h1 := @splitBytes_none lo hi 1 hbytes (by simp)
  have h2 := @splitBytes_none lo hi 2 hbytes (by simp)
  have h3 := @splitBytes_none lo hi 3 hbytes (by simp)
  norm_num at h1 h2 h3
  apply Set.ext
  intro t
  rw [Set.mem_ofPred_eq]
  rcases splitLength_none hlen with h | ⟨h, h'⟩ | ⟨h, h'⟩ | h
  · exact absurd hmin (Nat.not_le.2 (Nat.lt_succ_of_le h))
  · rw [runetochar_two h (Nat.le_trans hle h'), runetochar_two (Nat.le_trans h hle) h',
      (@map_byteSym _ _ 0 0 _ _ 0 0).1]
    exact sequence_two h h' h1
  · rw [runetochar_three h (Nat.le_trans hle h'), runetochar_three (Nat.le_trans h hle) h',
      (@map_byteSym _ _ _ 0 _ _ _ 0).2.1]
    exact sequence_three h hle h' h1 h2
  · rw [runetochar_four h (Nat.le_trans hle hmax), runetochar_four (Nat.le_trans h hle) hmax,
      map_byteSym.2.2]
    exact sequence_four h hle hmax h1 h2 h3

/-! ## 80-10FFFF -/

/-- The words of `Add_80_10ffff`, first byte first. -/
def wideWords : List Word :=
  [[lead2Sym, contSym], [lead3Sym, contSym, contSym], [lead4Sym, contSym, contSym, contSym]]

theorem wordTexts_wide : (∃ w ∈ wideWords, t ∈ wordTexts w) ↔ WideText t := by
  have hcont : contSym = ⟨0x80, 0xBF, 0⟩ := rfl
  simp only [wideWords, List.mem_cons, List.not_mem_nil, or_false, exists_eq_or_imp, exists_eq_left,
    mem_wordTexts_cons, mem_wordTexts_nil, lead2Sym, lead3Sym, lead4Sym, hcont, Sym.admits_plain]
  constructor
  · rintro (⟨a, _, rfl, ha, b, _, rfl, hb, rfl⟩ | ⟨a, _, rfl, ha, b, _, rfl, hb, c, _, rfl, hc, rfl⟩ |
      ⟨a, _, rfl, ha, b, _, rfl, hb, c, _, rfl, hc, d, _, rfl, hd, rfl⟩)
    · exact ⟨ha, hb⟩
    · exact ⟨ha, hb, hc⟩
    · exact ⟨ha, hb, hc, hd⟩
  · intro h
    rcases t with _ | ⟨a, _ | ⟨b, _ | ⟨c, _ | ⟨d, _ | ⟨e, rest⟩⟩⟩⟩⟩
    · exact False.elim h
    · exact False.elim h
    · exact .inl ⟨a, _, rfl, h.1, b, _, rfl, h.2, rfl⟩
    · exact .inr (.inl ⟨a, _, rfl, h.1, b, _, rfl, h.2.1, c, _, rfl, h.2.2, rfl⟩)
    · obtain ⟨ha, hb, hc, hd⟩ := h
      exact .inr (.inr ⟨a, _, rfl, ha, b, _, rfl, hb, c, _, rfl, hc, d, _, rfl, hd, rfl⟩)
    · exact False.elim h

end

end FourFuzzers.Re2
