import FourFuzzers.Re2.Verify.Suffix
import FourFuzzers.Re2.Verify.Words

/-!
# The rune ranges of a character class

`AddRuneRangeUTF8` splits a range until its bytes agree up to one place behind which they are free.
What is left is compiled to one sequence, and the places whose suffix is cached are those that the
plan of the class allows. One plan covers all ranges of a class: `Add_80_10ffff` is called for the
last of them or not at all.
-/

namespace FourFuzzers.Re2

open FourFuzzers.Lib FourFuzzers.Lib.Traced FourFuzzers.Lib.Stateful

/-! ## Ranges that agree on leading bytes -/

/-- The bytes `ulo` and `uhi` of a range that is compiled to one sequence: behind a proper range
there are full ranges only. -/
structure Ranges (ulo uhi : List Nat) : Prop where
  two_le : 2 ≤ ulo.length
  le_four : ulo.length ≤ 4
  lt : ∀ i, ulo.getD i 0 < 256 ∧ uhi.getD i 0 < 256
  lead : ¬ IsContinuation (ulo.getD 0 0)
  length : sequenceLength (ulo.getD 0 0) = ulo.length
  rest : ∀ i, i + 1 < ulo.length → IsContinuation (ulo.getD (i + 1) 0)
  full : ∀ i, i + 1 < ulo.length → ulo.getD i 0 ≠ uhi.getD i 0 →
    ulo.getD (i + 1) 0 = 0x80 ∧ uhi.getD (i + 1) 0 = 0xBF

theorem splitLength_none {lo hi : Nat} (h : splitLength lo hi = none) :
    hi ≤ 0x7F ∨ 0x80 ≤ lo ∧ hi ≤ 0x7FF ∨ 0x800 ≤ lo ∧ hi ≤ 0xFFFF ∨ 0x10000 ≤ lo := by
  unfold splitLength at h
  have hnone := List.find?_eq_none.1 (Option.map_eq_none_iff.1 h)
  have h1 := hnone 1 (by simp)
  have h2 := hnone 2 (by simp)
  have h3 := hnone 3 (by simp)
  simp only [maxRune] at h1 h2 h3
  norm_num at h1 h2 h3
  omega

theorem splitBytes_none {lo hi i : Nat} (h : splitBytes lo hi = none) (hi' : i ∈ [1, 2, 3])
    (hne : lo / 2 ^ (6 * i) ≠ hi / 2 ^ (6 * i)) :
    lo % 2 ^ (6 * i) = 0 ∧ hi % 2 ^ (6 * i) = 2 ^ (6 * i) - 1 := by
  unfold splitBytes at h
  have hnone := List.findSome?_eq_none_iff.1 h i hi'
  dsimp only at hnone
  rw [if_pos hne] at hnone
  by_cases hlo : lo % 2 ^ (6 * i) ≠ 0
  · rw [if_pos hlo] at hnone
    cases hnone
  · rw [if_neg hlo] at hnone
    by_cases hhi : hi % 2 ^ (6 * i) ≠ 2 ^ (6 * i) - 1
    · rw [if_pos hhi] at hnone
      cases hnone
    · exact ⟨Decidable.not_not.1 hlo, Decidable.not_not.1 hhi⟩

theorem ranges_runetochar {lo hi : Nat} (hle : lo ≤ hi) (hmax : hi ≤ 0x10FFFF) (hmin : 0x80 ≤ hi)
    (hlen : splitLength lo hi = none) (hbytes : splitBytes lo hi = none) :
    Ranges (runetochar lo) (runetochar hi) := by
  have h1 := @splitBytes_none lo hi 1 hbytes (by simp)
  have h2 := @splitBytes_none lo hi 2 hbytes (by simp)
  have h3 := @splitBytes_none lo hi 3 hbytes (by simp)
  norm_num at h1 h2 h3
  have hfull : ∀ i, i + 1 < (runetochar lo).length →
      (runetochar lo).getD i 0 ≠ (runetochar hi).getD i 0 →
      (runetochar lo).getD (i + 1) 0 = 0x80 ∧ (runetochar hi).getD (i + 1) 0 = 0xBF := by
    rcases splitLength_none hlen with h | ⟨h, h'⟩ | ⟨h, h'⟩ | h
    · omega
    · rw [runetochar_two h (by omega), runetochar_two (by omega) h']
      intro i hi hne
      match i with
      | 0 =>
        simp only [List.getD_cons_zero, List.getD_cons_succ] at hne ⊢
        omega
    · rw [runetochar_three h (by omega), runetochar_three (by omega) h']
      intro i hi hne
      match i with
      | 0 =>
        simp only [List.getD_cons_zero, List.getD_cons_succ] at hne ⊢
        omega
      | 1 =>
        simp only [List.getD_cons_zero, List.getD_cons_succ] at hne ⊢
        omega
    · rw [runetochar_four h (by omega), runetochar_four (by omega) hmax]
      intro i hi hne
      match i with
      | 0 =>
        simp only [List.getD_cons_zero, List.getD_cons_succ] at hne ⊢
        omega
      | 1 =>
        simp only [List.getD_cons_zero, List.getD_cons_succ] at hne ⊢
        omega
      | 2 =>
        simp only [List.getD_cons_zero, List.getD_cons_succ] at hne ⊢
        omega
  have hbyte : ∀ {r : Nat}, r ≤ 0x10FFFF → ∀ i, (runetochar r).getD i 0 < 256 := by
    intro r hr i
    rw [List.getD_eq_getElem?_getD]
    cases hget : (runetochar r)[i]? with
    | none => exact Nat.succ_pos _
    | some b => exact runetochar_lt hr b (List.mem_of_getElem? hget)
  have hlead : 0x80 ≤ (runetochar lo).getD 0 0 := by
    rcases splitLength_none hlen with h | ⟨h, h'⟩ | ⟨h, h'⟩ | h
    · omega
    · rw [runetochar_two h (by omega), List.getD_cons_zero]
      omega
    · rw [runetochar_three h (by omega), List.getD_cons_zero]
      omega
    · rw [runetochar_four h (by omega), List.getD_cons_zero]
      omega
  have hlo : lo ≤ 0x10FFFF := Nat.le_trans hle hmax
  have hlt : ∀ i, (runetochar lo).getD i 0 < 256 ∧ (runetochar hi).getD i 0 < 256 :=
    fun i => ⟨hbyte hlo i, hbyte hmax i⟩
  obtain ⟨lead, rest, hshape, hfirst, hrest, hseq⟩ := runetochar_shape hlo
  rw [hshape] at hfull hlead hlt ⊢
  rw [List.getD_cons_zero] at hlead
  have hlength : 2 ≤ (lead :: rest).length ∧ (lead :: rest).length ≤ 4 := by
    rw [List.length_cons, hseq]
    unfold sequenceLength
    split
    · omega
    · split
      · omega
      · split <;> omega
  refine ⟨hlength.1, hlength.2, hlt, hfirst, hseq.symm, ?_, hfull⟩
  intro i hi
  have hi' : i < rest.length := Nat.lt_of_succ_lt_succ hi
  rw [List.getD_cons_succ, List.getD_eq_getElem?_getD, List.getElem?_eq_getElem hi']
  exact hrest _ (List.getElem_mem hi')

/-! ## Sequences -/

section

variable {base : Nat} {ulo uhi : List Nat}

/-- Byte `i` of a sequence. -/
def byteSym (ulo uhi : List Nat) (i : Nat) : Sym := ⟨ulo.getD i 0, uhi.getD i 0, 0⟩

theorem Ranges.valid (h : Ranges ulo uhi) (i : Nat) : (byteSym ulo uhi i).Valid :=
  ⟨(h.lt i).1, (h.lt i).2, by simp [byteSym]⟩

theorem Ranges.isContinuation (h : Ranges ulo uhi) {i : Nat} (hi : i < ulo.length) :
    IsContinuation (ulo.getD i 0) ↔ i ≠ 0 := by
  cases i with
  | zero => exact ⟨fun hc => absurd hc h.lead, fun hne => absurd rfl hne⟩
  | succ i => exact ⟨fun _ => Nat.succ_ne_zero i, fun _ => h.rest i hi⟩

/-- What is in front of byte `k` when a sequence is built from its last byte. -/
theorem allowsAll_forward (h : Ranges ulo uhi) (k : Nat) (hk : k ≤ ulo.length) :
    (Plan.exact base false).AllowsAll
      (fun i => i = ulo.length - 1 ∨ (ulo.getD i 0 < uhi.getD i 0 ∧ i ≠ 0)) (byteSym ulo uhi)
      (List.range k).reverse ((List.range' k (ulo.length - k)).map (byteSym ulo uhi)) := by
  induction k with
  | zero => trivial
  | succ k ih =>
    have hcons : List.range' k (ulo.length - k) =
        k :: List.range' (k + 1) (ulo.length - (k + 1)) := by
      have hlength : ulo.length - k = (ulo.length - (k + 1)) + 1 := by omega
      rw [hlength, List.range'_succ]
    have ih := ih (Nat.le_of_succ_le hk)
    rw [hcons, List.map_cons] at ih
    have hflag : ∀ {i : Nat} {v : Word}, i < ulo.length →
        ((Plan.exact base false).flag (byteSym ulo uhi i :: v) ↔
          i ≠ 0 ∧ ulo.getD i 0 < uhi.getD i 0) := by
      intro i v hi
      exact and_congr_left' (h.isContinuation hi)
    rw [List.range_succ, List.reverse_append]
    refine ⟨⟨h.valid k, fun hc => ⟨trivial, ?_, ?_⟩, ?_⟩, ih⟩
    · intro hne
      have hlast : k ≠ ulo.length - 1 := by
        intro hlast
        have hlength : ulo.length - (k + 1) = 0 := by omega
        rw [hlength] at hne
        exact hne rfl
      obtain ⟨hlt, h0⟩ := hc.resolve_left hlast
      exact (hflag hk).2 ⟨h0, hlt⟩
    · intro hlen
      rw [List.length_map, List.length_range'] at hlen
      obtain ⟨hlt, -⟩ := hc.resolve_left (by omega)
      obtain ⟨hlo, hhi⟩ := h.full k (by omega) (Nat.ne_of_lt hlt)
      have hlength : ulo.length - (k + 1) = (ulo.length - (k + 2)) + 1 := by omega
      rw [hlength, List.range'_succ,
        List.map_cons, hflag (by omega), hlo, hhi]
      exact ⟨Nat.succ_ne_zero k, by omega⟩
    · intro hc _ _ hf
      obtain ⟨h0, hlt⟩ := (hflag hk).1 hf
      exact hc (.inr ⟨hlt, h0⟩)

/-- What is in front of byte `k` when a sequence is built from its first byte. -/
theorem allowsAll_reversed (h : Ranges ulo uhi) (m : Nat) {k : Nat} (hk : k + m = ulo.length) :
    (Plan.exact base true).AllowsAll
      (fun i => i = 0 ∨ (ulo.getD i 0 = uhi.getD i 0 ∧ i ≠ ulo.length - 1)) (byteSym ulo uhi)
      (List.range' k m) ((List.range k).map (byteSym ulo uhi)).reverse := by
  induction m generalizing k with
  | zero => trivial
  | succ m ih =>
    have hcons : ∀ i, ((List.range (i + 1)).map (byteSym ulo uhi)).reverse =
        byteSym ulo uhi i :: ((List.range i).map (byteSym ulo uhi)).reverse := by
      intro i
      rw [List.range_succ, List.map_append, List.reverse_append]
      rfl
    have hflag : ∀ i,
        (Plan.exact base true).flag ((List.range (i + 1)).map (byteSym ulo uhi)).reverse ↔
          ulo.getD i 0 = uhi.getD i 0 ∧ i + 1 < ulo.length := by
      intro i
      change reversedFlag _ ↔ _
      unfold reversedFlag
      rw [List.getLast?_reverse, List.range_succ_eq_map, List.map_cons, List.head?_cons,
        ← List.map_cons, ← List.range_succ_eq_map, List.length_reverse, List.length_map,
        List.length_range, hcons]
      simp only [List.head?_cons, Option.mem_some_iff, exists_eq_left', byteSym, h.length]
    have ih := @ih (k + 1) (by omega)
    rw [hcons] at ih
    rw [List.range'_succ]
    refine ⟨⟨h.valid k, fun hc => ⟨trivial, ?_, ?_⟩, ?_⟩, ih⟩
    · intro hne
      have h0 : k ≠ 0 := by
        rintro rfl
        exact hne rfl
      obtain ⟨heq, hlast⟩ := hc.resolve_left h0
      rw [← hcons]
      exact (hflag k).2 ⟨heq, by omega⟩
    · intro hlen
      rw [List.length_reverse, List.length_map, List.length_range] at hlen
      obtain ⟨heq, hlast⟩ := hc.resolve_left (by omega)
      obtain ⟨j, rfl⟩ : ∃ j, k = j + 1 := ⟨k - 1, by omega⟩
      refine (hflag j).2 ⟨?_, by omega⟩
      by_contra hne
      obtain ⟨hlo, hhi⟩ := h.full j (by omega) hne
      omega
    · intro hc hne _ hf
      rw [← hcons] at hf
      obtain ⟨heq, hlt⟩ := (hflag k).1 hf
      exact hc (.inr ⟨heq, by omega⟩)

/-- The words of a range that is compiled to one sequence. -/
def sequenceWord (reversed : Bool) (ulo uhi : List Nat) : Word :=
  let w := (List.range ulo.length).map (byteSym ulo uhi)
  if reversed then w.reverse else w

theorem bytes_sequenceWord {reversed : Bool} :
    (Plan.exact base reversed).bytes (sequenceWord reversed ulo uhi) = ulo := by
  have hmap : ((List.range ulo.length).map (byteSym ulo uhi)).map Sym.lo = ulo := by
    apply List.ext_getElem
    · simp
    · intro i h1 h2
      simp [byteSym, h2]
  cases reversed with
  | false => exact hmap
  | true =>
    change ((List.range ulo.length).map (byteSym ulo uhi)).reverse.reverse.map Sym.lo = ulo
    rw [List.reverse_reverse, hmap]

theorem length_sequenceWord {reversed : Bool} :
    (sequenceWord reversed ulo uhi).length = ulo.length := by
  cases reversed <;> simp [sequenceWord]

end

/-! ## Overlong encodings -/

section

variable {P : Plan} {a : Sym}

/-- An ASCII word is compatible with the words of other bytes. -/
theorem compat_ascii {w : Word} {b : Sym} (ha : a.lo < 0x80) (hb : 0x80 ≤ b.lo) :
    P.Compat [a] (b :: w) := by
  rintro rfl
  omega

/-- The labels of `Add_80_10ffff`: a continuation byte, and the first bytes of 2, 3 and 4. -/
def contSym : Sym := ⟨0x80, 0xBF, 0⟩

def lead2Sym : Sym := ⟨0xC2, 0xDF, 0⟩

def lead3Sym : Sym := ⟨0xE0, 0xEF, 0⟩

def lead4Sym : Sym := ⟨0xF0, 0xF4, 0⟩

end

/-! ## A range -/

section

variable {P : Plan} {lo hi : Nat}

/-- The plan under which the range `lo` to `hi` is compiled. -/
def Plan.Covers (P : Plan) (lo hi : Nat) : Prop :=
  (∃ base reversed, P = exact base reversed ∧ ¬ (lo ≤ 0x80 ∧ hi = 0x10FFFF)) ∨
    ∃ base reversed, P = wide base reversed ∧ (hi < 0x80 ∨ lo ≤ 0x80 ∧ hi = 0x10FFFF)

/-- Both parts of a range that is split below 10FFFF are covered. -/
theorem Plan.Covers.split {mid : Nat} (h : P.Covers lo hi) (hlo : lo ≤ mid) (hhi : mid < hi)
    (hmax : hi ≤ 0x10FFFF) (hmid : hi = 0x10FFFF → lo ≤ 0x80 → mid = 0x7F) :
    P.Covers lo mid ∧ P.Covers (mid + 1) hi := by
  rcases h with ⟨base, reversed, rfl, hno⟩ | ⟨base, reversed, rfl, hc⟩
  · exact ⟨.inl ⟨base, reversed, rfl, by omega⟩, .inl ⟨base, reversed, rfl, by omega⟩⟩
  · exact ⟨.inr ⟨base, reversed, rfl, by omega⟩, .inr ⟨base, reversed, rfl, by omega⟩⟩

theorem bytes_singleton {y : Word} {r : Nat} (h : P.bytes y = [r]) :
    ∃ b : Sym, y = [b] ∧ b.lo = r := by
  have hlen : y.length = 1 := by
    have := congrArg List.length h
    unfold Plan.bytes at this
    cases hrev : P.reversed <;> simpa [hrev] using this
  obtain ⟨b, rfl⟩ := List.length_eq_one_iff.1 hlen
  refine ⟨b, rfl, ?_⟩
  unfold Plan.bytes at h
  cases hrev : P.reversed <;> simpa [hrev] using h

theorem bytes_ascii {a : Sym} : P.bytes [a] = [a.lo] := by
  unfold Plan.bytes
  cases P.reversed <;> rfl

theorem splitLength_wide (h : lo ≤ 0x7F) (h' : 0x7F < hi) : splitLength lo hi = some 0x7F := by
  unfold splitLength
  rw [List.find?_cons_of_pos]
  · rfl
  · simpa [maxRune] using ⟨h, h'⟩

/-- A range from ASCII to 10FFFF is split behind ASCII. -/
theorem not_wide (hne : ¬ (lo = 0x80 ∧ hi = 0x10FFFF)) (hlen : splitLength lo hi = none) :
    ¬ (lo ≤ 0x80 ∧ hi = 0x10FFFF) := by
  rintro ⟨hlo, hhi⟩
  rw [splitLength_wide (by omega) (by omega)] at hlen
  cases hlen

end

/-! ## A character class -/

section

variable {P : Plan} {s : RangeCompiler}

/-- The rune ranges of a character class: not empty, in ascending order, and disjoint. -/
structure ClassRanges (ranges : List RuneRange) : Prop where
  bounds : ∀ r ∈ ranges, r.lo ≤ r.hi ∧ r.hi ≤ 0x10FFFF
  sorted : ranges.Pairwise fun r r' => r.hi < r'.lo

/-- Nothing has been added yet. -/
theorem fits_beginRange (hinv : Inv s.toCompiler) (hpos : 0 < s.ninst) (hf : s.failed = false)
    (hbase : P.base = s.ninst) (hrev : P.reversed = s.reversed) :
    Fits P ⟨fun _ => none, ∅, []⟩ s.ninst
      { s with runeCache := fun _ => none, runeRange := ⟨0, .null⟩ } where
  inv := hinv
  failed := hf
  reversed := hrev.symm
  top := Nat.le_refl _
  pos := hpos
  base := Nat.le_of_eq hbase
  bound hr := by cases hr
  role hr := by cases hr
  cache hk := by cases hk
  begin := .inl rfl
  mem_ends := by
    intro x
    constructor
    · exact fun hx => absurd hx List.not_mem_nil
    · rintro ⟨a, ha⟩
      cases ha
  nodup := List.nodup_nil
  links := rfl
  tail e he := by cases he

/-- The ranges of a class are covered by one plan. -/
theorem exists_plan {ranges : List RuneRange} (h : ClassRanges ranges) (base : Nat)
    (reversed : Bool) :
    ∃ P : Plan, P.base = base ∧ P.reversed = reversed ∧ ∀ r ∈ ranges, P.Covers r.lo r.hi := by
  by_cases hwide : ∃ r ∈ ranges, r.lo ≤ 0x80 ∧ r.hi = 0x10FFFF
  · obtain ⟨w, hw, hlo, hhi⟩ := hwide
    refine ⟨.wide base reversed, rfl, rfl, fun r hr => .inr ⟨base, reversed, rfl, ?_⟩⟩
    by_cases hrw : r = w
    · exact .inr (hrw ▸ ⟨hlo, hhi⟩)
    · have hsymm : Std.Symm fun r r' : RuneRange => r.hi < r'.lo ∨ r'.hi < r.lo :=
        ⟨fun _ _ => Or.symm⟩
      have hpair : ranges.Pairwise fun r r' => r.hi < r'.lo ∨ r'.hi < r.lo := h.sorted.imp Or.inl
      have hdisjoint := hpair.forall hr hw hrw
      have := h.bounds r hr
      omega
  · refine ⟨.exact base reversed, rfl, rfl, fun r hr => .inl ⟨base, reversed, rfl, fun hr' => ?_⟩⟩
    exact hwide ⟨r, hr, hr'⟩

end

end FourFuzzers.Re2
