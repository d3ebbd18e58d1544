import FourFuzzers.Re2.Verify.Trie

/-!
# Encoded ranges as words

The words of a rune range, with what `AddRuneRangeUTF8` caches of them. The encodings of two runes
part at some byte, and before it they are cached alike: whether a byte is cached depends on its
range and on its distance from the first byte and the last one, and the first byte tells the length.
-/

namespace FourFuzzers.Re2

/-! ## Encodings -/

/-- The length of a sequence, from its first byte. -/
def sequenceLength (lead : Nat) : Nat :=
  if lead < 0x80 then 1 else if lead < 0xE0 then 2 else if lead < 0xF0 then 3 else 4

/-- A continuation byte -/
def IsContinuation (byte : Nat) : Prop := 0x80 ≤ byte ∧ byte < 0xC0

section

variable {r : Nat}

theorem runetochar_one (h : r ≤ 0x7F) : runetochar r = [r] := by
  unfold runetochar
  rw [if_pos h]

theorem runetochar_two (h : 0x80 ≤ r) (h' : r ≤ 0x7FF) :
    runetochar r = [0xC0 + r / 64, 0x80 + r % 64] := by
  unfold runetochar
  rw [if_neg (by omega), if_pos h']

theorem runetochar_three (h : 0x800 ≤ r) (h' : r ≤ 0xFFFF) :
    runetochar r = [0xE0 + r / 4096, 0x80 + r / 64 % 64, 0x80 + r % 64] := by
  have hmax : ¬ 0x10FFFF < r := by omega
  unfold runetochar
  dsimp only
  rw [if_neg (by omega), if_neg (by omega), if_neg hmax, if_pos h']

theorem runetochar_four (h : 0x10000 ≤ r) (h' : r ≤ 0x10FFFF) :
    runetochar r =
      [0xF0 + r / 262144, 0x80 + r / 4096 % 64, 0x80 + r / 64 % 64, 0x80 + r % 64] := by
  unfold runetochar
  dsimp only
  rw [if_neg (by omega), if_neg (by omega), if_neg (Nat.not_lt.2 h'),
    if_neg (by omega)]

theorem runetochar_cases (h : r ≤ 0x10FFFF) :
    r ≤ 0x7F ∨ (0x80 ≤ r ∧ r ≤ 0x7FF) ∨ (0x800 ≤ r ∧ r ≤ 0xFFFF) ∨ 0x10000 ≤ r := by
  omega

theorem runetochar_shape (h : r ≤ 0x10FFFF) :
    ∃ lead rest, runetochar r = lead :: rest ∧ ¬ IsContinuation lead ∧
      (∀ b ∈ rest, IsContinuation b) ∧ rest.length + 1 = sequenceLength lead := by
  rcases runetochar_cases h with h1 | ⟨h2, h2'⟩ | ⟨h3, h3'⟩ | h4
  · refine ⟨_, _, runetochar_one h1, ?_, by simp, ?_⟩
    · unfold IsContinuation
      omega
    · unfold sequenceLength
      rw [if_pos (by omega)]
      rfl
  · refine ⟨_, _, runetochar_two h2 h2', ?_, ?_, ?_⟩
    · unfold IsContinuation
      omega
    · simp only [List.mem_singleton, forall_eq, IsContinuation]
      omega
    · unfold sequenceLength
      rw [if_neg (by omega), if_pos (by omega)]
      rfl
  · refine ⟨_, _, runetochar_three h3 h3', ?_, ?_, ?_⟩
    · unfold IsContinuation
      omega
    · simp only [List.mem_cons, List.not_mem_nil, or_false, forall_eq_or_imp, forall_eq,
        IsContinuation]
      omega
    · unfold sequenceLength
      rw [if_neg (by omega), if_neg (by omega), if_pos (by omega)]
      rfl
  · refine ⟨_, _, runetochar_four h4 h, ?_, ?_, ?_⟩
    · unfold IsContinuation
      omega
    · simp only [List.mem_cons, List.not_mem_nil, or_false, forall_eq_or_imp, forall_eq,
        IsContinuation]
      omega
    · unfold sequenceLength
      rw [if_neg (by omega), if_neg (by omega), if_neg (by omega)]
      rfl

theorem runetochar_lt (h : r ≤ 0x10FFFF) : ∀ b ∈ runetochar r, b < 256 := by
  rcases runetochar_cases h with h1 | ⟨h2, h2'⟩ | ⟨h3, h3'⟩ | h4
  · rw [runetochar_one h1]
    simp only [List.mem_singleton, forall_eq]
    omega
  · rw [runetochar_two h2 h2']
    simp only [List.mem_cons, List.not_mem_nil, or_false, forall_eq_or_imp, forall_eq]
    omega
  · rw [runetochar_three h3 h3']
    simp only [List.mem_cons, List.not_mem_nil, or_false, forall_eq_or_imp, forall_eq]
    omega
  · rw [runetochar_four h4 h]
    simp only [List.mem_cons, List.not_mem_nil, or_false, forall_eq_or_imp, forall_eq]
    omega

/-- The rune that a sequence encodes. -/
def decode (bytes : List Nat) : Nat :=
  match bytes with
  | [a] => a
  | [a, b] => (a - 0xC0) * 64 + (b - 0x80)
  | [a, b, c] => (a - 0xE0) * 4096 + (b - 0x80) * 64 + (c - 0x80)
  | [a, b, c, d] => (a - 0xF0) * 262144 + (b - 0x80) * 4096 + (c - 0x80) * 64 + (d - 0x80)
  | _ => 0

theorem decode_runetochar (h : r ≤ 0x10FFFF) : decode (runetochar r) = r := by
  rcases runetochar_cases h with h1 | ⟨h2, h2'⟩ | ⟨h3, h3'⟩ | h4
  · rw [runetochar_one h1]
    rfl
  · rw [runetochar_two h2 h2']
    unfold decode
    dsimp only
    omega
  · rw [runetochar_three h3 h3']
    unfold decode
    dsimp only
    omega
  · rw [runetochar_four h4 h]
    unfold decode
    dsimp only
    omega

end

theorem runetochar_inj {r r' : Nat} (h : r ≤ 0x10FFFF) (h' : r' ≤ 0x10FFFF)
    (heq : runetochar r = runetochar r') : r = r' := by
  rw [← decode_runetochar h, heq, decode_runetochar h']

/-! ## Plans -/

/-- Forward, a byte behind the first is cached when it is a proper range. -/
def forwardFlag : Word → Prop
  | [] => False
  | a :: _ => IsContinuation a.lo ∧ a.lo < a.hi

/-- In reverse, a byte before the last is cached when it is a single one. -/
def reversedFlag (w : Word) : Prop :=
  (∃ a ∈ w.head?, a.lo = a.hi) ∧ ∃ lead ∈ w.getLast?, w.length < sequenceLength lead.lo

namespace Plan

/-- Each range is compiled to the encodings of its runes. -/
def exact (base : Nat) (reversed : Bool) : Plan where
  base := base
  reversed := reversed
  strict := True
  flag := if reversed then reversedFlag else forwardFlag

/-- 80-10FFFF is compiled with overlong encodings, and every other range is ASCII. -/
def wide (base : Nat) (reversed : Bool) : Plan where
  base := base
  reversed := reversed
  strict := reversed = true
  flag := fun _ => False

/-- The first bytes of the ranges, in the order of the encoding. -/
def bytes (P : Plan) (w : Word) : List Nat := (if P.reversed then w.reverse else w).map Sym.lo

end Plan

/-! ## Compatible words -/

variable {base : Nat}

theorem compat_forward_rest {y w : Word} (hlen : y.length = w.length)
    (hne : y.map Sym.lo ≠ w.map Sym.lo) : (Plan.exact base false).Compat y w := by
  induction y generalizing w with
  | nil => trivial
  | cons a y ih =>
    cases w with
    | nil => trivial
    | cons b w =>
      rintro rfl
      have hlen' : y.length = w.length := Nat.succ.inj hlen
      have hne' : y.map Sym.lo ≠ w.map Sym.lo := fun heq => hne (by simp [heq])
      refine ⟨trivial, ?_, ?_, id, ih hlen' hne'⟩
      · rintro rfl
        rw [List.eq_nil_of_length_eq_zero hlen'.symm] at hne'
        exact hne' rfl
      · rintro rfl
        rw [List.eq_nil_of_length_eq_zero hlen'] at hne'
        exact hne' rfl

theorem compat_forward {y w : Word} {r r' : Nat} (hr : r ≤ 0x10FFFF) (hr' : r' ≤ 0x10FFFF)
    (hne : r ≠ r') (hy : y.map Sym.lo = runetochar r) (hw : w.map Sym.lo = runetochar r') :
    (Plan.exact base false).Compat y w := by
  obtain ⟨lead, rest, hb, -, -, hlen⟩ := runetochar_shape hr
  obtain ⟨lead', rest', hb', -, -, hlen'⟩ := runetochar_shape hr'
  have hdiff : y.map Sym.lo ≠ w.map Sym.lo := by
    rw [hy, hw]
    exact fun heq => hne (runetochar_inj hr hr' heq)
  cases y with
  | nil => trivial
  | cons a y =>
    cases w with
    | nil => trivial
    | cons b w =>
      intro hab
      rw [hb, List.map_cons] at hy
      rw [hb', List.map_cons] at hw
      obtain ⟨ha, hy⟩ := List.cons.inj hy
      obtain ⟨hb, hw⟩ := List.cons.inj hw
      have hsame : (a :: y).length = (b :: w).length := by
        rw [← hy, List.length_map, ← ha] at hlen
        rw [← hw, List.length_map, ← hb, ← hab] at hlen'
        simp only [List.length_cons]
        omega
      exact compat_forward_rest hsame hdiff hab

/-- The rest of a sequence in reverse, where `d` bytes behind it are gone. -/
inductive Reversed : Nat → Word → Prop
  | lead {d : Nat} {a : Sym} : ¬ IsContinuation a.lo → 1 + d = sequenceLength a.lo → Reversed d [a]
  | cons {d : Nat} {a : Sym} {w : Word} : IsContinuation a.lo → Reversed (d + 1) w →
      Reversed d (a :: w)

namespace Reversed

theorem ne_nil {d : Nat} {w : Word} (h : Reversed d w) : w ≠ [] := by
  cases h with
  | lead => exact List.cons_ne_nil _ _
  | cons => exact List.cons_ne_nil _ _

theorem length {d : Nat} {w : Word} (h : Reversed d w) :
    ∃ lead, w.getLast? = some lead ∧ w.length + d = sequenceLength lead.lo := by
  induction h with
  | @lead d a _ hlen => exact ⟨a, rfl, hlen⟩
  | @cons d a w _ hw ih =>
    obtain ⟨lead, hlast, hlen⟩ := ih
    refine ⟨lead, ?_, ?_⟩
    · rw [List.getLast?_cons, hlast]
      rfl
    · rw [List.length_cons, ← hlen]
      omega

theorem flag_iff {d : Nat} {a : Sym} {w : Word} (h : Reversed d (a :: w)) :
    reversedFlag (a :: w) ↔ a.lo = a.hi ∧ 0 < d := by
  obtain ⟨lead, hlast, hlen⟩ := h.length
  unfold reversedFlag
  rw [hlast]
  simp only [List.head?_cons, Option.mem_some_iff, exists_eq_left']
  omega

theorem compat {d : Nat} {y w : Word} (hy : Reversed d y) (hw : Reversed d w)
    (hne : y.map Sym.lo ≠ w.map Sym.lo) : (Plan.exact base true).Compat y w := by
  induction hy generalizing w with
  | @lead d a ha hlen =>
    cases hw with
    | lead =>
      rintro rfl
      exact absurd rfl hne
    | cons hb =>
      rintro rfl
      exact absurd hb ha
  | @cons d a y ha hy ih =>
    have hflag := (Reversed.cons ha hy).flag_iff
    cases hw with
    | lead hb =>
      rintro rfl
      exact absurd ha hb
    | @cons _ b w hb hw =>
      have hflag' := (Reversed.cons hb hw).flag_iff
      rintro rfl
      refine ⟨trivial, hy.ne_nil, hw.ne_nil, ?_, ih hw fun heq => hne (by simp [heq])⟩
      exact fun h => hflag'.2 (hflag.1 h)

/-- The bytes of an encoding in reverse. -/
theorem of_shape {w : Word} {lead : Nat} {rest : List Nat} {d : Nat}
    (hw : w.map Sym.lo = rest ++ [lead]) (hlead : ¬ IsContinuation lead)
    (hrest : ∀ b ∈ rest, IsContinuation b) (hlen : rest.length + 1 + d = sequenceLength lead) :
    Reversed d w := by
  induction rest generalizing w d with
  | nil =>
    obtain ⟨a, w, rfl, rfl, hnil⟩ := List.map_eq_cons_iff.1 hw
    rw [List.map_eq_nil_iff.1 hnil]
    exact .lead hlead (by simpa using hlen)
  | cons b rest ih =>
    obtain ⟨a, w, rfl, rfl, htail⟩ := List.map_eq_cons_iff.1 hw
    apply Reversed.cons (hrest _ List.mem_cons_self)
    apply ih htail fun c hc => hrest c (List.mem_cons_of_mem _ hc)
    rw [List.length_cons] at hlen
    omega

end Reversed

/-- The words of different runes are compatible. -/
theorem compat_exact {reversed : Bool} {y w : Word} {r r' : Nat} (hr : r ≤ 0x10FFFF)
    (hr' : r' ≤ 0x10FFFF) (hne : r ≠ r') (hy : (Plan.exact base reversed).bytes y = runetochar r)
    (hw : (Plan.exact base reversed).bytes w = runetochar r') :
    (Plan.exact base reversed).Compat y w := by
  cases reversed with
  | false => exact compat_forward hr hr' hne hy hw
  | true =>
    have hrev : ∀ {v : Word} {q : Nat}, q ≤ 0x10FFFF →
        (Plan.exact base true).bytes v = runetochar q → Reversed 0 v ∧ v.map Sym.lo = (runetochar q).reverse := by
      intro v q hq hv
      have hmap : v.map Sym.lo = (runetochar q).reverse := by
        rw [← hv]
        change _ = (v.reverse.map Sym.lo).reverse
        rw [List.map_reverse, List.reverse_reverse]
      obtain ⟨lead, rest, hb, hlead, hrest, hlen⟩ := runetochar_shape hq
      refine ⟨?_, hmap⟩
      rw [hb, List.reverse_cons] at hmap
      apply Reversed.of_shape hmap hlead
      · exact fun b hb => hrest b (List.mem_reverse.1 hb)
      · rw [List.length_reverse, hlen]
    obtain ⟨hy, hymap⟩ := hrev hr hy
    obtain ⟨hw, hwmap⟩ := hrev hr' hw
    apply hy.compat hw
    rw [hymap, hwmap]
    intro heq
    exact hne (runetochar_inj hr hr' (List.reverse_injective heq))

end FourFuzzers.Re2
