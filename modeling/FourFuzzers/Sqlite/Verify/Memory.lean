import FourFuzzers.Sqlite.Keywords
import FourFuzzers.Sqlite.Memory
import FourFuzzers.Sqlite.Verify.Tokenizer

/-!
# The tokenizer stays inside its text

Every loop of the tokenizer in memory computes what its counterpart on lists computes, and reads
nothing behind the terminator. The bounds of a token, proved for lists, then carry over, and with
them the partition of a text into its tokens.
-/

namespace FourFuzzers.Sqlite

open FourFuzzers.Lib FourFuzzers.Lib.Traced

/-! ## Texts in memory -/

namespace SqlText

variable (t : SqlText) {i : Nat}

/-- The bytes before the terminator. -/
def text : List UInt8 := (List.range t.length).map t.z

@[simp] theorem length_text : t.text.length = t.length := by
  simp [text]

theorem lt_of_ne_nul (hi : i ≤ t.length) (h : t.z i ≠ 0) : i < t.length := by
  apply Nat.lt_of_le_of_ne hi
  rintro rfl
  exact h t.nul

/-- A condition that fails on the terminator allows a look at the next byte. -/
theorem succ_le (p : UInt8 → Bool) (hp : p 0 = false) (hi : i ≤ t.length) (h : p (t.z i) = true) :
    i + 1 ≤ t.length := by
  apply t.lt_of_ne_nul hi
  intro hz
  rw [hz, hp] at h
  exact Bool.false_ne_true h

theorem drop_text (hi : i < t.length) : t.text.drop i = t.z i :: t.text.drop (i + 1) := by
  rw [List.drop_eq_getElem_cons (by simpa using hi)]
  simp [text]

theorem drop_text_length : t.text.drop t.length = [] := by
  apply List.drop_eq_nil_of_le
  exact Nat.le_of_eq t.length_text

/-- What is left of the text at `i`, as a loop looks at it. -/
theorem text_cases (hi : i ≤ t.length) :
    (i = t.length ∧ t.z i = 0 ∧ t.text.drop i = []) ∨
      (i < t.length ∧ t.z i ≠ 0 ∧ t.text.drop i = t.z i :: t.text.drop (i + 1)) := by
  rcases Nat.lt_or_eq_of_le hi with hlt | rfl
  · exact .inr ⟨hlt, t.ne_nul i hlt, t.drop_text hlt⟩
  · exact .inl ⟨rfl, t.nul, t.drop_text_length⟩

theorem byte_text (hi : i ≤ t.length) : byte t.text i = t.z i := by
  rcases Nat.lt_or_eq_of_le hi with hlt | rfl
  · simp [byte, text, hlt]
  · rw [t.nul]
    exact byte_eq_zero_of_le (by simp)

/-- The text behind its first `n` bytes. -/
def advance (n : Nat) (hn : n ≤ t.length) : SqlText where
  z := t.z.advance n
  length := t.length - n
  nul := by
    have h : n + (t.length - n) = t.length := by omega
    rw [Memory.advance, h, t.nul]
  ne_nul i hi := t.ne_nul (n + i) (by omega)

end SqlText

/-- An access that stays inside a text of `N` bytes and its terminator. The copy of BUG_S1 takes its
length as an `int`. -/
def Access.Within (N : Nat) : Access → Prop
  | read i => i ≤ N
  | copy n => N < 2 ^ 31 → n ≤ N
  | outOfFuel => False

/-- Traces of accesses inside the text. -/
abbrev inside (t : SqlText) : LogProp Access := .every (Access.Within t.length)

section

variable {t : SqlText} {i fuel : Nat} {α : Type} {Q : α → Prop}

theorem meets_peek {f : UInt8 → Reader α} (hi : i ≤ t.length)
    (h : Meets (inside t) Q (f (t.z i))) : Meets (inside t) Q (peek t.z i >>= f) := by
  have hread : Meets (inside t) (· = t.z i) (peek t.z i) := by
    refine ⟨fun e he => ?_, rfl⟩
    rw [List.mem_singleton.1 he]
    exact hi
  apply hread.bind
  rintro c rfl
  exact h

theorem meets_test {p : UInt8 → Bool} (hi : i ≤ t.length) :
    Meets (inside t) (· = p (t.z i)) (test t.z i p) :=
  meets_peek hi (.pure rfl)

/-- A byte that is read when `b` holds. -/
theorem meets_and_test {b : Bool} {p : UInt8 → Bool} (hi : i ≤ t.length) :
    Meets (inside t) (· = (b && p (t.z i))) (both (pure b) (test t.z i p)) :=
  (Meets.pure rfl).both fun _ => meets_test hi

/-! ## Loops -/

theorem scanMem_meets {p : UInt8 → Bool} (hp : p 0 = false) (hi : i ≤ t.length)
    (hf : t.length - i < fuel) :
    Meets (inside t) (· = scan p (t.text.drop i) i) (scanMem t.z p fuel i) := by
  induction fuel generalizing i with
  | zero => omega
  | succ fuel ih =>
    unfold scanMem
    apply meets_peek hi
    rcases t.text_cases hi with ⟨-, hz, hdrop⟩ | ⟨hlt, -, hdrop⟩
    · rw [hz, hp, hdrop]
      exact .pure rfl
    · rw [hdrop, scan]
      by_cases hc : p (t.z i) = true
      · rw [if_pos hc, if_pos hc]
        exact ih hlt (by omega)
      · rw [if_neg hc, if_neg hc]
        exact .pure rfl

theorem scanDigitsMem_meets {p : UInt8 → Bool} {ty : Tk} (hp : p 0 = false) (hi : i ≤ t.length)
    (hf : t.length - i < fuel) :
    Meets (inside t) (· = scanDigits p (t.text.drop i) i ty) (scanDigitsMem t.z p fuel i ty) := by
  induction fuel generalizing i ty with
  | zero => omega
  | succ fuel ih =>
    unfold scanDigitsMem
    apply meets_peek hi
    rcases t.text_cases hi with ⟨-, hz, hdrop⟩ | ⟨hlt, -, hdrop⟩
    · rw [hz, hp, hdrop, if_neg (by decide), if_neg (by decide)]
      exact .pure rfl
    · rw [hdrop, scanDigits]
      by_cases hc : p (t.z i) = true
      · rw [if_pos hc, if_pos hc]
        exact ih hlt (by omega)
      · rw [if_neg hc, if_neg hc]
        by_cases hsep : t.z i = 0x5F
        · rw [if_pos hsep, if_pos hsep]
          exact ih hlt (by omega)
        · rw [if_neg hsep, if_neg hsep]
          exact .pure rfl

theorem skipCommentMem_meets {c : UInt8} (hi : i ≤ t.length) (hf : t.length - i < fuel) :
    Meets (inside t) (· = skipComment c (t.text.drop i) i) (skipCommentMem t.z fuel c i) := by
  induction fuel generalizing i c with
  | zero => omega
  | succ fuel ih =>
    unfold skipCommentMem
    apply (meets_and_test hi).bind
    rintro b rfl
    rcases t.text_cases hi with ⟨-, hz, hdrop⟩ | ⟨hlt, hne, hdrop⟩
    · rw [hdrop, hz, if_neg (by simp)]
      apply meets_peek hi
      rw [if_pos hz]
      exact .pure rfl
    · rw [hdrop, skipComment]
      by_cases hend : c = 0x2A ∧ t.z i = 0x2F
      · rw [if_pos hend, if_pos (by simpa using hend)]
        exact .pure rfl
      · rw [if_neg hend, if_neg hne, if_neg (by simpa using hend)]
        apply meets_peek hi
        rw [if_neg hne]
        exact ih hlt (by omega)

/-- The loop over a quoted text, one step of it. -/
theorem skipQuoted_text {delim : UInt8} (hd : delim ≠ 0) (hi : i < t.length) :
    skipQuoted delim (t.text.drop i) i =
      if t.z i = delim then
        if t.z (i + 1) = delim then skipQuoted delim (t.text.drop (i + 2)) (i + 2) else (t.z i, i)
      else skipQuoted delim (t.text.drop (i + 1)) (i + 1) := by
  have hne := t.ne_nul i hi
  rw [t.drop_text hi]
  rcases t.text_cases (i := i + 1) hi with ⟨-, hz, hdrop⟩ | ⟨hlt, -, hdrop⟩
  · have hne' : ¬ (0 : UInt8) = delim := fun h => hd h.symm
    rw [hdrop, hz, if_neg hne']
    unfold skipQuoted
    rw [if_neg hne]
  · rw [hdrop, skipQuoted, if_neg hne]

theorem skipQuotedMem_meets {delim : UInt8} (hd : delim ≠ 0) (hi : i ≤ t.length)
    (hf : t.length - i < fuel) :
    Meets (inside t) (· = skipQuoted delim (t.text.drop i) i) (skipQuotedMem t.z delim fuel i) := by
  induction fuel generalizing i with
  | zero => omega
  | succ fuel ih =>
    unfold skipQuotedMem
    apply meets_peek hi
    rcases t.text_cases hi with ⟨-, hz, hdrop⟩ | ⟨hlt, hne, -⟩
    · rw [hdrop, if_pos hz]
      exact .pure rfl
    · rw [if_neg hne, skipQuoted_text hd hlt]
      by_cases hc : t.z i = delim
      · rw [if_pos hc, if_pos hc]
        apply meets_peek hlt
        by_cases hc' : t.z (i + 1) = delim
        · have hlt' := t.lt_of_ne_nul hlt (by rw [hc']; exact hd)
          rw [if_pos hc', if_pos hc']
          exact ih hlt' (by omega)
        · rw [if_neg hc', if_neg hc']
          exact .pure rfl
      · rw [if_neg hc, if_neg hc]
        exact ih hlt (by omega)

theorem skipBracketedMem_meets {c : UInt8} (hi : i ≤ t.length) (hf : t.length - i < fuel) :
    Meets (inside t) (· = skipBracketed c (t.text.drop i) i) (skipBracketedMem t.z fuel c i) := by
  induction fuel generalizing i c with
  | zero => omega
  | succ fuel ih =>
    unfold skipBracketedMem
    by_cases hc : c = 0x5D
    · rw [if_pos hc]
      rcases t.text_cases hi with ⟨-, -, hdrop⟩ | ⟨-, -, hdrop⟩
      · rw [hdrop, skipBracketed, if_pos hc]
        exact .pure rfl
      · rw [hdrop, skipBracketed, if_pos hc]
        exact .pure rfl
    · rw [if_neg hc]
      apply meets_peek hi
      rcases t.text_cases hi with ⟨-, hz, hdrop⟩ | ⟨hlt, hne, hdrop⟩
      · rw [hdrop, skipBracketed, if_neg hc, if_pos hz]
        exact .pure rfl
      · rw [hdrop, skipBracketed, if_neg hc, if_neg hne, if_neg hne]
        exact ih hlt (by omega)

/-- Counting on from `i` is adding `i`. -/
theorem scan_add (p : UInt8 → Bool) (z : List UInt8) (i : Nat) : scan p z i = i + scan p z 0 := by
  induction z generalizing i with
  | nil => rfl
  | cons c z ih =>
    rw [scan, scan]
    split
    · rw [ih (i + 1), ih (0 + 1)]
      omega
    · rfl

theorem scanVariableMem_meets {n : Int} (hi : i ≤ t.length) (hf : t.length - i < fuel) :
    Meets (inside t) (· = (scanVariable .full (t.text.drop i) i n).val)
      (scanVariableMem t.z fuel i n) := by
  induction fuel generalizing i n with
  | zero => omega
  | succ fuel ih =>
    unfold scanVariableMem
    apply meets_peek hi
    rcases t.text_cases hi with ⟨-, hz, hdrop⟩ | ⟨hlt, hne, hdrop⟩
    · rw [hdrop, if_pos hz, scanVariable]
      exact .pure rfl
    rw [if_neg hne, hdrop, scanVariable, if_neg hne]
    by_cases hid : idChar (t.z i) = true
    · rw [if_pos hid, if_pos hid]
      exact ih hlt (by omega)
    rw [if_neg hid, if_neg hid]
    by_cases hp : t.z i = 0x28 ∧ 0 < n
    · -- the parenthesis: the inner loop and its last byte
      rw [if_pos hp, if_pos hp]
      apply (scanMem_meets (i := i + 1) (by decide) hlt (by omega)).bind
      rintro k rfl
      dsimp only
      rw [scan_add _ _ (i + 1)]
      generalize hk : scan (fun c => c ≠ 0 && !isspace c && c ≠ 0x29) (t.text.drop (i + 1)) 0 = k
      have hle : k ≤ 0 + (t.text.drop (i + 1)).length := by
        rw [← hk]
        exact scan_le
      rw [List.length_drop, t.length_text] at hle
      rw [byte_drop, t.byte_text (by omega)]
      split
      · exact .pure rfl
      · exact .pure rfl
    rw [if_neg hp, if_neg hp, byte_drop, Nat.add_zero, t.byte_text hlt]
    apply (meets_and_test hlt).bind
    rintro b rfl
    by_cases hcc : t.z i = 0x3A ∧ t.z (i + 1) = 0x3A
    · have hlt' := t.lt_of_ne_nul hlt (by rw [hcc.2]; decide)
      rw [if_pos hcc, if_pos (by simpa using hcc), List.tail_drop]
      exact ih hlt' (by omega)
    · rw [if_neg hcc, if_neg (by simpa using hcc)]
      exact .pure rfl

/-! ## Numbers and blobs -/

theorem scanFractionMem_meets {ty : Tk} (hi : i ≤ t.length) (hf : t.length < fuel) :
    Meets (inside t) (· = scanFraction t.text i ty) (scanFractionMem t.z fuel i ty) := by
  unfold scanFractionMem scanFraction
  apply (meets_test hi).bind
  rintro b rfl
  rw [t.byte_text hi]
  by_cases hdot : t.z i = 0x2E
  · have hlt := t.lt_of_ne_nul hi (by rw [hdot]; decide)
    rw [if_pos hdot, if_pos (decide_eq_true hdot)]
    exact scanDigitsMem_meets (by decide) hlt (by omega)
  · rw [if_neg hdot, if_neg (by simpa using hdot)]
    exact .pure rfl

theorem scanExponentMem_meets {ty : Tk} (hi : i ≤ t.length) (hf : t.length < fuel) :
    Meets (inside t) (· = scanExponent t.text i ty) (scanExponentMem t.z fuel i ty) := by
  unfold scanExponentMem scanExponent
  let isE : UInt8 → Bool := fun c => c = 0x65 || c = 0x45
  let isSign : UInt8 → Bool := fun c => c = 0x2B || c = 0x2D
  have hone : isE (t.z i) = true → i + 1 ≤ t.length := t.succ_le isE (by decide) hi
  have htwo : isE (t.z i) = true → isSign (t.z (i + 1)) = true → i + 2 ≤ t.length :=
    fun he => t.succ_le isSign (by decide) (hone he)
  apply (Meets.both (meets_test hi) fun he => Meets.either (meets_test (hone he))
    fun _ => Meets.both (meets_test (hone he)) fun hsign => meets_test (htwo he hsign)).bind
  rintro b rfl
  have hiff : ((byte t.text i = 0x65 ∨ byte t.text i = 0x45) ∧ (isdigit (byte t.text (i + 1)) ∨
      ((byte t.text (i + 1) = 0x2B ∨ byte t.text (i + 1) = 0x2D) ∧
        isdigit (byte t.text (i + 2))))) ↔
      (isE (t.z i) && (isdigit (t.z (i + 1)) || (isSign (t.z (i + 1)) &&
        isdigit (t.z (i + 2))))) = true := by
    rw [t.byte_text hi]
    by_cases he : isE (t.z i) = true
    · rw [t.byte_text (hone he)]
      by_cases hsign : isSign (t.z (i + 1)) = true
      · rw [t.byte_text (htwo he hsign)]
        simp [isE, isSign]
      · simp_all [isE, isSign]
    · simp_all [isE]
  by_cases hexp : (isE (t.z i) && (isdigit (t.z (i + 1)) || (isSign (t.z (i + 1)) &&
        isdigit (t.z (i + 2))))) = true
  · have hle : i + 2 ≤ t.length := by
      have he := (Bool.and_eq_true_iff.1 hexp).1
      rcases Bool.or_eq_true_iff.1 (Bool.and_eq_true_iff.1 hexp).2 with hd | hs
      · exact t.succ_le isdigit (by decide) (hone he) hd
      · exact htwo he (Bool.and_eq_true_iff.1 hs).1
    rw [if_pos (hiff.2 hexp), if_pos hexp]
    exact scanDigitsMem_meets (by decide) hle (by omega)
  · rw [if_neg (mt hiff.1 hexp), if_neg hexp]
    exact .pure rfl

/-- The digits of a number, its fraction and its exponent. -/
def scanNumeral (z : List UInt8) : Nat × Tk :=
  if byte z 0 = 0x30 ∧ (byte z 1 = 0x78 ∨ byte z 1 = 0x58) ∧ isxdigit (byte z 2) then
    scanDigits isxdigit (z.drop 3) 3 Tk.integer
  else
    let (i, t) := scanDigits isdigit z 0 Tk.integer
    let (i, t) := scanFraction z i t
    scanExponent z i t

theorem scanNumber_eq (z : List UInt8) :
    scanNumber z = (scan idChar (z.drop (scanNumeral z).1) (scanNumeral z).1,
      if scan idChar (z.drop (scanNumeral z).1) (scanNumeral z).1 = (scanNumeral z).1 then
        (scanNumeral z).2 else Tk.illegal) := rfl

theorem scanNumeralMem_meets (hf : t.length < fuel) :
    Meets (inside t) (fun r => r = scanNumeral t.text ∧ r.1 ≤ t.length)
      (scanNumeralMem t.z fuel) := by
  unfold scanNumeralMem scanNumeral
  let isX : UInt8 → Bool := fun c => c = 0x78 || c = 0x58
  let isZero : UInt8 → Bool := fun c => c = 0x30
  have hone : isZero (t.z 0) = true → 1 ≤ t.length :=
    t.succ_le isZero (by decide) (Nat.zero_le _)
  have htwo : isZero (t.z 0) = true → isX (t.z 1) = true → 2 ≤ t.length :=
    fun hz => t.succ_le isX (by decide) (hone hz)
  apply (Meets.both (meets_test (Nat.zero_le _)) fun hz => Meets.both (meets_test (hone hz))
    fun hx => meets_test (htwo hz hx)).bind
  rintro b rfl
  have hiff : (byte t.text 0 = 0x30 ∧ (byte t.text 1 = 0x78 ∨ byte t.text 1 = 0x58) ∧
      isxdigit (byte t.text 2)) ↔
      (isZero (t.z 0) && (isX (t.z 1) && isxdigit (t.z 2))) = true := by
    rw [t.byte_text (Nat.zero_le _)]
    by_cases hz : isZero (t.z 0) = true
    · rw [t.byte_text (hone hz)]
      by_cases hx : isX (t.z 1) = true
      · rw [t.byte_text (htwo hz hx)]
        simp [isZero, isX]
      · simp_all [isZero, isX]
    · simp_all [isZero]
  by_cases hhex : (isZero (t.z 0) && (isX (t.z 1) && isxdigit (t.z 2))) = true
  · have hz := (Bool.and_eq_true_iff.1 hhex).1
    obtain ⟨hx, hd⟩ := Bool.and_eq_true_iff.1 (Bool.and_eq_true_iff.1 hhex).2
    have hle : 3 ≤ t.length := t.succ_le isxdigit (by decide) (htwo hz hx) hd
    rw [if_pos (hiff.2 hhex), if_pos hhex]
    apply (scanDigitsMem_meets (by decide) hle (by omega)).mono
    rintro r rfl
    have hbound := (scanDigits_drop_le (p := isxdigit) (z := t.text) (i := 3) (t := Tk.integer)
      (by simpa using hle)).2
    exact ⟨rfl, by simpa using hbound⟩
  · have hdigits := scanDigits_bounds (p := isdigit) (z := t.text) (i := 0) (t := Tk.integer)
    have hinteger := scanDigits_ordinary (p := isdigit) (z := t.text) (i := 0) (t := Tk.integer)
      (by decide)
    rw [if_neg (mt hiff.1 hhex), if_neg hhex]
    apply (scanDigitsMem_meets (i := 0) (by decide) (Nat.zero_le _) (by omega)).bind
    rintro ⟨i, ty⟩ heq
    rw [List.drop_zero] at heq
    rw [← heq] at hdigits hinteger ⊢
    rw [Nat.zero_add] at hdigits
    have hfraction := scanFraction_ok hdigits.2 hinteger
    apply (scanFractionMem_meets (by simpa using hdigits.2) hf).bind
    rintro ⟨j, ty'⟩ heq'
    dsimp only at hfraction ⊢
    rw [← heq'] at hfraction ⊢
    have hexponent := scanExponent_ok hfraction.2.1 hfraction.2.2.1
    apply (scanExponentMem_meets (by simpa using hfraction.2.1) hf).mono
    rintro r rfl
    exact ⟨rfl, by simpa using hexponent.2.1⟩

theorem scanNumberMem_meets (hf : t.length < fuel) :
    Meets (inside t) (· = scanNumber t.text) (scanNumberMem t.z fuel) := by
  unfold scanNumberMem
  rw [scanNumber_eq]
  apply (scanNumeralMem_meets hf).bind
  rintro ⟨i, ty⟩ ⟨heq, hle⟩
  rw [← heq]
  apply (scanMem_meets (by decide) hle (by omega)).bind
  rintro j rfl
  exact .pure rfl

theorem scanBlobMem_meets (h2 : 2 ≤ t.length) (hf : t.length < fuel) :
    Meets (inside t) (· = scanBlob t.text) (scanBlobMem t.z fuel) := by
  unfold scanBlobMem scanBlob scanBlobBodyMem
  rw [bind_assoc]
  have hle : scan isxdigit (t.text.drop 2) 2 ≤ t.length := by
    simpa using scan_drop_le (p := isxdigit) (z := t.text) (i := 2) (by simpa using h2)
  apply (scanMem_meets (by decide) h2 (by omega)).bind
  rintro i rfl
  generalize scan isxdigit (t.text.drop 2) 2 = i at hle ⊢
  rw [bind_assoc]
  apply ((meets_test hle).either fun _ => .pure rfl).bind
  rintro b rfl
  dsimp only
  rw [t.byte_text hle]
  by_cases hbad : t.z i ≠ 0x27 ∨ i % 2 ≠ 0
  · have hle' : scan (fun c => c ≠ 0 && c ≠ 0x27) (t.text.drop i) i ≤ t.length := by
      simpa using scan_drop_le (p := fun c => c ≠ 0 && c ≠ 0x27) (z := t.text) (i := i)
        (by simpa using hle)
    rw [if_pos hbad, if_pos (c := _ = true) (by simpa using hbad), bind_assoc]
    apply (scanMem_meets (by decide) hle (by omega)).bind
    rintro j rfl
    rw [pure_bind]
    apply meets_peek hle'
    rw [t.byte_text hle']
    exact .pure rfl
  · rw [if_neg hbad, if_neg (c := _ = true) (by simpa using hbad), pure_bind]
    apply meets_peek hle
    exact .pure rfl

/-! ## The switch -/

theorem switchClassMem_nul (h0 : t.length = 0) :
    Meets (inside t) (· = .token 0 Tk.illegal) (switchClassMem t.z fuel) := by
  have hz : t.z 0 = 0 := by
    rw [← h0]
    exact t.nul
  have hclass : aiClass (t.z 0) = .nul := by
    rw [hz]
    decide
  unfold switchClassMem
  apply meets_peek (Nat.zero_le _)
  rw [hclass]
  exact .pure rfl

theorem switchClassMem_meets (hpos : 0 < t.length) (hf : t.length < fuel) :
    Meets (inside t) (· = (switchClass .full t.text).val) (switchClassMem t.z fuel) := by
  have h0 : t.z 0 ≠ 0 := t.ne_nul 0 hpos
  have h1 : 1 ≤ t.length := hpos
  unfold switchClassMem switchClass
  apply meets_peek (Nat.zero_le _)
  rw [t.byte_text (Nat.zero_le _)]
  cases hclass : aiClass (t.z 0) with
  | space =>
    apply (scanMem_meets (by decide) h1 (by omega)).bind
    rintro i rfl
    exact .pure rfl
  | minus =>
    dsimp only
    apply meets_peek h1
    rw [t.byte_text h1]
    by_cases hc : t.z 1 = 0x2D
    · have h2 : 2 ≤ t.length := t.lt_of_ne_nul h1 (by rw [hc]; decide)
      rw [if_pos hc, if_pos hc]
      apply (scanMem_meets (by decide) h2 (by omega)).bind
      rintro i rfl
      exact .pure rfl
    · rw [if_neg hc, if_neg hc]
      by_cases hp : t.z 1 = 0x3E
      · have h2 : 2 ≤ t.length := t.lt_of_ne_nul h1 (by rw [hp]; decide)
        rw [if_pos hp, if_pos hp, t.byte_text h2]
        apply meets_peek h2
        exact .pure rfl
      · rw [if_neg hp, if_neg hp]
        exact .pure rfl
  | lp => exact .pure rfl
  | rp => exact .pure rfl
  | semi => exact .pure rfl
  | plus => exact .pure rfl
  | star => exact .pure rfl
  | slash =>
    have h2 : t.z 1 = 0x2A → 2 ≤ t.length := by
      intro h
      apply t.lt_of_ne_nul h1
      rw [h]
      decide
    dsimp only
    rw [t.byte_text h1]
    by_cases hstar : t.z 1 = 0x2A
    · rw [t.byte_text (h2 hstar)]
      apply ((meets_test h1).either fun _ => meets_test (h2 hstar)).bind
      rintro b rfl
      by_cases hnul : t.z 2 = 0
      · rw [if_pos (.inr hnul), if_pos (c := _ = true) (by simp [hnul])]
        exact .pure rfl
      · have h3 : 3 ≤ t.length := t.lt_of_ne_nul (h2 hstar) hnul
        rw [if_neg (by simp [hstar, hnul]), if_neg (c := _ = true) (by simp [hstar, hnul])]
        apply meets_peek (h2 hstar)
        apply (skipCommentMem_meets h3 (by omega)).bind
        rintro r rfl
        exact .pure rfl
    · rw [if_pos (.inl hstar)]
      apply ((meets_test h1).either (y := true) fun h => by simp [hstar] at h).bind
      rintro b rfl
      rw [Bool.or_true, if_pos rfl]
      exact .pure rfl
  | percent => exact .pure rfl
  | eq =>
    dsimp only
    apply meets_peek h1
    rw [t.byte_text h1]
    exact .pure rfl
  | lt =>
    dsimp only
    apply meets_peek h1
    rw [t.byte_text h1]
    split_ifs <;> exact .pure rfl
  | gt =>
    dsimp only
    apply meets_peek h1
    rw [t.byte_text h1]
    split_ifs <;> exact .pure rfl
  | bang =>
    dsimp only
    apply meets_peek h1
    rw [t.byte_text h1]
    split_ifs <;> exact .pure rfl
  | pipe =>
    dsimp only
    apply meets_peek h1
    rw [t.byte_text h1]
    split_ifs <;> exact .pure rfl
  | comma => exact .pure rfl
  | and => exact .pure rfl
  | tilda => exact .pure rfl
  | quote =>
    dsimp only
    apply meets_peek (Nat.zero_le _)
    apply (skipQuotedMem_meets h0 h1 (by omega)).bind
    rintro ⟨c, i⟩ heq
    dsimp only
    rw [← heq]
    split_ifs <;> exact .pure rfl
  | dot =>
    dsimp only
    apply meets_peek h1
    rw [t.byte_text h1]
    by_cases hd : isdigit (t.z 1) = true
    · rw [if_pos hd, if_pos hd]
      apply (scanNumberMem_meets hf).bind
      rintro r rfl
      exact .pure rfl
    · rw [if_neg hd, if_neg hd]
      exact .pure rfl
  | digit =>
    apply (scanNumberMem_meets hf).bind
    rintro r rfl
    exact .pure rfl
  | quote2 =>
    dsimp only
    apply meets_peek (Nat.zero_le _)
    apply (skipBracketedMem_meets h1 (by omega)).bind
    rintro r rfl
    exact .pure rfl
  | varnum =>
    apply (scanMem_meets (by decide) h1 (by omega)).bind
    rintro i rfl
    exact .pure rfl
  | dollar =>
    apply (scanVariableMem_meets h1 (by omega)).bind
    rintro r rfl
    exact .pure rfl
  | varalpha =>
    apply (scanVariableMem_meets h1 (by omega)).bind
    rintro r rfl
    exact .pure rfl
  | kywd0 =>
    dsimp only
    apply meets_peek h1
    rw [t.byte_text h1]
    by_cases hk : isKeywordChar (t.z 1) = true
    · have h2 : 2 ≤ t.length := t.succ_le isKeywordChar (by decide) h1 hk
      have hle : scan isKeywordChar (t.text.drop 2) 2 ≤ t.length := by
        simpa using scan_drop_le (p := isKeywordChar) (z := t.text) (i := 2) (by simpa using h2)
      rw [hk, Bool.not_true, if_neg Bool.false_ne_true, if_neg Bool.false_ne_true]
      apply (scanMem_meets (by decide) h2 (by omega)).bind
      rintro i rfl
      apply meets_peek hle
      rw [t.byte_text hle]
      split_ifs <;> exact .pure rfl
    · rw [eq_false_of_ne_true hk, Bool.not_false, if_pos rfl, if_pos rfl]
      exact .pure rfl
  | x =>
    dsimp only
    apply meets_peek h1
    rw [t.byte_text h1]
    by_cases hq : t.z 1 = 0x27
    · have h2 : 2 ≤ t.length := t.lt_of_ne_nul h1 (by rw [hq]; decide)
      rw [if_pos hq, if_pos hq]
      apply (scanBlobMem_meets h2 hf).bind
      rintro r rfl
      exact .pure rfl
    · rw [if_neg hq, if_neg hq]
      exact .pure rfl
  | kywd => exact .pure rfl
  | id => exact .pure rfl
  | bom =>
    dsimp only
    rw [t.byte_text h1]
    by_cases hb : t.z 1 = 0xBB
    · have h2 : 2 ≤ t.length := t.lt_of_ne_nul h1 (by rw [hb]; decide)
      rw [t.byte_text h2]
      apply ((meets_test h1).both fun _ => meets_test h2).bind
      rintro b rfl
      by_cases hb' : t.z 2 = 0xBF
      · rw [if_pos ⟨hb, hb'⟩, if_pos (c := _ = true) (by simp [hb, hb'])]
        exact .pure rfl
      · rw [if_neg (by simp [hb']), if_neg (c := _ = true) (by simp [hb'])]
        exact .pure rfl
    · rw [if_neg (by simp [hb])]
      apply ((meets_test h1).both (y := false) fun h => by simp [hb] at h).bind
      rintro b rfl
      rw [Bool.and_false, if_neg Bool.false_ne_true]
      exact .pure rfl
  | nul => exact absurd hclass (aiClass_ne_nul _ h0)
  | illegal => exact .pure rfl

/-! ## One token -/

variable {K : KeywordCode}

theorem castSize_castInt_le {n : Nat} (hn : n ≤ t.length) :
    Access.Within t.length (.copy (castSize (castInt n))) := by
  intro hlen
  rw [castInt_eq (by omega), castSize_eq (by omega)]
  exact hn

theorem sqlite3GetTokenMem_nul (h0 : t.length = 0) :
    Meets (inside t) (·.1 = 0) (sqlite3GetTokenMem K t.z fuel) := by
  unfold sqlite3GetTokenMem
  apply (switchClassMem_nul h0).bind
  rintro e rfl
  exact .pure rfl

theorem sqlite3GetTokenMem_meets (hpos : 0 < t.length) (hf : t.length < fuel) :
    Meets (inside t) (fun r => 0 < r.1 ∧ r.1 ≤ t.length) (sqlite3GetTokenMem K t.z fuel) := by
  have h0 : byte t.text 0 ≠ 0 := by
    rw [t.byte_text (Nat.zero_le _)]
    exact t.ne_nul 0 hpos
  have hok := @switchClass_ok .full t.text h0
  unfold sqlite3GetTokenMem
  apply (switchClassMem_meets hpos hf).bind
  rintro e rfl
  cases hexit : (switchClass .full t.text).val with
  | token n ty =>
    rw [hexit] at hok
    exact .pure ⟨hok.pos, by simpa using hok.le⟩
  | keyword i =>
    rw [hexit] at hok
    have hi : 2 ≤ i ∧ i ≤ t.text.length := hok
    rw [t.length_text] at hi
    have hreturns := K.returns t.z i
    refine ⟨fun e he => ?_, ?_⟩
    · obtain ⟨j, rfl, hj⟩ := K.reads t.z i e he
      exact Nat.le_trans (Nat.le_of_lt hj) hi.2
    · change 0 < (K.run t.z i).val.1 ∧ (K.run t.z i).val.1 ≤ t.length
      omega
  | identifier i =>
    rw [hexit] at hok
    have hi : 1 ≤ i ∧ i ≤ t.text.length := hok
    have hle := scan_drop_le (p := idChar) hi.2
    have hge : i ≤ scan idChar (t.text.drop i) i := le_scan
    rw [t.length_text] at hi hle
    apply (scanMem_meets (by decide) hi.2 (by omega)).bind
    rintro j rfl
    have hcopy : Meets (inside t) (fun _ => True)
        (emit (.copy (castSize (castInt (scan idChar (t.text.drop i) i))))) := by
      refine meets_emit (fun e he => ?_) trivial
      rw [List.mem_singleton.1 he]
      exact castSize_castInt_le hle
    apply hcopy.bind
    intro _ _
    exact .pure ⟨by omega, hle⟩

end

/-- A call of `sqlite3GetToken` on a text of `N` bytes with a loop budget above `N`. The loops end
by themselves, no index above `N` is read (by BUG_S1 too, as long as the length is an `int`), and
the length returned is 0 for the empty text and between 1 and `N` for any other. -/
structure SafeCall (K : KeywordCode) (t : SqlText) (fuel : Nat) : Prop where
  terminates : .outOfFuel ∉ (sqlite3GetTokenMem K t.z fuel).log
  reads : ∀ i, .read i ∈ (sqlite3GetTokenMem K t.z fuel).log → i ≤ t.length
  copies : t.length < 2 ^ 31 → ∀ n, .copy n ∈ (sqlite3GetTokenMem K t.z fuel).log → n ≤ t.length
  empty : (sqlite3GetTokenMem K t.z fuel).val.1 = 0 ↔ t.length = 0
  le : (sqlite3GetTokenMem K t.z fuel).val.1 ≤ t.length

theorem safeCall (K : KeywordCode) (t : SqlText) (fuel : Nat) (hf : t.length < fuel) :
    SafeCall K t fuel := by
  have hcall : ∃ Q, Meets (inside t) Q (sqlite3GetTokenMem K t.z fuel) ∧
      ∀ r, Q r → (r.1 = 0 ↔ t.length = 0) ∧ r.1 ≤ t.length := by
    by_cases h0 : t.length = 0
    · refine ⟨_, sqlite3GetTokenMem_nul h0, ?_⟩
      intro r hr
      omega
    · refine ⟨_, sqlite3GetTokenMem_meets (by omega) hf, ?_⟩
      intro r hr
      omega
  obtain ⟨Q, hmeets, hQ⟩ := hcall
  obtain ⟨hempty, hle⟩ := hQ _ hmeets.val
  exact {
    terminates := fun h => hmeets.log _ h
    reads := fun i h => hmeets.log _ h
    copies := fun hlen n h => hmeets.log _ h hlen
    empty := hempty
    le := hle }

/-! ## A whole text -/

/-- The indices of a token. -/
def tokenIndices (token : Nat × Nat) : List Nat := List.range' token.1 token.2

theorem tokenize_advance {K : KeywordCode} {t : SqlText} {fuel calls offset : Nat}
    (hf : t.length < fuel) (hoffset : offset ≤ t.length) (hcalls : t.length - offset < calls) :
    ∃ tokens, tokenize K t.z fuel calls offset = some tokens ∧
      tokens.flatMap tokenIndices = List.range' offset (t.length - offset) ∧
      ∀ token ∈ tokens, 0 < token.2 := by
  induction calls generalizing offset with
  | zero => omega
  | succ calls ih =>
    have hsafe := safeCall K (t.advance offset hoffset) fuel
      (Nat.lt_of_le_of_lt (Nat.sub_le _ _) hf)
    have hempty := hsafe.empty
    have hle := hsafe.le
    change (sqlite3GetTokenMem K (t.z.advance offset) fuel).val.1 = 0 ↔ t.length - offset = 0
      at hempty
    change (sqlite3GetTokenMem K (t.z.advance offset) fuel).val.1 ≤ t.length - offset at hle
    unfold tokenize
    dsimp only
    generalize (sqlite3GetTokenMem K (t.z.advance offset) fuel).val.1 = n at hempty hle ⊢
    by_cases hn : n = 0
    · rw [if_pos hn, hempty.1 hn]
      exact ⟨[], rfl, rfl, by simp⟩
    · obtain ⟨tokens, hrest, hindices, hnonempty⟩ := @ih (offset + n) (by omega) (by omega)
      rw [if_neg hn, hrest]
      refine ⟨(offset, n) :: tokens, rfl, ?_, ?_⟩
      · have hsplit : t.length - offset = n + (t.length - (offset + n)) := by omega
        rw [List.flatMap_cons, hindices, tokenIndices, List.range'_append_1, ← hsplit]
      · intro token htoken
        rcases List.mem_cons.1 htoken with rfl | htoken
        · exact Nat.pos_of_ne_zero hn
        · exact hnonempty token htoken

/-- The bytes of a token. -/
def tokenBytes (z : Memory) (token : Nat × Nat) : List UInt8 := (tokenIndices token).map z

/-- What is known of the tokens of a text: there are finitely many, none is empty, and laid one
behind the other they are the text, each byte of it in one token and no byte from behind the
terminator. -/
structure Tokenized (K : KeywordCode) (t : SqlText) (fuel calls : Nat) : Prop where
  partition : ∃ tokens, tokenize K t.z fuel calls 0 = some tokens ∧
    tokens.flatMap tokenIndices = List.range t.length ∧
    tokens.flatMap (tokenBytes t.z) = t.text ∧ ∀ token ∈ tokens, 0 < token.2

theorem sqlite3GetToken_safe (K : KeywordCode) (t : SqlText) (fuel calls : Nat)
    (hf : t.length < fuel) (hcalls : t.length < calls) :
    SafeCall K t fuel ∧ Tokenized K t fuel calls := by
  obtain ⟨tokens, htokens, hindices, hnonempty⟩ :=
    tokenize_advance (K := K) hf (Nat.zero_le _) (by omega)
  rw [Nat.sub_zero, ← List.range_eq_range'] at hindices
  refine ⟨safeCall K t fuel hf, ⟨tokens, htokens, hindices, ?_, hnonempty⟩⟩
  rw [SqlText.text, ← hindices, List.map_flatMap]
  rfl

/-! ## The two levels -/

/-- A `keywordCode` that reads its token and looks it up. -/
def Keywords.inMemory (k : Keywords) : KeywordCode where
  run z n := ⟨(n, k.code ((List.range n).map z)), (List.range n).map .read⟩
  returns _ _ := rfl
  reads z n a ha := by
    obtain ⟨i, hi, rfl⟩ := List.mem_map.1 ha
    exact ⟨i, rfl, List.mem_range.1 hi⟩

theorem SqlText.take_text (t : SqlText) {n : Nat} (hn : n ≤ t.length) :
    t.text.take n = (List.range n).map t.z := by
  rw [SqlText.text, ← List.map_take, List.take_range, Nat.min_eq_left hn]

/-- The tokenizer in memory returns what the tokenizer on lists returns. -/
theorem sqlite3GetTokenMem_val (k : Keywords) (t : SqlText) {fuel : Nat} (hf : t.length < fuel)
    (hlen : t.length < 2 ^ 31) :
    (sqlite3GetTokenMem k.inMemory t.z fuel).val = (sqlite3GetToken .full k t.text).val := by
  by_cases hpos : t.length = 0
  · have h0 : byte t.text 0 = 0 := by
      rw [t.byte_text (Nat.zero_le _), ← hpos]
      exact t.nul
    rw [sqlite3GetToken_nul h0, sqlite3GetTokenMem, val_bind, (switchClassMem_nul hpos).val]
    rfl
  have h0 : byte t.text 0 ≠ 0 := by
    rw [t.byte_text (Nat.zero_le _)]
    exact t.ne_nul 0 (by omega)
  have hok := @switchClass_ok .full t.text h0
  rw [sqlite3GetTokenMem, sqlite3GetToken, val_bind, val_bind,
    (switchClassMem_meets (by omega) hf).val]
  cases hexit : (switchClass .full t.text).val with
  | token n ty => rfl
  | keyword i =>
    rw [hexit] at hok
    have hi : i ≤ t.text.length := hok.2
    rw [t.length_text] at hi
    change (i, k.code ((List.range i).map t.z)) =
      ((Copy.full.int i).toNat, k.code (t.text.take (Copy.full.int i).toNat))
    rw [Copy.full.int_eq (by omega) (by omega), Int.toNat_natCast, t.take_text hi]
  | identifier i =>
    rw [hexit] at hok
    have hi : i ≤ t.text.length := hok.2
    rw [t.length_text] at hi
    have hscan := (@scanMem_meets t i fuel idChar (by decide) hi (by omega)).val
    change ((scanMem t.z idChar fuel i).val, Tk.id) = (scan idChar (t.text.drop i) i, Tk.id)
    rw [hscan]

/-- An unterminated variable name with `::` and a parenthesis, and bytes behind the terminator. -/
def sampleText : SqlText where
  z i := (asciiBytes "x=$a::b('c" ++ [0]).getD i 0x29
  length := 10
  nul := rfl
  ne_nul := by decide

theorem sqlite3GetToken_safe_sample :
    SafeCall sqlite3Keywords.inMemory sampleText 11 ∧
      Tokenized sqlite3Keywords.inMemory sampleText 11 11 ∧
      tokenize sqlite3Keywords.inMemory sampleText.z 11 11 0 = some [(0, 1), (1, 1), (2, 8)] := by
  have hsafe := sqlite3GetToken_safe sqlite3Keywords.inMemory sampleText 11 11 (by decide)
    (by decide)
  exact ⟨hsafe.1, hsafe.2, by decide +kernel⟩

end FourFuzzers.Sqlite
