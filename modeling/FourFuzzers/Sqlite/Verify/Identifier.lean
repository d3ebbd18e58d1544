import FourFuzzers.Sqlite.Keywords
import FourFuzzers.Sqlite.Verify.Tokenizer

/-!
# Which identifiers reach `sqlite3CheckIdentifier`

The comment on BUG_S1 speaks of identifiers longer than 32 bytes. The call sits on the last exit of
`sqlite3GetToken` only, and an identifier of letters and underscores that starts with one of A to W
is returned through the keyword lookup before. So the identifiers that overflow the buffer are the
long ones that start otherwise (X, Y, Z, an underscore, a byte from 0x80 on) or have a digit, a
dollar sign or such a byte in them.
-/

namespace FourFuzzers.Sqlite

open FourFuzzers.Lib FourFuzzers.Lib.Traced

/-! ## Identifiers -/

/-- An ASCII letter. -/
def isLetter (c : UInt8) : Bool := (0x41 ≤ c && c ≤ 0x5A) || (0x61 ≤ c && c ≤ 0x7A)

/-- A digit or a dollar sign: inside an identifier, but not at its start. -/
def isInner (c : UInt8) : Bool := (0x30 ≤ c && c ≤ 0x39) || c = 0x24

/-- A letter, a digit, an underscore, a dollar sign or a byte from 0x80 on. -/
def isIdentifierByte (c : UInt8) : Bool := isLetter c || isInner c || c = 0x5F || 0x80 ≤ c

/-- A byte an identifier may start with. -/
def isIdentifierStart (c : UInt8) : Bool := isIdentifierByte c && !isInner c

/-- A letter or an underscore. -/
def isWordByte (c : UInt8) : Bool := isLetter c || c = 0x5F

/-- A letter from A to W, in either case. -/
def isWordStart (c : UInt8) : Bool := (0x41 ≤ c && c ≤ 0x57) || (0x61 ≤ c && c ≤ 0x77)

/-- The text starts with a byte-order mark. -/
def AtBom (z : List UInt8) : Prop := byte z 0 = 0xEF ∧ byte z 1 = 0xBB ∧ byte z 2 = 0xBF

/-- The text starts with a blob literal `x'...'`. -/
def AtBlob (z : List UInt8) : Prop := (byte z 0 = 0x78 ∨ byte z 0 = 0x58) ∧ byte z 1 = 0x27

/-- The first `n` bytes of the text are an unquoted identifier. -/
structure UnquotedIdentifier (z : List UInt8) (n : Nat) : Prop where
  bytes : ∀ i, i < n → isIdentifierByte (byte z i) = true
  maximal : isIdentifierByte (byte z n) = false
  start : isIdentifierStart (byte z 0) = true
  notBom : ¬ AtBom z
  notBlob : ¬ AtBlob z

/-- The first `n` bytes are letters and underscores, the first one a letter from A to W. -/
def KeywordShaped (z : List UInt8) (n : Nat) : Prop :=
  isWordStart (byte z 0) = true ∧ ∀ i, i < n → isWordByte (byte z i) = true

/-- `sqlite3GetToken` of the fuzzed copy without the call of `sqlite3CheckIdentifier`. -/
def sqlite3GetTokenUnchecked (k : Keywords) (z : List UInt8) : Run (Nat × Tk) := do
  match ← switchClass .full z with
  | .token n t => pure (n, t)
  | .keyword i => keywordCode .full k z i
  | .identifier i => pure (scan idChar (z.drop i) i, Tk.id)

/-! ## Tables -/

theorem idChar_eq : ∀ c : UInt8, idChar c = isIdentifierByte c := forall_byte (by decide +kernel)

theorem isKeywordChar_eq : ∀ c : UInt8, isKeywordChar c = isWordByte c :=
  forall_byte (by decide +kernel)

theorem isWordStart_iff : ∀ c : UInt8, aiClass c = .kywd0 ↔ isWordStart c = true :=
  forall_byte (by decide +kernel)

theorem aiClass_x_iff : ∀ c : UInt8, aiClass c = .x ↔ c = 0x78 ∨ c = 0x58 :=
  forall_byte (by decide +kernel)

theorem aiClass_bom_iff : ∀ c : UInt8, aiClass c = .bom ↔ c = 0xEF := forall_byte (by decide +kernel)

/-- The classes whose bytes start an identifier. -/
def CharClass.startsIdentifier : CharClass → Bool
  | .kywd0 | .x | .kywd | .id | .bom => true
  | _ => false

theorem startsIdentifier_eq : ∀ c : UInt8,
    (aiClass c).startsIdentifier = isIdentifierStart c := forall_byte (by decide +kernel)

theorem isIdentifierByte_of_isWordByte : ∀ c : UInt8, isWordByte c = true →
    isIdentifierByte c = true := forall_byte (by decide +kernel)

/-! ## Maximal runs -/

section

variable {p : UInt8 → Bool} {z : List UInt8} {i n : Nat}

/-- A loop stops at the first byte without the property. -/
theorem scan_spec (hp : p 0 = false) :
    (∀ j, i ≤ j → j < scan p z i → p (byte z (j - i)) = true) ∧
      p (byte z (scan p z i - i)) = false := by
  induction z generalizing i with
  | nil => exact ⟨fun j hij hj => absurd hj (by rw [scan]; omega), hp⟩
  | cons c z ih =>
    by_cases hc : p c = true
    · obtain ⟨hall, hstop⟩ := ih (i := i + 1)
      have hge : i + 1 ≤ scan p z (i + 1) := le_scan
      have hnext : ∀ j, i + 1 ≤ j → byte (c :: z) (j - i) = byte z (j - (i + 1)) := by
        intro j hj
        rw [show j - i = (j - (i + 1)) + 1 by omega]
        rfl
      rw [scan, if_pos hc]
      refine ⟨fun j hij hj => ?_, ?_⟩
      · by_cases hji : j = i
        · subst hji
          rw [Nat.sub_self]
          exact hc
        · rw [hnext j (by omega)]
          exact hall j (by omega) hj
      · rw [hnext _ hge]
        exact hstop
    · rw [scan, if_neg hc]
      refine ⟨fun j hij hj => absurd hj (by omega), ?_⟩
      rw [Nat.sub_self]
      exact Bool.eq_false_iff.2 hc

/-- The end of a maximal run is determined by it. -/
theorem scan_eq_iff (hp : p 0 = false) (hi : ∀ j, j < i → p (byte z j) = true) :
    scan p (z.drop i) i = n ↔
      (∀ j, j < n → p (byte z j) = true) ∧ p (byte z n) = false := by
  obtain ⟨hall, hstop⟩ := scan_spec (z := z.drop i) (i := i) hp
  have hge : i ≤ scan p (z.drop i) i := le_scan
  generalize scan p (z.drop i) i = m at hall hstop hge
  simp only [byte_drop] at hall hstop
  rw [show i + (m - i) = m by omega] at hstop
  have hrun : ∀ j, j < m → p (byte z j) = true := by
    intro j hj
    by_cases hji : j < i
    · exact hi j hji
    · have := hall j (by omega) hj
      rwa [show i + (j - i) = j by omega] at this
  constructor
  · rintro rfl
    exact ⟨hrun, hstop⟩
  · rintro ⟨hn, hnstop⟩
    apply Nat.le_antisymm
    · by_contra hlt
      exact absurd (hrun n (by omega)) (by rw [hnstop]; decide)
    · by_contra hlt
      exact absurd (hn m (by omega)) (by rw [hstop]; decide)

end

/-! ## The identifier exits -/

section

variable {z : List UInt8} {n : Nat}

/-- The other classes return a token. -/
theorem switchClass_token (h : (aiClass (byte z 0)).startsIdentifier = false) :
    ∃ m t, (switchClass .full z).val = .token m t := by
  unfold switchClass
  cases hclass : aiClass (byte z 0) with
  | kywd0 | x | kywd | id | bom =>
    rw [hclass] at h
    exact absurd h (by decide)
  | minus | slash | lt | gt | bang | pipe | quote | dot =>
    dsimp only
    split_ifs
    all_goals exact ⟨_, _, rfl⟩
  | space | lp | rp | semi | plus | star | percent | eq | comma | and | tilda | digit | quote2 | varnum
  | dollar | varalpha | nul | illegal => exact ⟨_, _, rfl⟩

theorem identifierLength_of_token {m : Nat} {t : Tk} (h : (switchClass .full z).val = .token m t) :
    identifierLength z = none := by
  unfold identifierLength
  rw [h]

theorem identifierLength_of_identifier {i : Nat} (h : (switchClass .full z).val = .identifier i) :
    identifierLength z = some (scan idChar (z.drop i) i) := by
  unfold identifierLength
  rw [h]

/-- An exit by `break` behind `i` bytes of an identifier. -/
theorem UnquotedIdentifier.length_eq (h : UnquotedIdentifier z n) {i : Nat}
    (hexit : (switchClass .full z).val = .identifier i)
    (hi : ∀ j, j < i → isIdentifierByte (byte z j) = true) : identifierLength z = some n := by
  rw [identifierLength_of_identifier hexit, Option.some.injEq]
  apply (scan_eq_iff (by decide) fun j hj => by rw [idChar_eq]; exact hi j hj).2
  simp only [idChar_eq]
  exact ⟨h.bytes, h.maximal⟩

theorem UnquotedIdentifier.byte_lt (h : UnquotedIdentifier z n) {i : Nat}
    (hi : ∀ j, j ≤ i → isIdentifierByte (byte z j) = true) : i < n := by
  by_contra hle
  have := hi n (by omega)
  rw [h.maximal] at this
  exact absurd this (by decide)

theorem UnquotedIdentifier.first (h : UnquotedIdentifier z n) :
    isIdentifierByte (byte z 0) = true := by
  have hstart := h.start
  unfold isIdentifierStart at hstart
  exact (Bool.and_eq_true_iff.1 hstart).1

/-- The first byte alone has been read. -/
theorem UnquotedIdentifier.length_eq_one (h : UnquotedIdentifier z n)
    (hexit : (switchClass .full z).val = .identifier 1) : identifierLength z = some n := by
  apply h.length_eq hexit
  intro j hj
  rw [show j = 0 by omega]
  exact h.first

/-- The exit of an identifier that starts with a letter from A to W. -/
theorem UnquotedIdentifier.exit_kywd0 (h : UnquotedIdentifier z n)
    (hclass : aiClass (byte z 0) = .kywd0) :
    (2 ≤ n ∧ KeywordShaped z n ∧ (switchClass .full z).val = .keyword n) ∨
      (¬ (2 ≤ n ∧ KeywordShaped z n) ∧ identifierLength z = some n) := by
  have hstart := (isWordStart_iff _).1 hclass
  have hword : isWordByte (byte z 0) = true := by
    rw [← isKeywordChar_eq]
    unfold isKeywordChar
    unfold aiClass at hclass
    revert hclass
    generalize byte z 0 = c
    revert c
    exact forall_byte (by decide +kernel)
  by_cases h1 : isKeywordChar (byte z 1) = true
  · -- the loop over the letters and underscores ends at `i`
    obtain ⟨i, hi⟩ : ∃ i, scan isKeywordChar (z.drop 2) 2 = i := ⟨_, rfl⟩
    have hge : 2 ≤ i := by
      rw [← hi]
      exact le_scan
    have hprefix : ∀ j, j < 2 → isKeywordChar (byte z j) = true := by
      intro j hj
      rcases (by omega : j = 0 ∨ j = 1) with rfl | rfl
      · rw [isKeywordChar_eq]
        exact hword
      · exact h1
    obtain ⟨hrun, hstop⟩ := (scan_eq_iff (by decide) hprefix).1 hi
    simp only [isKeywordChar_eq] at hrun hstop
    have hexit : (switchClass .full z).val =
        if idChar (byte z i) then .identifier (i + 1) else .keyword i := by
      unfold switchClass
      rw [hclass]
      simp only [h1, Bool.not_true, Bool.false_eq_true, if_false, hi]
      split_ifs <;> rfl
    by_cases hid : idChar (byte z i) = true
    · rw [if_pos hid] at hexit
      rw [idChar_eq] at hid
      have hall : ∀ j, j ≤ i → isIdentifierByte (byte z j) = true := by
        intro j hj
        by_cases hji : j = i
        · rw [hji]
          exact hid
        · exact isIdentifierByte_of_isWordByte _ (hrun j (by omega))
      refine .inr ⟨?_, h.length_eq hexit fun j hj => hall j (by omega)⟩
      rintro ⟨-, -, hshape⟩
      have := hshape i (h.byte_lt hall)
      rw [hstop] at this
      exact absurd this (by decide)
    · rw [if_neg hid] at hexit
      have hin : i = n := by
        rw [idChar_eq] at hid
        apply Nat.le_antisymm
        · by_contra hlt
          have := isIdentifierByte_of_isWordByte _ (hrun n (by omega))
          rw [h.maximal] at this
          exact absurd this (by decide)
        · by_contra hlt
          exact hid (h.bytes i (by omega))
      subst hin
      exact .inl ⟨hge, ⟨hstart, hrun⟩, hexit⟩
  · have hexit : (switchClass .full z).val = .identifier 1 := by
      unfold switchClass
      rw [hclass]
      simp only [h1, Bool.not_false, if_true]
      rfl
    refine .inr ⟨?_, h.length_eq_one hexit⟩
    rintro ⟨htwo, -, hshape⟩
    apply h1
    rw [isKeywordChar_eq]
    exact hshape 1 (by omega)

/-- Where an unquoted identifier leaves the switch: the keyword lookup for two or more letters and
underscores that start with A to W, the last exit otherwise. -/
theorem UnquotedIdentifier.exit (h : UnquotedIdentifier z n) :
    (2 ≤ n ∧ KeywordShaped z n ∧ (switchClass .full z).val = .keyword n) ∨
      (¬ (2 ≤ n ∧ KeywordShaped z n) ∧ identifierLength z = some n) := by
  have hstart := h.start
  rw [← startsIdentifier_eq] at hstart
  by_cases hkywd0 : aiClass (byte z 0) = .kywd0
  · exact h.exit_kywd0 hkywd0
  refine .inr ⟨fun hshape => hkywd0 ((isWordStart_iff _).2 hshape.2.1), h.length_eq_one ?_⟩
  unfold switchClass
  cases hclass : aiClass (byte z 0) with
  | kywd0 => exact absurd hclass hkywd0
  | kywd | id => rfl
  | x =>
    have hquote : byte z 1 ≠ 0x27 := fun hq => h.notBlob ⟨(aiClass_x_iff _).1 hclass, hq⟩
    dsimp only
    rw [if_neg hquote]
    rfl
  | bom =>
    have hbom : ¬ (byte z 1 = 0xBB ∧ byte z 2 = 0xBF) :=
      fun hb => h.notBom ⟨(aiClass_bom_iff _).1 hclass, hb⟩
    dsimp only
    rw [if_neg hbom]
    rfl
  | _ =>
    rw [hclass] at hstart
    exact absurd hstart (by decide)

/-- The last exit is reached from unquoted identifiers only. -/
theorem unquotedIdentifier_of_length (h : identifierLength z = some n) :
    UnquotedIdentifier z (scan idChar z 0) := by
  obtain ⟨hbytes, hmaximal⟩ := (scan_eq_iff (z := z) (i := 0) (p := idChar) (by decide)
    fun j hj => absurd hj (by omega)).1 rfl
  simp only [idChar_eq, List.drop_zero] at hbytes hmaximal
  refine ⟨hbytes, hmaximal, ?_, ?_, ?_⟩
  · by_contra hstart
    rw [← startsIdentifier_eq, Bool.not_eq_true] at hstart
    obtain ⟨m, t, htoken⟩ := switchClass_token hstart
    rw [identifierLength_of_token htoken] at h
    cases h
  · intro hbom
    have htoken : (switchClass .full z).val = .token 3 Tk.space := by
      unfold switchClass
      rw [(aiClass_bom_iff _).2 hbom.1]
      dsimp only
      rw [if_pos hbom.2]
      rfl
    rw [identifierLength_of_token htoken] at h
    cases h
  · intro hblob
    have htoken : (switchClass .full z).val = .token (scanBlob z).1 (scanBlob z).2 := by
      unfold switchClass
      rw [(aiClass_x_iff _).2 hblob.1]
      dsimp only
      rw [if_pos hblob.2]
      rfl
    rw [identifierLength_of_token htoken] at h
    cases h

/-- The identifiers `sqlite3CheckIdentifier` is called for. -/
theorem identifierLength_eq_some_iff : identifierLength z = some n ↔
    UnquotedIdentifier z n ∧ ¬ (2 ≤ n ∧ KeywordShaped z n) := by
  constructor
  · intro h
    have hident := unquotedIdentifier_of_length h
    rcases hident.exit with ⟨-, -, hkeyword⟩ | ⟨hshape, hlength⟩
    · unfold identifierLength at h
      rw [hkeyword] at h
      cases h
    · rw [h, Option.some.injEq] at hlength
      rw [← hlength] at hident hshape
      exact ⟨hident, hshape⟩
  · rintro ⟨hident, hshape⟩
    rcases hident.exit with ⟨htwo, hshape', -⟩ | ⟨-, hlength⟩
    · exact absurd ⟨htwo, hshape'⟩ hshape
    · exact hlength

/-! ## BUG_S1 -/

variable {k : Keywords}

/-- The injected call does not change what is returned. -/
theorem sqlite3GetToken_unchecked :
    (sqlite3GetToken .full k z).val = (sqlite3GetTokenUnchecked k z).val := by
  unfold sqlite3GetToken sqlite3GetTokenUnchecked
  rw [val_bind, val_bind]
  cases (switchClass .full z).val with
  | token m t => rfl
  | keyword i => rfl
  | identifier i => rfl

theorem sqlite3GetToken_of_identifier (h : identifierLength z = some n) :
    (sqlite3GetToken .full k z).val = (n, Tk.id) := by
  unfold identifierLength at h
  unfold sqlite3GetToken
  rw [val_bind]
  split at h
  · next i hexit =>
    rw [Option.some.injEq] at h
    rw [hexit, ← h]
    rfl
  · cases h

/-- The copies into the buffer of `sqlite3CheckIdentifier` made by one call. -/
theorem checkIdentifier_mem_iff (hlen : z.length < 2 ^ 31) :
    .checkIdentifier n ∈ (sqlite3GetToken .full k z).log ↔ identifierLength z = some n := by
  obtain ⟨stores, hstores, hlog⟩ := @sqlite3GetToken_log .full z k hlen
  rw [hlog, List.mem_append, checks, List.mem_map]
  constructor
  · rintro (hmem | ⟨m, hm, heq⟩)
    · exact (hstores _ hmem).elim
    · cases heq
      exact Option.mem_toList.1 hm
  · intro h
    exact .inr ⟨n, Option.mem_toList.2 h, rfl⟩

/-- What one call of `sqlite3GetToken` does with BUG_S1. -/
structure IdentifierReport (k : Keywords) (z : List UInt8) : Prop where
  /-- The buffer overflows iff the token is a long unquoted identifier that is no word of letters and
  underscores starting with A to W. -/
  overflow : (∃ m, .checkIdentifier m ∈ (sqlite3GetToken .full k z).log ∧ 32 < m) ↔
    UnquotedIdentifier z (sqlite3GetToken .full k z).val.1 ∧
      32 < (sqlite3GetToken .full k z).val.1 ∧
      ¬ KeywordShaped z (sqlite3GetToken .full k z).val.1
  /-- Such a word goes through the keyword lookup. -/
  keyword : ∀ n, UnquotedIdentifier z n → 32 < n → KeywordShaped z n →
    (switchClass .full z).val = .keyword n ∧
      (sqlite3GetToken .full k z).val = (n, k.code (z.take n)) ∧
      ∀ ev ∈ (sqlite3GetToken .full k z).log, ev.isCheckIdentifier = false
  /-- The token is the one returned without the injected call. -/
  unchanged : (sqlite3GetToken .full k z).val = (sqlite3GetTokenUnchecked k z).val

/-- Exact trigger of BUG_S1. -/
theorem sqlite3GetToken_checkIdentifier (k : Keywords) (hlen : z.length < 2 ^ 31) :
    IdentifierReport k z := by
  refine ⟨?_, ?_, sqlite3GetToken_unchecked⟩
  · simp only [checkIdentifier_mem_iff hlen]
    constructor
    · rintro ⟨m, hm, hlong⟩
      obtain ⟨hident, hshape⟩ := identifierLength_eq_some_iff.1 hm
      rw [sqlite3GetToken_of_identifier hm]
      exact ⟨hident, hlong, fun h => hshape ⟨by omega, h⟩⟩
    · rintro ⟨hident, hlong, hshape⟩
      exact ⟨_, identifierLength_eq_some_iff.2 ⟨hident, fun h => hshape h.2⟩, hlong⟩
  · intro n hident hlong hshape
    have hexit : (switchClass .full z).val = .keyword n := by
      rcases hident.exit with ⟨-, -, hkeyword⟩ | ⟨hno, -⟩
      · exact hkeyword
      · exact absurd ⟨by omega, hshape⟩ hno
    have hle : n ≤ z.length := by
      have h0 : byte z 0 ≠ 0 := by
        intro h0
        have := hident.first
        rw [h0] at this
        exact absurd this (by decide)
      have hok := @switchClass_ok .full z h0
      rw [hexit] at hok
      exact hok.2
    refine ⟨hexit, ?_, fun ev hev => ?_⟩
    · unfold sqlite3GetToken
      rw [val_bind, hexit]
      change ((Copy.full.int n).toNat, k.code (z.take (Copy.full.int n).toNat)) = _
      rw [Copy.full.int_eq (by omega) (by omega), Int.toNat_natCast]
    · cases ev with
      | checkIdentifier m =>
        rw [checkIdentifier_mem_iff hlen] at hev
        unfold identifierLength at hev
        rw [hexit] at hev
        cases hev
      | getToken | assign | copyWindowKeyword | outOfFuel => rfl

/-- A name of 33 bytes with digits in it. -/
def longName : List UInt8 := asciiBytes "abcdefghijklmnopqrstuvwxyz_012345"

theorem sqlite3GetToken_checkIdentifier_longName :
    longName.length < 2 ^ 31 ∧ IdentifierReport sqlite3Keywords longName :=
  have hlen : longName.length < 2 ^ 31 := by decide +kernel
  ⟨hlen, sqlite3GetToken_checkIdentifier sqlite3Keywords hlen⟩

/-- A name of 33 letters goes through the keyword lookup. -/
example : (switchClass .full (List.replicate 33 0x61)).val = .keyword 33 := by decide +kernel

end

end FourFuzzers.Sqlite
