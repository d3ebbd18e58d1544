import FourFuzzers.CJson.Verify.ParseString

/-!
# The parser stays in bounds

Every function of the parser, called at an offset inside the text, returns an offset inside the
text, and beyond where it started when it succeeds. With this the budget of the three mutually
recursive functions suffices: each call of `parse_value` at offset `o` spends less than
`3 * (length - o) + 1` of it.
-/

namespace FourFuzzers.CJson

open FourFuzzers.Lib FourFuzzers.Lib.Traced

variable {content : List UInt8} {D : Type} {L : Libc D} {b : ParseBuffer}

/-! ## Tests and whitespace -/

theorem strncmp_spec {f : Func} {i : Nat} {literal : List UInt8}
    (h : i + literal.length ≤ content.length) :
    Meets (safeLog content.length) (fun _ => True) (strncmp f content i literal) := by
  induction literal generalizing i with
  | nil => exact .pure trivial
  | cons c cs ih =>
    simp only [List.length_cons] at h
    refine (meets_peek (by omega)).bind fun x _ => ?_
    split
    · exact ih (by omega)
    · exact .pure trivial

theorem readsLiteral_spec {f : Func} {literal : List UInt8} :
    Meets (safeLog content.length)
      (fun r => r = true → b.offset + literal.length ≤ content.length)
      (readsLiteral f content b literal) := by
  unfold readsLiteral
  split
  · next h => exact (strncmp_spec h).mono fun _ _ _ => h
  · exact .pure (by simp)

theorem lookingAt_spec {f : Func} {c : UInt8} :
    Meets (safeLog content.length) (fun r => r = true → b.offset < content.length)
      (lookingAt f content b c) := by
  unfold lookingAt
  split
  · next h => exact (meets_peek h).bind fun x _ => .pure fun _ => h
  · exact .pure (by simp)

theorem skipLoop_spec {o : Nat} (ho : o ≤ content.length) :
    Meets (safeLog content.length) (fun r => o ≤ r ∧ r ≤ content.length) (skipLoop content o) := by
  fun_induction skipLoop content o with
  | case1 o h ih =>
    refine (meets_peek h).bind fun c _ => ?_
    split
    · refine (meets_emit_safe (by exact h)).bind fun _ _ => ?_
      exact (ih h).mono fun r hr => ⟨by omega, hr.2⟩
    · exact .pure ⟨Nat.le_refl _, ho⟩
  | case2 o h => exact .pure ⟨Nat.le_refl _, ho⟩

/-- Whitespace is skipped forward, and the offset stays inside the text when it was. -/
theorem bufferSkipWhitespace_spec (hb : b.offset ≤ content.length) :
    Meets (safeLog content.length) (fun r => b.offset ≤ r.offset ∧ r.offset ≤ content.length ∧
      (b.offset < content.length → r.offset < content.length) ∧ r.depth = b.depth)
      (bufferSkipWhitespace content b) := by
  unfold bufferSkipWhitespace
  split
  · next h =>
    have hlt : b.offset < content.length := h
    refine (skipLoop_spec hb).bind fun o ho => ?_
    dsimp only
    split
    · refine (meets_seek (by omega)).mono fun r hr => ?_
      subst hr
      exact ⟨by dsimp only; omega, by dsimp only; omega, fun _ => by dsimp only; omega, rfl⟩
    · exact .pure ⟨ho.1, ho.2, fun _ => by dsimp only; omega, rfl⟩
  · exact .pure ⟨Nat.le_refl _, hb, id, rfl⟩

theorem skipUtf8Bom_spec :
    Meets (safeLog content.length) (fun r => ∀ b', r = some b' → b'.offset ≤ content.length)
      (skipUtf8Bom content ⟨0, 0⟩) := by
  unfold skipUtf8Bom
  rw [if_neg (by simp)]
  split
  · next h =>
    have hlen : 0 + 4 < content.length := h
    refine (strncmp_spec (by simp; omega)).bind fun bom _ => ?_
    split
    · refine (meets_seek (by dsimp only; omega)).bind fun b' hb' => .pure ?_
      subst hb'
      simp only [Option.some.injEq, forall_eq']
      omega
    · exact .pure (by simp)
  · exact .pure (by simp)

/-! ## Numbers -/

theorem numberStringLength_spec {o i : Nat} (h : o + i ≤ content.length) :
    Meets (safeLog content.length) (fun n => o + n ≤ content.length)
      (numberStringLength content o i) := by
  fun_induction numberStringLength content o i with
  | case1 i hi ih =>
    refine (meets_peek hi).bind fun c _ => ?_
    split
    · exact ih (by omega)
    · exact .pure h
  | case2 i hi => exact .pure h

theorem copyInput_spec {i n : Nat} (h : i + n ≤ content.length) :
    Meets (safeLog content.length) (fun s => s.length = n) (copyInput content i n) := by
  induction n generalizing i with
  | zero => exact .pure rfl
  | succ n ih =>
    refine (meets_peek (by omega)).bind fun c _ => ?_
    exact (ih (by omega)).bind fun cs hcs => .pure (by simp [hcs])

/-- What every function of the parser called at `b` does to the offset. -/
def Advances (content : List UInt8) (b : ParseBuffer) {α : Type} (r : Option α × ParseBuffer) :
    Prop :=
  r.2.offset ≤ content.length ∧ (r.1.isSome → b.offset < r.2.offset)

/-- A failure that leaves the offset inside the text. -/
theorem Advances.none {α : Type} {b' : ParseBuffer} (h : b'.offset ≤ content.length) :
    Advances content b ((Option.none : Option α), b') :=
  ⟨h, by simp⟩

theorem parseNumber_spec (hb : b.offset ≤ content.length) :
    Meets (safeLog content.length) (Advances content b) (parseNumber L content b) := by
  refine (numberStringLength_spec hb).bind fun n hn => ?_
  refine (meets_alloc _ _ _).bind fun _ _ => ?_
  refine (copyInput_spec hn).bind fun s hs => ?_
  refine (meets_putAll (by simp [hs])).bind fun block hblock => ?_
  subst hblock
  refine (meets_put (by simp)).bind fun _ _ => ?_
  have hle := L.strtod_le s
  split
  next number consumed hst =>
  rw [hst] at hle
  dsimp only at hle ⊢
  split
  · exact .pure (.none hb)
  · refine (meets_seek (by omega)).bind fun b' hb' => ?_
    subst hb'
    exact .pure ⟨by dsimp only; omega, fun _ => by dsimp only; omega⟩

/-! ## Values -/

/-- The five recursive functions with budget `fuel`: at an offset inside the text they stay in
bounds and advance, when the budget covers the rest of the text. -/
structure ParserSpec (L : Libc D) (content : List UInt8) (fuel : Nat) : Prop where
  value : ∀ b : ParseBuffer, b.offset ≤ content.length →
    3 * (content.length - b.offset) + 1 ≤ fuel →
    Meets (parseLog content.length) (Advances content b) (parseValue L content fuel b)
  array : ∀ b : ParseBuffer, b.offset < content.length →
    3 * (content.length - b.offset) ≤ fuel →
    Meets (parseLog content.length) (Advances content b) (parseArray L content fuel b)
  elements : ∀ b : ParseBuffer, b.offset < content.length →
    3 * (content.length - b.offset) ≤ fuel + 1 →
    Meets (parseLog content.length) (Advances content b) (parseElements L content fuel b)
  object : ∀ b : ParseBuffer, b.offset < content.length →
    3 * (content.length - b.offset) ≤ fuel →
    Meets (parseLog content.length) (Advances content b) (parseObject L content fuel b)
  members : ∀ b : ParseBuffer, b.offset < content.length →
    3 * (content.length - b.offset) ≤ fuel + 1 →
    Meets (parseLog content.length) (Advances content b) (parseMembers L content fuel b)

/-- Assigning the offset after a literal of `n` characters. -/
theorem seek_advances {α : Type} {b b₀ : ParseBuffer} {a : α} {n : Nat} (hb : b₀.offset < n)
    (hn : n ≤ content.length) :
    Meets (safeLog content.length) (Advances content b₀)
      (do let b ← b.seek n; pure (some a, b) : Run (Option α × ParseBuffer)) := by
  refine (meets_seek hn).bind fun b' hb' => ?_
  subst hb'
  exact .pure ⟨hn, fun _ => hb⟩

theorem seek_fails {α : Type} {b b₀ : ParseBuffer} {n : Nat} (hn : n ≤ content.length) :
    Meets (safeLog content.length) (Advances content b₀)
      (do let b ← b.seek n; pure (none, b) : Run (Option α × ParseBuffer)) := by
  refine (meets_seek hn).bind fun b' hb' => ?_
  subst hb'
  exact .pure (.none hn)

theorem parseValue_step {fuel : Nat} (ih : ParserSpec L content fuel) (hb : b.offset ≤ content.length)
    (hf : 3 * (content.length - b.offset) + 1 ≤ fuel + 1) :
    Meets (parseLog content.length) (Advances content b) (parseValue L content (fuel + 1) b) := by
  rw [parseValue]
  refine Meets.bind_parse readsLiteral_spec fun isNull hnull => ?_
  split
  · next h => exact Meets.parseLog (seek_advances (by omega) (hnull h))
  refine Meets.bind_parse readsLiteral_spec fun isFalse hfalse => ?_
  split
  · next h => exact Meets.parseLog (seek_advances (by omega) (hfalse h))
  refine Meets.bind_parse readsLiteral_spec fun isTrue htrue => ?_
  split
  · next h => exact Meets.parseLog (seek_advances (by omega) (htrue h))
  split
  · next h =>
    have hlt : b.offset < content.length := h
    refine Meets.bind_parse (meets_peek hlt) fun c _ => ?_
    split
    · refine (Meets.within_parse (parseString_spec hlt) _).bind fun r hr => ?_
      exact .pure ⟨hr.1, fun hs => hr.2.1 (by simpa using hs)⟩
    split
    · exact Meets.parseLog (Meets.within (parseNumber_spec hb) _)
    split
    · exact Meets.within_parse (ih.array b hlt (by omega)) _
    split
    · exact Meets.within_parse (ih.object b hlt (by omega)) _
    · exact .pure (.none hb)
  · exact .pure (.none hb)

theorem parseElements_step {fuel : Nat} (ih : ParserSpec L content fuel)
    (hb : b.offset < content.length) (hf : 3 * (content.length - b.offset) ≤ fuel + 1 + 1) :
    Meets (parseLog content.length) (Advances content b) (parseElements L content (fuel + 1) b) := by
  refine Meets.bind_parse (meets_seek hb) fun b₁ h₁ => ?_
  have ho₁ : b₁.offset = b.offset + 1 := by rw [h₁]
  refine Meets.bind_parse (Meets.within (bufferSkipWhitespace_spec (by omega)) _) fun b₂ h₂ => ?_
  refine (Meets.within_parse (ih.value b₂ h₂.2.1 (by omega)) _).bind fun r hr => ?_
  obtain ⟨item, b₃⟩ := r
  dsimp only
  split
  · exact .pure (.none hr.1)
  have hle : b₃.offset ≤ content.length := hr.1
  have hlt : b₂.offset < b₃.offset := hr.2 rfl
  refine Meets.bind_parse (Meets.within (bufferSkipWhitespace_spec hle) _) fun b₄ h₄ => ?_
  refine Meets.bind_parse lookingAt_spec fun comma hcomma => ?_
  split
  · next h =>
    refine (ih.elements b₄ (hcomma h) (by omega)).bind fun r hr => .pure ⟨hr.1, fun hs => ?_⟩
    have hlt₄ : b₄.offset < r.2.offset := hr.2 (by simpa using hs)
    dsimp only
    omega
  · exact .pure ⟨h₄.2.1, fun _ => by dsimp only; omega⟩

theorem parseArray_step {fuel : Nat} (ih : ParserSpec L content fuel)
    (hb : b.offset < content.length) (hf : 3 * (content.length - b.offset) ≤ fuel + 1) :
    Meets (parseLog content.length) (Advances content b) (parseArray L content (fuel + 1) b) := by
  rw [parseArray]
  split
  · exact .pure (.none (Nat.le_of_lt hb))
  refine Meets.bind_parse (meets_peek hb) fun c _ => ?_
  split
  · exact .pure (.none (Nat.le_of_lt hb))
  refine Meets.bind_parse (meets_seek hb) fun b₁ h₁ => ?_
  have ho₁ : b₁.offset = b.offset + 1 := by rw [h₁]
  refine Meets.bind_parse (Meets.within (bufferSkipWhitespace_spec (by omega)) _) fun b₂ h₂ => ?_
  refine Meets.bind_parse lookingAt_spec fun empty hempty => ?_
  split
  · next h => exact Meets.parseLog (seek_advances (by omega) (hempty h))
  split
  · exact Meets.parseLog (seek_fails (by omega))
  next h =>
  have hlt : b₂.offset < content.length := not_not.1 h
  refine Meets.bind_parse (meets_seek (by omega)) fun b₃ h₃ => ?_
  have ho₃ : b₃.offset = b₂.offset - 1 := by rw [h₃]
  refine (ih.elements b₃ (by omega) (by omega)).bind fun r hr => ?_
  obtain ⟨child, b₄⟩ := r
  dsimp only
  split
  · exact .pure (.none hr.1)
  have hlt₄ : b₃.offset < b₄.offset := hr.2 rfl
  refine Meets.bind_parse lookingAt_spec fun closed hclosed => ?_
  split
  · next h => exact Meets.parseLog (seek_advances (by omega) (hclosed h))
  · exact .pure (.none hr.1)

theorem parseMembers_step {fuel : Nat} (ih : ParserSpec L content fuel)
    (hb : b.offset < content.length) (hf : 3 * (content.length - b.offset) ≤ fuel + 1 + 1) :
    Meets (parseLog content.length) (Advances content b) (parseMembers L content (fuel + 1) b) := by
  rw [parseMembers]
  split
  · exact .pure (.none (Nat.le_of_lt hb))
  next h =>
  have hb₁ : b.offset + 1 < content.length := not_not.1 h
  refine Meets.bind_parse (meets_seek hb) fun b₁ h₁ => ?_
  have ho₁ : b₁.offset = b.offset + 1 := by rw [h₁]
  refine Meets.bind_parse (Meets.within (bufferSkipWhitespace_spec (by omega)) _) fun b₂ h₂ => ?_
  have hlt₂ : b₂.offset < content.length := h₂.2.2.1 (by omega)
  refine (Meets.within_parse (parseString_spec hlt₂) _).bind fun r hr => ?_
  obtain ⟨string, b₃⟩ := r
  dsimp only
  split
  · exact .pure (.none hr.1)
  have hle₃ : b₃.offset ≤ content.length := hr.1
  have hlt₃ : b₂.offset < b₃.offset := hr.2.1 rfl
  refine Meets.bind_parse (Meets.within (bufferSkipWhitespace_spec hle₃) _) fun b₄ h₄ => ?_
  refine Meets.bind_parse lookingAt_spec fun colon hcolon => ?_
  split
  · exact .pure (.none h₄.2.1)
  next h =>
  have hlt₄ : b₄.offset < content.length := hcolon (not_not.1 h)
  refine Meets.bind_parse (meets_seek hlt₄) fun b₅ h₅ => ?_
  have ho₅ : b₅.offset = b₄.offset + 1 := by rw [h₅]
  refine Meets.bind_parse (Meets.within (bufferSkipWhitespace_spec (by omega)) _) fun b₆ h₆ => ?_
  refine (Meets.within_parse (ih.value b₆ h₆.2.1 (by omega)) _).bind fun r hr => ?_
  obtain ⟨item, b₇⟩ := r
  dsimp only
  split
  · exact .pure (.none hr.1)
  have hle₇ : b₇.offset ≤ content.length := hr.1
  have hlt₇ : b₆.offset < b₇.offset := hr.2 rfl
  refine Meets.bind_parse (Meets.within (bufferSkipWhitespace_spec hle₇) _) fun b₈ h₈ => ?_
  refine Meets.bind_parse lookingAt_spec fun comma hcomma => ?_
  split
  · next h =>
    refine (ih.members b₈ (hcomma h) (by omega)).bind fun r hr => .pure ⟨hr.1, fun hs => ?_⟩
    have hlt₈ : b₈.offset < r.2.offset := hr.2 (by simpa using hs)
    dsimp only
    omega
  · exact .pure ⟨h₈.2.1, fun _ => by dsimp only; omega⟩

theorem parseObject_step {fuel : Nat} (ih : ParserSpec L content fuel)
    (hb : b.offset < content.length) (hf : 3 * (content.length - b.offset) ≤ fuel + 1) :
    Meets (parseLog content.length) (Advances content b) (parseObject L content (fuel + 1) b) := by
  rw [parseObject]
  split
  · exact .pure (.none (Nat.le_of_lt hb))
  refine Meets.bind_parse lookingAt_spec fun isObject _ => ?_
  split
  · exact .pure (.none (Nat.le_of_lt hb))
  refine Meets.bind_parse (meets_seek hb) fun b₁ h₁ => ?_
  have ho₁ : b₁.offset = b.offset + 1 := by rw [h₁]
  refine Meets.bind_parse (Meets.within (bufferSkipWhitespace_spec (by omega)) _) fun b₂ h₂ => ?_
  refine Meets.bind_parse lookingAt_spec fun empty hempty => ?_
  split
  · next h => exact Meets.parseLog (seek_advances (by omega) (hempty h))
  split
  · exact Meets.parseLog (seek_fails (by omega))
  next h =>
  have hlt : b₂.offset < content.length := not_not.1 h
  refine Meets.bind_parse (meets_seek (by omega)) fun b₃ h₃ => ?_
  have ho₃ : b₃.offset = b₂.offset - 1 := by rw [h₃]
  refine (ih.members b₃ (by omega) (by omega)).bind fun r hr => ?_
  obtain ⟨child, b₄⟩ := r
  dsimp only
  split
  · exact .pure (.none hr.1)
  have hlt₄ : b₃.offset < b₄.offset := hr.2 rfl
  refine Meets.bind_parse lookingAt_spec fun closed hclosed => ?_
  split
  · next h => exact Meets.parseLog (seek_advances (by omega) (hclosed h))
  · exact .pure (.none hr.1)

/-- Every budget: the five functions stay in bounds wherever it covers the rest of the text. -/
theorem parserSpec (L : Libc D) (content : List UInt8) (fuel : Nat) :
    ParserSpec L content fuel := by
  induction fuel with
  | zero => constructor <;> intro b _ _ <;> omega
  | succ fuel ih =>
    exact ⟨fun _ => parseValue_step ih, fun _ => parseArray_step ih, fun _ => parseElements_step ih,
      fun _ => parseObject_step ih, fun _ => parseMembers_step ih⟩

theorem cJSONParseWithLengthOpts_spec (requireNullTerminated : Bool) :
    Meets (parseLog content.length) (fun r => r.2 ≤ content.length)
      (cJSONParseWithLengthOpts L content requireNullTerminated) := by
  have failed : ∀ b : ParseBuffer, Meets (parseLog content.length)
      (fun r => r.2 ≤ content.length)
      (pure (none, if b.offset < content.length then b.offset else content.length - 1) :
        Run (Option (Item D Block) × Nat)) := by
    intro b
    refine .pure ?_
    split <;> omega
  unfold cJSONParseWithLengthOpts
  split
  · exact failed _
  refine Meets.bind_parse (Meets.within skipUtf8Bom_spec _) fun r hr => ?_
  split
  · exact failed _
  next b =>
  have hb : b.offset ≤ content.length := hr b rfl
  refine Meets.bind_parse (Meets.within (bufferSkipWhitespace_spec hb) _) fun b₁ h₁ => ?_
  have hfuel : 3 * (content.length - b₁.offset) + 1 ≤ parseFuel content := by
    unfold parseFuel
    omega
  refine (Meets.within_parse ((parserSpec L content _).value b₁ h₁.2.1 hfuel) _).bind fun r hr => ?_
  obtain ⟨item, b₂⟩ := r
  have hb₂ : b₂.offset ≤ content.length := hr.1
  dsimp only
  split
  · exact failed _
  split
  · refine Meets.bind_parse (Meets.within (bufferSkipWhitespace_spec hb₂) _) fun b₃ h₃ => ?_
    refine Meets.bind_parse lookingAt_spec fun terminated _ => ?_
    split
    · exact .pure h₃.2.1
    · exact failed _
  · exact .pure hb₂

/-- The parser on every text and every length. It terminates, reads the text below its length and
keeps its offset there; its only accesses outside a block are terminator stores of `parse_string`,
one byte past the output block and each marked as the end of a decoding without u-escapes. And every
single call of `parse_string` stores its terminator one byte past the block exactly when it succeeds
without having consumed a u-escape; a failing call stays in bounds. -/
theorem cJSONParseWithLengthOpts_safe (L : Libc D) (content : List UInt8)
    (requireNullTerminated : Bool) :
    (let log := (cJSONParseWithLengthOpts L content requireNullTerminated).log;
      Event.outOfFuel ∉ log ∧
      (∀ a : Access, .access a ∈ log → a.region = .input → a.write = false →
        a.index < content.length) ∧
      (∀ n, .offset n ∈ log → n ≤ content.length) ∧
      (∀ a : Access, .access a ∈ log → a.Oob →
        a.site = some .parseString ∧ a.region = .output ∧ a.write = true ∧ a.index = a.size ∧
          .decoded 0 ∈ log) ∧
      ParseLog content.length log) ∧
    ∀ b : ParseBuffer, b.offset < content.length →
      StringTrace content.length (parseString content b).val.1 (parseString content b).log := by
  have hlog : ParseLog content.length
      (cJSONParseWithLengthOpts L content requireNullTerminated).log :=
    (cJSONParseWithLengthOpts_spec requireNullTerminated).log
  refine ⟨⟨hlog.outOfFuel_not_mem, fun a ha hr hw => ?_, fun n => hlog.offset_le,
    fun a ha hoob => ?_, hlog⟩, fun b hb => (parseString_call hb).trace⟩
  · rcases hlog.access_cases ha with hsafe | ⟨u, hu, -⟩
    · exact hsafe.2.2 hr hw
    · rw [hu.write] at hw
      exact absurd hw.symm Bool.false_ne_true
  · rcases hlog.access_cases ha with hsafe | ⟨u, hu, hmem⟩
    · exact absurd hoob hsafe.1
    · have hle : a.size ≤ a.index := hoob
      obtain rfl : u = 0 := by
        by_contra h0
        have := hu.inb (by omega)
        omega
      exact ⟨Access.site_eq hu.stack rfl, hu.region, hu.write, hu.oob rfl, hmem⟩

end FourFuzzers.CJson
