import FourFuzzers.CJson.Verify.ParseString

/-!
# The strings `parse_string` accepts

`StringLiteral` is the grammar of a JSON string behind its opening quote, with the bytes it stands
for. The decoding loop follows it with one exception: `parse_hex4` returns 0 for four characters
that are not all hexadecimal digits, and 0 is also a legal code, so such an escape is read as a NUL
byte (`Reading.bad`). Behind it the loop may be out of step with the scan that found the closing
quote, which is why a `Reading` may run into quotes and past the end.
-/

namespace FourFuzzers.CJson

open FourFuzzers.Lib FourFuzzers.Lib.Traced

/-! ## The grammar -/

/-- The number four hexadecimal digits at `p` stand for. -/
def hex4 (content : List UInt8) (p : Nat) : Option Nat := do
  let a ← hexValue (content.getD p 0)
  let b ← hexValue (content.getD (p + 1) 0)
  let c ← hexValue (content.getD (p + 2) 0)
  let d ← hexValue (content.getD (p + 3) 0)
  pure (((a * 16 + b) * 16 + c) * 16 + d)

/-- The UTF-8 encoding of a code point. -/
def utf8 (codepoint : Nat) : List UInt8 := String.utf8EncodeChar (Char.ofNat codepoint)

/-- The code point of a surrogate pair. -/
def surrogatePair (high low : Nat) : Nat := 0x10000 + (high - 0xD800) * 0x400 + (low - 0xDC00)

/-- A piece of a string at `p`: its length and the bytes it stands for. -/
inductive Piece (content : List UInt8) (p : Nat) : Nat → List UInt8 → Prop
  | plain (hb : content.getD p 0 ≠ 0x5C) : Piece content p 1 [content.getD p 0]
  | simple {v : UInt8} (hb : content.getD p 0 = 0x5C)
      (hv : simpleEscape (content.getD (p + 1) 0) = some v) : Piece content p 2 [v]
  | unicode {code : Nat} (hb : content.getD p 0 = 0x5C) (hu : content.getD (p + 1) 0 = 0x75)
      (hx : hex4 content (p + 2) = some code) (hs : ¬ (0xD800 ≤ code ∧ code ≤ 0xDFFF)) :
      Piece content p 6 (utf8 code)
  | pair {high low : Nat} (hb : content.getD p 0 = 0x5C) (hu : content.getD (p + 1) 0 = 0x75)
      (hx : hex4 content (p + 2) = some high) (hhigh : 0xD800 ≤ high ∧ high ≤ 0xDBFF)
      (hb' : content.getD (p + 6) 0 = 0x5C) (hu' : content.getD (p + 7) 0 = 0x75)
      (hx' : hex4 content (p + 8) = some low) (hlow : 0xDC00 ≤ low ∧ low ≤ 0xDFFF) :
      Piece content p 12 (utf8 (surrogatePair high low))

/-- From `p` to the closing quote at `e` the text is a string that stands for `out`. -/
inductive StringLiteral (content : List UInt8) (e : Nat) : Nat → List UInt8 → Prop
  | close (he : e < content.length) (hq : content.getD e 0 = 0x22) : StringLiteral content e e []
  | piece {p n : Nat} {out rest : List UInt8} (hq : content.getD p 0 ≠ 0x22)
      (h : Piece content p n out) (hrest : StringLiteral content e (p + n) rest) :
      StringLiteral content e p (out ++ rest)

/-! ## The decoder -/

/-- A u-escape of the literal whose four characters are not all hexadecimal digits. -/
structure BadEscape (content : List UInt8) (e p : Nat) : Prop where
  backslash : content.getD p 0 = 0x5C
  u : content.getD (p + 1) 0 = 0x75
  fits : p + 6 ≤ e
  digits : hex4 content (p + 2) = none

/-- How the decoding loop reads a literal that ends at `e`; `bad` says whether it meets a
`BadEscape`, which it takes for a NUL byte. -/
inductive Reading (content : List UInt8) (e : Nat) : Nat → Bool → List UInt8 → Prop
  | done {p : Nat} (hp : e ≤ p) : Reading content e p false []
  | piece {p n : Nat} {bad : Bool} {out rest : List UInt8} (hp : p < e) (h : Piece content p n out)
      (hfit : 2 < n → p + n ≤ e) (hrest : Reading content e (p + n) bad rest) :
      Reading content e p bad (out ++ rest)
  | bad {p : Nat} {bad : Bool} {rest : List UInt8} (h : BadEscape content e p)
      (hrest : Reading content e (p + 6) bad rest) : Reading content e p true (0 :: rest)

/-- The text from `p` on is read up to its closing quote, through a `BadEscape`. -/
def Misread (content : List UInt8) (p : Nat) : Prop :=
  ∃ e k out, Scan content e p k ∧ Reading content e p true out

variable {content : List UInt8}

/-! ## Digits -/

theorem hex4_isHex {p code : Nat} (h : hex4 content p = some code) : Hex4 content p := by
  unfold hex4 at h
  simp only [Option.bind_eq_bind, Option.bind_eq_some_iff] at h
  obtain ⟨a, ha, b, hb, c, hc, d, hd, -⟩ := h
  intro i hi
  unfold IsHex
  rcases (by omega : i = 0 ∨ i = 1 ∨ i = 2 ∨ i = 3) with rfl | rfl | rfl | rfl
  · rw [Nat.add_zero, ha]
    rfl
  · rw [hb]
    rfl
  · rw [hc]
    rfl
  · rw [hd]
    rfl

theorem hex4_le {p code : Nat} (h : hex4 content p = some code) : code ≤ 0xFFFF := by
  unfold hex4 at h
  simp only [Option.bind_eq_bind, Option.bind_eq_some_iff, Option.pure_def, Option.some.injEq] at h
  obtain ⟨a, ha, b, hb, c, hc, d, hd, rfl⟩ := h
  have ha := hexValue_le ha
  have hb := hexValue_le hb
  have hc := hexValue_le hc
  have hd := hexValue_le hd
  omega

/-- `parse_hex4` reads the number, or 0 when there is none. -/
theorem val_parseHex4 (p : Nat) : (parseHex4 content p).val = (hex4 content p).getD 0 := by
  unfold parseHex4 hex4
  rw [val_parseHex4Loop_succ]
  cases hexValue (content.getD p 0) with
  | none => rfl
  | some a =>
    dsimp only [Option.bind_eq_bind, Option.bind_some]
    rw [val_parseHex4Loop_succ]
    cases hexValue (content.getD (p + 1) 0) with
    | none => rfl
    | some b =>
      dsimp only [Option.bind_some]
      rw [val_parseHex4Loop_succ]
      cases hexValue (content.getD (p + 2) 0) with
      | none => rfl
      | some c =>
        dsimp only [Option.bind_some]
        rw [val_parseHex4Loop_succ]
        cases hexValue (content.getD (p + 3) 0) with
        | none => rfl
        | some d =>
          simp only [parseHex4Loop, val_pure, Option.bind_some, Option.pure_def, Option.getD_some,
            Nat.shiftLeft_eq]
          simp

/-! ## UTF-8 -/

theorem toUInt8_eq {x y : Nat} (h : x % 256 = y % 256) : x.toUInt8 = y.toUInt8 := by
  apply UInt8.toNat_inj.1
  simpa using h

/-- A continuation byte as the code computes it. -/
theorem tailByte_eq (c : Nat) : ((c ||| 0x80) &&& 0xBF).toUInt8 = (c % 0x40 + 0x80).toUInt8 := by
  have hbyte : ∀ r, r < 256 → ((r ||| 0x80) &&& 0xBF) % 256 = (r % 0x40 + 0x80) % 256 := by
    decide +kernel
  apply toUInt8_eq
  have h := hbyte (c % 256) (Nat.mod_lt _ (by decide))
  rw [show (256 : Nat) = 2 ^ 8 from rfl, Nat.and_mod_two_pow, Nat.or_mod_two_pow] at h ⊢
  rw [Nat.mod_mod] at h
  rw [h]
  omega

/-- The continuation bytes of a code point, in the order of the text. -/
def tailBytes : Nat → Nat → List UInt8
  | 0, _ => []
  | n + 1, c => tailBytes n (c >>> 6) ++ [((c ||| 0x80) &&& 0xBF).toUInt8]

theorem length_tailBytes (n c : Nat) : (tailBytes n c).length = n := by
  induction n generalizing c with
  | zero => rfl
  | succ n ih => rw [tailBytes, List.length_append, ih, List.length_singleton]

theorem val_encodeTail (output : Block) (op n c : Nat) :
    (encodeTail output op n c).val = (output.store (op + 1) (tailBytes n c), c >>> (6 * n)) := by
  induction n generalizing output c with
  | zero => rfl
  | succ n ih =>
    rw [encodeTail, val_bind, val_put, ih, tailBytes, Block.store_append, length_tailBytes,
      Block.store_set_comm _ _ _ (by rw [length_tailBytes]; omega), ← Nat.shiftRight_add,
      show op + 1 + n = op + (n + 1) by omega, show 6 + 6 * n = 6 * (n + 1) by omega]
    rfl

theorem val_writeUtf8 {c n m mark : Nat} {output : Block} {op : Nat} {first : UInt8}
    (hm : 0 < m) (hfirst : (if m > 1 then ((c >>> (6 * (m - 1))) ||| mark) &&& 0xFF
      else (c >>> (6 * (m - 1))) &&& 0x7F).toUInt8 = first) :
    (writeUtf8 c n m mark output op).val =
      (n, output.store op (first :: tailBytes (m - 1) c), op + (first :: tailBytes (m - 1) c).length) := by
  unfold writeUtf8
  rw [val_bind, val_encodeTail]
  simp only [val_bind, val_pure, val_put, hfirst, List.length_cons, length_tailBytes]
  rw [Block.store, Block.set_store_comm _ _ _ (Nat.lt_succ_self op), Nat.sub_add_cancel hm]

theorem utf8_eq {c : Nat} (hc : c.isValidChar) : utf8 c =
    if c ≤ 0x7F then [c.toUInt8]
    else if c ≤ 0x7FF then [(c / 64 % 0x20 + 0xC0).toUInt8, (c % 0x40 + 0x80).toUInt8]
    else if c ≤ 0xFFFF then
      [(c / 4096 % 0x10 + 0xE0).toUInt8, (c / 64 % 0x40 + 0x80).toUInt8, (c % 0x40 + 0x80).toUInt8]
    else
      [(c / 262144 % 0x08 + 0xF0).toUInt8, (c / 4096 % 0x40 + 0x80).toUInt8,
        (c / 64 % 0x40 + 0x80).toUInt8, (c % 0x40 + 0x80).toUInt8] := by
  have hval : (Char.ofNat c).val.toNat = c := by
    unfold Char.ofNat
    rw [dif_pos hc]
    rfl
  unfold utf8 String.utf8EncodeChar
  dsimp only
  rw [hval]

/-- The leading byte of a sequence of two or more bytes. -/
theorem firstByte_eq {x mark w : Nat} (hx : x < w)
    (h : ∀ r, r < w → (r ||| mark) &&& 0xFF = r % w + mark) :
    ((x ||| mark) &&& 0xFF).toUInt8 = (x % w + mark).toUInt8 := by
  rw [h x hx]

/-- The encoding is the one of the standard. -/
theorem val_encodeUtf8 {c n : Nat} {output : Block} {op : Nat} (hc : c.isValidChar) :
    (encodeUtf8 c n output op).val = (n, output.store op (utf8 c), op + (utf8 c).length) := by
  unfold encodeUtf8
  rw [utf8_eq hc]
  by_cases h1 : c < 0x80
  · have hone : ∀ r, r < 0x80 → r &&& 0x7F = r := by decide +kernel
    rw [if_pos h1, if_pos (by omega), val_writeUtf8 (by decide) (by rfl)]
    simp [tailBytes, hone c h1]
  by_cases h2 : c < 0x800
  · rw [if_neg h1, if_pos h2, if_neg (by omega), if_pos (by omega), val_writeUtf8 (by decide)
      (firstByte_eq (w := 0x20) (by omega) (by decide +kernel))]
    simp only [tailBytes, tailByte_eq, List.nil_append, Nat.shiftRight_eq_div_pow]
  by_cases h3 : c < 0x10000
  · rw [if_neg h1, if_neg h2, if_pos h3, if_neg (by omega), if_neg (by omega), if_pos (by omega),
      val_writeUtf8 (by decide) (firstByte_eq (w := 0x10) (by omega) (by decide +kernel))]
    simp only [tailBytes, tailByte_eq, List.nil_append, Nat.shiftRight_eq_div_pow]
    rfl
  · have hmax : c ≤ 0x10FFFF := by
      rcases hc with h | h <;> omega
    rw [if_neg h1, if_neg h2, if_neg h3, if_pos hmax, if_neg (by omega), if_neg (by omega),
      if_neg (by omega), val_writeUtf8 (by decide)
      (firstByte_eq (w := 0x08) (by omega) (by decide +kernel))]
    simp only [tailBytes, tailByte_eq, List.nil_append, Nat.shiftRight_eq_div_pow,
      Nat.div_div_eq_div_mul]
    rfl

/-! ## u-escapes of the grammar -/

theorem surrogatePair_eq {high low : Nat} (hhigh : 0xD800 ≤ high ∧ high ≤ 0xDBFF)
    (hlow : 0xDC00 ≤ low ∧ low ≤ 0xDFFF) :
    0x10000 + (((high &&& 0x3FF) <<< 10) ||| (low &&& 0x3FF)) = surrogatePair high low := by
  have hmask : ∀ x, x &&& 0x3FF = x % 2 ^ 10 := fun x => Nat.and_two_pow_sub_one_eq_mod x 10
  rw [hmask, hmask, ← Nat.shiftLeft_add_eq_or_of_lt (Nat.mod_lt _ (by decide)), Nat.shiftLeft_eq]
  unfold surrogatePair
  omega

section

variable {p e op : Nat} {output : Block}

/-- A u-escape of the grammar that fits into the literal is encoded. -/
theorem val_utf16_piece {n : Nat} {out : List UInt8} (h : Piece content p n out) (hn : 2 < n)
    (hfit : p + n ≤ e) : (utf16LiteralToUtf8 content p e output op).val =
      (n, output.store op out, op + out.length) := by
  unfold utf16LiteralToUtf8
  cases h with
  | plain => omega
  | simple => omega
  | unicode hb hu hx hs =>
    have hle := hex4_le hx
    rw [if_neg (by omega), val_bind, val_within, val_parseHex4, hx, Option.getD_some,
      if_neg (by omega), if_neg (by omega)]
    exact val_encodeUtf8 (by unfold Nat.isValidChar; omega)
  | pair hb hu hx hhigh hb' hu' hx' hlow =>
    rw [if_neg (by omega), val_bind, val_within, val_parseHex4, hx, Option.getD_some,
      if_neg (by omega), if_pos hhigh]
    dsimp only
    rw [if_neg (by omega), val_bind, val_peek, hb', if_neg (by decide), val_bind, val_peek,
      show p + 6 + 1 = p + 7 from rfl, hu', if_neg (by decide), val_bind, val_within, val_parseHex4,
      show p + 6 + 2 = p + 8 from rfl, hx', Option.getD_some, if_neg (by omega),
      surrogatePair_eq hhigh hlow]
    exact val_encodeUtf8 (by unfold Nat.isValidChar surrogatePair; omega)

/-- A bad u-escape is taken for a NUL byte. -/
theorem val_utf16_bad (h : BadEscape content e p) :
    (utf16LiteralToUtf8 content p e output op).val = (6, output.store op [0], op + 1) := by
  have hfit := h.fits
  unfold utf16LiteralToUtf8
  rw [if_neg (by omega), val_bind, val_within, val_parseHex4, h.digits, Option.getD_none,
    if_neg (by omega), if_neg (by omega)]
  exact val_encodeUtf8 (by decide)

/-- Nothing else is converted. -/
theorem utf16_cases (hb : content.getD p 0 = 0x5C) (hu : content.getD (p + 1) 0 = 0x75)
    (h : (utf16LiteralToUtf8 content p e output op).val.1 ≠ 0) :
    (∃ n out, Piece content p n out ∧ p + n ≤ e) ∨ BadEscape content e p := by
  unfold utf16LiteralToUtf8 at h
  split at h
  · exact absurd rfl h
  next hsix =>
  rw [val_bind, val_within, val_parseHex4] at h
  cases hx : hex4 content (p + 2) with
  | none => exact .inr ⟨hb, hu, by omega, hx⟩
  | some first =>
    rw [hx, Option.getD_some] at h
    split at h
    · exact absurd rfl h
    next hlow =>
    split at h
    · next hhigh =>
      dsimp only at h
      split at h
      · exact absurd rfl h
      next htwelve =>
      rw [val_bind, val_peek] at h
      split at h
      · exact absurd rfl h
      next hb' =>
      rw [val_bind, val_peek] at h
      split at h
      · exact absurd rfl h
      next hu' =>
      rw [val_bind, val_within, val_parseHex4] at h
      split at h
      · exact absurd rfl h
      next hrange =>
      cases hx' : hex4 content (p + 6 + 2) with
      | none =>
        rw [hx', Option.getD_none] at hrange
        exact absurd (.inl (by decide)) hrange
      | some second =>
        rw [hx', Option.getD_some] at hrange
        exact .inl ⟨12, _, .pair hb hu hx hhigh (not_not.1 hb') (not_not.1 hu') hx' (by omega),
          by omega⟩
    · next hhigh => exact .inl ⟨6, _, .unicode hb hu hx (by omega), by omega⟩

end

/-! ## One round of the decoding loop -/

section

variable {e : Nat} {d : Decoder}

/-- A u-escape that is converted. -/
theorem decodeLoop_utf16 (hp : d.inputPointer < e) (hb : content.getD d.inputPointer 0 = 0x5C)
    (hu : content.getD (d.inputPointer + 1) 0 = 0x75) {n op : Nat} {output : Block} (hn : n ≠ 0)
    (hval : (utf16LiteralToUtf8 content d.inputPointer e d.output d.outputPointer).val =
      (n, output, op)) :
    ∃ u, (decodeLoop content e d).val =
      (decodeLoop content e ⟨d.inputPointer + n, op, output, u⟩).val := by
  rw [decodeLoop, if_pos hp, val_bind, val_peek, if_neg (not_not.2 hb), if_neg (by omega), val_bind,
    val_peek, hu, show simpleEscape 0x75 = none from rfl]
  dsimp only
  rw [if_pos rfl, val_bind, val_within, hval]
  dsimp only
  rw [if_neg hn]
  exact ⟨_, rfl⟩

/-- The loop takes a piece of the grammar for what it stands for. -/
theorem decodeLoop_piece {n : Nat} {out : List UInt8} (hp : d.inputPointer < e)
    (h : Piece content d.inputPointer n out) (hfit : 2 < n → d.inputPointer + n ≤ e) :
    ∃ u, (decodeLoop content e d).val = (decodeLoop content e
      ⟨d.inputPointer + n, d.outputPointer + out.length, d.output.store d.outputPointer out, u⟩).val := by
  cases h with
  | plain hb =>
    rw [decodeLoop, if_pos hp, val_bind, val_peek, if_pos hb]
    exact ⟨_, rfl⟩
  | simple hb hv =>
    rw [decodeLoop, if_pos hp, val_bind, val_peek, if_neg (not_not.2 hb), if_neg (by omega), val_bind,
      val_peek, hv]
    exact ⟨_, rfl⟩
  | unicode hb hu hx hs =>
    exact decodeLoop_utf16 hp hb hu (by decide)
      (val_utf16_piece (.unicode hb hu hx hs) (by decide) (hfit (by decide)))
  | pair hb hu hx hhigh hb' hu' hx' hlow =>
    exact decodeLoop_utf16 hp hb hu (by decide)
      (val_utf16_piece (.pair hb hu hx hhigh hb' hu' hx' hlow) (by decide) (hfit (by decide)))

/-- The loop takes a bad u-escape for a NUL byte. -/
theorem decodeLoop_bad (h : BadEscape content e d.inputPointer) :
    ∃ u, (decodeLoop content e d).val = (decodeLoop content e
      ⟨d.inputPointer + 6, d.outputPointer + 1, d.output.store d.outputPointer [0], u⟩).val := by
  have hfits := h.fits
  exact decodeLoop_utf16 (by omega) h.backslash h.u (by decide) (val_utf16_bad h)

/-- A round that goes on has read a piece of the grammar or a bad u-escape. -/
theorem decodeLoop_cases (hp : d.inputPointer < e) (h : (decodeLoop content e d).val.1 = true) :
    (∃ n out, Piece content d.inputPointer n out ∧ (2 < n → d.inputPointer + n ≤ e)) ∨
      BadEscape content e d.inputPointer := by
  by_cases hb : content.getD d.inputPointer 0 = 0x5C
  · rw [decodeLoop, if_pos hp, val_bind, val_peek, if_neg (not_not.2 hb), if_neg (by omega), val_bind,
      val_peek] at h
    cases hv : simpleEscape (content.getD (d.inputPointer + 1) 0) with
    | some v => exact .inl ⟨2, _, .simple hb hv, fun h => absurd h (by decide)⟩
    | none =>
      rw [hv] at h
      dsimp only at h
      split at h
      · next hu =>
        rw [val_bind, val_within] at h
        split at h
        · cases h
        next hn =>
        exact (utf16_cases hb hu hn).imp_left fun ⟨n, out, hpiece, hle⟩ => ⟨n, out, hpiece, fun _ => hle⟩
      · cases h
  · exact .inl ⟨1, _, .plain hb, fun h => absurd h (by decide)⟩

end

/-! ## The whole loop -/

/-- The loop decodes what it reads. -/
theorem decodeLoop_reading {e ip : Nat} {bad : Bool} {out : List UInt8}
    (h : Reading content e ip bad out) (op : Nat) (output : Block) (u : Nat) :
    ∃ d, (decodeLoop content e ⟨ip, op, output, u⟩).val = (true, d) ∧
      d.output = output.store op out ∧ d.outputPointer = op + out.length := by
  induction h generalizing op output u with
  | done hp =>
    rw [decodeLoop, if_neg (by dsimp only; omega)]
    exact ⟨_, rfl, rfl, rfl⟩
  | piece hp h hfit _ ih =>
    obtain ⟨u', heq⟩ := decodeLoop_piece (d := ⟨_, op, output, u⟩) hp h hfit
    obtain ⟨d, hd, hout, hop⟩ := ih (op + _) (output.store op _) u'
    rw [heq, hd]
    refine ⟨d, rfl, ?_, ?_⟩
    · rw [hout, Block.store_append]
    · rw [hop, List.length_append]
      omega
  | bad h _ ih =>
    obtain ⟨u', heq⟩ := decodeLoop_bad (d := ⟨_, op, output, u⟩) h
    obtain ⟨d, hd, hout, hop⟩ := ih (op + 1) (output.store op [0]) u'
    rw [heq, hd]
    refine ⟨d, rfl, ?_, ?_⟩
    · rw [hout]
      rfl
    · rw [hop, List.length_cons]
      omega

theorem Piece.pos {p n : Nat} {out : List UInt8} (h : Piece content p n out) : 0 < n := by
  cases h <;> decide

/-- What the loop decodes it has read. -/
theorem exists_reading {e : Nat} {d : Decoder} (h : (decodeLoop content e d).val.1 = true) :
    ∃ bad out, Reading content e d.inputPointer bad out := by
  induction hm : e - d.inputPointer using Nat.strongRecOn generalizing d with
  | ind m ih =>
    by_cases hp : d.inputPointer < e
    · rcases decodeLoop_cases hp h with ⟨n, out, hpiece, hfit⟩ | hbad
      · have hpos := hpiece.pos
        obtain ⟨u, heq⟩ := decodeLoop_piece hp hpiece hfit
        rw [heq] at h
        obtain ⟨bad, rest, hrest⟩ := ih _ (by dsimp only; omega) h rfl
        exact ⟨bad, _, .piece hp hpiece hfit hrest⟩
      · have hfits := hbad.fits
        obtain ⟨u, heq⟩ := decodeLoop_bad hbad
        rw [heq] at h
        obtain ⟨bad, rest, hrest⟩ := ih _ (by dsimp only; omega) h rfl
        exact ⟨true, _, .bad hbad hrest⟩
    · exact ⟨false, [], .done (by omega)⟩

/-! ## Readings are unique -/

theorem Piece.unique {p n n' : Nat} {out out' : List UInt8} (h : Piece content p n out)
    (h' : Piece content p n' out') : n = n' := by
  have hu : simpleEscape 0x75 = none := rfl
  cases h with
  | plain hb =>
    cases h' with
    | plain => rfl
    | simple hb' | unicode hb' | pair hb' => exact absurd hb' hb
  | simple hb hv =>
    cases h' with
    | plain hb' => exact absurd hb hb'
    | simple => rfl
    | unicode _ hu' | pair _ hu' =>
      rw [hu', hu] at hv
      cases hv
  | unicode hb hu' hx hs =>
    cases h' with
    | plain hb' => exact absurd hb hb'
    | simple _ hv =>
      rw [hu', hu] at hv
      cases hv
    | unicode => rfl
    | pair _ _ hx' hhigh =>
      rw [hx, Option.some.injEq] at hx'
      omega
  | pair hb hu' hx hhigh =>
    cases h' with
    | plain hb' => exact absurd hb hb'
    | simple _ hv =>
      rw [hu', hu] at hv
      cases hv
    | unicode _ _ hx' =>
      rw [hx, Option.some.injEq] at hx'
      omega
    | pair => rfl

/-- A bad u-escape is no piece of the grammar. -/
theorem BadEscape.not_piece {e p n : Nat} {out : List UInt8} (h : BadEscape content e p)
    (h' : Piece content p n out) : False := by
  cases h' with
  | plain hb => exact hb h.backslash
  | simple _ hv =>
    rw [h.u] at hv
    cases hv
  | unicode _ _ hx | pair _ _ hx =>
    rw [h.digits] at hx
    cases hx

theorem Reading.unique {e p : Nat} {bad bad' : Bool} {out out' : List UInt8}
    (h : Reading content e p bad out) (h' : Reading content e p bad' out') : bad = bad' := by
  induction h generalizing bad' out' with
  | done hp =>
    cases h' with
    | done => rfl
    | piece hp' => omega
    | bad h' =>
      have := h'.fits
      omega
  | piece hp h _ _ ih =>
    cases h' with
    | done hp' => omega
    | piece _ h' _ hrest' =>
      rw [h.unique h'] at ih
      exact ih hrest'
    | bad h' => exact (h'.not_piece h).elim
  | bad h _ _ =>
    cases h' with
    | done hp' =>
      have := h.fits
      omega
    | piece _ h' => exact (h.not_piece h').elim
    | bad => rfl

/-! ## The two passes -/

/-- The size pass finds the closing quote. -/
theorem val_scanLiteral {e p k : Nat} (h : Scan content e p k) (n : Nat) :
    ∃ m, (scanLiteral content p n).val = some (e, m) := by
  induction h generalizing n with
  | done he hq =>
    rw [scanLiteral, if_pos he, val_bind, val_peek, if_neg (not_not.2 hq)]
    exact ⟨_, rfl⟩
  | plain hq hb h ih =>
    have hle := h.le
    have hlt := h.lt_length
    rw [scanLiteral, if_pos (by omega), val_bind, val_peek, if_pos hq, if_neg hb]
    exact ih n
  | escape hb h ih =>
    have hle := h.le
    have hlt := h.lt_length
    rw [scanLiteral, if_pos (by omega), val_bind, val_peek, hb, if_pos (by decide), if_pos rfl,
      if_neg (by omega)]
    exact ih (n + 1)

theorem Scan.unique {e e' p k k' : Nat} (h : Scan content e p k) (h' : Scan content e' p k') :
    e = e' := by
  obtain ⟨m, hm⟩ := val_scanLiteral h 0
  obtain ⟨m', hm'⟩ := val_scanLiteral h' 0
  rw [hm] at hm'
  cases hm'
  rfl

theorem Scan.of_hex4 {e p k : Nat} (h : Scan content e (p + 4) k) (hx : Hex4 content p) :
    Scan content e p (k + 4) := by
  have hplain : ∀ i, i < 4 → ∀ k, Scan content e (p + i + 1) k → Scan content e (p + i) (k + 1) :=
    fun i hi k hs => .plain (hx i hi).ne_quote (hx i hi).ne_backslash hs
  exact hplain 0 (by decide) _ (hplain 1 (by decide) _ (hplain 2 (by decide) _
    (hplain 3 (by decide) _ h)))

/-- The size pass steps over a piece of the grammar … -/
theorem Piece.scan {e p n k : Nat} {out : List UInt8} (h : Piece content p n out)
    (hq : content.getD p 0 ≠ 0x22) (hs : Scan content e (p + n) k) : ∃ k, Scan content e p k := by
  cases h with
  | plain hb => exact ⟨_, .plain hq hb hs⟩
  | simple hb hv => exact ⟨_, .escape hb hs⟩
  | unicode hb hu hx _ => exact ⟨_, .escape hb (.of_hex4 hs (hex4_isHex hx))⟩
  | pair hb hu hx _ hb' hu' hx' _ =>
    have hsecond : Scan content e (p + 2 + 4) _ := .escape hb' (.of_hex4 hs (hex4_isHex hx'))
    exact ⟨_, .escape hb (.of_hex4 hsecond (hex4_isHex hx))⟩

/-- … and is in step with the loop behind it. -/
theorem Scan.piece {e p n k : Nat} {out : List UInt8} (hs : Scan content e p k) (hp : p < e)
    (h : Piece content p n out) : ∃ k, Scan content e (p + n) k := by
  cases h with
  | plain hb =>
    obtain ⟨k, -, hs⟩ := hs.plain_inv hp hb
    exact ⟨k, hs⟩
  | simple hb hv =>
    obtain ⟨k, -, hs⟩ := hs.escape_inv hb
    exact ⟨k, hs⟩
  | unicode hb hu hx _ =>
    obtain ⟨k, -, hs⟩ := hs.escape_inv hb
    obtain ⟨k, -, hs⟩ := hs.hex4 (hex4_isHex hx)
    exact ⟨k, hs⟩
  | pair hb hu hx _ hb' hu' hx' _ =>
    obtain ⟨k, -, hs⟩ := hs.escape_inv hb
    obtain ⟨k, -, hs⟩ := hs.hex4 (hex4_isHex hx)
    obtain ⟨k, -, hs⟩ := hs.escape_inv hb'
    obtain ⟨k, -, hs⟩ := hs.hex4 (hex4_isHex hx')
    exact ⟨k, hs⟩

theorem Scan.ne_quote {e p k : Nat} (hs : Scan content e p k) (hp : p < e) :
    content.getD p 0 ≠ 0x22 := by
  cases hs with
  | done => omega
  | plain hq => exact hq
  | escape hb =>
    rw [hb]
    decide

theorem StringLiteral.scan {e p : Nat} {out : List UInt8} (h : StringLiteral content e p out) :
    ∃ k, Scan content e p k := by
  induction h with
  | close he hq => exact ⟨0, .done he hq⟩
  | piece hq h _ ih =>
    obtain ⟨k, hs⟩ := ih
    exact h.scan hq hs

/-- A string of the grammar is read without a bad u-escape. -/
theorem StringLiteral.reading {e p : Nat} {out : List UInt8} (h : StringLiteral content e p out) :
    Reading content e p false out := by
  induction h with
  | close => exact .done (Nat.le_refl _)
  | piece hq h hrest ih =>
    obtain ⟨k, hs⟩ := hrest.scan
    have hle := hs.le
    have hpos := h.pos
    exact .piece (by omega) h (fun _ => hle) ih

/-- A literal read without a bad u-escape is a string of the grammar. -/
theorem Reading.stringLiteral {e p k : Nat} {bad : Bool} {out : List UInt8}
    (h : Reading content e p bad out) (hbad : bad = false) (hs : Scan content e p k) :
    StringLiteral content e p out := by
  induction h generalizing k with
  | done hp =>
    obtain ⟨rfl, -⟩ := hs.eq_zero hp
    exact .close hs.lt_length hs.quote
  | piece hp h _ _ ih =>
    obtain ⟨k, hs'⟩ := hs.piece hp h
    exact .piece (hs.ne_quote hp) h (ih hbad hs')
  | bad => cases hbad

/-! ## The call -/

variable {b : ParseBuffer}

/-- A literal that is read is decoded. -/
theorem parseString_of_reading {e k : Nat} {bad : Bool} {out : List UInt8}
    (hq : content.getD b.offset 0 = 0x22) (hs : Scan content e (b.offset + 1) k)
    (h : Reading content e (b.offset + 1) bad out) :
    ∃ output, (parseString content b).val = (some output, { b with offset := e + 1 }) ∧
      output.HoldsAt 0 (out ++ [0]) := by
  obtain ⟨m, hm⟩ := val_scanLiteral hs 0
  obtain ⟨d, hd, hout, hop⟩ :=
    decodeLoop_reading h 0 (Block.fresh (e - b.offset - m - 1)) 0
  unfold parseString
  rw [val_bind, val_peek, if_neg (not_not.2 hq), val_bind, hm]
  dsimp only
  rw [val_bind, val_bind, hd]
  refine ⟨_, rfl, ?_⟩
  rw [val_put, hout, hop, Block.holdsAt_append]
  constructor
  · have hstored := Block.holdsAt_store (Block.fresh (e - b.offset - m - 1)) 0 out
    refine hstored.congr fun i _ hi => ?_
    exact Block.mem_set_of_ne _ _ (by omega)
  · rw [Block.holdsAt_cons]
    exact ⟨Block.mem_set_self _ _ _, Block.holdsAt_nil⟩

/-- A call that succeeds has read its literal. -/
theorem exists_reading_of_parseString (hq : content.getD b.offset 0 = 0x22)
    (h : (parseString content b).val.1.isSome = true) :
    ∃ e k bad out, Scan content e (b.offset + 1) k ∧ Reading content e (b.offset + 1) bad out := by
  unfold parseString at h
  rw [val_bind, val_peek, if_neg (not_not.2 hq), val_bind] at h
  have hscan := (@scanLiteral_spec content (b.offset + 1) 0).val
  cases hr : (scanLiteral content (b.offset + 1) 0).val with
  | none =>
    rw [hr] at h
    cases h
  | some r =>
    obtain ⟨e, m⟩ := r
    obtain ⟨k, hs, -⟩ := hscan e m hr
    rw [hr] at h
    dsimp only at h
    rw [val_bind, val_bind] at h
    split at h
    · next hok =>
      obtain ⟨bad, out, hread⟩ := exists_reading hok
      exact ⟨e, k, bad, out, hs, hread⟩
    · cases h

/-- `parse_string` with the item it fills in. -/
def parseStringItem {D : Type} (item : Item D Block) (content : List UInt8) (b : ParseBuffer) :
    Run (Bool × Item D Block × ParseBuffer) := do
  let (s, b) ← parseString content b
  match s with
  | some s => pure (true, .string (some s), b)
  | none => pure (false, item, b)

/-- A call of `parse_string` accepts the strings of the grammar and decodes them. -/
structure FollowsGrammar {D : Type} (item : Item D Block) (content : List UInt8) (b : ParseBuffer) :
    Prop where
  accepts : (parseStringItem item content b).val.1 = true ↔
    ∃ e out, StringLiteral content e (b.offset + 1) out
  decodes : (parseStringItem item content b).val.1 = true → ∃ e out output,
    StringLiteral content e (b.offset + 1) out ∧ output.HoldsAt 0 (out ++ [0]) ∧
      (parseStringItem item content b).val.2 = (.string (some output), { b with offset := e + 1 })
  fails : (parseStringItem item content b).val.1 = false →
    (parseStringItem item content b).val.2.1 = item

theorem val_parseStringItem {D : Type} (item : Item D Block) :
    (parseStringItem item content b).val = match (parseString content b).val with
      | (some s, b) => (true, .string (some s), b)
      | (none, b) => (false, item, b) := by
  unfold parseStringItem
  rw [val_bind]
  obtain ⟨_ | s, b'⟩ := (parseString content b).val <;> rfl

theorem parseStringItem_ok_iff {D : Type} (item : Item D Block) :
    (parseStringItem item content b).val.1 = true ↔
      (parseString content b).val.1.isSome = true := by
  rw [val_parseStringItem]
  obtain ⟨_ | s, b'⟩ := (parseString content b).val
  · simp
  · simp

/-- A call follows the grammar unless the literal is read through a u-escape whose four characters
are not all hexadecimal digits. -/
theorem parseString_followsGrammar_iff {D : Type} (item : Item D Block)
    (hq : content.getD b.offset 0 = 0x22) :
    FollowsGrammar item content b ↔ ¬ Misread content (b.offset + 1) := by
  constructor
  · rintro h ⟨e, k, out, hs, hread⟩
    obtain ⟨output, hval, -⟩ := parseString_of_reading hq hs hread
    have hok : (parseStringItem item content b).val.1 = true := by
      rw [parseStringItem_ok_iff, hval]
      rfl
    obtain ⟨e', out', hlit⟩ := h.accepts.1 hok
    obtain ⟨k', hs'⟩ := hlit.scan
    have hread' := hlit.reading
    rw [← hs.unique hs'] at hread'
    exact nomatch hread.unique hread'
  · intro hread
    have hlit : (parseStringItem item content b).val.1 = true →
        ∃ e k out, Scan content e (b.offset + 1) k ∧ Reading content e (b.offset + 1) false out := by
      intro hok
      obtain ⟨e, k, bad, out, hs, h⟩ :=
        exists_reading_of_parseString hq ((parseStringItem_ok_iff item).1 hok)
      cases bad with
      | true => exact absurd ⟨e, k, out, hs, h⟩ hread
      | false => exact ⟨e, k, out, hs, h⟩
    refine ⟨⟨fun hok => ?_, ?_⟩, fun hok => ?_, fun hfail => ?_⟩
    · obtain ⟨e, k, out, hs, h⟩ := hlit hok
      exact ⟨e, out, h.stringLiteral rfl hs⟩
    · rintro ⟨e, out, h⟩
      obtain ⟨k, hs⟩ := h.scan
      obtain ⟨output, hval, -⟩ := parseString_of_reading hq hs h.reading
      rw [parseStringItem_ok_iff, hval]
      rfl
    · obtain ⟨e, k, out, hs, h⟩ := hlit hok
      obtain ⟨output, hval, hholds⟩ := parseString_of_reading hq hs h
      refine ⟨e, out, output, h.stringLiteral rfl hs, hholds, ?_⟩
      rw [val_parseStringItem, hval]
    · rw [val_parseStringItem] at hfail ⊢
      generalize (parseString content b).val = r at hfail ⊢
      obtain ⟨_ | s, b'⟩ := r
      · rfl
      · simp at hfail

/-- The text `"\u00e9"`. -/
def hexLiteral : List UInt8 := [0x22, 0x5C, 0x75, 0x30, 0x30, 0x65, 0x39, 0x22]

theorem parseString_followsGrammar_iff_hex :
    hexLiteral.getD 0 0 = 0x22 ∧ (FollowsGrammar (.null : Item Unit Block) hexLiteral ⟨0, 0⟩ ↔
      ¬ Misread hexLiteral 1) :=
  ⟨rfl, parseString_followsGrammar_iff .null rfl⟩

/-- The text `"\uzzzz"`. -/
def badLiteral : List UInt8 := [0x22, 0x5C, 0x75, 0x7A, 0x7A, 0x7A, 0x7A, 0x22]

/-- It is no string of the grammar, and it is accepted. -/
theorem parseString_accepts_bad_digits :
    ¬ FollowsGrammar (.null : Item Unit Block) badLiteral ⟨0, 0⟩ := by
  intro h
  have hok : (parseStringItem (.null : Item Unit Block) badLiteral ⟨0, 0⟩).val.1 = true := by
    decide +kernel
  have hdigits : hex4 badLiteral (0 + 1 + 2) = none := by decide
  obtain ⟨e, out, hlit⟩ := h.accepts.1 hok
  cases hlit with
  | close _ hq => exact absurd hq (by decide)
  | piece _ hpiece =>
    cases hpiece with
    | plain hb => exact hb rfl
    | simple _ hv => cases hv
    | unicode _ _ hx | pair _ _ hx =>
      rw [hdigits] at hx
      cases hx

end FourFuzzers.CJson
