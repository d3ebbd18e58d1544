import FourFuzzers.CJson.Verify.Log

/-!
# The byte budget of `parse_string`

The size pass of `parse_string` cuts the literal into plain bytes and backslash pairs and allocates
one byte for each (`Scan`). The decoding loop cuts it differently: a u-escape eats 6 or 12 bytes,
also when its four characters are no hexadecimal digits, and may leave the loop in the middle of a
pair of the size pass, or past the closing quote. `Budget` states how many bytes are left in every
such position: exactly the pairs ahead while no u-escape has been consumed, and at least one more
afterwards.
-/

namespace FourFuzzers.CJson

open FourFuzzers.Lib FourFuzzers.Lib.Traced

variable {content : List UInt8}

/-! ## The size pass -/

/-- From index `p` the size pass reaches the closing quote at `e` in `k` steps. -/
inductive Scan (content : List UInt8) (e : Nat) : Nat → Nat → Prop
  | done (he : e < content.length) (hq : content.getD e 0 = 0x22) : Scan content e e 0
  | plain {p k : Nat} (hq : content.getD p 0 ≠ 0x22) (hb : content.getD p 0 ≠ 0x5C)
      (h : Scan content e (p + 1) k) : Scan content e p (k + 1)
  | escape {p k : Nat} (hb : content.getD p 0 = 0x5C) (h : Scan content e (p + 2) k) :
      Scan content e p (k + 1)

namespace Scan

variable {e p k : Nat}

theorem le (h : Scan content e p k) : p ≤ e := by
  induction h with
  | done => exact Nat.le_refl _
  | plain _ _ _ ih => omega
  | escape _ _ ih => omega

theorem lt_length (h : Scan content e p k) : e < content.length := by
  induction h with
  | done he => exact he
  | plain _ _ _ ih => exact ih
  | escape _ _ ih => exact ih

theorem quote (h : Scan content e p k) : content.getD e 0 = 0x22 := by
  induction h with
  | done _ hq => exact hq
  | plain _ _ _ ih => exact ih
  | escape _ _ ih => exact ih

theorem eq_zero (h : Scan content e p k) (hp : e ≤ p) : p = e ∧ k = 0 := by
  cases h with
  | done => exact ⟨rfl, rfl⟩
  | plain _ _ h => have := h.le; omega
  | escape _ h => have := h.le; omega

theorem plain_inv (h : Scan content e p k) (hp : p < e) (hb : content.getD p 0 ≠ 0x5C) :
    ∃ k', k = k' + 1 ∧ Scan content e (p + 1) k' := by
  cases h with
  | done => omega
  | plain _ _ h => exact ⟨_, rfl, h⟩
  | escape hb' _ => exact absurd hb' hb

theorem escape_inv (h : Scan content e p k) (hb : content.getD p 0 = 0x5C) :
    ∃ k', k = k' + 1 ∧ Scan content e (p + 2) k' := by
  cases h with
  | done _ hq => rw [hb] at hq; exact absurd hq (by decide)
  | plain _ hb' _ => exact absurd hb hb'
  | escape _ h => exact ⟨_, rfl, h⟩

/-- Skipping `m` bytes of the literal ends on a boundary of the size pass or inside a pair; a step
of the size pass covers at most two bytes. -/
theorem skip (h : Scan content e p k) : ∀ m, p + m ≤ e →
    (∃ k', Scan content e (p + m) k' ∧ m ≤ 2 * (k - k') ∧ k' ≤ k) ∨
      ∃ k', Scan content e (p + m + 1) k' ∧ m + 1 ≤ 2 * (k - k') ∧ k' ≤ k := by
  intro m
  induction m with
  | zero => intro _; exact .inl ⟨k, h, Nat.zero_le _, Nat.le_refl _⟩
  | succ m ih =>
    intro hm
    rcases ih (by omega) with ⟨k', hs, hk, hle⟩ | ⟨k', hs, hk, hle⟩
    · by_cases hb : content.getD (p + m) 0 = 0x5C
      · obtain ⟨k'', rfl, hs'⟩ := hs.escape_inv hb
        exact .inr ⟨k'', hs', by omega, by omega⟩
      · obtain ⟨k'', rfl, hs'⟩ := hs.plain_inv (by omega) hb
        exact .inl ⟨k'', hs', by omega, by omega⟩
    · exact .inl ⟨k', hs, by omega, hle⟩

end Scan

/-- The size pass stays in bounds; when it succeeds, its steps and the skipped bytes make up the
literal. -/
theorem scanLiteral_spec {p n : Nat} :
    Meets (safeLog content.length) (fun r => ∀ e m, r = some (e, m) →
      ∃ k, Scan content e p k ∧ p + k + m = e + n) (scanLiteral content p n) := by
  fun_induction scanLiteral content p n with
  | case1 p n hp ih₁ ih₂ =>
    refine (meets_peek hp).bind fun c hc => ?_
    split
    · next hq =>
      split
      · next hb =>
        split
        · exact .pure (by simp)
        · next hlt =>
          refine (ih₁ (by omega)).mono fun r hr e m hem => ?_
          obtain ⟨k, hs, hk⟩ := hr e m hem
          exact ⟨k + 1, .escape (hc ▸ hb) hs, by omega⟩
      · next hb =>
        refine ih₂.mono fun r hr e m hem => ?_
        obtain ⟨k, hs, hk⟩ := hr e m hem
        exact ⟨k + 1, .plain (hc ▸ hq) (hc ▸ hb) hs, by omega⟩
    · next hq =>
      refine .pure fun e m hem => ?_
      simp only [Option.some.injEq, Prod.mk.injEq] at hem
      obtain ⟨rfl, rfl⟩ := hem
      exact ⟨0, .done hp (by rw [← hc]; simpa using hq), by omega⟩
  | case2 p n hp => exact .pure (by simp)

/-! ## u-escapes -/

/-- The value of a hexadecimal digit. -/
def hexValue (c : UInt8) : Option Nat :=
  if 0x30 ≤ c ∧ c ≤ 0x39 then some (c.toNat - 0x30)
  else if 0x41 ≤ c ∧ c ≤ 0x46 then some (10 + c.toNat - 0x41)
  else if 0x61 ≤ c ∧ c ≤ 0x66 then some (10 + c.toNat - 0x61)
  else none

/-- A hexadecimal digit. -/
def IsHex (c : UInt8) : Prop := (hexValue c).isSome

theorem IsHex.ne_backslash {c : UInt8} (h : IsHex c) : c ≠ 0x5C := by
  rintro rfl
  revert h
  unfold IsHex
  decide

theorem IsHex.ne_quote {c : UInt8} (h : IsHex c) : c ≠ 0x22 := by
  rintro rfl
  revert h
  unfold IsHex
  decide

theorem hexValue_le {c : UInt8} {d : Nat} (h : hexValue c = some d) : d ≤ 15 := by
  unfold hexValue at h
  simp only [UInt8.le_iff_toNat_le] at h
  split at h
  · next hc => simp at hc h; omega
  · split at h
    · next hc => simp at hc h; omega
    · split at h
      · next hc => simp at hc h; omega
      · simp at h

/-- One round of `parse_hex4`. -/
theorem val_parseHex4Loop_succ (k p h : Nat) :
    (parseHex4Loop content (k + 1) p h).val = match hexValue (content.getD p 0) with
      | some d => (parseHex4Loop content k (p + 1) (if k ≠ 0 then (h + d) <<< 4 else h + d)).val
      | none => 0 := by
  rw [← val_peek [.parseHex4] content p]
  simp only [parseHex4Loop, val_bind, hexValue]
  generalize (peek [.parseHex4] content p).val = c
  split_ifs <;> rfl

/-- A nonzero code was read off hexadecimal digits. -/
theorem parseHex4Loop_isHex {k p h : Nat} (hv : (parseHex4Loop content k p h).val ≠ 0) :
    ∀ i, i < k → IsHex (content.getD (p + i) 0) := by
  induction k generalizing p h with
  | zero => intro i hi; omega
  | succ k ih =>
    rw [val_parseHex4Loop_succ] at hv
    split at hv
    · next d hd =>
      intro i hi
      cases i with
      | zero => simp only [IsHex, Nat.add_zero, hd, Option.isSome_some]
      | succ i =>
        rw [show p + (i + 1) = p + 1 + i by omega]
        exact ih hv i (by omega)
    · exact absurd rfl hv

theorem parseHex4Loop_lt {k p h m : Nat} (hm : h + 15 < 16 ^ m) :
    (parseHex4Loop content (k + 1) p h).val < 16 ^ (m + k) := by
  induction k generalizing p h m with
  | zero =>
    rw [val_parseHex4Loop_succ]
    split
    · next d hd =>
      have := hexValue_le hd
      show h + d < 16 ^ m
      omega
    · exact Nat.pow_pos (by decide)
  | succ k ih =>
    rw [val_parseHex4Loop_succ]
    split
    · next d hd =>
      have := hexValue_le hd
      have hlt := ih (p := p + 1) (h := (h + d) <<< 4) (m := m + 1)
        (by rw [Nat.shiftLeft_eq, Nat.pow_succ]; omega)
      rw [show m + (k + 1) = m + 1 + k by omega]
      simpa using hlt
    · exact Nat.pow_pos (by decide)

theorem meets_parseHex4Loop {k p h : Nat} (hp : p + k ≤ content.length) :
    Meets (safeLog content.length) (fun _ => True) (parseHex4Loop content k p h) := by
  induction k generalizing p h with
  | zero => exact .pure trivial
  | succ k ih =>
    refine (meets_peek (by omega)).bind fun c _ => ?_
    split
    · exact ih (by omega)
    · split
      · exact ih (by omega)
      · split
        · exact ih (by omega)
        · exact .pure trivial

/-- Four hexadecimal digits stand at `p`. -/
def Hex4 (content : List UInt8) (p : Nat) : Prop := ∀ i, i < 4 → IsHex (content.getD (p + i) 0)

theorem parseHex4_spec {p : Nat} (hp : p + 4 ≤ content.length) :
    Meets (safeLog content.length) (fun c => c ≤ 0xFFFF ∧ (c ≠ 0 → Hex4 content p)) (parseHex4 content p) := by
  refine ⟨(meets_parseHex4Loop hp).log, ?_, parseHex4Loop_isHex⟩
  have hlt : (parseHex4Loop content (3 + 1) p 0).val < 16 ^ (1 + 3) :=
    parseHex4Loop_lt (by decide)
  exact Nat.le_of_lt_succ hlt

/-- The number of bytes of the UTF-8 encoding. -/
def utf8Length (codepoint : Nat) : Nat :=
  if codepoint < 0x80 then 1 else if codepoint < 0x800 then 2
  else if codepoint < 0x10000 then 3 else 4

/-- The cells of `b` that were stored to are stored to in `b'`, and so are those from `lo` up to
`hi`. -/
def Fills (b b' : Block) (lo hi : Nat) : Prop :=
  b'.size = b.size ∧ ∀ i, (b.mem i).isSome ∨ lo ≤ i ∧ i < hi → (b'.mem i).isSome

theorem fills_set (b : Block) (i : Nat) (v : UInt8) : Fills b (b.set i v) i (i + 1) := by
  refine ⟨rfl, fun j hj => ?_⟩
  by_cases h : j = i
  · subst h
    simp
  · rw [Block.mem_set_of_ne _ _ h]
    rcases hj with hj | hj
    · exact hj
    · omega

theorem encodeTail_spec {output : Block} {op n c : Nat} (h : op + n < output.size) :
    Meets (safeLog content.length) (fun r => Fills output r.1 (op + 1) (op + n + 1))
      (encodeTail output op n c) := by
  induction n generalizing output c with
  | zero => exact .pure ⟨rfl, fun i hi => hi.resolve_right (by omega)⟩
  | succ n ih =>
    refine (meets_put h).bind fun b hb => ?_
    subst hb
    refine (ih (by rw [Block.size_set]; omega)).mono fun r hr => ⟨hr.1, fun i hi => ?_⟩
    have hset := (fills_set output (op + (n + 1)) ((c ||| 0x80) &&& 0xBF).toUInt8).2 i
    refine hr.2 i ?_
    by_cases hlt : op + 1 ≤ i ∧ i < op + n + 1
    · exact .inr hlt
    · exact .inl (hset (hi.imp_right fun _ => by omega))

/-- What a successful encoding in `w` bytes at `op` returns. -/
def Encoded (n op w : Nat) (output : Block) (r : Nat × Block × Nat) : Prop :=
  r.1 = n ∧ r.2.2 = op + w ∧ Fills output r.2.1 op (op + w)

theorem writeUtf8_spec {c n m mark : Nat} {output : Block} {op : Nat} (hm : 0 < m)
    (hfit : op + m ≤ output.size) :
    Meets (safeLog content.length) (Encoded n op m output) (writeUtf8 c n m mark output op) := by
  refine (encodeTail_spec (by omega)).bind fun r hr => ?_
  refine (meets_put (by rw [hr.1]; omega)).bind fun b hb => ?_
  subst hb
  refine .pure ⟨rfl, rfl, hr.1, fun i hi => (fills_set r.1 op _).2 i ?_⟩
  by_cases hop : i = op
  · exact .inr (by omega)
  · exact .inl (hr.2 i (hi.imp_right fun _ => by omega))

theorem encodeUtf8_spec {c n : Nat} {output : Block} {op : Nat} (hc : c ≤ 0x10FFFF)
    (hfit : op + utf8Length c ≤ output.size) :
    Meets (safeLog content.length) (Encoded n op (utf8Length c) output) (encodeUtf8 c n output op) := by
  unfold utf8Length at hfit ⊢
  unfold encodeUtf8
  split_ifs at hfit ⊢
  all_goals exact writeUtf8_spec (by omega) hfit

/-- The outcomes of `utf16_literal_to_utf8` at `p` in a literal that ends at `e`: the length of the
sequence and the number of bytes written. -/
inductive Utf16 (content : List UInt8) (p e : Nat) : Nat → Nat → Prop
  | fail : Utf16 content p e 0 0
  /-- one byte, whatever the four characters are -/
  | ascii (he : p + 6 ≤ e) : Utf16 content p e 6 1
  | single {w : Nat} (he : p + 6 ≤ e) (hx : Hex4 content (p + 2)) (hw : w ≤ 3) :
      Utf16 content p e 6 w
  | pair (he : p + 12 ≤ e) (hx : Hex4 content (p + 2)) (hb : content.getD (p + 6) 0 = 0x5C)
      (hu : content.getD (p + 7) 0 = 0x75) (hx' : Hex4 content (p + 8)) : Utf16 content p e 12 4

/-- A code point outside the surrogates, encoded from its four characters. -/
theorem utf16_single {p e c : Nat} (he : p + 6 ≤ e) (hc : c ≤ 0xFFFF)
    (hx : c ≠ 0 → Hex4 content (p + 2)) : Utf16 content p e 6 (utf8Length c) := by
  unfold utf8Length
  split
  · exact .ascii he
  · split
    · exact .single he (hx (by omega)) (by omega)
    · split
      · exact .single he (hx (by omega)) (by omega)
      · omega

theorem surrogate_range (a b : Nat) :
    0x10000 ≤ 0x10000 + (((a &&& 0x3FF) <<< 10) ||| (b &&& 0x3FF)) ∧
      0x10000 + (((a &&& 0x3FF) <<< 10) ||| (b &&& 0x3FF)) ≤ 0x10FFFF := by
  have ha : a &&& 0x3FF < 2 ^ 10 := Nat.and_lt_two_pow a (by decide)
  have hb : b &&& 0x3FF < 2 ^ 10 := Nat.and_lt_two_pow b (by decide)
  have hs : (a &&& 0x3FF) <<< 10 < 2 ^ 20 := by
    rw [Nat.shiftLeft_eq]
    omega
  have := Nat.or_lt_two_pow hs (Nat.lt_trans hb (by decide))
  omega

/-- `utf16_literal_to_utf8` stays in bounds when whatever it may write fits. -/
theorem utf16LiteralToUtf8_spec {p e op : Nat} {output : Block} (he : e ≤ content.length)
    (hfit : ∀ n w, Utf16 content p e n w → op + w ≤ output.size) :
    Meets (safeLog content.length) (fun r => ∃ n w, Utf16 content p e n w ∧ Encoded n op w output r)
      (utf16LiteralToUtf8 content p e output op) := by
  have failed : Meets (safeLog content.length) (fun r => ∃ n w, Utf16 content p e n w ∧
      Encoded n op w output r) (pure (0, output, op) : Run (Nat × Block × Nat)) :=
    .pure ⟨0, 0, .fail, rfl, rfl, rfl, fun i hi => hi.resolve_right (by omega)⟩
  unfold utf16LiteralToUtf8
  split
  · exact failed
  next h6 =>
  refine (Meets.within (parseHex4_spec (by omega)) _).bind fun first ⟨hle, hhex⟩ => ?_
  split
  · exact failed
  split
  · next hfirst =>
    dsimp only
    split
    · exact failed
    next h12 =>
    refine (meets_peek (by omega)).bind fun c0 hc0 => ?_
    split
    · exact failed
    next hb =>
    refine (meets_peek (by omega)).bind fun c1 hc1 => ?_
    split
    · exact failed
    next hu =>
    refine (Meets.within (parseHex4_spec (by omega)) _).bind fun second ⟨_, hhex'⟩ => ?_
    split
    · exact failed
    next hsecond =>
    obtain ⟨hlo, hhi⟩ := surrogate_range first second
    have hw : utf8Length (0x10000 + (((first &&& 0x3FF) <<< 10) ||| (second &&& 0x3FF))) = 4 := by
      simp only [utf8Length]
      rw [if_neg (by omega), if_neg (by omega), if_neg (by omega)]
    have hout : Utf16 content p e 12 4 :=
      .pair (by omega) (hhex (by omega)) (hc0 ▸ by simpa using hb) (hc1 ▸ by simpa using hu)
        (hhex' (by omega))
    exact (encodeUtf8_spec hhi (hw ▸ hfit _ _ hout)).mono fun r hr => ⟨12, 4, hout, hw ▸ hr⟩
  · have hout : Utf16 content p e 6 (utf8Length first) := utf16_single (by omega) hle hhex
    exact (encodeUtf8_spec (by omega) (hfit _ _ hout)).mono fun r hr => ⟨6, _, hout, hr⟩

/-! ## The decoding loop -/

/-- The room left in an output block of `size` bytes when the decoding loop stands at input `ip`
and output `op` of a literal ending at `e`, having consumed `u` u-escapes. -/
inductive Budget (content : List UInt8) (e size : Nat) : Nat → Nat → Nat → Prop
  /-- in step with the size pass, no u-escape yet: exactly the steps ahead -/
  | exact {ip op k : Nat} (h : Scan content e ip k) (hop : op + k = size) :
      Budget content e size ip op 0
  /-- in step again after a u-escape: one byte more -/
  | spare {ip op u k : Nat} (h : Scan content e ip k) (hop : op + k + 1 ≤ size) :
      Budget content e size ip op (u + 1)
  /-- on the second byte of a pair of the size pass: two bytes more -/
  | inside {ip op u k : Nat} (h : Scan content e (ip + 1) k) (hop : op + k + 2 ≤ size) :
      Budget content e size ip op (u + 1)
  /-- past the closing quote -/
  | past {ip op u : Nat} (hip : ip = e + 1) (hop : op + 1 ≤ size) :
      Budget content e size ip op (u + 1)

namespace Scan

variable {e p k : Nat}

theorem lt_of_ne_quote (h : Scan content e p k) (hq : content.getD p 0 ≠ 0x22) : p < e := by
  rcases Nat.lt_or_ge p e with hlt | hge
  · exact hlt
  · obtain ⟨rfl, -⟩ := h.eq_zero hge
    exact absurd h.quote hq

theorem hex {i : Nat} (h : Scan content e p k) (hx : IsHex (content.getD p 0)) (hi : p + 1 = i) :
    ∃ k', k = k' + 1 ∧ Scan content e i k' := by
  subst hi
  exact h.plain_inv (h.lt_of_ne_quote hx.ne_quote) hx.ne_backslash

theorem hex4 (h : Scan content e p k) (hx : Hex4 content p) :
    ∃ k', k = k' + 4 ∧ Scan content e (p + 4) k' := by
  obtain ⟨k₁, rfl, h₁⟩ := h.hex (hx 0 (by omega)) rfl
  obtain ⟨k₂, rfl, h₂⟩ := h₁.hex (hx 1 (by omega)) rfl
  obtain ⟨k₃, rfl, h₃⟩ := h₂.hex (hx 2 (by omega)) rfl
  obtain ⟨k₄, rfl, h₄⟩ := h₃.hex (hx 3 (by omega)) rfl
  exact ⟨k₄, rfl, h₄⟩

end Scan

namespace Budget

variable {e size ip op u : Nat}

/-- A plain byte fits and keeps the budget. -/
theorem plain (h : Budget content e size ip op u) (hip : ip < e)
    (hb : content.getD ip 0 ≠ 0x5C) : op < size ∧ Budget content e size (ip + 1) (op + 1) u := by
  cases h with
  | exact h hop =>
    obtain ⟨k, rfl, h'⟩ := h.plain_inv hip hb
    exact ⟨by omega, .exact h' (by omega)⟩
  | spare h hop =>
    obtain ⟨k, rfl, h'⟩ := h.plain_inv hip hb
    exact ⟨by omega, .spare h' (by omega)⟩
  | inside h hop => exact ⟨by omega, .spare h (by omega)⟩
  | past hip' => omega

/-- A one-character escape fits and keeps the budget, also where its second character is the
closing quote. -/
theorem simple (h : Budget content e size ip op u) (hip : ip < e)
    (hb : content.getD ip 0 = 0x5C) : op < size ∧ Budget content e size (ip + 2) (op + 1) u := by
  cases h with
  | exact h hop =>
    obtain ⟨k, rfl, h'⟩ := h.escape_inv hb
    exact ⟨by omega, .exact h' (by omega)⟩
  | spare h hop =>
    obtain ⟨k, rfl, h'⟩ := h.escape_inv hb
    exact ⟨by omega, .spare h' (by omega)⟩
  | inside h hop =>
    refine ⟨by omega, ?_⟩
    cases h with
    | done => exact .past rfl (by omega)
    | plain _ _ h' => exact .spare h' (by omega)
    | escape _ h' => exact .inside h' (by omega)
  | past hip' => omega

/-- In front of a u-escape the size pass is in step again after the `u`, with a byte to spare. -/
theorem escape_u (h : Budget content e size ip op u) (hip : ip < e)
    (hb : content.getD ip 0 = 0x5C) (hu : content.getD (ip + 1) 0 = 0x75) :
    ∃ k, Scan content e (ip + 2) k ∧ op + k + 1 ≤ size := by
  cases h with
  | exact h hop =>
    obtain ⟨k, rfl, h'⟩ := h.escape_inv hb
    exact ⟨k, h', by omega⟩
  | spare h hop =>
    obtain ⟨k, rfl, h'⟩ := h.escape_inv hb
    exact ⟨k, h', by omega⟩
  | inside h hop =>
    have hq : content.getD (ip + 1) 0 ≠ 0x22 := by rw [hu]; decide
    obtain ⟨k, rfl, h'⟩ := h.plain_inv (h.lt_of_ne_quote hq) (by rw [hu]; decide)
    exact ⟨k, h', by omega⟩
  | past hip' => omega

/-- Whatever a u-escape is converted to fits and leaves at least one byte to spare. -/
theorem utf16 (h : Budget content e size ip op u) (hip : ip < e)
    (hb : content.getD ip 0 = 0x5C) (hu : content.getD (ip + 1) 0 = 0x75) {n w : Nat}
    (ho : Utf16 content ip e n w) :
    op + w ≤ size ∧ (n ≠ 0 → Budget content e size (ip + n) (op + w) (u + 1)) := by
  obtain ⟨k, hs, hk⟩ := h.escape_u hip hb hu
  cases ho with
  | fail => exact ⟨by omega, fun h => absurd rfl h⟩
  | ascii he =>
    refine ⟨by omega, fun _ => ?_⟩
    rcases hs.skip 4 (by omega) with ⟨k', hs', h2, hle⟩ | ⟨k', hs', h2, hle⟩
    · exact .spare hs' (by omega)
    · exact .inside hs' (by omega)
  | single he hx hw =>
    obtain ⟨k', rfl, hs'⟩ := hs.hex4 hx
    exact ⟨by omega, fun _ => .spare hs' (by omega)⟩
  | pair he hx hb' hu' hx' =>
    obtain ⟨k₁, rfl, h₁⟩ := hs.hex4 hx
    obtain ⟨k₂, rfl, h₂⟩ := h₁.escape_inv hb'
    obtain ⟨k₃, rfl, h₃⟩ := h₂.hex4 hx'
    exact ⟨by omega, fun _ => .spare h₃ (by omega)⟩

/-- At the end of the loop the block is full exactly when no u-escape was consumed. -/
theorem finish (h : Budget content e size ip op u) (hip : e ≤ ip) :
    u = 0 ∧ op = size ∨ 0 < u ∧ op < size := by
  cases h with
  | exact h hop =>
    obtain ⟨-, rfl⟩ := h.eq_zero hip
    exact .inl ⟨rfl, by omega⟩
  | spare h hop => exact .inr ⟨by omega, by omega⟩
  | inside h hop => exact .inr ⟨by omega, by omega⟩
  | past _ hop => exact .inr ⟨by omega, by omega⟩

end Budget

/-- What the decoding loop returns: a full block and no u-escape, or room and some u-escape; on
failure it stands inside the literal. -/
def Decoded (e size : Nat) (r : Bool × Decoder) : Prop :=
  r.2.output.size = size ∧
    (r.1 = true → (∀ i, i < r.2.outputPointer → (r.2.output.mem i).isSome) ∧
      (r.2.uEscapes = 0 ∧ r.2.outputPointer = size ∨
        0 < r.2.uEscapes ∧ r.2.outputPointer < size)) ∧
    (r.1 = false → r.2.inputPointer < e)

theorem decodeLoop_spec {e size : Nat} {d : Decoder} (he : e < content.length)
    (hd : Budget content e size d.inputPointer d.outputPointer d.uEscapes)
    (hsize : d.output.size = size) (hfill : ∀ i, i < d.outputPointer → (d.output.mem i).isSome) :
    Meets (safeLog content.length) (Decoded e size) (decodeLoop content e d) := by
  fun_induction decodeLoop content e d with
  | case1 d hip ih₁ ih₂ ih₃ =>
    have stop : Meets (safeLog content.length) (Decoded e size) (pure (false, d) : Run (Bool × Decoder)) :=
      .pure ⟨hsize, by simp, fun _ => hip⟩
    have fill : ∀ v i, i < d.outputPointer + 1 →
        ((d.output.set d.outputPointer v).mem i).isSome := by
      intro v i hi
      refine (fills_set d.output d.outputPointer v).2 i ?_
      by_cases h : i < d.outputPointer
      · exact .inl (hfill i h)
      · exact .inr (by omega)
    refine (meets_peek (by omega)).bind fun c hc => ?_
    split
    · next hb =>
      obtain ⟨hlt, hd'⟩ := hd.plain hip (hc ▸ hb)
      refine (meets_put (by omega)).bind fun b hbk => ?_
      subst hbk
      exact ih₁ _ hd' hsize (fill c)
    next hb =>
    have hb' : content.getD d.inputPointer 0 = 0x5C := by rw [← hc]; simpa using hb
    split
    · exact stop
    refine (meets_peek (by omega)).bind fun x hx => ?_
    split
    · next v hv =>
      obtain ⟨hlt, hd'⟩ := hd.simple hip hb'
      refine (meets_put (by omega)).bind fun b hbk => ?_
      subst hbk
      exact ih₂ (by omega) _ hd' hsize (fill v)
    · split
      · next hu =>
        have hout : ∀ n w, Utf16 content d.inputPointer e n w → _ :=
          fun n w h => hd.utf16 hip hb' (hx ▸ hu) h
        refine (Meets.within (utf16LiteralToUtf8_spec (by omega)
          fun n w h => hsize ▸ (hout n w h).1) _).bind fun r hr => ?_
        obtain ⟨seq, output, op⟩ := r
        obtain ⟨n, w, ho, rfl, hop, hsz, hfl⟩ := hr
        dsimp only at hop hsz hfl ⊢
        split
        · exact stop
        · next hn =>
          refine ih₃ (by omega) _ _ _ hn ?_ (hsz.trans hsize) fun i hi => hfl i ?_
          · rw [hop]
            exact (hout _ _ ho).2 hn
          · dsimp only at hi
            rw [hop] at hi
            by_cases h : i < d.outputPointer
            · exact .inl (hfill i h)
            · exact .inr (by omega)
      · exact stop
  | case2 d hip =>
    exact .pure ⟨hsize, fun _ => ⟨hfill, hd.finish (by omega)⟩, by simp⟩

/-! ## The whole call -/

/-- A decoded string: the bytes up to the terminator at index `i` were stored. -/
structure Terminated (b : Block) (i : Nat) : Prop where
  filled : ∀ k, k < i → (b.mem k).isSome
  zero : b.mem i = some 0

/-- The trace of a call of `parse_string`: only safe events, followed on success by the end of the
decoding, the store of the terminator at index `i` after `u` consumed u-escapes, and the two
assignments of the offset. -/
def StringTrace (len : Nat) (result : Option Block) (log : List Event) : Prop :=
  ∃ pre : List Event, (∀ e ∈ pre, e.Safe len) ∧ match result with
    | none => log = pre
    | some output => ∃ u i e : Nat, log = pre ++ [.decoded u,
        .access { stack := [.parseString], region := .output, write := true, index := i,
                  size := output.size },
        .offset e, .offset (e + 1)] ∧ e + 1 ≤ len ∧ Terminated output i ∧
        (i = output.size ↔ u = 0) ∧ (0 < u → i < output.size)

/-- A call of `parse_string` at `b`. -/
structure StringCall (len : Nat) (b : ParseBuffer) (x : Run (Option Block × ParseBuffer)) :
    Prop where
  trace : StringTrace len x.val.1 x.log
  offset_le : x.val.2.offset ≤ len
  offset_lt : x.val.1.isSome → b.offset < x.val.2.offset
  depth : x.val.2.depth = b.depth

namespace StringCall

variable {len : Nat} {b : ParseBuffer}

theorem bind {α : Type} {Q : α → Prop} {x : Run α} {f : α → Run (Option Block × ParseBuffer)}
    (hx : Meets (safeLog len) Q x) (hf : ∀ a, Q a → StringCall len b (f a)) :
    StringCall len b (x >>= f) := by
  obtain ⟨⟨pre, hpre, hlog⟩, hle, hlt, hdepth⟩ := hf _ hx.val
  refine ⟨⟨x.log ++ pre, (safeLog len).append hx.log hpre, ?_⟩, hle, hlt, hdepth⟩
  rw [val_bind, log_bind]
  split at hlog
  · rw [hlog]
  · obtain ⟨u, i, e, hlog, hrest⟩ := hlog
    rw [hlog]
    exact ⟨u, i, e, by rw [List.append_assoc], hrest⟩

/-- `goto fail` at input pointer `n`. -/
theorem fail {n : Nat} (hn : n ≤ len) :
    StringCall len b (do let b ← b.seek n; pure (none, b)) :=
  ⟨⟨[.offset n], by simpa [Event.Safe] using hn, rfl⟩, hn, by simp, rfl⟩

/-- The end of a successful call. -/
theorem finish {d : Decoder} {e : Nat} (he : e < len) (hb : b.offset ≤ e)
    (hfill : ∀ i, i < d.outputPointer → (d.output.mem i).isSome)
    (hd : d.uEscapes = 0 ∧ d.outputPointer = d.output.size ∨
      0 < d.uEscapes ∧ d.outputPointer < d.output.size) :
    StringCall len b (do
      Traced.emit (.decoded d.uEscapes)
      let output ← put [.parseString] .output d.output d.outputPointer 0
      let b ← b.seek e
      let b ← b.seek (b.offset + 1)
      pure (some output, b)) := by
  refine ⟨⟨[], by simp, d.uEscapes, d.outputPointer, e, rfl, he, ⟨fun k hk => ?_, ?_⟩, ?_, ?_⟩,
    he, fun _ => Nat.lt_succ_of_le hb, rfl⟩
  · exact (fills_set d.output d.outputPointer 0).2 k (.inl (hfill k hk))
  · exact Block.mem_set_self _ _ _
  · simp only [val_put, Block.size_set]
    omega
  · simp only [val_put, Block.size_set]
    omega

end StringCall

/-- Every call of `parse_string` inside the text. -/
theorem parseString_call {b : ParseBuffer} (hb : b.offset < content.length) :
    StringCall content.length b (parseString content b) := by
  refine .bind (meets_peek hb) fun c _ => ?_
  split
  · exact .fail hb
  refine .bind scanLiteral_spec fun r hr => ?_
  split
  · exact .fail hb
  next r e m =>
  obtain ⟨k, hs, hk⟩ := hr e m rfl
  have hle := hs.le
  refine .bind (meets_alloc _ _ _) fun _ _ => ?_
  refine .bind (decodeLoop_spec hs.lt_length (.exact hs ?_) rfl (by simp)) fun r hr => ?_
  · simp only [Block.size_fresh]
    omega
  obtain ⟨ok, d⟩ := r
  obtain ⟨hsize, hok, hfail⟩ := hr
  dsimp only at hsize hok hfail ⊢
  split
  · next h =>
    obtain ⟨hfill, hd⟩ := hok h
    exact .finish hs.lt_length (by omega) hfill (hsize ▸ hd)
  · next h =>
    have := hfail (by simpa using h)
    exact .fail (by have := hs.lt_length; omega)

/-- Every call of `parse_string` as part of a run of the parser. -/
theorem parseString_spec {b : ParseBuffer} (hb : b.offset < content.length) :
    Meets (parseLog content.length) (fun r => r.2.offset ≤ content.length ∧
      (r.1.isSome → b.offset < r.2.offset) ∧ r.2.depth = b.depth) (parseString content b) := by
  obtain ⟨⟨pre, hpre, hlog⟩, hle, hlt, hdepth⟩ := parseString_call hb
  refine ⟨?_, hle, hlt, hdepth⟩
  have hsafe := ParseLog.of_safe hpre
  split at hlog
  · rw [hlog]
    exact hsafe
  · obtain ⟨u, i, e, hlog, he, -, hi, hu⟩ := hlog
    rw [hlog]
    refine hsafe.append (.terminator ⟨rfl, rfl, rfl, rfl, hi.2, hu⟩ (.of_safe ?_))
    simp only [List.mem_cons, List.not_mem_nil, or_false]
    rintro _ (rfl | rfl)
    · exact Nat.le_of_succ_le he
    · exact he

end FourFuzzers.CJson
