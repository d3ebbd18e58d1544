import FourFuzzers.Sqlite.Tokenize

/-!
# What the tokenizer returns

The length and the type `sqlite3GetToken` returns: a token ends inside the text, it has a byte
unless the text is at its end, and only the keyword exit returns the codes of WINDOW, OVER and
FILTER. None of the variables whose type differs between the copies leaves the range of `int`, so
both copies return the same.
-/

namespace FourFuzzers.Sqlite

open FourFuzzers.Lib FourFuzzers.Lib.Traced

/-! ## Machine integers -/

theorem Copy.int_eq (copy : Copy) {x : Int} (h₁ : -2 ^ 31 ≤ x) (h₂ : x < 2 ^ 31) :
    copy.int x = x := by
  cases copy
  · exact Int.bmod_eq_of_le (by omega) (by omega)
  · exact Int.bmod_eq_of_le (by omega) (by omega)

theorem castInt_eq {n : Nat} (h : n < 2 ^ 31) : castInt n = n :=
  Int.bmod_eq_of_le (by omega) (by omega)

theorem castSize_eq {n : Nat} (h : n < 2 ^ 31) : castSize (n : Int) = n := by
  unfold castSize
  omega

/-! ## Scanning loops -/

section

variable {p : UInt8 → Bool} {z : List UInt8} {i : Nat}

theorem byte_eq_zero_of_le (h : z.length ≤ i) : byte z i = 0 := by
  rw [byte, List.getD_eq_getElem?_getD, List.getElem?_eq_none h, Option.getD_none]

theorem byte_drop (z : List UInt8) (i j : Nat) : byte (z.drop i) j = byte z (i + j) := by
  rw [byte, byte, List.getD_eq_getElem?_getD, List.getD_eq_getElem?_getD, List.getElem?_drop]

theorem lt_of_byte_ne_zero (h : byte z i ≠ 0) : i < z.length := by
  by_contra hle
  exact h (byte_eq_zero_of_le (by omega))

theorem le_scan : i ≤ scan p z i := by
  induction z generalizing i with
  | nil => exact Nat.le_refl _
  | cons c z ih =>
    rw [scan]
    split
    · exact Nat.le_trans (Nat.le_succ i) ih
    · exact Nat.le_refl _

theorem scan_le : scan p z i ≤ i + z.length := by
  induction z generalizing i with
  | nil => exact Nat.le_refl _
  | cons c z ih =>
    rw [scan, List.length_cons]
    split
    · exact Nat.le_trans ih (by omega)
    · omega

/-- A loop that starts inside the text ends inside the text. -/
theorem scan_drop_le (h : i ≤ z.length) : scan p (z.drop i) i ≤ z.length := by
  refine Nat.le_trans scan_le ?_
  rw [List.length_drop]
  omega

/-- A loop passes at least the bytes that have the property. -/
theorem add_le_scan {k : Nat} (h : ∀ c ∈ z.take k, p c = true) (hk : k ≤ z.length) :
    i + k ≤ scan p z i := by
  induction z generalizing i k with
  | nil =>
    rw [List.length_nil] at hk
    rw [scan]
    omega
  | cons c z ih =>
    cases k with
    | zero => exact le_scan
    | succ k =>
      rw [List.take_succ_cons] at h
      rw [scan, if_pos (h c List.mem_cons_self)]
      have := ih (i := i + 1) (fun d hd => h d (List.mem_cons_of_mem _ hd))
        (Nat.le_of_succ_le_succ hk)
      omega

theorem scanDigits_bounds {t : Tk} :
    i ≤ (scanDigits p z i t).1 ∧ (scanDigits p z i t).1 ≤ i + z.length := by
  induction z generalizing i t with
  | nil => exact ⟨Nat.le_refl _, Nat.le_refl _⟩
  | cons c z ih =>
    rw [scanDigits, List.length_cons]
    split
    · have := ih (i := i + 1) (t := t)
      omega
    · split
      · have := ih (i := i + 1) (t := Tk.qnumber)
        omega
      · exact ⟨Nat.le_refl _, Nat.le_add_right _ _⟩

/-- A code that does not belong to WINDOW, OVER or FILTER. -/
def Tk.Ordinary (t : Tk) : Prop := t ≠ Tk.window ∧ t ≠ Tk.overKw ∧ t ≠ Tk.filter

instance (t : Tk) : Decidable t.Ordinary := inferInstanceAs (Decidable (_ ∧ _ ∧ _))

theorem scanDigits_ordinary {t : Tk} (ht : t.Ordinary) : (scanDigits p z i t).2.Ordinary := by
  induction z generalizing i t with
  | nil => exact ht
  | cons c z ih =>
    rw [scanDigits]
    split
    · exact ih ht
    · split
      · exact ih (by decide)
      · exact ht

theorem skipComment_le {c : UInt8} :
    (skipComment c z i).2 ≤ i + z.length ∧
      ((skipComment c z i).1 ≠ 0 → (skipComment c z i).2 < i + z.length) ∧
      i ≤ (skipComment c z i).2 := by
  induction z generalizing c i with
  | nil => simp [skipComment]
  | cons x z ih =>
    rw [skipComment, List.length_cons]
    split
    · exact ⟨by simp, by simp, Nat.le_refl _⟩
    · split
      · exact ⟨by simp, by simp, Nat.le_refl _⟩
      · obtain ⟨h₁, h₂, h₃⟩ := ih (c := x) (i := i + 1)
        exact ⟨by omega, fun h => by have := h₂ h; omega, by omega⟩

theorem skipQuoted_le {delim : UInt8} :
    (skipQuoted delim z i).2 ≤ i + z.length ∧
      ((skipQuoted delim z i).1 ≠ 0 → (skipQuoted delim z i).2 < i + z.length) ∧
      i ≤ (skipQuoted delim z i).2 := by
  fun_induction skipQuoted delim z i with
  | case1 => simp
  | case2 => simp
  | case3 => simp
  | case4 => simp
  | case5 => simp
  | case6 z i hc ih =>
    simp only [List.length_cons] at ih ⊢
    exact ⟨by omega, fun h => by have := ih.2.1 h; omega, by omega⟩
  | case7 => simp
  | case8 c d z i hc hq ih =>
    simp only [List.length_cons] at ih ⊢
    exact ⟨by omega, fun h => by have := ih.2.1 h; omega, by omega⟩

theorem skipBracketed_le {c : UInt8} :
    (skipBracketed c z i).2 ≤ i + z.length ∧ i ≤ (skipBracketed c z i).2 := by
  induction z generalizing c i with
  | nil =>
    rw [skipBracketed]
    split <;> simp
  | cons x z ih =>
    rw [skipBracketed, List.length_cons]
    split
    · simp
    · split
      · simp
      · have := ih (c := x) (i := i + 1)
        omega

end

/-! ## Variable names -/

/-- Events of the switch: nothing but assignments. -/
def Event.IsAssign : Event → Prop
  | assign _ x => -2 ^ 31 ≤ x ∧ x < 2 ^ 31
  | _ => False

section

variable {copy : Copy} {z : List UInt8} {i : Nat} {n : Int}

/-- A variable name ends inside the text. -/
theorem scanVariable_bounds :
    i ≤ (scanVariable copy z i n).val.1 ∧ (scanVariable copy z i n).val.1 ≤ i + z.length ∧
      (scanVariable copy z i n).val.2.2.Ordinary := by
  have hname : Tk.variableName.Ordinary := by decide
  induction z, i, n using scanVariable.induct copy with
  | case1 =>
    rw [scanVariable]
    exact ⟨Nat.le_refl _, Nat.le_refl _, hname⟩
  | case2 z i n =>
    rw [scanVariable, if_pos rfl]
    exact ⟨Nat.le_refl _, Nat.le_add_right _ _, hname⟩
  | case3 c z i n hc hid ih =>
    rw [scanVariable, if_neg hc, if_pos hid, val_bind, List.length_cons]
    exact ⟨by omega, by omega, ih.2.2⟩
  | case4 c z i n hc hid hp k hk =>
    have hlt : k < z.length := lt_of_byte_ne_zero (by rw [hk]; decide)
    rw [scanVariable, if_neg hc, if_neg hid, if_pos hp]
    dsimp only
    rw [if_pos hk, List.length_cons, val_pure]
    exact ⟨by omega, by omega, hname⟩
  | case5 c z i n hc hid hp k hk =>
    have hle : k ≤ 0 + z.length := scan_le
    rw [scanVariable, if_neg hc, if_neg hid, if_pos hp]
    dsimp only
    rw [if_neg hk, List.length_cons, val_pure]
    exact ⟨by omega, by omega, (by decide : Tk.illegal.Ordinary)⟩
  | case6 c z i n hc hid hp hcc ih =>
    have hlt : 0 < z.length := lt_of_byte_ne_zero (by rw [hcc.2]; decide)
    rw [List.length_tail] at ih
    rw [scanVariable, if_neg hc, if_neg hid, if_neg hp, if_pos hcc, List.length_cons]
    exact ⟨by omega, by omega, ih.2.2⟩
  | case7 c z i n hc hid hp hne =>
    rw [scanVariable, if_neg hc, if_neg hid, if_neg hp, if_neg hne]
    exact ⟨Nat.le_refl _, Nat.le_add_right _ _, hname⟩

/-- `n` counts bytes of the name. -/
theorem scanVariable_stores (hn : 0 ≤ n) (h : n + z.length < 2 ^ 31) :
    ∀ e ∈ (scanVariable copy z i n).log, Event.IsAssign e := by
  induction z, i, n using scanVariable.induct copy with
  | case1 => simp [scanVariable]
  | case2 z i n => simp [scanVariable]
  | case3 c z i n hc hid ih =>
    rw [List.length_cons] at h
    rw [copy.int_eq (by omega) (by omega)] at ih
    rw [scanVariable, if_neg hc, if_pos hid, copy.int_eq (by omega) (by omega), log_bind, log_emit]
    intro e he
    rcases List.mem_append.1 he with he | he
    · rw [List.mem_singleton.1 he]
      exact ⟨by omega, by omega⟩
    · exact ih (by omega) (by omega) e he
  | case4 c z i n hc hid hp k hk =>
    rw [scanVariable, if_neg hc, if_neg hid, if_pos hp]
    dsimp only
    rw [if_pos hk]
    simp
  | case5 c z i n hc hid hp k hk =>
    rw [scanVariable, if_neg hc, if_neg hid, if_pos hp]
    dsimp only
    rw [if_neg hk]
    simp
  | case6 c z i n hc hid hp hcc ih =>
    rw [List.length_tail] at ih
    rw [List.length_cons] at h
    rw [scanVariable, if_neg hc, if_neg hid, if_neg hp, if_pos hcc]
    exact ih hn (by omega)
  | case7 c z i n hc hid hp hne =>
    rw [scanVariable, if_neg hc, if_neg hid, if_neg hp, if_neg hne]
    simp

theorem scanVariable_val (hn : 0 ≤ n) (h : n + z.length < 2 ^ 31) :
    (scanVariable copy z i n).val = (scanVariable .full z i n).val := by
  induction z, i, n using scanVariable.induct copy with
  | case1 => rw [scanVariable, scanVariable]
  | case2 z i n => rw [scanVariable, scanVariable, if_pos rfl, if_pos rfl]
  | case3 c z i n hc hid ih =>
    rw [List.length_cons] at h
    rw [copy.int_eq (by omega) (by omega)] at ih
    rw [scanVariable, scanVariable, if_neg hc, if_neg hc, if_pos hid, if_pos hid, val_bind, val_bind,
      copy.int_eq (by omega) (by omega), Copy.full.int_eq (by omega) (by omega)]
    exact ih (by omega) (by omega)
  | case4 c z i n hc hid hp k hk =>
    rw [scanVariable, scanVariable, if_neg hc, if_neg hc, if_neg hid, if_neg hid, if_pos hp,
      if_pos hp]
  | case5 c z i n hc hid hp k hk =>
    rw [scanVariable, scanVariable, if_neg hc, if_neg hc, if_neg hid, if_neg hid, if_pos hp,
      if_pos hp]
  | case6 c z i n hc hid hp hcc ih =>
    rw [List.length_tail] at ih
    rw [List.length_cons] at h
    rw [scanVariable, scanVariable, if_neg hc, if_neg hc, if_neg hid, if_neg hid, if_neg hp,
      if_neg hp, if_pos hcc, if_pos hcc]
    exact ih hn (by omega)
  | case7 c z i n hc hid hp hne =>
    rw [scanVariable, scanVariable, if_neg hc, if_neg hc, if_neg hid, if_neg hid, if_neg hp,
      if_neg hp, if_neg hne, if_neg hne]

end

/-! ## Numbers and blobs -/

section

variable {z : List UInt8} {i : Nat}

theorem scanDigits_drop_le {p : UInt8 → Bool} {t : Tk} (h : i ≤ z.length) :
    i ≤ (scanDigits p (z.drop i) i t).1 ∧ (scanDigits p (z.drop i) i t).1 ≤ z.length := by
  obtain ⟨h₁, h₂⟩ := scanDigits_bounds (p := p) (z := z.drop i) (i := i) (t := t)
  rw [List.length_drop] at h₂
  omega

/-- A token of `n` bytes and type `t` at the start of `z`. -/
structure TokenOk (z : List UInt8) (n : Nat) (t : Tk) : Prop where
  pos : 0 < n
  le : n ≤ z.length
  ordinary : t.Ordinary

theorem float_ordinary {t : Tk} (ht : t.Ordinary) :
    (if t = Tk.integer then Tk.float else t).Ordinary := by
  split
  · decide
  · exact ht

theorem ne_zero_of_ctype {c mask : UInt8} (h : ctype c mask = true) : c ≠ 0 := by
  rintro rfl
  have hzero : sqlite3CtypeMap.getD (0 : UInt8).toNat 0 = 0 := rfl
  rw [ctype, hzero, UInt8.zero_and] at h
  exact absurd h (by decide)

theorem scanFraction_ok {t : Tk} (hi : i ≤ z.length) (ht : t.Ordinary) :
    i ≤ (scanFraction z i t).1 ∧ (scanFraction z i t).1 ≤ z.length ∧
      (scanFraction z i t).2.Ordinary ∧ (byte z i = 0x2E → i < (scanFraction z i t).1) := by
  rw [scanFraction]
  split
  next hdot =>
    have hlt : i < z.length := lt_of_byte_ne_zero (by rw [hdot]; decide)
    obtain ⟨h₁, h₂⟩ := scanDigits_drop_le (z := z) (i := i + 1) (p := isdigit)
      (t := if t = Tk.integer then Tk.float else t) hlt
    exact ⟨by omega, h₂, scanDigits_ordinary (float_ordinary ht), fun _ => h₁⟩
  next hdot => exact ⟨Nat.le_refl _, hi, ht, fun h => absurd h hdot⟩

theorem scanExponent_ok {t : Tk} (hi : i ≤ z.length) (ht : t.Ordinary) :
    i ≤ (scanExponent z i t).1 ∧ (scanExponent z i t).1 ≤ z.length ∧
      (scanExponent z i t).2.Ordinary := by
  rw [scanExponent]
  split
  next hexp =>
    have hlt : i + 1 < z.length := by
      refine lt_of_byte_ne_zero ?_
      rcases hexp.2 with hdigit | ⟨hsign | hsign, -⟩
      · exact ne_zero_of_ctype hdigit
      · rw [hsign]
        decide
      · rw [hsign]
        decide
    obtain ⟨h₁, h₂⟩ := scanDigits_drop_le (z := z) (i := i + 2) (p := isdigit)
      (t := if t = Tk.integer then Tk.float else t) hlt
    exact ⟨by omega, h₂, scanDigits_ordinary (float_ordinary ht)⟩
  next => exact ⟨Nat.le_refl _, hi, ht⟩

theorem scanNumber_ok (h0 : isdigit (byte z 0) = true ∨ byte z 0 = 0x2E) :
    TokenOk z (scanNumber z).1 (scanNumber z).2 := by
  -- the digits, fraction and exponent leave a prefix of the text and an ordinary code
  have hbody : ∀ r : Nat × Tk, 0 < r.1 → r.1 ≤ z.length → r.2.Ordinary →
      TokenOk z (scan idChar (z.drop r.1) r.1)
        (if scan idChar (z.drop r.1) r.1 = r.1 then r.2 else Tk.illegal) := by
    intro r hpos hle ht
    refine ⟨Nat.lt_of_lt_of_le hpos le_scan, scan_drop_le hle, ?_⟩
    split
    · exact ht
    · decide
  have hinteger : Tk.integer.Ordinary := by decide
  rw [scanNumber]
  dsimp only
  split
  next hhex =>
    have hlt : 2 < z.length := lt_of_byte_ne_zero (ne_zero_of_ctype hhex.2.2)
    obtain ⟨h₁, h₂⟩ := scanDigits_drop_le (z := z) (i := 3) (p := isxdigit) (t := Tk.integer) hlt
    exact hbody _ (by omega) h₂ (scanDigits_ordinary hinteger)
  next =>
    obtain ⟨hd₁, hd₂⟩ := scanDigits_bounds (p := isdigit) (z := z) (i := 0) (t := Tk.integer)
    rw [Nat.zero_add] at hd₂
    have hdt := scanDigits_ordinary (p := isdigit) (z := z) (i := 0) hinteger
    have hd : byte z 0 = 0x2E ∨ 0 < (scanDigits isdigit z 0 Tk.integer).1 := by
      refine h0.symm.imp_right fun hdigit => ?_
      cases z with
      | nil => exact absurd rfl (ne_zero_of_ctype hdigit)
      | cons c z =>
        have hdigit : isdigit c = true := hdigit
        rw [scanDigits, if_pos hdigit]
        exact scanDigits_bounds.1
    obtain ⟨hf₁, hf₂, hft, hfdot⟩ := scanFraction_ok hd₂ hdt
    obtain ⟨he₁, he₂, het⟩ := scanExponent_ok hf₂ hft
    refine hbody _ ?_ he₂ het
    rcases Nat.eq_zero_or_pos (scanDigits isdigit z 0 Tk.integer).1 with hzero | hpos
    · have hdot := hd.resolve_right (by omega)
      have := hfdot (by rw [hzero]; exact hdot)
      omega
    · omega

theorem scanBlob_ok (h : 2 ≤ z.length) : TokenOk z (scanBlob z).1 (scanBlob z).2 := by
  have hend : ∀ i, 0 < i → i ≤ z.length →
      0 < (if byte z i ≠ 0 then i + 1 else i) ∧ (if byte z i ≠ 0 then i + 1 else i) ≤ z.length := by
    intro i hpos hle
    split
    next hi =>
      have := lt_of_byte_ne_zero hi
      omega
    next => exact ⟨hpos, hle⟩
  have h₁ : 2 ≤ scan isxdigit (z.drop 2) 2 := le_scan
  have h₂ := scan_drop_le (p := isxdigit) h
  rw [scanBlob]
  dsimp only
  split
  · obtain ⟨hpos, hle⟩ := hend _ (Nat.lt_of_lt_of_le (by omega) le_scan)
      (scan_drop_le (p := fun c => c ≠ 0 && c ≠ 0x27) h₂)
    exact ⟨hpos, hle, (by decide : Tk.illegal.Ordinary)⟩
  · obtain ⟨hpos, hle⟩ := hend _ (by omega) h₂
    exact ⟨hpos, hle, (by decide : Tk.blob.Ordinary)⟩

end

/-! ## The switch -/

/-- What is known of an exit of the switch. -/
def Exit.Ok (z : List UInt8) : Exit → Prop
  | token n t => TokenOk z n t
  | keyword i => 2 ≤ i ∧ i ≤ z.length
  | identifier i => 1 ≤ i ∧ i ≤ z.length

section

variable {copy : Copy} {z : List UInt8}

theorem switchClass_nul (h : byte z 0 = 0) : switchClass copy z = pure (.token 0 Tk.illegal) := by
  have hclass : aiClass (byte z 0) = .nul := by
    rw [h]
    decide
  rw [switchClass, hclass]

theorem aiClass_ne_nul : ∀ c : UInt8, c ≠ 0 → aiClass c ≠ .nul := forall_byte (by decide +kernel)

theorem isdigit_of_aiClass : ∀ c : UInt8, aiClass c = .digit → isdigit c = true :=
  forall_byte (by decide +kernel)

theorem eq_of_aiClass_dot : ∀ c : UInt8, aiClass c = .dot → c = 0x2E :=
  forall_byte (by decide +kernel)

theorem ne_zero_of_isKeywordChar : ∀ {c : UInt8}, isKeywordChar c = true → c ≠ 0 := by
  rintro c h rfl
  exact absurd h (by decide)

theorem switchClass_variable (Λ : LogProp Event) (hpos : 0 < z.length)
    (hlog : Λ.Holds (scanVariable copy (z.drop 1) 1 0).log) :
    Meets Λ (Exit.Ok z) (do
      let (i, n, t) ← scanVariable copy (z.drop 1) 1 0
      pure (.token i (if n = 0 then Tk.illegal else t))) := by
  have hname : Meets Λ (fun r => 1 ≤ r.1 ∧ r.1 ≤ 1 + (z.drop 1).length ∧ r.2.2.Ordinary)
      (scanVariable copy (z.drop 1) 1 0) := ⟨hlog, scanVariable_bounds⟩
  refine hname.bind fun r hr => .pure ?_
  rw [List.length_drop] at hr
  refine ⟨by omega, by omega, ?_⟩
  split
  · decide
  · exact hr.2.2

/-- The switch stores into `n` of the variable-name case only. -/
theorem switchClass_meets (Λ : LogProp Event) (h0 : byte z 0 ≠ 0)
    (hlog : Λ.Holds (scanVariable copy (z.drop 1) 1 0).log) :
    Meets Λ (Exit.Ok z) (switchClass copy z) := by
  have hpos := lt_of_byte_ne_zero h0
  have hone : ∀ t : Tk, t.Ordinary → Exit.Ok z (.token 1 t) := fun t ht => ⟨Nat.one_pos, hpos, ht⟩
  have htwo : ∀ {c : UInt8} (t : Tk), byte z 1 = c → c ≠ 0 → t.Ordinary →
      Exit.Ok z (.token 2 t) := by
    rintro c t rfl hc ht
    exact ⟨Nat.two_pos, lt_of_byte_ne_zero hc, ht⟩
  rw [switchClass]
  split
  case h_1 => exact .pure ⟨Nat.lt_of_lt_of_le Nat.one_pos le_scan, scan_drop_le hpos, by decide⟩
  case h_2 =>
    split
    next h1 =>
      have hlt : 1 < z.length := lt_of_byte_ne_zero (by rw [h1]; decide)
      exact .pure ⟨Nat.lt_of_lt_of_le Nat.two_pos le_scan, scan_drop_le hlt, by decide⟩
    next =>
    split
    next h1 =>
      have hlt : 1 < z.length := lt_of_byte_ne_zero (by rw [h1]; decide)
      refine .pure ⟨?_, ?_, by decide⟩
      · split <;> decide
      · split
        next h2 => exact lt_of_byte_ne_zero (by rw [h2]; decide)
        next => exact hlt
    next => exact .pure (hone _ (by decide))
  case h_3 => exact .pure (hone _ (by decide))
  case h_4 => exact .pure (hone _ (by decide))
  case h_5 => exact .pure (hone _ (by decide))
  case h_6 => exact .pure (hone _ (by decide))
  case h_7 => exact .pure (hone _ (by decide))
  case h_8 =>
    split
    next => exact .pure (hone _ (by decide))
    next h12 =>
      obtain ⟨-, h2⟩ := not_or.1 h12
      have hlt := lt_of_byte_ne_zero h2
      obtain ⟨hle, hclosed, hge⟩ := skipComment_le (c := byte z 2) (z := z.drop 3) (i := 3)
      rw [List.length_drop] at hle hclosed
      refine .pure ⟨?_, ?_, (by decide : Tk.comment.Ordinary)⟩
      · split <;> omega
      · split
        next hc =>
          have := hclosed hc
          omega
        next => omega
  case h_9 => exact .pure (hone _ (by decide))
  case h_10 =>
    split
    next h1 => exact .pure (htwo _ h1 (by decide) (by decide))
    next => exact .pure (hone _ (by decide))
  case h_11 =>
    split
    next h1 => exact .pure (htwo _ h1 (by decide) (by decide))
    next =>
    split
    next h1 => exact .pure (htwo _ h1 (by decide) (by decide))
    next =>
    split
    next h1 => exact .pure (htwo _ h1 (by decide) (by decide))
    next => exact .pure (hone _ (by decide))
  case h_12 =>
    split
    next h1 => exact .pure (htwo _ h1 (by decide) (by decide))
    next =>
    split
    next h1 => exact .pure (htwo _ h1 (by decide) (by decide))
    next => exact .pure (hone _ (by decide))
  case h_13 =>
    split
    next => exact .pure (hone _ (by decide))
    next h1 => exact .pure (htwo _ (not_not.1 h1) (by decide) (by decide))
  case h_14 =>
    split
    next => exact .pure (hone _ (by decide))
    next h1 => exact .pure (htwo _ (not_not.1 h1) (by decide) (by decide))
  case h_15 => exact .pure (hone _ (by decide))
  case h_16 => exact .pure (hone _ (by decide))
  case h_17 => exact .pure (hone _ (by decide))
  case h_18 =>
    obtain ⟨hle, hclosed, hge⟩ := @skipQuoted_le (z.drop 1) 1 (byte z 0)
    rw [List.length_drop] at hle hclosed
    dsimp only
    split
    next hc =>
      have := hclosed (by rw [hc]; decide)
      exact .pure ⟨by omega, by omega, by decide⟩
    next =>
    split
    next hc =>
      have := hclosed hc
      exact .pure ⟨by omega, by omega, by decide⟩
    next => exact .pure ⟨by omega, by omega, by decide⟩
  case h_19 hdot =>
    split
    next => exact .pure (scanNumber_ok (.inr (eq_of_aiClass_dot _ hdot)))
    next => exact .pure (hone _ (by decide))
  case h_20 hdigit => exact .pure (scanNumber_ok (.inl (isdigit_of_aiClass _ hdigit)))
  case h_21 =>
    obtain ⟨hle, hge⟩ := skipBracketed_le (c := byte z 0) (z := z.drop 1) (i := 1)
    rw [List.length_drop] at hle
    refine .pure ⟨by omega, by omega, ?_⟩
    split <;> decide
  case h_22 => exact .pure ⟨Nat.lt_of_lt_of_le Nat.one_pos le_scan, scan_drop_le hpos, by decide⟩
  case h_23 => exact switchClass_variable Λ hpos hlog
  case h_24 => exact switchClass_variable Λ hpos hlog
  case h_25 =>
    split
    next => exact .pure ⟨Nat.le_refl _, hpos⟩
    next h1 =>
    have hlt : 1 < z.length := lt_of_byte_ne_zero (ne_zero_of_isKeywordChar (by simpa using h1))
    have hge : 2 ≤ scan isKeywordChar (z.drop 2) 2 := le_scan
    dsimp only
    split
    next hid =>
      have := lt_of_byte_ne_zero (ne_zero_of_ctype hid)
      exact .pure ⟨by omega, this⟩
    next => exact .pure ⟨hge, scan_drop_le hlt⟩
  case h_26 =>
    split
    next h1 =>
      have hlt : 1 < z.length := lt_of_byte_ne_zero (by rw [h1]; decide)
      exact .pure (scanBlob_ok hlt)
    next => exact .pure ⟨Nat.le_refl _, hpos⟩
  case h_27 => exact .pure ⟨Nat.le_refl _, hpos⟩
  case h_28 => exact .pure ⟨Nat.le_refl _, hpos⟩
  case h_29 =>
    split
    next h12 =>
      have hlt : 2 < z.length := lt_of_byte_ne_zero (by rw [h12.2]; decide)
      exact .pure ⟨by decide, hlt, by decide⟩
    next => exact .pure ⟨Nat.le_refl _, hpos⟩
  case h_30 hnul => exact absurd hnul (aiClass_ne_nul _ h0)
  case h_31 => exact .pure (hone _ (by decide))

theorem switchClass_ok (h0 : byte z 0 ≠ 0) : Exit.Ok z (switchClass copy z).val :=
  (switchClass_meets (.every fun _ => True) h0 fun _ _ => trivial).val

theorem switchClass_stores (h0 : byte z 0 ≠ 0) (hlen : z.length < 2 ^ 31) :
    ∀ e ∈ (switchClass copy z).log, Event.IsAssign e :=
  (switchClass_meets (.every Event.IsAssign) h0
    (scanVariable_stores (Int.le_refl 0) (by rw [List.length_drop]; omega))).log

theorem switchClass_val (copy : Copy) (hlen : z.length < 2 ^ 31) :
    (switchClass copy z).val = (switchClass .full z).val := by
  have hname := @scanVariable_val copy (z.drop 1) 1 0 (Int.le_refl 0)
    (by rw [List.length_drop]; omega)
  rw [switchClass, switchClass]
  cases aiClass (byte z 0) with
  | dollar => simp only [val_bind, val_pure, hname]
  | varalpha => simp only [val_bind, val_pure, hname]
  | _ => rfl

/-! ## One token -/

variable {k : Keywords}

theorem sqlite3GetToken_nul (h : byte z 0 = 0) :
    sqlite3GetToken copy k z = pure (0, Tk.illegal) := by
  rw [sqlite3GetToken, switchClass_nul h, pure_bind]

/-- The length `sqlite3CheckIdentifier` is given when the switch is left by `break`. -/
def identifierLength (z : List UInt8) : Option Nat :=
  match (switchClass .full z).val with
  | .identifier i => some (scan idChar (z.drop i) i)
  | _ => none

/-- The calls of `sqlite3CheckIdentifier` made for the token at the start of `z`. -/
def checks (copy : Copy) (z : List UInt8) : List Event :=
  match copy with
  | .full => (identifierLength z).toList.map .checkIdentifier
  | .coverage => []

/-- Both copies return the same token. -/
theorem sqlite3GetToken_val (hlen : z.length < 2 ^ 31) :
    (sqlite3GetToken copy k z).val = (sqlite3GetToken .full k z).val := by
  by_cases h0 : byte z 0 = 0
  · rw [sqlite3GetToken_nul h0, sqlite3GetToken_nul h0]
  have hexit := @switchClass_ok .full z h0
  rw [sqlite3GetToken, sqlite3GetToken, val_bind, val_bind, switchClass_val copy hlen]
  cases hsw : (switchClass .full z).val with
  | token n t => rfl
  | keyword i =>
    rw [hsw] at hexit
    have hi := hexit.2
    show (((copy.int i).toNat, _) : Nat × Tk) = ((Copy.full.int i).toNat, _)
    rw [copy.int_eq (by omega) (by omega), Copy.full.int_eq (by omega) (by omega)]
  | identifier i => rfl

/-- A token inside the text has a byte. -/
theorem sqlite3GetToken_bounds (h0 : byte z 0 ≠ 0) (hlen : z.length < 2 ^ 31) :
    0 < (sqlite3GetToken copy k z).val.1 ∧ (sqlite3GetToken copy k z).val.1 ≤ z.length := by
  have hexit := @switchClass_ok copy z h0
  rw [sqlite3GetToken, val_bind]
  cases hsw : (switchClass copy z).val with
  | token n t =>
    rw [hsw] at hexit
    exact ⟨hexit.pos, hexit.le⟩
  | keyword i =>
    rw [hsw] at hexit
    have hi : 2 ≤ i ∧ i ≤ z.length := hexit
    show 0 < (copy.int i).toNat ∧ (copy.int i).toNat ≤ z.length
    rw [copy.int_eq (by omega) (by omega)]
    omega
  | identifier i =>
    rw [hsw] at hexit
    have hi : 1 ≤ i ∧ i ≤ z.length := hexit
    exact ⟨Nat.lt_of_lt_of_le hi.1 le_scan, scan_drop_le hi.2⟩

theorem sqlite3GetToken_le (hlen : z.length < 2 ^ 31) :
    (sqlite3GetToken copy k z).val.1 ≤ z.length := by
  by_cases h0 : byte z 0 = 0
  · rw [sqlite3GetToken_nul h0]
    exact Nat.zero_le _
  · exact (sqlite3GetToken_bounds h0 hlen).2

/-- The stores of a call, and what the fuzzed copy hands to `sqlite3CheckIdentifier`. -/
theorem sqlite3GetToken_log (hlen : z.length < 2 ^ 31) :
    ∃ stores, (∀ e ∈ stores, Event.IsAssign e) ∧
      (sqlite3GetToken copy k z).log = stores ++ checks copy z := by
  have hid : identifierLength z = match (switchClass copy z).val with
      | .identifier i => some (scan idChar (z.drop i) i)
      | _ => none := by
    rw [identifierLength, switchClass_val copy hlen]
  by_cases h0 : byte z 0 = 0
  · refine ⟨[], by simp, ?_⟩
    rw [switchClass_nul h0] at hid
    rw [sqlite3GetToken_nul h0]
    cases copy <;> simp [checks, hid]
  have hstores := @switchClass_stores copy z h0 hlen
  have hexit := @switchClass_ok copy z h0
  rw [sqlite3GetToken, log_bind]
  cases hsw : (switchClass copy z).val with
  | token n t =>
    rw [hsw] at hid
    refine ⟨_, hstores, ?_⟩
    cases copy <;> simp [checks, hid]
  | keyword i =>
    rw [hsw] at hexit hid
    have hi : 2 ≤ i ∧ i ≤ z.length := hexit
    refine ⟨(switchClass copy z).log ++ [.assign .keywordLength i], ?_, ?_⟩
    · intro e he
      rcases List.mem_append.1 he with he | he
      · exact hstores e he
      · rw [List.mem_singleton.1 he]
        exact ⟨by omega, by omega⟩
    · cases copy <;> simp [keywordCode, checks, hid]
  | identifier i =>
    rw [hsw] at hexit hid
    have hi : 1 ≤ i ∧ i ≤ z.length := hexit
    have hle := scan_drop_le (p := idChar) hi.2
    refine ⟨_, hstores, ?_⟩
    cases copy with
    | coverage => rfl
    | full =>
      have hsize : castSize (castInt (scan idChar (z.drop i) i)) = scan idChar (z.drop i) i := by
        rw [castInt_eq (by omega), castSize_eq (by omega)]
      simp [sqlite3CheckIdentifier, checks, hid, hsize]

/-! ## Keywords -/

theorem class_of_upper : ∀ c : UInt8, 0x41 ≤ c &&& 0xDF ∧ c &&& 0xDF ≤ 0x57 →
    aiClass c = .kywd0 ∧ isKeywordChar c = true :=
  forall_byte (by decide +kernel)

/-- A token that spells a word of letters is left by the keyword exit. -/
theorem keyword_of_upper {w : List UInt8} (hlen : z.length < 2 ^ 31) (hw : 2 ≤ w.length)
    (hletters : ∀ c ∈ w, 0x41 ≤ c ∧ c ≤ 0x57)
    (h : upper (z.take (sqlite3GetToken copy k z).val.1) = w) :
    (sqlite3GetToken copy k z).val.2 = k.code (z.take (sqlite3GetToken copy k z).val.1) := by
  have hle := @sqlite3GetToken_le copy z k hlen
  generalize hn : (sqlite3GetToken copy k z).val.1 = n at h hle ⊢
  have hwn : w.length = n := by
    rw [← h, upper, List.length_map, List.length_take]
    omega
  have hclass : ∀ c ∈ z.take n, aiClass c = .kywd0 ∧ isKeywordChar c = true := by
    intro c hc
    refine class_of_upper c (hletters _ ?_)
    rw [← h]
    exact List.mem_map_of_mem hc
  have hbyte : ∀ j, j < n → byte z j ∈ z.take n := by
    intro j hj
    rw [byte, List.getD_eq_getElem?_getD, List.getElem?_eq_getElem (by omega), Option.getD_some]
    exact List.mem_take_iff_getElem.2 ⟨j, by omega, rfl⟩
  have hscan : n ≤ scan isKeywordChar (z.drop 2) 2 := by
    have hpassed : ∀ c ∈ (z.drop 2).take (n - 2), isKeywordChar c = true := by
      intro c hc
      rw [← List.drop_take] at hc
      exact (hclass c (List.mem_of_mem_drop hc)).2
    have := add_le_scan (i := 2) hpassed (by rw [List.length_drop]; omega)
    omega
  have hkywd0 := (hclass _ (hbyte 0 (by omega))).1
  have hnext := (hclass _ (hbyte 1 (by omega))).2
  have hi := scan_drop_le (p := isKeywordChar) (z := z) (i := 2) (by omega)
  rw [sqlite3GetToken, switchClass, hkywd0] at hn ⊢
  simp only [hnext, Bool.not_true, Bool.false_eq_true, if_false] at hn ⊢
  generalize scan isKeywordChar (z.drop 2) 2 = i at hn hscan hi ⊢
  split at hn
  · have hge : i + 1 ≤ n := by
      rw [← hn]
      exact le_scan
    omega
  · next hid =>
    rw [if_neg hid]
    have hn : (copy.int i).toNat = n := hn
    show k.code (z.take (copy.int i).toNat) = _
    rw [hn]

/-- The codes of WINDOW, OVER and FILTER are returned for these words only. -/
theorem tokenType_eq_iff {t : Tk} {w : List UInt8} (hlen : z.length < 2 ^ 31) (ht : ¬ t.Ordinary)
    (hcode : ∀ word, k.code word = t ↔ upper word = w) (hw : 2 ≤ w.length)
    (hletters : ∀ c ∈ w, 0x41 ≤ c ∧ c ≤ 0x57) :
    (sqlite3GetToken copy k z).val.2 = t ↔
      upper (z.take (sqlite3GetToken copy k z).val.1) = w := by
  refine ⟨fun h => ?_, fun h => ?_⟩
  · by_cases h0 : byte z 0 = 0
    · rw [sqlite3GetToken_nul h0] at h
      exact absurd (h ▸ (by decide : Tk.illegal.Ordinary)) ht
    have hexit := @switchClass_ok copy z h0
    rw [sqlite3GetToken, val_bind] at h ⊢
    cases hsw : (switchClass copy z).val with
    | token n t' =>
      rw [hsw] at hexit h
      have h : t' = t := h
      exact absurd (h ▸ hexit.ordinary) ht
    | keyword i =>
      rw [hsw] at h
      exact (hcode _).1 h
    | identifier i =>
      rw [hsw] at h
      have h : Tk.id = t := h
      exact absurd (h ▸ (by decide : Tk.id.Ordinary)) ht
  · rw [keyword_of_upper hlen hw hletters h]
    exact (hcode _).2 h

theorem tokenType_window (hlen : z.length < 2 ^ 31) :
    (sqlite3GetToken copy k z).val.2 = Tk.window ↔
      upper (z.take (sqlite3GetToken copy k z).val.1) = windowWord :=
  tokenType_eq_iff hlen (by decide) k.window (by decide) (by simp [windowWord])

theorem tokenType_filter (hlen : z.length < 2 ^ 31) :
    (sqlite3GetToken copy k z).val.2 = Tk.filter ↔
      upper (z.take (sqlite3GetToken copy k z).val.1) = filterWord :=
  tokenType_eq_iff hlen (by decide) k.filter (by decide) (by simp [filterWord])

theorem tokenType_over (hlen : z.length < 2 ^ 31) :
    (sqlite3GetToken copy k z).val.2 = Tk.overKw ↔
      upper (z.take (sqlite3GetToken copy k z).val.1) = overWord :=
  tokenType_eq_iff hlen (by decide) k.overKw (by decide) (by simp [overWord])

end

end FourFuzzers.Sqlite
