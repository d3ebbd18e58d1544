import FourFuzzers.CJson.Verify.Parser
import FourFuzzers.CJson.Verify.Printer
import FourFuzzers.CJson.IntLibc

/-!
# Parsing what was printed

For a tree whose strings have no control characters the printed text is the plain rendering of the
tree, and the parser, started in front of it, gives back a tree with the same kinds, integers,
strings and names. The two directions meet in `render`: the printer leaves it in its buffer, and the
parser is run here on a text that continues with it (`content.drop offset = render L item ++ rest`).
-/

namespace FourFuzzers.CJson

open FourFuzzers.Lib FourFuzzers.Lib.Traced

/-! ## Reading at an offset -/

section

variable {content t rest : List UInt8} {o : Nat} {c : UInt8} {b : ParseBuffer} {f : Func}

theorem lt_of_drop_eq_cons (h : content.drop o = c :: t) : o < content.length := by
  by_contra hle
  rw [List.drop_eq_nil_of_le (by omega)] at h
  cases h

theorem getD_of_drop_eq_cons (h : content.drop o = c :: t) : content.getD o 0 = c := by
  have hhead : (content.drop o).head? = some c := by rw [h]; rfl
  rw [List.head?_drop] at hhead
  rw [List.getD_eq_getElem?_getD, hhead, Option.getD_some]

theorem drop_add_of_eq_append (h : content.drop o = t ++ rest) :
    content.drop (o + t.length) = rest := by
  rw [← List.drop_drop, h, List.drop_left]

theorem drop_succ_of_eq_cons (h : content.drop o = c :: t) : content.drop (o + 1) = t := by
  rw [← List.drop_drop, h, List.drop_one, List.tail_cons]

theorem length_le_of_drop_eq_append (h : content.drop o = t ++ rest) (ht : t ≠ []) :
    o + t.length ≤ content.length := by
  have hlen := congrArg List.length h
  rw [List.length_drop, List.length_append] at hlen
  have := List.length_pos_of_ne_nil ht
  omega

theorem val_strncmp_of_eq {literal : List UInt8} (h : content.drop o = literal ++ rest) :
    (strncmp f content o literal).val = true := by
  induction literal generalizing o with
  | nil => rfl
  | cons x xs ih =>
    rw [List.cons_append] at h
    rw [strncmp, val_bind, val_peek, getD_of_drop_eq_cons h, if_pos rfl]
    exact ih (drop_succ_of_eq_cons h)

theorem val_strncmp_of_ne {x : UInt8} {xs : List UInt8} (h : content.drop o = c :: t)
    (hne : c ≠ x) : (strncmp f content o (x :: xs)).val = false := by
  rw [strncmp, val_bind, val_peek, getD_of_drop_eq_cons h, if_neg hne]
  rfl

theorem val_readsLiteral_of_eq {literal : List UInt8} (h : content.drop b.offset = literal ++ rest)
    (hne : literal ≠ []) : (readsLiteral f content b literal).val = true := by
  have hread : canRead content b literal.length := length_le_of_drop_eq_append h hne
  rw [readsLiteral, if_pos hread]
  exact val_strncmp_of_eq h

theorem val_readsLiteral_of_ne {x : UInt8} {xs : List UInt8} (h : content.drop b.offset = c :: t)
    (hne : c ≠ x) : (readsLiteral f content b (x :: xs)).val = false := by
  rw [readsLiteral]
  split
  · exact val_strncmp_of_ne h hne
  · rfl

theorem val_lookingAt_of_eq (h : content.drop b.offset = c :: t) :
    (lookingAt f content b c).val = true := by
  have hacc : canAccessAtIndex content b 0 := lt_of_drop_eq_cons h
  rw [lookingAt, if_pos hacc, val_bind, val_peek, getD_of_drop_eq_cons h]
  exact decide_eq_true rfl

theorem val_lookingAt_of_ne {x : UInt8} (h : content.drop b.offset = c :: t) (hne : c ≠ x) :
    (lookingAt f content b x).val = false := by
  have hacc : canAccessAtIndex content b 0 := lt_of_drop_eq_cons h
  rw [lookingAt, if_pos hacc, val_bind, val_peek, getD_of_drop_eq_cons h]
  exact decide_eq_false hne

/-- Whitespace is skipped only where there is some. -/
theorem val_bufferSkipWhitespace (h : content.drop b.offset = c :: t) (hc : 32 < c) :
    (bufferSkipWhitespace content b).val = b := by
  have hlt := lt_of_drop_eq_cons h
  have hacc : canAccessAtIndex content b 0 := hlt
  have hloop : (skipLoop content b.offset).val = b.offset := by
    rw [skipLoop, if_pos hlt, val_bind, val_peek, getD_of_drop_eq_cons h, if_neg (by
      rw [UInt8.not_le]; exact hc)]
    rfl
  rw [bufferSkipWhitespace, if_pos hacc, val_bind, hloop]
  dsimp only
  rw [if_neg (by omega)]
  rfl

/-! ## Strings -/

/-- A byte without control character is escaped as itself or by a backslash and a letter. -/
theorem escapeByte_cases : ∀ c : UInt8, c ≠ 0 → isControl c = false →
    (escapeByte c = [c] ∧ c ≠ 0x22 ∧ c ≠ 0x5C) ∨
      ∃ l, escapeByte c = [0x5C, l] ∧ simpleEscape l = some c := by
  have h : ∀ c : UInt8, c ≠ 0 → isControl c = false →
      (escapeByte c = [c] ∧ c ≠ 0x22 ∧ c ≠ 0x5C) ∨
        (escapeByte c).head? = some 0x5C ∧ (escapeByte c).length = 2 ∧
          simpleEscape ((escapeByte c).getD 1 0) = some c :=
    forall_byte (by decide +kernel)
  intro c h0 hctl
  rcases h c h0 hctl with hc | ⟨hhead, hlen, hsimple⟩
  · exact .inl hc
  · match hbyte : escapeByte c, hhead, hlen, hsimple with
    | [x, l], hhead, _, hsimple =>
      obtain rfl := Option.some.inj hhead
      exact .inr ⟨l, rfl, hsimple⟩

theorem scanLiteral_render {s : List UInt8} {p n : Nat} (h0 : ∀ c ∈ s, c ≠ 0)
    (hctl : controls s = 0) (h : content.drop p = fullEscape s ++ 0x22 :: rest) :
    ∃ m, (scanLiteral content p n).val = some (p + (fullEscape s).length, n + m) ∧
      s.length + m = (fullEscape s).length := by
  induction s generalizing p n with
  | nil =>
    have h : content.drop p = 0x22 :: rest := h
    refine ⟨0, ?_, rfl⟩
    rw [scanLiteral, if_pos (lt_of_drop_eq_cons h), val_bind, val_peek, getD_of_drop_eq_cons h,
      if_neg (by simp)]
    rfl
  | cons c s ih =>
    have hc0 := h0 c List.mem_cons_self
    rw [controls, List.countP_eq_zero] at hctl
    have hc := escapeByte_cases c hc0 (by simpa using hctl c List.mem_cons_self)
    have hs : controls s = 0 :=
      List.countP_eq_zero.2 fun d hd => hctl d (List.mem_cons_of_mem _ hd)
    have hs0 : ∀ d ∈ s, d ≠ 0 := fun d hd => h0 d (List.mem_cons_of_mem _ hd)
    rw [fullEscape_cons, List.append_assoc] at h
    rcases hc with ⟨hbyte, hq, hb⟩ | ⟨l, hbyte, -⟩
    · rw [hbyte, List.singleton_append] at h
      obtain ⟨m, hval, hm⟩ := ih (n := n) hs0 hs (drop_succ_of_eq_cons h)
      refine ⟨m, ?_, ?_⟩
      · rw [scanLiteral, if_pos (lt_of_drop_eq_cons h), val_bind, val_peek,
          getD_of_drop_eq_cons h, if_pos hq, if_neg hb, hval, fullEscape_cons, hbyte,
          List.length_append, List.length_singleton]
        simp only [Option.some.injEq, Prod.mk.injEq, and_true]
        omega
      · rw [fullEscape_cons, hbyte, List.length_append, List.length_singleton, List.length_cons]
        omega
    · rw [hbyte] at h
      have hdrop := drop_add_of_eq_append h
      have h : content.drop p = 0x5C :: l :: (fullEscape s ++ 0x22 :: rest) := h
      have hlt := lt_of_drop_eq_cons (drop_succ_of_eq_cons h)
      obtain ⟨m, hval, hm⟩ := ih (n := n + 1) hs0 hs hdrop
      refine ⟨m + 1, ?_, ?_⟩
      · rw [scanLiteral, if_pos (lt_of_drop_eq_cons h), val_bind, val_peek,
          getD_of_drop_eq_cons h, if_pos (by decide), if_pos rfl, if_neg (by omega)]
        rw [List.length_cons, List.length_singleton] at hval
        rw [hval, fullEscape_cons, hbyte, List.length_append, List.length_cons,
          List.length_singleton]
        simp only [Option.some.injEq, Prod.mk.injEq]
        omega
      · simp only [fullEscape_cons, hbyte, List.length_append, List.length_cons, List.length_nil]
        omega

/-- The decoding loop undoes the escape. -/
theorem decodeLoop_render {s : List UInt8} {e : Nat} {d : Decoder} (h0 : ∀ c ∈ s, c ≠ 0)
    (hctl : controls s = 0)
    (h : content.drop d.inputPointer = fullEscape s ++ 0x22 :: rest)
    (he : e = d.inputPointer + (fullEscape s).length) :
    (decodeLoop content e d).val = (true, ⟨e, d.outputPointer + s.length,
      d.output.store d.outputPointer s, d.uEscapes⟩) := by
  induction s generalizing d with
  | nil =>
    have he : e = d.inputPointer := he
    rw [decodeLoop, if_neg (by omega), he]
    rfl
  | cons c s ih =>
    have hc0 := h0 c List.mem_cons_self
    rw [controls, List.countP_eq_zero] at hctl
    have hc := escapeByte_cases c hc0 (by simpa using hctl c List.mem_cons_self)
    have hs : controls s = 0 :=
      List.countP_eq_zero.2 fun d hd => hctl d (List.mem_cons_of_mem _ hd)
    have hs0 : ∀ d ∈ s, d ≠ 0 := fun d hd => h0 d (List.mem_cons_of_mem _ hd)
    rw [fullEscape_cons, List.append_assoc] at h
    rw [fullEscape_cons, List.length_append] at he
    rcases hc with ⟨hbyte, hq, hb⟩ | ⟨l, hbyte, hl⟩
    · rw [hbyte, List.singleton_append] at h
      rw [hbyte, List.length_singleton] at he
      rw [decodeLoop, if_pos (by omega), val_bind, val_peek, getD_of_drop_eq_cons h, if_pos hb,
        val_bind, val_put]
      rw [ih hs0 hs (drop_succ_of_eq_cons h) (by dsimp only; omega)]
      simp only [List.length_cons, Block.store, Prod.mk.injEq, Decoder.mk.injEq, true_and, and_true]
      omega
    · rw [hbyte] at h he
      have hdrop := drop_add_of_eq_append h
      have h : content.drop d.inputPointer = 0x5C :: l :: (fullEscape s ++ 0x22 :: rest) := h
      have he : e = d.inputPointer + (2 + (fullEscape s).length) := he
      rw [decodeLoop, if_pos (by omega), val_bind, val_peek, getD_of_drop_eq_cons h,
        if_neg (by simp), if_neg (by omega), val_bind, val_peek,
        getD_of_drop_eq_cons (drop_succ_of_eq_cons h), hl]
      dsimp only
      rw [val_bind, val_put, ih hs0 hs hdrop (by dsimp only; omega)]
      simp only [List.length_cons, Block.store, Prod.mk.injEq, Decoder.mk.injEq, true_and, and_true]
      omega

/-- `parse_string` on a printed string gives the string back. -/
theorem parseString_render {s : List UInt8} (h0 : ∀ c ∈ s, c ≠ 0) (hctl : controls s = 0)
    (h : content.drop b.offset = quoted s ++ rest) :
    ∃ output, (parseString content b).val =
        (some output, { b with offset := b.offset + (quoted s).length }) ∧ output.cstr = s := by
  rw [quoted_eq hctl, List.append_assoc, List.cons_append, List.singleton_append] at h
  have hbody := drop_succ_of_eq_cons h
  obtain ⟨m, hscan, hm⟩ := scanLiteral_render (n := 0) h0 hctl hbody
  have hlen : (quoted s).length = (fullEscape s).length + 2 := by
    rw [quoted_length, hctl, Nat.sub_zero]
  have hsize : b.offset + 1 + (fullEscape s).length - b.offset - (0 + m) - 1 = s.length := by omega
  have hdecode : (decodeLoop content (b.offset + 1 + (fullEscape s).length)
      ⟨b.offset + 1, 0, Block.fresh s.length, 0⟩).val =
      (true, ⟨b.offset + 1 + (fullEscape s).length, s.length,
        (Block.fresh s.length).store 0 s, 0⟩) := by
    have h := decodeLoop_render (d := ⟨b.offset + 1, 0, Block.fresh s.length, 0⟩) h0 hctl hbody rfl
    rw [Nat.zero_add] at h
    exact h
  refine ⟨((Block.fresh s.length).store 0 s).set s.length 0, ?_, ?_⟩
  · rw [parseString, val_bind, val_peek, getD_of_drop_eq_cons h, if_neg (by simp), val_bind, hscan]
    dsimp only
    rw [hsize, val_bind, val_bind, hdecode]
    simp only [if_true, val_bind, val_put, val_seek, val_pure, hlen, Prod.mk.injEq, true_and,
      ParseBuffer.mk.injEq, and_true]
    omega
  · refine Block.cstrFrom_eq h0 ?_ ?_
    · have hstore := Block.holdsAt_store (Block.fresh s.length) 0 (s ++ [0])
      rw [Block.store_append, Nat.zero_add] at hstore
      exact hstore
    · simp only [Block.size_set, Block.size_store, Block.size_fresh]
      omega

/-! ## Numbers -/

/-- The text behind a value does not continue a number. -/
def Delimited (rest : List UInt8) : Prop := ∀ c t, rest = c :: t → isNumberChar c = false

theorem numberStringLength_render {i : Nat} (ht : ∀ x ∈ t, isNumberChar x = true)
    (hrest : Delimited rest) (h : content.drop (o + i) = t ++ rest) :
    (numberStringLength content o i).val = i + t.length := by
  induction t generalizing i with
  | nil =>
    rw [numberStringLength]
    split
    · cases rest with
      | nil =>
        have := congrArg List.length h
        rw [List.length_drop] at this
        simp at this
        omega
      | cons x rest =>
        rw [val_bind, val_peek, getD_of_drop_eq_cons h, hrest x rest rfl]
        rfl
    · rfl
  | cons x t ih =>
    rw [List.cons_append] at h
    have hnext : content.drop (o + (i + 1)) = t ++ rest := drop_succ_of_eq_cons h
    rw [numberStringLength, if_pos (lt_of_drop_eq_cons h), val_bind, val_peek,
      getD_of_drop_eq_cons h, if_pos (ht x List.mem_cons_self),
      ih (fun y hy => ht y (List.mem_cons_of_mem _ hy)) hnext, List.length_cons]
    omega

theorem copyInput_render (h : content.drop o = t ++ rest) :
    (copyInput content o t.length).val = t := by
  induction t generalizing o with
  | nil => rfl
  | cons x t ih =>
    rw [List.cons_append] at h
    rw [List.length_cons, copyInput, val_bind, val_peek, getD_of_drop_eq_cons h, val_bind,
      ih (drop_succ_of_eq_cons h)]
    rfl

end

/-- `strtod` inverts `%d`, and an `int` survives the conversion to `double`. -/
structure Libc.InvertsD {D : Type} (L : Libc D) : Prop where
  strtod_sprintfD : ∀ i, L.strtod (sprintfD i) = (L.ofInt i, (sprintfD i).length)
  geIntMax_ofInt : ∀ i, L.geIntMax (L.ofInt i) = decide ((intMax : Int) ≤ i.1)
  leIntMin_ofInt : ∀ i, L.leIntMin (L.ofInt i) = decide (i.1 ≤ intMin)
  toInt_ofInt : ∀ i, L.toInt (L.ofInt i) = i

section

variable {content rest : List UInt8} {b : ParseBuffer} {D : Type} {L : Libc D}

theorem sprintfD_ne_nil (i : CInt) : sprintfD i ≠ [] := by
  unfold sprintfD
  dsimp only
  split
  · simp
  · simp [Nat.toDigits_ne_nil]

theorem digitByte_numberChar {c : Char} (h : c.isDigit = true) :
    isNumberChar c.toNat.toUInt8 = true := by
  have hall : ∀ n : Fin 256, 48 ≤ n.1 → n.1 ≤ 57 → isNumberChar n.1.toUInt8 = true := by
    decide +kernel
  have hc : 48 ≤ c.toNat ∧ c.toNat ≤ 57 := by
    simpa [Char.isDigit, UInt32.le_iff_toNat_le] using h
  exact hall ⟨c.toNat, by omega⟩ hc.1 hc.2

theorem sprintfD_numberChar (i : CInt) : ∀ x ∈ sprintfD i, isNumberChar x = true := by
  have hdigits : ∀ x ∈ (Nat.toDigits 10 i.1.natAbs).map (fun c => c.toNat.toUInt8),
      isNumberChar x = true := by
    intro x hx
    obtain ⟨c, hc, rfl⟩ := List.mem_map.1 hx
    exact digitByte_numberChar (Nat.isDigit_of_mem_toDigits (by decide) (by decide) hc)
  unfold sprintfD
  dsimp only
  split
  · intro x hx
    rcases List.mem_cons.1 hx with rfl | hx
    · decide
    · exact hdigits x hx
  · exact hdigits

theorem parseNumber_render (hL : L.InvertsD) {i : CInt} (hrest : Delimited rest)
    (h : content.drop b.offset = sprintfD i ++ rest) :
    (parseNumber L content b).val = (some (.number (L.ofInt i) i),
      { b with offset := b.offset + (sprintfD i).length }) := by
  have hlen : (numberStringLength content b.offset 0).val = (sprintfD i).length := by
    have h : content.drop (b.offset + 0) = sprintfD i ++ rest := h
    rw [numberStringLength_render (sprintfD_numberChar i) hrest h, Nat.zero_add]
  have hvalue : (if L.geIntMax (L.ofInt i) then (⟨intMax, by decide⟩ : CInt)
      else if L.leIntMin (L.ofInt i) then ⟨intMin, by decide⟩ else L.toInt (L.ofInt i)) = i := by
    have hi := i.2
    rw [hL.geIntMax_ofInt, hL.leIntMin_ofInt, hL.toInt_ofInt]
    split
    · next hge =>
      have hge := of_decide_eq_true hge
      exact Subtype.ext (by show (intMax : Int) = i.1; omega)
    · split
      · next hle =>
        have hle := of_decide_eq_true hle
        exact Subtype.ext (by show intMin = i.1; omega)
      · rfl
  have hpos : (sprintfD i).length ≠ 0 := by simpa using sprintfD_ne_nil i
  unfold parseNumber
  rw [val_bind, hlen, val_bind, val_bind, copyInput_render h, val_bind, val_bind,
    hL.strtod_sprintfD]
  dsimp only
  rw [if_neg hpos, hvalue]
  rfl

theorem sprintfD_head (i : CInt) :
    ∃ c t, sprintfD i = c :: t ∧ (c = 0x2D ∨ 0x30 ≤ c ∧ c ≤ 0x39) := by
  have hall : ∀ n : Fin 256, 48 ≤ n.1 → n.1 ≤ 57 → 0x30 ≤ n.1.toUInt8 ∧ n.1.toUInt8 ≤ 0x39 := by
    decide +kernel
  unfold sprintfD
  dsimp only
  split
  · exact ⟨_, _, rfl, .inl rfl⟩
  · obtain ⟨d, ds, hds⟩ := List.exists_cons_of_ne_nil
      (Nat.toDigits_ne_nil (n := i.1.natAbs) (b := 10))
    have hd : d.isDigit = true :=
      Nat.isDigit_of_mem_toDigits (by decide) (by decide) (hds ▸ List.mem_cons_self)
    have hc : 48 ≤ d.toNat ∧ d.toNat ≤ 57 := by
      simpa [Char.isDigit, UInt32.le_iff_toNat_le] using hd
    rw [hds, List.map_cons]
    exact ⟨_, _, rfl, .inr (hall ⟨d.toNat, by omega⟩ hc.1 hc.2)⟩

end

/-! ## Trees -/

section

variable {D : Type}

mutual

/-- What a tree is compared by: kinds, integers, strings and names. -/
def Item.view : Item D Block → Item Unit (List UInt8)
  | .invalid => .invalid
  | .null => .null
  | .false => .false
  | .true => .true
  | .number _ i => .number () i
  | .string s => .string (s.map Block.cstr)
  | .raw s => .raw (s.map Block.cstr)
  | .array child => .array child.view
  | .object child => .object child.view

def Items.view : Items D Block → Items Unit (List UInt8)
  | .nil => .nil
  | .cons item next => .cons item.view next.view

def Members.view : Members D Block → Members Unit (List UInt8)
  | .nil => .nil
  | .cons string item next => .cons (string.map Block.cstr) item.view next.view

end

/-- A string without control characters. -/
def PlainPtr : Option Block → Prop
  | some b => controls b.cstr = 0
  | none => False

/-- A leaf that survives the round trip: a literal, a number printed by `%d`, or a plain string. -/
def LeafPlain (L : Libc D) : Item D Block → Prop
  | .null | .false | .true => True
  | .number d i => L.isnan d = false ∧ L.isinf d = false ∧ L.eq d (L.ofInt i) = true
  | .string s => PlainPtr s
  | _ => False

/-- A tree of null, booleans, integers, plain strings, arrays and objects with plain names. -/
def Item.Plain (L : Libc D) (item : Item D Block) : Prop := item.All (LeafPlain L) PlainPtr

variable {L : Libc D}

theorem numberText_plain {d : D} {i : CInt} (h : LeafPlain L (.number d i)) :
    numberText L d i = sprintfD i := by
  obtain ⟨hnan, hinf, heq⟩ := h
  rw [numberText, if_neg (by simp [hnan, hinf]), if_pos heq]

theorem PlainPtr.exists_some {s : Option Block} (h : PlainPtr s) :
    ∃ b, s = some b ∧ controls b.cstr = 0 := by
  cases s with
  | none => exact h.elim
  | some b => exact ⟨b, rfl, h⟩

/-- The first character of a value: no whitespace, no closing bracket, no byte order mark. -/
theorem render_head (item : Item D Block) (h : item.Plain L) :
    ∃ c t, render L item = c :: t ∧ 32 < c ∧ c ≠ 0x5D ∧ c ≠ 0xEF := by
  cases item with
  | invalid => exact h.elim
  | raw s => exact h.elim
  | null => exact ⟨0x6E, _, by rw [render], by decide⟩
  | false => exact ⟨0x66, _, by rw [render], by decide⟩
  | true => exact ⟨0x74, _, by rw [render], by decide⟩
  | array child => exact ⟨0x5B, _, by rw [render, List.cons_append], by decide⟩
  | object child => exact ⟨0x7B, _, by rw [render, List.cons_append], by decide⟩
  | string s =>
    obtain ⟨b, rfl, -⟩ := PlainPtr.exists_some h
    exact ⟨0x22, _, by rw [render, quotedPtr, quoted, List.cons_append], by decide⟩
  | number d i =>
    have hhead : ∀ c : UInt8, c = 0x2D ∨ 0x30 ≤ c ∧ c ≤ 0x39 → 32 < c ∧ c ≠ 0x5D ∧ c ≠ 0xEF :=
      forall_byte (by decide +kernel)
    obtain ⟨c, t, hct, hc⟩ := sprintfD_head i
    exact ⟨c, t, by rw [render, numberText_plain h, hct], hhead c hc⟩

theorem renderElements_head {child : Items D Block} (h : child.All (LeafPlain L) PlainPtr)
    (hne : child.isNil = false) :
    ∃ c t, renderElements L child = c :: t ∧ 32 < c ∧ c ≠ 0x5D := by
  cases child with
  | nil => cases hne
  | cons item next =>
    obtain ⟨c, t, hct, h32, hclose, -⟩ := render_head (L := L) item h.1
    exact ⟨c, _, by rw [renderElements, hct, List.cons_append], h32, hclose⟩

theorem renderMembers_head {child : Members D Block} (h : child.All (LeafPlain L) PlainPtr)
    (hne : child.isNil = false) : ∃ t, renderMembers L child = 0x22 :: t := by
  cases child with
  | nil => cases hne
  | cons string item next =>
    obtain ⟨b, rfl, -⟩ := h.1.exists_some
    exact ⟨_, by rw [renderMembers, quotedPtr, quoted, List.cons_append, List.cons_append]⟩

variable {content rest : List UInt8}

/-- `parse_value` in front of the rendering of `item` gives the item back. -/
def ValueParses (L : Libc D) (content : List UInt8) (item : Item D Block) : Prop :=
  ∀ (fuel : Nat) (b : ParseBuffer) (rest : List UInt8),
    content.drop b.offset = render L item ++ rest → Delimited rest →
    b.depth + item.height ≤ nestingLimit → 3 * (content.length - b.offset) + 1 ≤ fuel →
    ∃ parsed, (parseValue L content fuel b).val =
        (some parsed, { b with offset := b.offset + (render L item).length }) ∧
      parsed.view = item.view

/-- The loop of `parse_array`, one character before the rendering of the elements. -/
def ElementsParse (L : Libc D) (content : List UInt8) (child : Items D Block) : Prop :=
  ∀ (fuel : Nat) (b : ParseBuffer) (rest : List UInt8), child.isNil = false →
    content.drop (b.offset + 1) = renderElements L child ++ 0x5D :: rest →
    b.depth + child.height ≤ nestingLimit → 3 * (content.length - b.offset) ≤ fuel + 1 →
    ∃ parsed, (parseElements L content fuel b).val =
        (some parsed, { b with offset := b.offset + 1 + (renderElements L child).length }) ∧
      parsed.view = child.view

/-- The loop of `parse_object`, one character before the rendering of the members. -/
def MembersParse (L : Libc D) (content : List UInt8) (child : Members D Block) : Prop :=
  ∀ (fuel : Nat) (b : ParseBuffer) (rest : List UInt8), child.isNil = false →
    content.drop (b.offset + 1) = renderMembers L child ++ 0x7D :: rest →
    b.depth + child.height ≤ nestingLimit → 3 * (content.length - b.offset) ≤ fuel + 1 →
    ∃ parsed, (parseMembers L content fuel b).val =
        (some parsed, { b with offset := b.offset + 1 + (renderMembers L child).length }) ∧
      parsed.view = child.view

/-- `parse_value` in front of `c`, when no literal starts there. -/
theorem val_parseValue {fuel : Nat} {b : ParseBuffer} {c : UInt8} {t : List UInt8}
    (h : content.drop b.offset = c :: t) (hn : c ≠ 0x6E) (hf : c ≠ 0x66) (ht : c ≠ 0x74) :
    (parseValue L content (fuel + 1) b).val =
      (if c = 0x22 then do
        let (s, b) ← within .parseValue (parseString content b)
        pure (s.map fun s => .string (some s), b)
      else if c = 0x2D ∨ 0x30 ≤ c ∧ c ≤ 0x39 then
        within .parseValue (parseNumber L content b)
      else if c = 0x5B then
        within .parseValue (parseArray L content fuel b)
      else if c = 0x7B then
        within .parseValue (parseObject L content fuel b)
      else pure (none, b) : Run (Option (Item D Block) × ParseBuffer)).val := by
  have hacc : canAccessAtIndex content b 0 := lt_of_drop_eq_cons h
  rw [parseValue, val_bind, val_readsLiteral_of_ne h hn, if_neg (by simp), val_bind,
    val_readsLiteral_of_ne h hf, if_neg (by simp), val_bind, val_readsLiteral_of_ne h ht,
    if_neg (by simp), if_pos hacc, val_bind, val_peek, getD_of_drop_eq_cons h]

theorem parseValue_null : ValueParses L content .null := by
  intro fuel b rest h _ _ hfuel
  obtain ⟨fuel, rfl⟩ : ∃ n, fuel = n + 1 := ⟨fuel - 1, by omega⟩
  rw [render] at h ⊢
  refine ⟨.null, ?_, rfl⟩
  rw [parseValue, val_bind, val_readsLiteral_of_eq h (by simp), if_pos rfl]
  rfl

theorem parseValue_false : ValueParses L content .false := by
  intro fuel b rest h _ _ hfuel
  obtain ⟨fuel, rfl⟩ : ∃ n, fuel = n + 1 := ⟨fuel - 1, by omega⟩
  rw [render] at h ⊢
  refine ⟨.false, ?_, rfl⟩
  rw [parseValue, val_bind, val_readsLiteral_of_ne h (by decide), if_neg (by simp), val_bind,
    val_readsLiteral_of_eq h (by simp), if_pos rfl]
  rfl

theorem parseValue_true : ValueParses L content .true := by
  intro fuel b rest h _ _ hfuel
  obtain ⟨fuel, rfl⟩ : ∃ n, fuel = n + 1 := ⟨fuel - 1, by omega⟩
  rw [render] at h ⊢
  refine ⟨.true, ?_, rfl⟩
  rw [parseValue, val_bind, val_readsLiteral_of_ne h (by decide), if_neg (by simp), val_bind,
    val_readsLiteral_of_ne h (by decide), if_neg (by simp), val_bind,
    val_readsLiteral_of_eq h (by simp), if_pos rfl]
  rfl

theorem parseValue_string {s : Option Block} (hs : PlainPtr s) :
    ValueParses L content (.string s) := by
  intro fuel b rest h _ _ hfuel
  obtain ⟨fuel, rfl⟩ : ∃ n, fuel = n + 1 := ⟨fuel - 1, by omega⟩
  obtain ⟨block, rfl, hctl⟩ := hs.exists_some
  rw [render, quotedPtr] at h ⊢
  obtain ⟨output, hval, hcstr⟩ :=
    parseString_render (Block.cstrFrom_ne_zero block 0) hctl h
  have h : content.drop b.offset = 0x22 :: _ := h
  refine ⟨.string (some output), ?_, ?_⟩
  · rw [val_parseValue h (by decide) (by decide) (by decide), if_pos rfl, val_bind, val_within]
    rw [show Block.cstrFrom block 0 = block.cstr from rfl] at hval
    rw [hval]
    rfl
  · rw [Item.view, Item.view, Option.map_some, Option.map_some, hcstr]
    rfl

theorem parseValue_number (hL : L.InvertsD) {d : D} {i : CInt} (hd : LeafPlain L (.number d i)) :
    ValueParses L content (.number d i) := by
  intro fuel b rest h hrest _ hfuel
  obtain ⟨fuel, rfl⟩ : ∃ n, fuel = n + 1 := ⟨fuel - 1, by omega⟩
  rw [render, numberText_plain hd] at h ⊢
  have hval := parseNumber_render hL hrest h
  obtain ⟨c, t, hct, hc⟩ := sprintfD_head i
  have hne : ∀ c : UInt8, c = 0x2D ∨ 0x30 ≤ c ∧ c ≤ 0x39 →
      c ≠ 0x6E ∧ c ≠ 0x66 ∧ c ≠ 0x74 ∧ c ≠ 0x22 :=
    forall_byte (by decide +kernel)
  obtain ⟨hn, hf, ht, hq⟩ := hne c hc
  have h : content.drop b.offset = c :: (t ++ rest) := by
    rw [h, hct, List.cons_append]
  refine ⟨.number (L.ofInt i) i, ?_, rfl⟩
  rw [val_parseValue h hn hf ht, if_neg hq, if_pos hc, val_within, hval]

theorem parseValue_array {child : Items D Block} (hplain : child.All (LeafPlain L) PlainPtr)
    (ih : ElementsParse L content child) : ValueParses L content (.array child) := by
  intro fuel b rest h hrest hdepth hfuel
  rw [render, List.append_assoc, List.cons_append, List.singleton_append] at h
  have hlt := lt_of_drop_eq_cons h
  have hbody := drop_succ_of_eq_cons h
  obtain ⟨fuel, rfl⟩ : ∃ n, fuel = n + 2 := ⟨fuel - 2, by omega⟩
  rw [Item.height] at hdepth
  have hlen : (render L (.array child)).length = (renderElements L child).length + 2 := by
    rw [render]
    simp
  rw [val_parseValue h (by decide) (by decide) (by decide), if_neg (by decide), if_neg (by decide),
    if_pos rfl, val_within, parseArray, if_neg (by omega), val_bind, val_peek,
    getD_of_drop_eq_cons h, if_neg (by simp), val_bind, val_seek, val_bind, val_within, hlen]
  cases child with
  | nil =>
    rw [renderElements, List.nil_append] at hbody
    have hskip := val_bufferSkipWhitespace (b := ⟨b.offset + 1, b.depth + 1⟩) hbody (by decide)
    have hclose := val_lookingAt_of_eq (f := .parseArray) (b := ⟨b.offset + 1, b.depth + 1⟩) hbody
    refine ⟨.array .nil, ?_, rfl⟩
    rw [hskip, val_bind, hclose, if_pos rfl, renderElements]
    rfl
  | cons item next =>
    obtain ⟨c, t, hct, h32, hclose⟩ := renderElements_head hplain rfl
    have hfirst : content.drop (b.offset + 1) = c :: (t ++ 0x5D :: rest) := by
      rw [hbody, hct, List.cons_append]
    have hskip := val_bufferSkipWhitespace (b := ⟨b.offset + 1, b.depth + 1⟩) hfirst h32
    have hempty := val_lookingAt_of_ne (f := .parseArray) (b := ⟨b.offset + 1, b.depth + 1⟩) hfirst
      hclose
    have hacc : canAccessAtIndex content ⟨b.offset + 1, b.depth + 1⟩ 0 :=
      lt_of_drop_eq_cons hfirst
    obtain ⟨parsed, hval, hview⟩ := ih fuel ⟨b.offset + 1 - 1, b.depth + 1⟩ rest rfl hbody
      (by dsimp only; omega) (by dsimp only; omega)
    have hend := drop_add_of_eq_append hbody
    have hclosed := val_lookingAt_of_eq (f := .parseArray)
      (b := ⟨b.offset + 1 - 1 + 1 + (renderElements L (.cons item next)).length, b.depth + 1⟩) hend
    refine ⟨.array parsed, ?_, by rw [Item.view, Item.view, hview]⟩
    rw [hskip, val_bind, hempty, if_neg (by simp), if_neg (not_not.2 hacc), val_bind,
      val_seek, val_bind]
    erw [hval]
    dsimp only
    rw [val_bind, hclosed, if_pos rfl]
    simp only [val_bind, val_seek, val_pure, Nat.add_sub_cancel, Prod.mk.injEq, true_and,
      ParseBuffer.mk.injEq, and_true]
    omega

theorem parseValue_object {child : Members D Block} (hplain : child.All (LeafPlain L) PlainPtr)
    (ih : MembersParse L content child) : ValueParses L content (.object child) := by
  intro fuel b rest h hrest hdepth hfuel
  rw [render, List.append_assoc, List.cons_append, List.singleton_append] at h
  have hlt := lt_of_drop_eq_cons h
  have hbody := drop_succ_of_eq_cons h
  obtain ⟨fuel, rfl⟩ : ∃ n, fuel = n + 2 := ⟨fuel - 2, by omega⟩
  rw [Item.height] at hdepth
  have hlen : (render L (.object child)).length = (renderMembers L child).length + 2 := by
    rw [render]
    simp
  have hopen := val_lookingAt_of_eq (f := .parseObject) (b := ⟨b.offset, b.depth + 1⟩) h
  rw [val_parseValue h (by decide) (by decide) (by decide), if_neg (by decide), if_neg (by decide),
    if_neg (by decide), if_pos rfl, val_within, parseObject, if_neg (by omega), val_bind, hopen,
    if_neg (by simp), val_bind, val_seek, val_bind, val_within, hlen]
  cases child with
  | nil =>
    rw [renderMembers, List.nil_append] at hbody
    have hskip := val_bufferSkipWhitespace (b := ⟨b.offset + 1, b.depth + 1⟩) hbody (by decide)
    have hclose := val_lookingAt_of_eq (f := .parseObject) (b := ⟨b.offset + 1, b.depth + 1⟩) hbody
    refine ⟨.object .nil, ?_, rfl⟩
    rw [hskip, val_bind, hclose, if_pos rfl, renderMembers]
    rfl
  | cons string item next =>
    obtain ⟨t, hct⟩ := renderMembers_head hplain rfl
    have hfirst : content.drop (b.offset + 1) = 0x22 :: (t ++ 0x7D :: rest) := by
      rw [hbody, hct, List.cons_append]
    have hskip := val_bufferSkipWhitespace (b := ⟨b.offset + 1, b.depth + 1⟩) hfirst (by decide)
    have hempty := val_lookingAt_of_ne (f := .parseObject) (b := ⟨b.offset + 1, b.depth + 1⟩) hfirst
      (x := 0x7D) (by decide)
    have hacc : canAccessAtIndex content ⟨b.offset + 1, b.depth + 1⟩ 0 :=
      lt_of_drop_eq_cons hfirst
    obtain ⟨parsed, hval, hview⟩ := ih fuel ⟨b.offset + 1 - 1, b.depth + 1⟩ rest rfl hbody
      (by dsimp only; omega) (by dsimp only; omega)
    have hend := drop_add_of_eq_append hbody
    have hclosed := val_lookingAt_of_eq (f := .parseObject)
      (b := ⟨b.offset + 1 - 1 + 1 + (renderMembers L (.cons string item next)).length, b.depth + 1⟩)
      hend
    refine ⟨.object parsed, ?_, by rw [Item.view, Item.view, hview]⟩
    rw [hskip, val_bind, hempty, if_neg (by simp), if_neg (not_not.2 hacc), val_bind,
      val_seek, val_bind]
    erw [hval]
    dsimp only
    rw [val_bind, hclosed, if_pos rfl]
    simp only [val_bind, val_seek, val_pure, Nat.add_sub_cancel, Prod.mk.injEq, true_and,
      ParseBuffer.mk.injEq, and_true]
    omega

theorem delimited_cons {c : UInt8} {t : List UInt8} (h : isNumberChar c = false) :
    Delimited (c :: t) := by
  intro c' t' heq
  rw [← (List.cons.inj heq).1]
  exact h

/-- What follows an element or a member: a comma, or the closing bracket. -/
theorem exists_head_tail {last : Bool} {body : List UInt8} (close : UInt8) (rest : List UInt8)
    (hbody : last = true → body = [])
    (hclose : 32 < close ∧ isNumberChar close = false ∧ close ≠ 0x2C) :
    ∃ c t, ((if last then [] else [0x2C]) ++ body) ++ close :: rest = c :: t ∧ 32 < c ∧
      isNumberChar c = false ∧ (c = 0x2C ↔ last = false) := by
  cases last with
  | true =>
    rw [hbody rfl]
    exact ⟨close, rest, rfl, hclose.1, hclose.2.1, by simp [hclose.2.2]⟩
  | false => exact ⟨0x2C, _, rfl, by decide, by decide, by decide⟩

/-- One round of the loop of `parse_array`. -/
theorem parseElements_cons {item : Item D Block} {next : Items D Block}
    (hplain : (Items.cons item next).All (LeafPlain L) PlainPtr)
    (ihv : ValueParses L content item) (ihn : ElementsParse L content next) :
    ElementsParse L content (.cons item next) := by
  intro fuel b rest _ h hdepth hfuel
  obtain ⟨c, t, hct, h32, -, -⟩ := render_head (L := L) item hplain.1
  obtain ⟨c', t', htail, hc'32, hc'num, hc'comma⟩ := exists_head_tail 0x5D rest
    (fun h : next.isNil = true => renderElements_of_isNil (L := L) h) (by decide)
  rw [renderElements, List.append_assoc, htail] at h
  have hfirst : content.drop (b.offset + 1) = c :: (t ++ c' :: t') := by
    rw [h, hct, List.cons_append]
  have hlt := lt_of_drop_eq_cons hfirst
  obtain ⟨fuel, rfl⟩ : ∃ n, fuel = n + 1 := ⟨fuel - 1, by omega⟩
  rw [Items.height] at hdepth
  have hskip := val_bufferSkipWhitespace (b := ⟨b.offset + 1, b.depth⟩) hfirst h32
  obtain ⟨parsed, hval, hview⟩ := ihv fuel ⟨b.offset + 1, b.depth⟩ (c' :: t') h
    (delimited_cons hc'num) (by dsimp only; omega) (by dsimp only; omega)
  have hnext := drop_add_of_eq_append h
  have hskip' := val_bufferSkipWhitespace
    (b := ⟨b.offset + 1 + (render L item).length, b.depth⟩) hnext hc'32
  rw [parseElements, val_bind, val_seek, val_bind, val_within, hskip, val_bind, val_within, hval]
  dsimp only
  rw [val_bind, val_within, hskip', val_bind]
  cases hnil : next.isNil with
  | true =>
    have hcomma := val_lookingAt_of_ne (f := .parseArray) (x := 0x2C)
      (b := ⟨b.offset + 1 + (render L item).length, b.depth⟩) hnext
      (by rw [Ne, hc'comma, hnil]; decide)
    refine ⟨.cons parsed .nil, ?_, ?_⟩
    · rw [hcomma, if_neg (by simp), renderElements, hnil, renderElements_of_isNil hnil, if_pos rfl,
        List.append_nil, List.append_nil]
      rfl
    · cases next with
      | nil => simp only [Items.view, hview]
      | cons _ _ => cases hnil
  | false =>
    obtain rfl := hc'comma.2 hnil
    have hcomma := val_lookingAt_of_eq (f := .parseArray)
      (b := ⟨b.offset + 1 + (render L item).length, b.depth⟩) hnext
    rw [hnil, if_neg (by simp), List.append_assoc, List.singleton_append] at htail
    obtain ⟨-, rfl⟩ := List.cons.inj htail
    obtain ⟨parsed', hval', hview'⟩ := ihn fuel ⟨b.offset + 1 + (render L item).length, b.depth⟩
      rest hnil (drop_succ_of_eq_cons hnext) (by dsimp only; omega) (by dsimp only; omega)
    refine ⟨.cons parsed parsed', ?_, by rw [Items.view, Items.view, hview, hview']⟩
    rw [hcomma, if_pos rfl, val_bind, hval', renderElements, hnil, if_neg (by simp)]
    simp only [val_pure, Option.map_some, Prod.mk.injEq, true_and, ParseBuffer.mk.injEq, and_true,
      List.length_append, List.length_singleton]
    omega

/-- One round of the loop of `parse_object`. -/
theorem parseMembers_cons {string : Option Block} {item : Item D Block} {next : Members D Block}
    (hplain : (Members.cons string item next).All (LeafPlain L) PlainPtr)
    (ihv : ValueParses L content item) (ihn : MembersParse L content next) :
    MembersParse L content (.cons string item next) := by
  intro fuel b rest _ h hdepth hfuel
  obtain ⟨block, rfl, hctl⟩ := hplain.1.exists_some
  obtain ⟨c, t, hct, h32, -, -⟩ := render_head (L := L) item hplain.2.1
  obtain ⟨c', t', htail, hc'32, hc'num, hc'comma⟩ := exists_head_tail 0x7D rest
    (fun h : next.isNil = true => renderMembers_of_isNil (L := L) h) (by decide)
  rw [renderMembers, List.append_assoc, List.cons_append, List.append_assoc, htail, quotedPtr] at h
  have hacc : canAccessAtIndex content b 1 := by
    rw [quoted, List.cons_append, List.cons_append] at h
    exact lt_of_drop_eq_cons h
  have hlt : b.offset + 1 < content.length := hacc
  obtain ⟨fuel, rfl⟩ : ∃ n, fuel = n + 1 := ⟨fuel - 1, by omega⟩
  rw [Members.height] at hdepth
  have hskip := val_bufferSkipWhitespace (b := ⟨b.offset + 1, b.depth⟩) (c := 0x22) h (by decide)
  obtain ⟨output, hstring, hcstr⟩ :=
    parseString_render (b := ⟨b.offset + 1, b.depth⟩) (Block.cstrFrom_ne_zero block 0) hctl h
  have hcolon := drop_add_of_eq_append h
  have hvalue := drop_succ_of_eq_cons hcolon
  have hskip₁ := val_bufferSkipWhitespace
    (b := ⟨b.offset + 1 + (quoted block.cstr).length, b.depth⟩) hcolon (by decide)
  have hat := val_lookingAt_of_eq (f := .parseObject)
    (b := ⟨b.offset + 1 + (quoted block.cstr).length, b.depth⟩) hcolon
  rw [parseMembers, if_neg (not_not.2 hacc), val_bind, val_seek, val_bind, val_within, hskip,
    val_bind, val_within]
  rw [show Block.cstrFrom block 0 = block.cstr from rfl] at hstring hcstr
  rw [hstring]
  dsimp only
  rw [val_bind, val_within, hskip₁, val_bind, hat, if_neg (by simp), val_bind, val_seek, val_bind,
    val_within]
  have hlen : (renderMembers L (.cons (some block) item next)).length =
      (quoted block.cstr).length + 1 + ((render L item).length +
        ((if next.isNil then [] else [0x2C]) ++ renderMembers L next).length) := by
    rw [renderMembers, quotedPtr, List.length_append, List.length_cons, List.length_append]
    omega
  rw [hlen]
  generalize ho : b.offset + 1 + (quoted block.cstr).length + 1 = o at hvalue ⊢
  have hfirst : content.drop o = c :: (t ++ c' :: t') := by
    rw [hvalue, hct, List.cons_append]
  have hskip₂ := val_bufferSkipWhitespace (b := ⟨o, b.depth⟩) hfirst h32
  obtain ⟨parsed, hval, hview⟩ := ihv fuel ⟨o, b.depth⟩ (c' :: t') hvalue
    (delimited_cons hc'num) (by dsimp only; omega) (by dsimp only; omega)
  have hnext := drop_add_of_eq_append hvalue
  have hskip₃ := val_bufferSkipWhitespace (b := ⟨o + (render L item).length, b.depth⟩) hnext hc'32
  rw [hskip₂, val_bind, val_within, hval]
  dsimp only
  rw [val_bind, val_within, hskip₃, val_bind]
  cases hnil : next.isNil with
  | true =>
    have hcomma := val_lookingAt_of_ne (f := .parseObject) (x := 0x2C)
      (b := ⟨o + (render L item).length, b.depth⟩) hnext (by rw [Ne, hc'comma, hnil]; decide)
    refine ⟨.cons (some output) parsed .nil, ?_, ?_⟩
    · rw [hcomma, if_neg (by simp), renderMembers_of_isNil hnil, if_pos rfl,
        List.append_nil]
      simp only [val_pure, Prod.mk.injEq, true_and, ParseBuffer.mk.injEq, and_true, List.length_nil]
      omega
    · cases next with
      | nil => simp only [Members.view, hview, Option.map_some, hcstr]
      | cons _ _ => cases hnil
  | false =>
    obtain rfl := hc'comma.2 hnil
    have hcomma := val_lookingAt_of_eq (f := .parseObject)
      (b := ⟨o + (render L item).length, b.depth⟩) hnext
    rw [hnil, if_neg (by simp), List.append_assoc, List.singleton_append] at htail
    obtain ⟨-, rfl⟩ := List.cons.inj htail
    obtain ⟨parsed', hval', hview'⟩ := ihn fuel ⟨o + (render L item).length, b.depth⟩
      rest hnil (drop_succ_of_eq_cons hnext) (by dsimp only; omega) (by dsimp only; omega)
    refine ⟨.cons (some output) parsed parsed', ?_, by
      rw [Members.view, Members.view, hview, hview', Option.map_some, Option.map_some, hcstr]⟩
    rw [hcomma, if_pos rfl, val_bind, hval', if_neg (by simp)]
    simp only [val_pure, Option.map_some, Prod.mk.injEq, true_and, ParseBuffer.mk.injEq, and_true,
      List.length_append, List.length_singleton]
    omega

mutual

theorem item_parses (hL : L.InvertsD) :
    ∀ {item : Item D Block}, item.Plain L → ValueParses L content item
  | .invalid, h => h.elim
  | .raw _, h => h.elim
  | .null, _ => parseValue_null
  | .false, _ => parseValue_false
  | .true, _ => parseValue_true
  | .number _ _, h => parseValue_number hL h
  | .string _, h => parseValue_string h
  | .array _, h => parseValue_array h (items_parse hL h)
  | .object _, h => parseValue_object h (members_parse hL h)

theorem items_parse (hL : L.InvertsD) :
    ∀ {child : Items D Block}, child.All (LeafPlain L) PlainPtr → ElementsParse L content child
  | .nil, _ => fun _ _ _ hne => nomatch hne
  | .cons _ _, h => parseElements_cons h (item_parses hL h.1) (items_parse hL h.2)

theorem members_parse (hL : L.InvertsD) :
    ∀ {child : Members D Block}, child.All (LeafPlain L) PlainPtr → MembersParse L content child
  | .nil, _ => fun _ _ _ hne => nomatch hne
  | .cons _ _ _, h => parseMembers_cons h (item_parses hL h.2.1) (members_parse hL h.2.2)

end

/-! ## No terminator inside the text -/

theorem quotedPtr_ne_zero {s : Option Block} (h : PlainPtr s) : ∀ x ∈ quotedPtr s, x ≠ 0 := by
  obtain ⟨b, rfl, -⟩ := h.exists_some
  exact quoted_ne_zero (Block.cstrFrom_ne_zero b 0)

mutual

theorem render_ne_zero : ∀ item : Item D Block, item.Plain L → ∀ x ∈ render L item, x ≠ 0
  | .invalid, h => h.elim
  | .raw _, h => h.elim
  | .null, _ => by simp [render]
  | .false, _ => by simp [render]
  | .true, _ => by simp [render]
  | .number d i, h => by
    have hne : ∀ c : UInt8, isNumberChar c = true → c ≠ 0 := forall_byte (by decide +kernel)
    rw [render, numberText_plain h]
    exact fun x hx => hne x (sprintfD_numberChar i x hx)
  | .string s, h => by
    rw [render]
    exact quotedPtr_ne_zero h
  | .array child, h => by
    have hchild := renderElements_ne_zero child h
    rw [render]
    intro x hx
    simp only [List.cons_append, List.mem_cons, List.mem_append, List.not_mem_nil, or_false] at hx
    rcases hx with rfl | hx | rfl
    · decide
    · exact hchild x hx
    · decide
  | .object child, h => by
    have hchild := renderMembers_ne_zero child h
    rw [render]
    intro x hx
    simp only [List.cons_append, List.mem_cons, List.mem_append, List.not_mem_nil, or_false] at hx
    rcases hx with rfl | hx | rfl
    · decide
    · exact hchild x hx
    · decide

theorem renderElements_ne_zero : ∀ child : Items D Block, child.All (LeafPlain L) PlainPtr →
    ∀ x ∈ renderElements L child, x ≠ 0
  | .nil, _ => by simp [renderElements]
  | .cons item next, h => by
    have hitem := render_ne_zero item h.1
    have hnext := renderElements_ne_zero next h.2
    rw [renderElements]
    intro x hx
    simp only [List.mem_append] at hx
    rcases hx with hx | hx | hx
    · exact hitem x hx
    · split at hx <;> simp_all
    · exact hnext x hx

theorem renderMembers_ne_zero : ∀ child : Members D Block, child.All (LeafPlain L) PlainPtr →
    ∀ x ∈ renderMembers L child, x ≠ 0
  | .nil, _ => by simp [renderMembers]
  | .cons string item next, h => by
    have hstring := quotedPtr_ne_zero h.1
    have hitem := render_ne_zero item h.2.1
    have hnext := renderMembers_ne_zero next h.2.2
    rw [renderMembers]
    intro x hx
    simp only [List.mem_append, List.mem_cons] at hx
    rcases hx with hx | rfl | hx | hx | hx
    · exact hstring x hx
    · decide
    · exact hitem x hx
    · split at hx <;> simp_all
    · exact hnext x hx

end

mutual

theorem Item.Plain.printable : ∀ {item : Item D Block}, item.Plain L → item.Printable
  | .invalid, h => h.elim
  | .raw _, h => h.elim
  | .null, _ | .false, _ | .true, _ | .number _ _, _ | .string _, _ => trivial
  | .array _, h => Items.printable_of_plain h
  | .object _, h => Members.printable_of_plain h

theorem Items.printable_of_plain : ∀ {child : Items D Block},
    child.All (LeafPlain L) PlainPtr → child.All LeafPrintable fun _ => True
  | .nil, _ => trivial
  | .cons _ _, h => ⟨Item.Plain.printable h.1, Items.printable_of_plain h.2⟩

theorem Members.printable_of_plain : ∀ {child : Members D Block},
    child.All (LeafPlain L) PlainPtr → child.All LeafPrintable fun _ => True
  | .nil, _ => trivial
  | .cons _ _ _, h => ⟨trivial, Item.Plain.printable h.2.1, Members.printable_of_plain h.2.2⟩

end

/-! ## The round trip -/

/-- `cJSON_Parse` of a block that holds the rendering of a plain item. -/
theorem cJSONParse_render (hL : L.InvertsD) {item : Item D Block} (hplain : item.Plain L)
    (hheight : item.height ≤ nestingLimit) {out : Block} (hcstr : out.cstr = render L item) :
    ∃ parsed, (cJSONParse L out).val = some parsed ∧ parsed.view = item.view := by
  obtain ⟨c, t, hct, h32, -, hbom⟩ := render_head item hplain
  have hfirst : (render L item ++ [0]).drop (⟨0, 0⟩ : ParseBuffer).offset = c :: (t ++ [0]) := by
    rw [hct]
    rfl
  have hskipBom : (skipUtf8Bom (render L item ++ [0]) ⟨0, 0⟩).val = some ⟨0, 0⟩ := by
    rw [skipUtf8Bom, if_neg (by simp)]
    split
    · rw [val_bind, val_strncmp_of_ne hfirst hbom]
      rfl
    · rfl
  have hskip := val_bufferSkipWhitespace hfirst h32
  have hparses : ValueParses L (render L item ++ [0]) item := item_parses hL hplain
  obtain ⟨parsed, hval, hview⟩ := hparses (parseFuel (render L item ++ [0])) ⟨0, 0⟩ [0] rfl
    (delimited_cons (by decide)) (by dsimp only; omega) (by dsimp only [parseFuel]; omega)
  have hopts : (cJSONParseWithLengthOpts L (render L item ++ [0]) false).val.1 = some parsed := by
    rw [cJSONParseWithLengthOpts, if_neg (by simp), val_bind, val_within, hskipBom]
    dsimp only
    rw [val_bind, val_within, hskip, val_bind, val_within, hval]
    rfl
  refine ⟨parsed, ?_, hview⟩
  rw [cJSONParse, val_bind, val_within, cJSONParseWithOpts, val_bind, val_within,
    show (readCstr _ _ out 0).val = out.cstr from rfl, hcstr]
  exact hopts

/-- A tree without control characters, printed and parsed again, is the same tree. -/
theorem cJSONParse_cJSONPrintUnformatted (L : Libc D) (hL : L.InvertsD) (item : Item D Block)
    (hplain : item.Plain L) (hheight : item.height ≤ nestingLimit)
    (hsize : (render L item).length < intMax / 2) :
    ∃ out parsed, (cJSONPrintUnformatted L item).val = some out ∧
      (cJSONParse L out).val = some parsed ∧ parsed.view = item.view := by
  have hspec : PrintResult L item (cJSONPrintUnformatted L item).val :=
    (cJSONPrintUnformatted_spec False.elim).val
  have hmax : intMax = 2147483647 := rfl
  obtain ⟨out, hout⟩ := Option.isSome_iff_exists.1
    (hspec.succeeds hplain.printable hheight (by omega))
  obtain ⟨hblock, hholds⟩ := hspec.holds out hout
  have hcstr : out.cstr = render L item :=
    Block.cstrFrom_eq (render_ne_zero item hplain) hholds (by omega)
  obtain ⟨parsed, hparse, hview⟩ := cJSONParse_render hL hplain hheight hcstr
  exact ⟨out, parsed, hout, hparse, hview⟩

end

/-! ## The hypotheses are satisfiable -/

theorem readDigits_toDigits (cs : List Char) (h : ∀ c ∈ cs, c.isDigit = true) (acc : Nat) :
    readDigits acc (cs.map fun c => c.toNat.toUInt8) = (Nat.ofDigitChars 10 cs acc, cs.length) := by
  induction cs generalizing acc with
  | nil => rfl
  | cons c cs ih =>
    have hdigit : ∀ n : Fin 256, 48 ≤ n.1 → n.1 ≤ 57 →
        digitValue n.1.toUInt8 = some (n.1 - 48) := by
      decide +kernel
    have hc : 48 ≤ c.toNat ∧ c.toNat ≤ 57 := by
      simpa [Char.isDigit, UInt32.le_iff_toNat_le] using h c List.mem_cons_self
    have hvalue := hdigit ⟨c.toNat, by omega⟩ hc.1 hc.2
    rw [List.map_cons, readDigits, hvalue]
    dsimp only
    rw [ih (fun d hd => h d (List.mem_cons_of_mem _ hd)), Nat.ofDigitChars_cons]
    rfl

theorem readInt_sprintfD (i : CInt) : readInt (sprintfD i) = (i.1, (sprintfD i).length) := by
  have hdigits := readDigits_toDigits (Nat.toDigits 10 i.1.natAbs)
    (fun c hc => Nat.isDigit_of_mem_toDigits (by decide) (by decide) hc) 0
  rw [Nat.ofDigitChars_toDigits (by decide) (by decide)] at hdigits
  have hpos : (Nat.toDigits 10 i.1.natAbs).length ≠ 0 := by simp [Nat.toDigits_ne_nil]
  by_cases hneg : i.1 < 0
  · have htext : sprintfD i =
        0x2D :: (Nat.toDigits 10 i.1.natAbs).map (fun c => c.toNat.toUInt8) := by
      rw [sprintfD, if_pos hneg]
    rw [htext, readInt, if_pos rfl, hdigits, if_neg hpos, List.length_cons, List.length_map]
    simp only [Prod.mk.injEq, and_true]
    omega
  · have htext : sprintfD i = (Nat.toDigits 10 i.1.natAbs).map (fun c => c.toNat.toUInt8) := by
      rw [sprintfD, if_neg hneg]
    obtain ⟨c, t, hct, -⟩ := sprintfD_head i
    rw [← htext] at hdigits
    rw [hct] at hdigits ⊢
    have hminus : c ≠ 0x2D := by
      rintro rfl
      exact hpos (congrArg Prod.snd hdigits).symm
    rw [readInt, if_neg hminus, hdigits]
    simp only [Prod.mk.injEq]
    rw [htext] at hct
    have := congrArg List.length hct
    rw [List.length_map] at this
    omega

theorem intLibc_invertsD : intLibc.InvertsD where
  strtod_sprintfD := readInt_sprintfD
  geIntMax_ofInt _ := rfl
  leIntMin_ofInt _ := rfl
  toInt_ofInt i := dif_pos i.2

/-- The block of a C string. -/
def cstrBlock (s : List UInt8) : Block := (Block.fresh (s.length + 1)).store 0 (s ++ [0])

/-- `{"a\"b": [null, -7, "\t\\é"]}` -/
def sampleItem : Item Int Block :=
  .object (.cons (some (cstrBlock [0x61, 0x22, 0x62]))
    (.array (.cons .null (.cons (.number (-7) ⟨-7, by decide⟩)
      (.cons (.string (some (cstrBlock [0x09, 0x5C, 0xC3, 0xA9]))) .nil)))) .nil)

theorem sampleItem_plain : sampleItem.Plain intLibc := by
  refine ⟨?_, ⟨trivial, ?_, ?_, trivial⟩, trivial⟩
  · show controls (cstrBlock [0x61, 0x22, 0x62]).cstr = 0
    decide
  · exact ⟨rfl, rfl, rfl⟩
  · show controls (cstrBlock [0x09, 0x5C, 0xC3, 0xA9]).cstr = 0
    decide

theorem sampleItem_round_trip :
    ∃ out parsed, (cJSONPrintUnformatted intLibc sampleItem).val = some out ∧
      (cJSONParse intLibc out).val = some parsed ∧ parsed.view = sampleItem.view :=
  cJSONParse_cJSONPrintUnformatted intLibc intLibc_invertsD sampleItem sampleItem_plain
    (by decide) (by decide)

end FourFuzzers.CJson
