import FourFuzzers.CJson.Verify.Log

/-!
# The growing buffer and `print_string_ptr`

`print_string_ptr` reserves one byte too few for every control character (BUG_C2), but `ensure`
keeps one byte in reserve and doubles when it grows, and the terminator `sprintf` writes after a
control character reaches one byte further than the text. `Writes len n` describes the writes of a
call exactly: their highest index is `n - 1`, so some write is out of bounds iff `len < n`.

What the call leaves behind does not depend on that: the closing quote and the terminator are stored
last, inside the block, on top of the text written before. So the text at the entry offset is the
quoted escape of the string with one byte cut off per control character (`quoted`).
-/

namespace FourFuzzers.CJson

open FourFuzzers.Lib FourFuzzers.Lib.Traced

/-! ## Escapes -/

/-- The full JSON escape of one byte. -/
def escapeByte (c : UInt8) : List UInt8 :=
  if c > 31 ∧ c ≠ 0x22 ∧ c ≠ 0x5C then [c]
  else match escapeLetter c with
    | some l => [0x5C, l]
    | none => 0x5C :: sprintfU04x c

/-- The full JSON escape of a string. -/
def fullEscape (s : List UInt8) : List UInt8 := s.flatMap escapeByte

/-- A control character without a one-letter escape. -/
def isControl (c : UInt8) : Bool :=
  decide (1 ≤ c ∧ c ≤ 31) && !(c = 0x08 || c = 0x09 || c = 0x0A || c = 0x0C || c = 0x0D)

/-- The number of control characters. -/
def controls (s : List UInt8) : Nat := s.countP isControl

/-- 1 if the last byte is a control character, else 0. -/
def endsInControl (s : List UInt8) : Nat := if s.getLast?.any isControl then 1 else 0

/-- What `print_string_ptr` leaves at its entry offset. -/
def quoted (s : List UInt8) : List UInt8 :=
  0x22 :: (fullEscape s).take ((fullEscape s).length - controls s) ++ [0x22]

theorem escapeCount_eq : ∀ c : UInt8, c ≠ 0 →
    1 + escapeCount c + (if isControl c then 1 else 0) = (escapeByte c).length :=
  forall_byte (by decide +kernel)

theorem escapeByte_ne_zero : ∀ c : UInt8, c ≠ 0 → ∀ x ∈ escapeByte c, x ≠ 0 := by
  have hnot : ∀ c : UInt8, c ≠ 0 → 0 ∉ escapeByte c := forall_byte (by decide +kernel)
  rintro c hc x hx rfl
  exact hnot c hc hx

theorem escapeByte_pos : ∀ c : UInt8, 0 < (escapeByte c).length :=
  forall_byte (by decide +kernel)

theorem isControl_of_gt : ∀ c : UInt8, c > 31 → isControl c = false :=
  forall_byte (by decide +kernel)

theorem isControl_of_letter : ∀ c : UInt8, (escapeLetter c).isSome → isControl c = false :=
  forall_byte (by decide +kernel)

theorem isControl_of_none : ∀ c : UInt8, c ≠ 0 → ¬ (c > 31 ∧ c ≠ 0x22 ∧ c ≠ 0x5C) →
    escapeLetter c = none → isControl c = true :=
  forall_byte (by decide +kernel)

theorem fullEscape_cons (c : UInt8) (s : List UInt8) :
    fullEscape (c :: s) = escapeByte c ++ fullEscape s := rfl

theorem fullEscape_ne_zero {s : List UInt8} (hs : ∀ c ∈ s, c ≠ 0) : ∀ x ∈ fullEscape s, x ≠ 0 := by
  intro x hx
  obtain ⟨c, hc, hxc⟩ := List.mem_flatMap.1 hx
  exact escapeByte_ne_zero c (hs c hc) x hxc

/-- The length the counting loop arrives at is one short per control character. -/
theorem outputLength_eq {s : List UInt8} (hs : ∀ c ∈ s, c ≠ 0) :
    s.length + (s.map escapeCount).sum + controls s = (fullEscape s).length := by
  induction s with
  | nil => rfl
  | cons c s ih =>
    have ih' := ih fun d hd => hs d (List.mem_cons_of_mem _ hd)
    have hc := escapeCount_eq c (hs c List.mem_cons_self)
    simp only [fullEscape_cons, controls, List.length_append, List.length_cons, List.map_cons,
      List.sum_cons, List.countP_cons] at ih' ⊢
    omega

/-- Control characters take six bytes each. -/
theorem six_mul_controls_le (s : List UInt8) : 6 * controls s ≤ (fullEscape s).length := by
  have hbyte : ∀ c : UInt8, (if isControl c then 6 else 0) ≤ (escapeByte c).length :=
    forall_byte (by decide +kernel)
  induction s with
  | nil => exact Nat.le_refl _
  | cons c s ih =>
    have hc := hbyte c
    simp only [fullEscape_cons, controls, List.length_append, List.countP_cons] at ih ⊢
    split at hc
    · next h => rw [if_pos h]; omega
    · next h => rw [if_neg h]; omega

theorem quoted_length {s : List UInt8} :
    (quoted s).length = (fullEscape s).length - controls s + 2 := by
  simp only [quoted, List.length_append, List.length_cons, List.length_take, List.length_nil]
  omega

theorem quoted_ne_zero {s : List UInt8} (hs : ∀ c ∈ s, c ≠ 0) : ∀ x ∈ quoted s, x ≠ 0 := by
  intro x hx
  simp only [quoted, List.cons_append, List.mem_cons, List.mem_append, List.not_mem_nil,
    or_false] at hx
  rcases hx with rfl | hx | rfl
  · decide
  · exact fullEscape_ne_zero hs x (List.mem_of_mem_take hx)
  · decide

/-- Without control characters the whole escape is left. -/
theorem quoted_eq {s : List UInt8} (h : controls s = 0) :
    quoted s = 0x22 :: fullEscape s ++ [0x22] := by
  rw [quoted, h, Nat.sub_zero, List.take_length]

/-! ## Writes by `print_string_ptr` -/

/-- A write into the print buffer by `print_string_ptr`, while the buffer has `len` bytes. -/
structure StringWrite (len : Nat) (a : Access) : Prop where
  site : a.site = some .printStringPtr
  region : a.region = .printbuffer
  write : a.write = true
  size : a.size = len
  defined : a.defined = true

/-- Only writes by `print_string_ptr`, the highest one at index `n - 1`. -/
structure Writes (len n : Nat) (l : List Event) : Prop where
  all : ∀ e ∈ l, ∃ a, e = .access a ∧ StringWrite len a
  oob : (∃ e ∈ l, e.isOob = true) ↔ len < n

namespace Writes

variable {len n m : Nat} {l l₁ l₂ : List Event}

theorem nil : Writes len 0 [] := ⟨by simp, by simp⟩

theorem append (h₁ : Writes len n l₁) (h₂ : Writes len m l₂) :
    Writes len (max n m) (l₁ ++ l₂) := by
  constructor
  · intro e he
    rcases List.mem_append.1 he with he | he
    · exact h₁.all e he
    · exact h₂.all e he
  · simp only [List.mem_append, or_and_right, exists_or, h₁.oob, h₂.oob]
    omega

theorem bind {α β : Type} {x : Run α} {f : α → Run β} (hx : Writes len n x.log)
    (hf : Writes len m (f x.val).log) : Writes len (max n m) (x >>= f).log :=
  hx.append hf

theorem cast (hn : n = m) (h : Writes len n l) : Writes len m l := hn ▸ h

theorem put {p : PrintBuffer} {st : List Func} {i : Nat} {v : UInt8} (hlen : p.length = len)
    (hst : st.find? (!·.isLibc) = some .printStringPtr) :
    Writes len (i + 1) (p.put st i v).log := by
  subst hlen
  constructor
  · intro e he
    simp only [PrintBuffer.put, CJson.put, log_bind, log_pure, List.append_nil,
      List.mem_singleton] at he
    exact ⟨_, he, hst, rfl, rfl, rfl, rfl⟩
  · simp only [PrintBuffer.put, CJson.put, log_bind, log_pure, List.append_nil, List.mem_singleton,
      exists_eq_left, isOob_access, PrintBuffer.length]
    omega

end Writes

@[simp] theorem PrintBuffer.val_put (p : PrintBuffer) (st : List Func) (i : Nat) (v : UInt8) :
    (p.put st i v).val = { p with buffer := p.buffer.set i v } := rfl

@[simp] theorem PrintBuffer.val_putAll (p : PrintBuffer) (st : List Func) (i : Nat)
    (vs : List UInt8) :
    (p.putAll st i vs).val = { p with buffer := p.buffer.store i vs } := by
  simp [PrintBuffer.putAll]

theorem PrintBuffer.putAll_nil (p : PrintBuffer) (st : List Func) (i : Nat) :
    p.putAll st i [] = pure p := by
  simp [PrintBuffer.putAll, CJson.putAll]

theorem PrintBuffer.putAll_cons (p : PrintBuffer) (st : List Func) (i : Nat) (v : UInt8)
    (vs : List UInt8) :
    p.putAll st i (v :: vs) = p.put st i v >>= fun p => p.putAll st (i + 1) vs := by
  simp [PrintBuffer.putAll, PrintBuffer.put, CJson.putAll]

theorem Writes.putAll {len : Nat} {p : PrintBuffer} {st : List Func} {i : Nat} {vs : List UInt8}
    (hlen : p.length = len) (hst : st.find? (!·.isLibc) = some .printStringPtr) :
    Writes len (if vs = [] then 0 else i + vs.length) (p.putAll st i vs).log := by
  induction vs generalizing p i with
  | nil => simpa [PrintBuffer.putAll_nil] using Writes.nil
  | cons v vs ih =>
    rw [PrintBuffer.putAll_cons]
    refine .cast ?_ (.bind (.put hlen hst) (ih hlen))
    simp only [reduceCtorEq, if_false, List.length_cons]
    split
    · next h => simp [h]
    · omega

/-! ## The copying loop -/

/-- The terminator `sprintf` leaves after a control character. -/
def sprintfTail (c : UInt8) : List UInt8 := if isControl c then [0] else []

/-- One past the highest index the copying loop writes to. -/
def copyTop : List UInt8 → Nat → Nat
  | [], _ => 0
  | c :: cs, op =>
    max (op + (escapeByte c ++ sprintfTail c).length) (copyTop cs (op + (escapeByte c).length))

theorem copyTop_eq {s : List UInt8} (hs : s ≠ []) (op : Nat) :
    copyTop s op = op + (fullEscape s).length + endsInControl s := by
  induction s generalizing op with
  | nil => exact absurd rfl hs
  | cons c s ih =>
    rw [copyTop, fullEscape_cons, List.length_append, List.length_append]
    rcases eq_or_ne s [] with rfl | hne
    · have htail : (sprintfTail c).length = endsInControl [c] := by
        rw [show endsInControl [c] = if isControl c then 1 else 0 from rfl, sprintfTail]
        cases isControl c <;> rfl
      rw [htail, copyTop, fullEscape, List.flatMap_nil, List.length_nil]
      omega
    · rw [ih hne, show endsInControl (c :: s) = endsInControl s by
        simp [endsInControl, List.getLast?_cons, List.getLast?_eq_some_getLast hne]]
      have hpos : 0 < (fullEscape s).length := by
        obtain ⟨d, t, rfl⟩ := List.exists_cons_of_ne_nil hne
        rw [fullEscape_cons, List.length_append]
        have := escapeByte_pos d
        omega
      have htail : (sprintfTail c).length ≤ 1 := by
        unfold sprintfTail
        split <;> simp
      omega

/-- What the loop does with one byte. -/
theorem copyEscaped_cons {c : UInt8} (hc : c ≠ 0) (cs : List UInt8) (p : PrintBuffer) (op : Nat) :
    ∃ w : Run PrintBuffer,
      copyEscaped (c :: cs) p op = w >>= (fun p => copyEscaped cs p (op + (escapeByte c).length)) ∧
      Writes p.length (op + (escapeByte c ++ sprintfTail c).length) w.log ∧
      w.val = { p with buffer := p.buffer.store op (escapeByte c ++ sprintfTail c) } := by
  have hsite : [Func.printStringPtr].find? (!·.isLibc) = some .printStringPtr := rfl
  rw [copyEscaped]
  split
  · next h =>
    have hbyte : escapeByte c = [c] := by rw [escapeByte, if_pos h]
    rw [hbyte, sprintfTail, isControl_of_gt c h.1]
    exact ⟨p.put [.printStringPtr] op c, rfl, .put rfl hsite, rfl⟩
  · next h =>
    split
    · next l hl =>
      have hbyte : escapeByte c = [0x5C, l] := by rw [escapeByte, if_neg h, hl]
      rw [hbyte, sprintfTail, isControl_of_letter c (by rw [hl]; rfl)]
      refine ⟨p.put [.printStringPtr] op 0x5C >>= fun p => p.put [.printStringPtr] (op + 1) l,
        by rw [bind_assoc]; rfl, ?_, rfl⟩
      exact .cast (by simp) (.bind (.put rfl hsite) (.put rfl hsite))
    · next hl =>
      have hbyte : escapeByte c = 0x5C :: sprintfU04x c := by rw [escapeByte, if_neg h, hl]
      rw [hbyte, sprintfTail, isControl_of_none c hc h hl, if_pos rfl]
      have hop : op + (0x5C :: sprintfU04x c).length = op + 1 + 4 + 1 := rfl
      refine ⟨p.put [.printStringPtr] op 0x5C >>= fun p =>
        p.putAll [.sprintf, .printStringPtr] (op + 1) (sprintfU04x c ++ [0]), ?_, ?_, ?_⟩
      · rw [bind_assoc, hop]
      · exact .cast (by simp [sprintfU04x]) (.bind (.put rfl hsite) (.putAll rfl rfl))
      · rw [val_bind, PrintBuffer.val_putAll, PrintBuffer.val_put, List.cons_append, Block.store]

/-- `p'` differs from `p` in its block at most. -/
structure PrintBuffer.Frame (p p' : PrintBuffer) : Prop where
  offset : p'.offset = p.offset
  depth : p'.depth = p.depth
  noalloc : p'.noalloc = p.noalloc
  format : p'.format = p.format

namespace PrintBuffer.Frame

variable {p p' p'' : PrintBuffer}

theorem block (p : PrintBuffer) (buffer : Block) : p.Frame { p with buffer } :=
  ⟨rfl, rfl, rfl, rfl⟩

theorem trans (h : p.Frame p') (h' : p'.Frame p'') : p.Frame p'' :=
  ⟨h'.offset.trans h.offset, h'.depth.trans h.depth, h'.noalloc.trans h.noalloc,
    h'.format.trans h.format⟩

end PrintBuffer.Frame

/-- The escape of `s` is copied to `op`: the writes, and the buffer they leave. -/
structure Copied (s : List UInt8) (p : PrintBuffer) (op : Nat) (x : Run PrintBuffer) : Prop where
  writes : Writes p.length (copyTop s op) x.log
  frame : p.Frame x.val
  size : x.val.length = p.length
  below : ∀ i, i < op → x.val.buffer.mem i = p.buffer.mem i
  holds : x.val.buffer.HoldsAt op (fullEscape s)

theorem copyEscaped_spec {cs : List UInt8} (hcs : ∀ c ∈ cs, c ≠ 0) (p : PrintBuffer) (op : Nat) :
    Copied cs p op (Prod.fst <$> copyEscaped cs p op) := by
  induction cs generalizing p op with
  | nil => exact ⟨.nil, .block p _, rfl, fun _ _ => rfl, Block.holdsAt_nil⟩
  | cons c cs ih =>
    obtain ⟨w, heq, hw, hval⟩ := copyEscaped_cons (hcs c List.mem_cons_self) cs p op
    have hrest := ih (fun d hd => hcs d (List.mem_cons_of_mem _ hd)) w.val
      (op + (escapeByte c).length)
    have hbuf : w.val.buffer = p.buffer.store op (escapeByte c ++ sprintfTail c) := by rw [hval]
    have hlen : w.val.length = p.length := by
      rw [PrintBuffer.length, hbuf, Block.size_store, PrintBuffer.length]
    rw [heq, map_bind]
    refine ⟨.bind hw (hlen ▸ hrest.writes), ?_, ?_, ?_, ?_⟩
    · exact .trans (hval ▸ .block p _) hrest.frame
    · rw [val_bind, hrest.size, hlen]
    · intro i hi
      rw [val_bind, hrest.below i (by omega), hbuf, Block.mem_store_of_lt _ _ hi]
    · rw [val_bind, fullEscape_cons, Block.holdsAt_append]
      refine ⟨?_, hrest.holds⟩
      have hstored := (Block.holdsAt_append.1
        (Block.holdsAt_store p.buffer op (escapeByte c ++ sprintfTail c))).1
      rw [← hbuf] at hstored
      exact hstored.congr fun k _ hk => hrest.below k hk

/-- A string without escapes is its own escape. -/
theorem fullEscape_eq_self {s : List UInt8} (hs : ∀ c ∈ s, c ≠ 0)
    (h : (s.map escapeCount).sum = 0) : fullEscape s = s ∧ controls s = 0 := by
  have hbyte : ∀ c : UInt8, c ≠ 0 → escapeCount c = 0 → escapeByte c = [c] ∧ isControl c = false :=
    forall_byte (by decide +kernel)
  induction s with
  | nil => exact ⟨rfl, rfl⟩
  | cons c s ih =>
    simp only [List.map_cons, List.sum_cons] at h
    obtain ⟨ih₁, ih₂⟩ := ih (fun d hd => hs d (List.mem_cons_of_mem _ hd)) (by omega)
    obtain ⟨h₁, h₂⟩ := hbyte c (hs c List.mem_cons_self) (by omega)
    rw [controls] at ih₂ ⊢
    refine ⟨?_, by simp [ih₂, h₂]⟩
    rw [fullEscape_cons, h₁, ih₁, List.singleton_append]

theorem endsInControl_le (s : List UInt8) : endsInControl s ≤ 1 := by
  unfold endsInControl
  split <;> omega

theorem endsInControl_eq_zero {s : List UInt8} (h : controls s = 0) : endsInControl s = 0 := by
  unfold endsInControl
  rw [if_neg]
  intro hany
  obtain ⟨c, hc, hctl⟩ := (Option.any_eq_true _ _).1 hany
  exact List.countP_eq_zero.1 h c (List.mem_of_getLast? hc) hctl

/-- The path without escapes copies the same as the copying loop would. -/
theorem memcpy_spec {s : List UInt8} (hs : ∀ c ∈ s, c ≠ 0) (h : (s.map escapeCount).sum = 0)
    (p : PrintBuffer) (op : Nat) :
    Copied s p op (p.putAll [.memcpy, .printStringPtr] op s) := by
  obtain ⟨hesc, hctl⟩ := fullEscape_eq_self hs h
  refine ⟨.cast ?_ (.putAll rfl rfl), ?_, ?_, ?_, ?_⟩
  · split
    · next h => rw [h, copyTop]
    · next h => rw [copyTop_eq h, hesc, endsInControl_eq_zero hctl, Nat.add_zero]
  · exact PrintBuffer.val_putAll p _ op s ▸ .block p _
  · rw [PrintBuffer.val_putAll, PrintBuffer.length, Block.size_store, PrintBuffer.length]
  · intro i hi
    rw [PrintBuffer.val_putAll, Block.mem_store_of_lt _ _ hi]
  · rw [PrintBuffer.val_putAll, hesc]
    exact Block.holdsAt_store _ _ _

/-! ## The buffer -/

/-- What holds of the print buffer between any two steps of an unformatted print. -/
structure PrintBuffer.Inv (p : PrintBuffer) : Prop where
  offset_lt : p.offset < p.length
  noalloc : p.noalloc = false
  format : p.format = false

/-- `p'` is `p` with at least as much room and the same bytes in front of the offset. -/
structure Room (needed : Nat) (p p' : PrintBuffer) : Prop where
  frame : p.Frame p'
  fits : p.offset + needed + 1 ≤ p'.length
  below : ∀ i, i < p.offset → p'.buffer.mem i = p.buffer.mem i
  /-- the length is kept, doubled to twice what is needed, or raised to `INT_MAX` -/
  grown : p'.length = p.length ∨
    p.length < p'.length ∧
      (p'.length = 2 * (p.offset + needed + 1) ∨
        intMax / 2 < p.offset + needed + 1 ∧ p'.length = intMax)

theorem Room.fits_lt {needed : Nat} {p p' : PrintBuffer} (h : Room needed p p') :
    p.offset + needed ≤ p'.length :=
  Nat.le_of_succ_le h.fits

theorem Room.keep {needed : Nat} {p : PrintBuffer} (h : p.offset + needed + 1 ≤ p.length) :
    Room needed p p :=
  ⟨.block p _, h, fun _ _ => rfl, .inl rfl⟩

theorem Room.realloc {needed n : Nat} {p : PrintBuffer} (hp : p.Inv)
    (hlt : p.length < p.offset + needed + 1) (hn : p.offset + needed + 1 ≤ n)
    (hg : n = 2 * (p.offset + needed + 1) ∨ intMax / 2 < p.offset + needed + 1 ∧ n = intMax) :
    Room needed p { p with buffer := p.buffer.realloc n } := by
  refine ⟨.block p _, hn, fun i hi => ?_, .inr ⟨Nat.lt_of_lt_of_le hlt hn, hg⟩⟩
  have hsize : i < p.buffer.size := Nat.lt_trans hi hp.offset_lt
  simp only [Block.realloc]
  rw [if_pos ⟨hsize, by omega⟩]

/-- `ensure` makes room, or gives up when more than `INT_MAX` bytes are needed. -/
theorem ensure_spec {p : PrintBuffer} (hp : p.Inv) (needed : Nat) :
    Meets (safeLog 0) (fun r => match r.1 with
      | none => r.2 = p ∧ intMax < p.offset + needed + 1
      | some o => o = p.offset ∧ Room needed p r.2) (ensure p needed) := by
  have hoff := hp.offset_lt
  unfold ensure
  rw [if_neg (by omega)]
  split
  · exact .pure ⟨rfl, by omega⟩
  dsimp only
  split
  · exact .pure ⟨rfl, .keep (by omega)⟩
  next hlen =>
  rw [if_neg (by simp [hp.noalloc])]
  unfold newBufferSize
  split_ifs with hhalf hmax
  · refine (meets_alloc _ _ _).bind fun _ _ => .pure ⟨rfl, .realloc hp ?_ ?_ (.inr ?_)⟩ <;> omega
  · exact .pure ⟨rfl, by omega⟩
  · refine (meets_alloc _ _ _).bind fun _ _ => .pure ⟨rfl, .realloc hp ?_ ?_ (.inl ?_)⟩ <;> omega

/-! ## The call -/

/-- `text` and a terminator stand behind what `p` held, inside the block; the offset of `p'` is
somewhere in the text, and no NUL follows it there. -/
structure Printed (p : PrintBuffer) (text : List UInt8) (p' : PrintBuffer) : Prop where
  inv : p'.Inv
  ge : p.offset ≤ p'.offset
  le : p'.offset ≤ p.offset + text.length
  fits : p.offset + text.length < p'.length
  below : ∀ i, i < p.offset → p'.buffer.mem i = p.buffer.mem i
  holds : p'.buffer.HoldsAt p.offset (text ++ [0])
  rest : ∀ c ∈ text.drop (p'.offset - p.offset), c ≠ 0

/-- The writes of `print_string_ptr` on `s` at `o` in a buffer of `len` bytes: some one is out of
bounds exactly when the escape of `s` and the last terminator of `sprintf` do not fit. -/
structure StringWrites (s : List UInt8) (o len : Nat) (grown : Bool) (ws : List Event) : Prop where
  all : ∀ e ∈ ws, ∃ a, e = .access a ∧ StringWrite len a
  oob : (∃ e ∈ ws, e.isOob = true) ↔
    1 ≤ controls s ∧ len ≤ o + (fullEscape s).length + endsInControl s
  doubled : grown = true → len < intMax → ∀ e ∈ ws, e.isOob = false

/-- The two ways `print_string_ptr` copies its string. -/
def copyBody (s : List UInt8) (p : PrintBuffer) (op : Nat) : Run PrintBuffer :=
  if (s.map escapeCount).sum = 0 then p.putAll [.memcpy, .printStringPtr] op s
  else Prod.fst <$> copyEscaped s p op

theorem copyBody_spec {s : List UInt8} (hs : ∀ c ∈ s, c ≠ 0) (p : PrintBuffer) (op : Nat) :
    Copied s p op (copyBody s p op) := by
  unfold copyBody
  split
  · next h => exact memcpy_spec hs h p op
  · exact copyEscaped_spec hs p op

/-- The part of `print_string_ptr` behind `ensure`: the quotes around the body. -/
def quoteAround (s : List UInt8) (output : Nat) (p : PrintBuffer) : Run PrintBuffer := do
  let p ← p.put [.printStringPtr] output 0x22
  let p ← copyBody s p (output + 1)
  let p ← p.put [.printStringPtr] (output + (s.length + (s.map escapeCount).sum) + 1) 0x22
  p.put [.printStringPtr] (output + (s.length + (s.map escapeCount).sum) + 2) 0

theorem printStringPtr_some (input : Block) (p : PrintBuffer) :
    printStringPtr (some input) p =
      readCstr [.printStringPtr] .output input 0 >>= fun s =>
        within .printStringPtr (ensure p (s.length + (s.map escapeCount).sum + 3)) >>= fun r =>
          match r with
          | (none, p) => pure (false, p)
          | (some output, p') =>
            Traced.emit (.printing s output p'.length (decide (p.length < p'.length))) >>= fun _ =>
              (fun p => (true, p)) <$> quoteAround s output p' := by
  rw [printStringPtr]
  refine bind_congr fun s => ?_
  refine bind_congr fun r => ?_
  obtain ⟨_ | output, p'⟩ := r
  · rfl
  · refine bind_congr fun _ => ?_
    unfold quoteAround copyBody
    split
    · simp
    · simp

/-- The closing quote and the terminator on top of a copied body. -/
theorem holdsAt_close {b : Block} {o n : Nat} {body : List UInt8} (hn : n ≤ body.length)
    (hq : b.mem o = some 0x22) (hb : b.HoldsAt (o + 1) body) :
    ((b.set (o + n + 1) 0x22).set (o + n + 2) 0).HoldsAt o
      ((0x22 :: body.take n ++ [0x22]) ++ [0]) := by
  have hsame : ∀ i, i < o + n + 1 →
      ((b.set (o + n + 1) 0x22).set (o + n + 2) 0).mem i = b.mem i := by
    intro i hi
    rw [Block.mem_set_of_ne _ _ (by omega), Block.mem_set_of_ne _ _ (by omega)]
  have hlen : (body.take n).length = n := by rw [List.length_take]; omega
  rw [← List.take_append_drop n body, Block.holdsAt_append] at hb
  rw [List.cons_append, List.cons_append, List.append_assoc, Block.holdsAt_cons,
    Block.holdsAt_append, hlen]
  refine ⟨by rw [hsame o (by omega), hq], hb.1.congr fun k _ hk => hsame k (by omega), ?_⟩
  rw [show o + 1 + n = o + n + 1 by omega, List.singleton_append, Block.holdsAt_cons,
    Block.holdsAt_cons]
  refine ⟨?_, Block.mem_set_self _ _ _, Block.holdsAt_nil⟩
  rw [Block.mem_set_of_ne _ _ (by omega), Block.mem_set_self]

/-- The quotes around the body: some write is out of bounds exactly when the body does not fit; what
is left at the entry offset is `quoted s` in any case. -/
theorem quoteAround_spec {s : List UInt8} (hs : ∀ c ∈ s, c ≠ 0) {o : Nat} {p : PrintBuffer}
    (hfit : o + (s.length + (s.map escapeCount).sum + 3) + 1 ≤ p.length) :
    (∃ n, Writes p.length n (quoteAround s o p).log ∧
      (p.length < n ↔ p.length < copyTop s (o + 1))) ∧
    p.Frame (quoteAround s o p).val ∧
    (quoteAround s o p).val.length = p.length ∧
    (∀ i, i < o → (quoteAround s o p).val.buffer.mem i = p.buffer.mem i) ∧
    (quoteAround s o p).val.buffer.HoldsAt o (quoted s ++ [0]) := by
  have hsite : [Func.printStringPtr].find? (!·.isLibc) = some .printStringPtr := rfl
  have hn := outputLength_eq hs
  have hbody := copyBody_spec hs (p.put [.printStringPtr] o 0x22).val (o + 1)
  have hsize : (copyBody s (p.put [.printStringPtr] o 0x22).val (o + 1)).val.length = p.length :=
    hbody.size
  refine ⟨⟨_, .bind (.put rfl hsite) (.bind hbody.writes
    (.bind (.put hsize hsite) (.put hsize hsite))), by omega⟩,
    .trans (.trans (.block p _) hbody.frame) (.block _ _), hsize, ?_, ?_⟩
  · intro i hi
    simp only [quoteAround, val_bind, PrintBuffer.val_put]
    rw [Block.mem_set_of_ne _ _ (by omega), Block.mem_set_of_ne _ _ (by omega)]
    refine (hbody.below i (by omega)).trans ?_
    exact Block.mem_set_of_ne _ _ (by omega)
  · simp only [quoteAround, val_bind, PrintBuffer.val_put, quoted]
    rw [show (fullEscape s).length - controls s = s.length + (s.map escapeCount).sum by omega]
    refine holdsAt_close (by omega) ?_ hbody.holds
    exact (hbody.below o (by omega)).trans (Block.mem_set_self _ _ _)

/-- The writes behind `ensure`, in terms of the string and the offset. -/
theorem stringWrites {s : List UInt8} (hs : ∀ c ∈ s, c ≠ 0) {p p' : PrintBuffer}
    (hroom : Room (s.length + (s.map escapeCount).sum + 3) p p') :
    StringWrites s p.offset p'.length (decide (p.length < p'.length))
      (quoteAround s p.offset p').log := by
  have hn := outputLength_eq hs
  have hfits := hroom.fits
  obtain ⟨⟨n, hw, hiff⟩, -⟩ := quoteAround_spec hs hroom.fits
  have hoob : (∃ e ∈ (quoteAround s p.offset p').log, e.isOob = true) ↔
      1 ≤ controls s ∧ p'.length ≤ p.offset + (fullEscape s).length + endsInControl s := by
    rw [hw.oob, hiff]
    rcases eq_or_ne s [] with rfl | hne
    · simp [copyTop, controls]
    · rw [copyTop_eq hne]
      constructor
      · intro hlt
        refine ⟨?_, by omega⟩
        by_contra h0
        have := endsInControl_eq_zero (show controls s = 0 by omega)
        omega
      · rintro ⟨-, hle⟩
        omega
  refine ⟨hw.all, hoob, fun hg hmax e he => ?_⟩
  rw [← Bool.not_eq_true]
  intro he'
  obtain ⟨-, hle⟩ := hoob.1 ⟨e, he, he'⟩
  have hlt : p.length < p'.length := of_decide_eq_true hg
  have h6 := six_mul_controls_le s
  have hd := endsInControl_le s
  have hgrown := hroom.grown
  omega

/-! ## Traces of the printer -/

/-- An event of the printer outside the writes of `print_string_ptr`. Of the reads of the printed
strings, the sanitizer reports none if `strict`, and nothing is said otherwise. -/
def Event.PrintSafe (strict : Prop) : Event → Prop
  | .access a => ¬ a.Oob ∧ a.defined = true ∨
      a.region = .output ∧ a.write = false ∧ (strict → ¬ a.Reported ∧ a.defined = true)
  | .alloc .. => True
  | .offset _ => True
  | .decoded _ => False
  | .printing .. => False
  | .outOfFuel => False

/-- What a run of the printer may record: besides safe events, calls of `print_string_ptr`, each
marked by `printing` in front of its writes. -/
inductive PrintLog (strict : Prop) : List Event → Prop
  | nil : PrintLog strict []
  | safe {e : Event} {l : List Event} (he : e.PrintSafe strict) (hl : PrintLog strict l) :
      PrintLog strict (e :: l)
  | string {s : List UInt8} {o len : Nat} {grown : Bool} {ws l : List Event}
      (hw : StringWrites s o len grown ws) (hl : PrintLog strict l) :
      PrintLog strict (.printing s o len grown :: (ws ++ l))

theorem Event.Safe.printSafe {strict : Prop} {n : Nat} {e : Event} (h : e.Safe n) :
    e.PrintSafe strict := by
  cases e with
  | access a => exact .inl ⟨h.1, h.2.1⟩
  | alloc => trivial
  | offset => trivial
  | decoded => exact h
  | printing => exact h
  | outOfFuel => exact h

namespace PrintLog

variable {strict : Prop} {l l₁ l₂ : List Event}

theorem append (h₁ : PrintLog strict l₁) (h₂ : PrintLog strict l₂) :
    PrintLog strict (l₁ ++ l₂) := by
  induction h₁ with
  | nil => exact h₂
  | safe he _ ih => exact .safe he ih
  | string hw _ ih =>
    rw [List.cons_append, List.append_assoc]
    exact .string hw ih

theorem of_safe (h : ∀ e ∈ l, e.PrintSafe strict) : PrintLog strict l := by
  induction l with
  | nil => exact .nil
  | cons e l ih =>
    exact .safe (h e List.mem_cons_self) (ih fun e he => h e (List.mem_cons_of_mem _ he))

theorem map_push (h : PrintLog strict l) (f : Func) : PrintLog strict (l.map (Event.push f)) := by
  induction h with
  | nil => exact .nil
  | @safe e l he _ ih =>
    refine .safe ?_ ih
    cases e <;> exact he
  | @string s o len grown ws l hw _ ih =>
    rw [List.map_cons, List.map_append]
    refine .string ⟨?_, ?_, ?_⟩ ih
    · intro e he
      obtain ⟨e', he', rfl⟩ := List.mem_map.1 he
      obtain ⟨a, rfl, ha⟩ := hw.all e' he'
      refine ⟨_, rfl, ?_, ha.region, ha.write, ha.size, ha.defined⟩
      have hsite := ha.site
      simp only [Access.site] at hsite ⊢
      rw [List.find?_append, hsite, Option.some_or]
    · rw [← hw.oob]
      simp only [List.mem_map, exists_exists_and_eq_and, isOob_push]
    · intro hg hlen e he
      obtain ⟨e', he', rfl⟩ := List.mem_map.1 he
      rw [isOob_push, hw.doubled hg hlen e' he']

end PrintLog

/-- `PrintLog` as a trace property. -/
def printLog (strict : Prop) : LogProp Event := ⟨PrintLog strict, .nil, PrintLog.append⟩

section

variable {strict : Prop} {n : Nat} {α β : Type} {Q : α → Prop} {x : Run α}

theorem Meets.printLog (h : Meets (safeLog n) Q x) : Meets (CJson.printLog strict) Q x :=
  h.weaken fun _ hl => PrintLog.of_safe fun e he => (hl e he).printSafe

theorem Meets.bind_print {f : α → Run β} {S : β → Prop} (hx : Meets (safeLog n) Q x)
    (hf : ∀ a, Q a → Meets (CJson.printLog strict) S (f a)) :
    Meets (CJson.printLog strict) S (x >>= f) :=
  (Meets.printLog hx).bind hf

theorem Meets.within_print (h : Meets (CJson.printLog strict) Q x) (f : Func) :
    Meets (CJson.printLog strict) Q (CJson.within f x) :=
  h.mapLog fun _ hl => PrintLog.map_push hl f

end

/-! ## Specification of `print_string_ptr` -/

/-- A C string inside its block, as the sanitizer serves it. -/
def ValidString (b : Block) : Prop :=
  ∃ s : List UInt8, (∀ c ∈ s, c ≠ 0) ∧ b.HoldsAt 0 (s ++ [0]) ∧ s.length < max b.size 1

/-- The text printed for a string pointer. -/
def quotedPtr : Option Block → List UInt8
  | none => [0x22, 0x22]
  | some b => quoted b.cstr

/-- What the printing functions return: success leaves the text, and only lack of room makes them
fail, unless `extra` is missing. -/
structure Prints (p : PrintBuffer) (text : List UInt8) (extra : Prop) (r : Bool × PrintBuffer) :
    Prop where
  printed : r.1 = true → Printed p text r.2
  depth : r.1 = true → r.2.depth = p.depth
  succeeds : extra → p.offset + text.length + 2 ≤ intMax → r.1 = true

theorem Prints.fails {p p' : PrintBuffer} {text : List UInt8} {extra : Prop}
    (h : extra → intMax < p.offset + text.length + 2) : Prints p text extra (false, p') :=
  ⟨by simp, by simp, fun he h' => by have := h he; omega⟩

theorem Prints.mono {p : PrintBuffer} {text : List UInt8} {extra extra' : Prop}
    {r : Bool × PrintBuffer} (h : Prints p text extra r) (himp : extra' → extra) :
    Prints p text extra' r :=
  ⟨h.printed, h.depth, fun he => h.succeeds (himp he)⟩

theorem meets_readString {strict : Prop} {b : Block} {st : List Func}
    (h : strict → ValidString b) :
    Meets (printLog strict) (fun s => s = b.cstr ∧ ∀ c ∈ s, c ≠ 0) (readCstr st .output b 0) := by
  refine ⟨PrintLog.of_safe fun e he => ?_, rfl, Block.cstrFrom_ne_zero b 0⟩
  obtain ⟨k, hk, rfl⟩ := List.mem_map.1 he
  refine .inr ⟨rfl, rfl, fun hstrict => ?_⟩
  obtain ⟨s, hs, hh, hlt⟩ := h hstrict
  rw [List.mem_range, Block.cstrFrom_eq hs hh (by omega)] at hk
  have hget : ∃ c, (s ++ [0])[k]? = some c :=
    ⟨_, List.getElem?_eq_getElem (by simpa using hk)⟩
  obtain ⟨c, hc⟩ := hget
  refine ⟨?_, by simp only [hh k c hc, Option.isSome_some]⟩
  simp only [Access.Reported]
  omega

theorem Prints.of_frame {p p' : PrintBuffer} {text : List UInt8} {extra : Prop} (hp : p.Inv)
    (hframe : p.Frame p') (hfits : p.offset + text.length < p'.length)
    (hbelow : ∀ i, i < p.offset → p'.buffer.mem i = p.buffer.mem i)
    (hholds : p'.buffer.HoldsAt p.offset (text ++ [0])) (hne : ∀ c ∈ text, c ≠ 0) :
    Prints p text extra (true, p') := by
  have hoff := hframe.offset
  refine ⟨fun _ => ⟨⟨?_, hframe.noalloc.trans hp.noalloc, hframe.format.trans hp.format⟩, ?_, ?_,
    hfits, hbelow, hholds, fun c hc => hne c (List.mem_of_mem_drop hc)⟩, fun _ => hframe.depth,
    fun _ _ => rfl⟩
  · dsimp only
    omega
  · dsimp only
    omega
  · dsimp only
    omega

/-- A text stored with its terminator behind `ensure`. -/
theorem Prints.store {needed : Nat} {p p' : PrintBuffer} {text : List UInt8} {extra : Prop}
    (hp : p.Inv) (hroom : Room needed p p') (hfit : text.length ≤ needed)
    (hne : ∀ c ∈ text, c ≠ 0) :
    Prints p text extra
      (true, { p' with buffer := p'.buffer.store p.offset (text ++ [0]) }) := by
  refine .of_frame hp (hroom.frame.trans (.block p' _)) ?_ (fun i hi => ?_)
    (Block.holdsAt_store _ _ _) hne
  · have hfits := hroom.fits
    rw [PrintBuffer.length, Block.size_store]
    rw [PrintBuffer.length] at hfits
    omega
  · rw [Block.mem_store_of_lt _ _ hi, hroom.below i hi]

theorem PrintBuffer.meets_putAll {p : PrintBuffer} {st : List Func} {i : Nat} {vs : List UInt8}
    (h : i + vs.length ≤ p.length) :
    Meets (safeLog 0) (· = { p with buffer := p.buffer.store i vs }) (p.putAll st i vs) := by
  refine (CJson.meets_putAll h).bind fun b hb => ?_
  subst hb
  exact .pure rfl

theorem PrintBuffer.meets_put {p : PrintBuffer} {st : List Func} {i : Nat} {v : UInt8}
    (h : i < p.length) :
    Meets (safeLog 0) (· = { p with buffer := p.buffer.set i v }) (p.put st i v) := by
  refine (CJson.meets_put h).bind fun b hb => ?_
  subst hb
  exact .pure rfl

theorem printStringPtr_spec {strict : Prop} {input : Option Block} {p : PrintBuffer} (hp : p.Inv)
    (hin : strict → ∀ b, input = some b → ValidString b) :
    Meets (printLog strict) (Prints p (quotedPtr input) True) (printStringPtr input p) := by
  cases input with
  | none =>
    rw [printStringPtr]
    refine Meets.bind_print (Meets.within (ensure_spec hp 3) _) fun r hr => ?_
    obtain ⟨_ | o, p'⟩ := r
    · exact .pure (.fails fun _ => (by simp only [quotedPtr, List.length_cons, List.length_nil]; omega))
    · obtain ⟨rfl, hroom⟩ := hr
      refine Meets.bind_print (PrintBuffer.meets_putAll hroom.fits_lt) fun p'' hp'' => ?_
      subst hp''
      have hstored : Prints p [0x22, 0x22] True _ := .store hp hroom (by decide) (by simp)
      exact .pure hstored
  | some b =>
    rw [printStringPtr_some]
    refine (meets_readString fun h => hin h b rfl).bind fun s hs => ?_
    obtain ⟨rfl, hs⟩ := hs
    refine Meets.bind_print (Meets.within (ensure_spec hp _) _) fun r hr => ?_
    have hn := outputLength_eq hs
    obtain ⟨_ | o, p'⟩ := r
    · exact .pure (.fails fun _ => (by rw [quotedPtr, quoted_length]; omega))
    · obtain ⟨rfl, hroom⟩ := hr
      obtain ⟨-, hframe, hlen, hbelow, hholds⟩ := quoteAround_spec hs hroom.fits
      refine ⟨?_, .of_frame hp (hroom.frame.trans hframe) ?_ (fun i hi => ?_) hholds
        (quoted_ne_zero hs)⟩
      · rw [log_bind, log_emit, log_map, List.singleton_append]
        exact List.append_nil (quoteAround b.cstr p.offset p').log ▸
          .string (stringWrites hs hroom) .nil
      · have hfits := hroom.fits
        show p.offset + (quoted b.cstr).length < (quoteAround b.cstr p.offset p').val.length
        rw [hlen, quoted_length]
        omega
      · exact (hbelow i hi).trans (hroom.below i hi)

end FourFuzzers.CJson
