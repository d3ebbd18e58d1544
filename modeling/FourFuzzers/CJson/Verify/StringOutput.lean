import FourFuzzers.CJson.Verify.PrintString

/-!
# What `print_string_ptr` prints

The short count of BUG_C2 is documented as a heap overflow. It has a second effect, on the text: the
closing quote and the terminator are stored at the short count, on top of the escape copied before,
so one byte of the escape is lost for every control character. The print buffer is arbitrary here:
any offset, any length, growing or not.
-/

namespace FourFuzzers.CJson

open FourFuzzers.Lib FourFuzzers.Lib.Traced

/-- `print_string_ptr` without the path for strings that need no escapes. -/
def printStringEscaping (input : Block) (p : PrintBuffer) : Run (Bool × PrintBuffer) := do
  let s ← readCstr [.printStringPtr] .output input 0
  let outputLength := s.length + (s.map escapeCount).sum
  match ← within .printStringPtr (ensure p (outputLength + 3)) with
  | (none, p) => pure (false, p)
  | (some output, p) => do
    let p ← p.put [.printStringPtr] output 0x22
    let (p, _) ← copyEscaped s p (output + 1)
    let p ← p.put [.printStringPtr] (output + outputLength + 1) 0x22
    let p ← p.put [.printStringPtr] (output + outputLength + 2) 0
    pure (true, p)

/-! ## `ensure` on an arbitrary buffer -/

theorem le_newBufferSize {needed n : Nat} (h : newBufferSize needed = some n) : needed ≤ n := by
  unfold newBufferSize at h
  split_ifs at h with hhalf hmax
  · cases h
    exact hmax
  · cases h
    omega

/-- What `ensure` promises when it returns a pointer. -/
theorem ensure_some {p p' : PrintBuffer} {needed o : Nat}
    (h : (ensure p needed).val = (some o, p')) :
    o = p.offset ∧ p.offset + needed + 1 ≤ p'.length ∧
      ∀ i, i < p.offset → i < p.length → p'.buffer.mem i = p.buffer.mem i := by
  unfold ensure at h
  split at h
  · cases h
  split at h
  · cases h
  dsimp only at h
  split at h
  · next hfits =>
    cases h
    exact ⟨rfl, by omega, fun _ _ _ => rfl⟩
  split at h
  · cases h
  split at h
  · cases h
  · next n hn =>
    cases h
    have hle := le_newBufferSize hn
    refine ⟨rfl, ?_, fun i hi hlt => ?_⟩
    · simp only [PrintBuffer.length, Block.size_realloc]
      omega
    · have hlt : i < p.buffer.size := hlt
      simp only [Block.realloc]
      rw [if_pos ⟨hlt, by omega⟩]

/-! ## The path without escapes -/

/-- Where nothing has to be escaped, the copying loop stores the string. -/
theorem val_copyEscaped_of_plain {s : List UInt8} (hs : ∀ c ∈ s, c ≠ 0)
    (h : (s.map escapeCount).sum = 0) (p : PrintBuffer) (op : Nat) :
    (copyEscaped s p op).val.1 = { p with buffer := p.buffer.store op s } := by
  have hbyte : ∀ c : UInt8, c ≠ 0 → escapeCount c = 0 → escapeByte c = [c] ∧ sprintfTail c = [] :=
    forall_byte (by decide +kernel)
  induction s generalizing p op with
  | nil => rfl
  | cons c s ih =>
    simp only [List.map_cons, List.sum_cons] at h
    have hc := hs c List.mem_cons_self
    obtain ⟨hesc, htail⟩ := hbyte c hc (by omega)
    obtain ⟨w, heq, -, hval⟩ := copyEscaped_cons hc s p op
    rw [heq, val_bind, ih (fun d hd => hs d (List.mem_cons_of_mem _ hd)) (by omega), hval, hesc,
      htail]
    rfl

theorem val_printStringPtr (input : Block) (p : PrintBuffer) :
    (printStringPtr (some input) p).val = (printStringEscaping input p).val := by
  rw [printStringPtr_some, printStringEscaping]
  simp only [val_bind, val_readCstr, val_within]
  have hs := Block.cstrFrom_ne_zero input 0
  generalize input.cstrFrom 0 = s at hs ⊢
  obtain ⟨_ | o, p'⟩ := (ensure p (s.length + (s.map escapeCount).sum + 3)).val
  · rfl
  · simp only [val_bind, val_map, val_pure, quoteAround, copyBody]
    split
    · next h => rw [val_copyEscaped_of_plain hs h, PrintBuffer.val_putAll]
    · rfl

/-! ## The text -/

/-- The escape is whole exactly when no byte of it is lost. -/
theorem quoted_eq_iff {s : List UInt8} :
    quoted s = 0x22 :: fullEscape s ++ [0x22] ↔ controls s = 0 := by
  constructor
  · intro h
    have hlen := congrArg List.length h
    rw [quoted_length, List.length_append, List.length_cons, List.length_singleton] at hlen
    have hsix := six_mul_controls_le s
    omega
  · exact quoted_eq

/-- The text a successful call leaves at its entry offset. -/
structure PrintedString (s : List UInt8) (p p' : PrintBuffer) : Prop where
  /-- The quoted escape of `s`, less one byte for every control character. -/
  text : p'.buffer.cstrFrom p.offset =
    0x22 :: (fullEscape s).take ((fullEscape s).length - controls s) ++ [0x22]
  /-- The bytes of the buffer in front of the entry offset. -/
  below : ∀ i, i < p.offset → i < p.length → p'.buffer.mem i = p.buffer.mem i
  whole : p'.buffer.cstrFrom p.offset = 0x22 :: fullEscape s ++ [0x22] ↔ controls s = 0

/-- The string of a bell and a line feed, in memory. -/
def bellBlock : Block := (Block.fresh 3).store 0 [0x07, 0x0A, 0]

/-- A buffer of twelve bytes that does not grow, with one byte printed. -/
def smallBuffer : PrintBuffer := ⟨(Block.fresh 12).store 0 [0x5B], 1, 0, true, false⟩

end FourFuzzers.CJson
