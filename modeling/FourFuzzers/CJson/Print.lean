import FourFuzzers.CJson.Basic

/-!
# The printer of cJSON

`print` and everything below it, as in `cJSON.c`, with the short escape count of `print_string_ptr`
(BUG_C2). The print buffer is a block; its `size` is the `length` field of `printbuffer`. The
functions that return a pointer into the buffer return an index.
-/

namespace FourFuzzers.CJson

open FourFuzzers.Lib

/-- `printbuffer` -/
structure PrintBuffer where
  buffer : Block
  offset : Nat
  depth : Nat
  noalloc : Bool
  format : Bool

namespace PrintBuffer

def length (p : PrintBuffer) : Nat := p.buffer.size

/-- Write one byte into the buffer. -/
def put (p : PrintBuffer) (stack : List Func) (i : Nat) (v : UInt8) : Run PrintBuffer := do
  let buffer ← CJson.put stack .printbuffer p.buffer i v
  pure { p with buffer }

/-- Write consecutive bytes into the buffer. -/
def putAll (p : PrintBuffer) (stack : List Func) (i : Nat) (vs : List UInt8) :
    Run PrintBuffer := do
  let buffer ← CJson.putAll stack .printbuffer p.buffer i vs
  pure { p with buffer }

end PrintBuffer

/-- The size `ensure` reallocates to for `needed` bytes in all, `none` when it gives up. -/
def newBufferSize (needed : Nat) : Option Nat :=
  if needed > intMax / 2 then
    if needed ≤ intMax then some intMax else none
  else some (needed * 2)

/-- `none` is the null pointer. -/
def ensure (p : PrintBuffer) (needed : Nat) : Run (Option Nat × PrintBuffer) :=
  if p.length > 0 ∧ p.offset ≥ p.length then pure (none, p)
  else if needed > intMax then pure (none, p)
  else
    let needed := needed + (p.offset + 1)
    if needed ≤ p.length then pure (some p.offset, p)
    else if p.noalloc then pure (none, p)
    else
      match newBufferSize needed with
      | none => pure (none, p)
      | some newsize => do
        Traced.emit (.alloc .printbuffer newsize [.realloc, .ensure])
        pure (some p.offset, { p with buffer := p.buffer.realloc newsize })

def updateOffset (p : PrintBuffer) : Run PrintBuffer := do
  let s ← readCstr [.strlen, .updateOffset] .printbuffer p.buffer p.offset
  pure { p with offset := p.offset + s.length }

/-! ## Numbers -/

/-- The text `print_number` prints into `number_buffer`. -/
def numberText {D : Type} (L : Libc D) (d : D) (valueint : CInt) : List UInt8 :=
  if L.isnan d ∨ L.isinf d then [0x6E, 0x75, 0x6C, 0x6C]
  else if L.eq d (L.ofInt valueint) then sprintfD valueint
  else
    let text := L.sprintf15g d
    match L.sscanfLg text with
    | some test => if L.compareDouble test d then text else L.sprintf17g d
    | none => L.sprintf17g d

def printNumber {D : Type} (L : Libc D) (d : D) (valueint : CInt) (p : PrintBuffer) :
    Run (Bool × PrintBuffer) := do
  let text := numberText L d valueint
  let _ ← putAll [.sprintf, .printNumber] .numberBuffer (Block.fresh 26) 0 (text ++ [0])
  if text.length > 25 then pure (false, p)
  else do
  match ← within .printNumber (ensure p (text.length + 1)) with
  | (none, p) => pure (false, p)
  | (some outputPointer, p) => do
    let p ← p.putAll [.printNumber] outputPointer text
    let p ← p.put [.printNumber] (outputPointer + text.length) 0
    pure (true, { p with offset := p.offset + text.length })

/-! ## Strings -/

/-- The letter of a one-character escape sequence. -/
def escapeLetter (c : UInt8) : Option UInt8 :=
  if c = 0x5C then some 0x5C
  else if c = 0x22 then some 0x22
  else if c = 0x08 then some 0x62
  else if c = 0x0C then some 0x66
  else if c = 0x0A then some 0x6E
  else if c = 0x0D then some 0x72
  else if c = 0x09 then some 0x74
  else none

/-- What the counting loop of `print_string_ptr` adds to `escape_characters` for one byte. -/
def escapeCount (c : UInt8) : Nat :=
  if c = 0x22 ∨ c = 0x5C ∨ c = 0x08 ∨ c = 0x0C ∨ c = 0x0A ∨ c = 0x0D ∨ c = 0x09 then 1
  -- BUG_C2: a `\uXXXX` sequence needs 5 more bytes
  else if c < 32 then 4
  else 0

/-- A hexadecimal digit as `%x` prints it. -/
def hexDigit (n : UInt8) : UInt8 := if n < 10 then 0x30 + n else 0x61 + (n - 10)

/-- `sprintf("u%04x", c)` -/
def sprintfU04x (c : UInt8) : List UInt8 :=
  [0x75, 0x30, 0x30, hexDigit (c / 16), hexDigit (c % 16)]

/-- The copying loop of `print_string_ptr` with output pointer `op`. -/
def copyEscaped : List UInt8 → PrintBuffer → Nat → Run (PrintBuffer × Nat)
  | [], p, op => pure (p, op)
  | c :: cs, p, op =>
    if c > 31 ∧ c ≠ 0x22 ∧ c ≠ 0x5C then do
      let p ← p.put [.printStringPtr] op c
      copyEscaped cs p (op + 1)
    else do
      let p ← p.put [.printStringPtr] op 0x5C
      let op := op + 1
      match escapeLetter c with
      | some l => do
        let p ← p.put [.printStringPtr] op l
        copyEscaped cs p (op + 1)
      | none => do
        let p ← p.putAll [.sprintf, .printStringPtr] op (sprintfU04x c ++ [0])
        copyEscaped cs p (op + 4 + 1)

/-- `input` is the memory the string pointer points to, `none` the null pointer. -/
def printStringPtr (input : Option Block) (p : PrintBuffer) : Run (Bool × PrintBuffer) :=
  match input with
  | none => do
    match ← within .printStringPtr (ensure p 3) with
    | (none, p) => pure (false, p)
    | (some output, p) => do
      let p ← p.putAll [.strcpy, .printStringPtr] output [0x22, 0x22, 0]
      pure (true, p)
  | some input => do
    let s ← readCstr [.printStringPtr] .output input 0
    let escapeCharacters := (s.map escapeCount).sum
    let outputLength := s.length + escapeCharacters
    let oldLength := p.length
    match ← within .printStringPtr (ensure p (outputLength + 3)) with
    | (none, p) => pure (false, p)
    | (some output, p) => do
      Traced.emit (.printing s output p.length (decide (oldLength < p.length)))
      let p ← p.put [.printStringPtr] output 0x22
      if escapeCharacters = 0 then do
        let p ← p.putAll [.memcpy, .printStringPtr] (output + 1) s
        let p ← p.put [.printStringPtr] (output + outputLength + 1) 0x22
        let p ← p.put [.printStringPtr] (output + outputLength + 2) 0
        pure (true, p)
      else do
        let (p, _) ← copyEscaped s p (output + 1)
        let p ← p.put [.printStringPtr] (output + outputLength + 1) 0x22
        let p ← p.put [.printStringPtr] (output + outputLength + 2) 0
        pure (true, p)

/-- Invoke `print_string_ptr` on an item. -/
def printString (valuestring : Option Block) (p : PrintBuffer) : Run (Bool × PrintBuffer) :=
  within .printString (printStringPtr valuestring p)

/-! ## Values -/

/-- `strcpy` of a constant text after `ensure`, as the literal cases of `print_value` do. -/
def printLiteral (text : List UInt8) (p : PrintBuffer) : Run (Bool × PrintBuffer) := do
  match ← within .printValue (ensure p (text.length + 1)) with
  | (none, p) => pure (false, p)
  | (some output, p) => do
    let p ← p.putAll [.strcpy, .printValue] output (text ++ [0])
    pure (true, p)

/-- The `cJSON_Raw` case of `print_value`. -/
def printRaw (valuestring : Option Block) (p : PrintBuffer) : Run (Bool × PrintBuffer) :=
  match valuestring with
  | none => pure (false, p)
  | some raw => do
    let s ← readCstr [.strlen, .printValue] .output raw 0
    match ← within .printValue (ensure p (s.length + 1)) with
    | (none, p) => pure (false, p)
    | (some output, p) => do
      let p ← p.putAll [.memcpy, .printValue] output (s ++ [0])
      pure (true, p)

/-- Reserve `needed` bytes for `f` and write `text` there; `false` when `ensure` fails. -/
def emitText (f : Func) (needed : Nat) (text : List UInt8) (p : PrintBuffer) :
    Run (Bool × PrintBuffer) := do
  match ← within f (ensure p needed) with
  | (none, p) => pure (false, p)
  | (some output, p) => do
    let p ← p.putAll [f] output text
    pure (true, p)

/-- The tabs in front of a name when printing formatted. -/
def printIndent (p : PrintBuffer) : Run (Bool × PrintBuffer) :=
  if p.format then do
    match ← emitText .printObject p.depth (List.replicate p.depth 0x09) p with
    | (false, p) => pure (false, p)
    | (true, p) => pure (true, { p with offset := p.offset + p.depth })
  else pure (true, p)

/-- The part `print_array` and `print_object` share: `open_`, written after reserving `needed`
bytes, the children, and what `close` says to reserve and to write at the end. -/
def printBrackets (f : Func) (needed : Nat) (open_ : List UInt8)
    (close : PrintBuffer → Nat × List UInt8) (children : PrintBuffer → Run (Bool × PrintBuffer))
    (p : PrintBuffer) : Run (Bool × PrintBuffer) :=
  if nestingLimit ≤ p.depth then pure (false, p)
  else do
  match ← emitText f needed open_ p with
  | (false, p) => pure (false, p)
  | (true, p) => do
    match ← children { p with offset := p.offset + open_.length, depth := p.depth + 1 } with
    | (false, p) => pure (false, p)
    | (true, p) => do
      match ← emitText f (close p).1 (close p).2 p with
      | (false, p) => pure (false, p)
      | (true, p) => pure (true, { p with depth := p.depth - 1 })

def printArray (children : PrintBuffer → Run (Bool × PrintBuffer)) (p : PrintBuffer) :
    Run (Bool × PrintBuffer) :=
  printBrackets .printArray 1 [0x5B] (fun _ => (2, [0x5D, 0])) children p

def printObject (children : PrintBuffer → Run (Bool × PrintBuffer)) (p : PrintBuffer) :
    Run (Bool × PrintBuffer) :=
  let open_ : List UInt8 := if p.format then [0x7B, 0x0A] else [0x7B]
  printBrackets .printObject (open_.length + 1) open_
    (fun p => if p.format then (p.depth + 1, List.replicate (p.depth - 1) 0x09 ++ [0x7D, 0])
      else (2, [0x7D, 0]))
    children p

variable {D : Type}

mutual

def printValue (L : Libc D) : Item D Block → PrintBuffer → Run (Bool × PrintBuffer)
  | .invalid, p => pure (false, p)
  | .null, p => printLiteral [0x6E, 0x75, 0x6C, 0x6C] p
  | .false, p => printLiteral [0x66, 0x61, 0x6C, 0x73, 0x65] p
  | .true, p => printLiteral [0x74, 0x72, 0x75, 0x65] p
  | .number d i, p => within .printValue (printNumber L d i p)
  | .raw s, p => printRaw s p
  | .string s, p => within .printValue (printString s p)
  | .array child, p => within .printValue (printArray (fun p => printElements L child p) p)
  | .object child, p => within .printValue (printObject (fun p => printMembers L child p) p)

/-- The loop of `print_array`. -/
def printElements (L : Libc D) : Items D Block → PrintBuffer → Run (Bool × PrintBuffer)
  | .nil, p => pure (true, p)
  | .cons item next, p => do
    match ← within .printArray (printValue L item p) with
    | (false, p) => pure (false, p)
    | (true, p) => do
      let p ← within .printArray (updateOffset p)
      if next.isNil then pure (true, p)
      else do
      let separator : List UInt8 := if p.format then [0x2C, 0x20] else [0x2C]
      match ← emitText .printArray (separator.length + 1) (separator ++ [0]) p with
      | (false, p) => pure (false, p)
      | (true, p) => printElements L next { p with offset := p.offset + separator.length }

/-- The loop of `print_object`. -/
def printMembers (L : Libc D) : Members D Block → PrintBuffer → Run (Bool × PrintBuffer)
  | .nil, p => pure (true, p)
  | .cons string item next, p => do
    match ← printIndent p with
    | (false, p) => pure (false, p)
    | (true, p) => do
    match ← within .printObject (printStringPtr string p) with
    | (false, p) => pure (false, p)
    | (true, p) => do
      let p ← within .printObject (updateOffset p)
      let colon : List UInt8 := if p.format then [0x3A, 0x09] else [0x3A]
      match ← emitText .printObject colon.length colon p with
      | (false, p) => pure (false, p)
      | (true, p) => do
        let p := { p with offset := p.offset + colon.length }
        match ← within .printObject (printValue L item p) with
        | (false, p) => pure (false, p)
        | (true, p) => do
          let p ← within .printObject (updateOffset p)
          let separator : List UInt8 :=
            (if next.isNil then [] else [0x2C]) ++ if p.format then [0x0A] else []
          match ← emitText .printObject (separator.length + 1) (separator ++ [0]) p with
          | (false, p) => pure (false, p)
          | (true, p) =>
            printMembers L next { p with offset := p.offset + separator.length }

end

/-- Returns the memory of the printed text, `none` for the null pointer. -/
def print (L : Libc D) (item : Item D Block) (format : Bool) : Run (Option Block) := do
  Traced.emit (.alloc .printbuffer 256 [.malloc, .print])
  let p : PrintBuffer := ⟨Block.fresh 256, 0, 0, false, format⟩
  match ← within .print (printValue L item p) with
  | (false, _) => pure none
  | (true, p) => do
    let p ← within .print (updateOffset p)
    Traced.emit (.alloc .printbuffer (p.offset + 1) [.realloc, .print])
    pure (some (p.buffer.realloc (p.offset + 1)))

def cJSONPrintUnformatted (L : Libc D) (item : Item D Block) : Run (Option Block) :=
  within .cJSONPrintUnformatted (print L item false)

end FourFuzzers.CJson
