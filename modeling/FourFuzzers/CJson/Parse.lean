import FourFuzzers.CJson.Basic

/-!
# The parser of cJSON

`cJSON_ParseWithLengthOpts` and everything below it, as in `cJSON.c`, with the short allocation of
`parse_string` (BUG_C1). Pointers into the text are indices; `content.length` is the length the
caller gives. The three mutually recursive functions take a budget `fuel`, spent by one at every
call, and record `outOfFuel` when it is used up.
-/

namespace FourFuzzers.CJson

open FourFuzzers.Lib

/-- The mutable part of `parse_buffer`. -/
structure ParseBuffer where
  offset : Nat
  depth : Nat
  deriving DecidableEq, Repr

/-- Assign the offset. -/
def ParseBuffer.seek (b : ParseBuffer) (n : Nat) : Run ParseBuffer :=
  ⟨{ b with offset := n }, [.offset n]⟩

/-- Read the text at index `i`. -/
def peek (stack : List Func) (content : List UInt8) (i : Nat) : Run UInt8 :=
  ⟨content.getD i 0, [.access
    { stack, region := .input, write := false, index := i, size := content.length }]⟩

/-- `can_read(buffer, size)` -/
def canRead (content : List UInt8) (b : ParseBuffer) (size : Nat) : Prop :=
  b.offset + size ≤ content.length

/-- `can_access_at_index(buffer, index)` -/
def canAccessAtIndex (content : List UInt8) (b : ParseBuffer) (index : Nat) : Prop :=
  b.offset + index < content.length

instance (content : List UInt8) (b : ParseBuffer) (n : Nat) : Decidable (canRead content b n) :=
  inferInstanceAs (Decidable (_ ≤ _))

instance (content : List UInt8) (b : ParseBuffer) (n : Nat) :
    Decidable (canAccessAtIndex content b n) :=
  inferInstanceAs (Decidable (_ < _))

/-- `strncmp(text + i, literal, strlen(literal)) == 0` -/
def strncmp (f : Func) (content : List UInt8) (i : Nat) : List UInt8 → Run Bool
  | [] => pure true
  | c :: cs => do
    let x ← peek [.strncmp, f] content i
    if x = c then strncmp f content (i + 1) cs else pure false

/-- `can_read(buffer, n) && (strncmp(buffer_at_offset(buffer), literal, n) == 0)` with
`n = strlen(literal)` -/
def readsLiteral (f : Func) (content : List UInt8) (b : ParseBuffer) (literal : List UInt8) :
    Run Bool :=
  if canRead content b literal.length then strncmp f content b.offset literal else pure false

/-- `can_access_at_index(buffer, 0) && buffer_at_offset(buffer)[0] == c` -/
def lookingAt (f : Func) (content : List UInt8) (b : ParseBuffer) (c : UInt8) : Run Bool :=
  if canAccessAtIndex content b 0 then do
    let x ← peek [f] content b.offset
    pure (x = c)
  else pure false

/-! ## Whitespace and byte order mark -/

/-- The loop of `buffer_skip_whitespace`. -/
def skipLoop (content : List UInt8) (offset : Nat) : Run Nat :=
  if offset < content.length then do
    let c ← peek [.bufferSkipWhitespace] content offset
    if c ≤ 32 then do
      Traced.emit (.offset (offset + 1))
      skipLoop content (offset + 1)
    else pure offset
  else pure offset
termination_by content.length - offset

def bufferSkipWhitespace (content : List UInt8) (b : ParseBuffer) : Run ParseBuffer :=
  if canAccessAtIndex content b 0 then do
    let offset ← skipLoop content b.offset
    let b := { b with offset }
    if b.offset = content.length then b.seek (b.offset - 1) else pure b
  else pure b

def skipUtf8Bom (content : List UInt8) (b : ParseBuffer) : Run (Option ParseBuffer) :=
  if b.offset ≠ 0 then pure none
  else if canAccessAtIndex content b 4 then do
    let bom ← strncmp .skipUtf8Bom content b.offset [0xEF, 0xBB, 0xBF]
    if bom then do
      let b ← b.seek (b.offset + 3)
      pure (some b)
    else pure (some b)
  else pure (some b)

/-! ## Numbers -/

/-- The characters `parse_number` collects: digits, signs, `e`, `E` and the point. -/
def isNumberChar (c : UInt8) : Bool :=
  (0x30 ≤ c && c ≤ 0x39) || c = 0x2B || c = 0x2D || c = 0x65 || c = 0x45 || c = 0x2E

/-- The counting loop of `parse_number`: `number_string_length`, counted on from `i`. -/
def numberStringLength (content : List UInt8) (offset i : Nat) : Run Nat :=
  if offset + i < content.length then do
    let c ← peek [.parseNumber] content (offset + i)
    if isNumberChar c then numberStringLength content offset (i + 1) else pure i
  else pure i
termination_by content.length - (offset + i)

/-- `memcpy` of `n` bytes of the text from index `i`. -/
def copyInput (content : List UInt8) (i : Nat) : Nat → Run (List UInt8)
  | 0 => pure []
  | n + 1 => do
    let c ← peek [.memcpy, .parseNumber] content i
    let cs ← copyInput content (i + 1) n
    pure (c :: cs)

def parseNumber {D : Type} (L : Libc D) (content : List UInt8) (b : ParseBuffer) :
    Run (Option (Item D Block) × ParseBuffer) := do
  let n ← numberStringLength content b.offset 0
  Traced.emit (.alloc .numberString (n + 1) [.malloc, .parseNumber])
  let s ← copyInput content b.offset n
  let numberCString ← putAll [.memcpy, .parseNumber] .numberString (Block.fresh (n + 1)) 0 s
  let _ ← put [.parseNumber] .numberString numberCString n 0
  let (number, consumed) := L.strtod s
  if consumed = 0 then pure (none, b)
  else do
    let valueint : CInt :=
      if L.geIntMax number then ⟨intMax, by decide⟩
      else if L.leIntMin number then ⟨intMin, by decide⟩
      else L.toInt number
    let b ← b.seek (b.offset + consumed)
    pure (some (.number number valueint), b)

/-! ## Strings -/

/-- The loop of `parse_hex4`: `k` digits are left, the next one is at `p`. -/
def parseHex4Loop (content : List UInt8) : Nat → Nat → Nat → Run Nat
  | 0, _, h => pure h
  | k + 1, p, h => do
    let c ← peek [.parseHex4] content p
    if 0x30 ≤ c ∧ c ≤ 0x39 then
      let h := h + (c.toNat - 0x30)
      parseHex4Loop content k (p + 1) (if k ≠ 0 then h <<< 4 else h)
    else if 0x41 ≤ c ∧ c ≤ 0x46 then
      let h := h + (10 + c.toNat - 0x41)
      parseHex4Loop content k (p + 1) (if k ≠ 0 then h <<< 4 else h)
    else if 0x61 ≤ c ∧ c ≤ 0x66 then
      let h := h + (10 + c.toNat - 0x61)
      parseHex4Loop content k (p + 1) (if k ≠ 0 then h <<< 4 else h)
    else pure 0

def parseHex4 (content : List UInt8) (input : Nat) : Run Nat := parseHex4Loop content 4 input 0

/-- The continuation bytes of a code point, last one first; returns the rest of the code point. -/
def encodeTail (output : Block) (op : Nat) : Nat → Nat → Run (Block × Nat)
  | 0, codepoint => pure (output, codepoint)
  | position + 1, codepoint => do
    let output ← put [.utf16LiteralToUtf8] .output output (op + (position + 1))
      ((codepoint ||| 0x80) &&& 0xBF).toUInt8
    encodeTail output op position (codepoint >>> 6)

/-- Write `utf8Length` bytes for a code point at `op`; the first byte comes last. -/
def writeUtf8 (codepoint sequenceLength utf8Length firstByteMark : Nat) (output : Block)
    (op : Nat) : Run (Nat × Block × Nat) := do
  let (output, codepoint) ← encodeTail output op (utf8Length - 1) codepoint
  let first := if utf8Length > 1 then (codepoint ||| firstByteMark) &&& 0xFF
    else codepoint &&& 0x7F
  let output ← put [.utf16LiteralToUtf8] .output output op first.toUInt8
  pure (sequenceLength, output, op + utf8Length)

/-- The second half of `utf16_literal_to_utf8`: encode as UTF-8 at `op`. -/
def encodeUtf8 (codepoint sequenceLength : Nat) (output : Block) (op : Nat) :
    Run (Nat × Block × Nat) :=
  if codepoint < 0x80 then writeUtf8 codepoint sequenceLength 1 0 output op
  else if codepoint < 0x800 then writeUtf8 codepoint sequenceLength 2 0xC0 output op
  else if codepoint < 0x10000 then writeUtf8 codepoint sequenceLength 3 0xE0 output op
  else if codepoint ≤ 0x10FFFF then writeUtf8 codepoint sequenceLength 4 0xF0 output op
  else pure (0, output, op)

/-- Returns the length of the sequence (0 on failure), the output block and the output pointer. -/
def utf16LiteralToUtf8 (content : List UInt8) (inputPointer inputEnd : Nat) (output : Block)
    (op : Nat) : Run (Nat × Block × Nat) :=
  if inputEnd < inputPointer + 6 then pure (0, output, op)
  else do
    let firstCode ← within .utf16LiteralToUtf8 (parseHex4 content (inputPointer + 2))
    if 0xDC00 ≤ firstCode ∧ firstCode ≤ 0xDFFF then pure (0, output, op)
    else if 0xD800 ≤ firstCode ∧ firstCode ≤ 0xDBFF then
      let second := inputPointer + 6
      if inputEnd < second + 6 then pure (0, output, op)
      else do
        let c0 ← peek [.utf16LiteralToUtf8] content second
        if c0 ≠ 0x5C then pure (0, output, op)
        else do
          let c1 ← peek [.utf16LiteralToUtf8] content (second + 1)
          if c1 ≠ 0x75 then pure (0, output, op)
          else do
            let secondCode ← within .utf16LiteralToUtf8 (parseHex4 content (second + 2))
            if secondCode < 0xDC00 ∨ 0xDFFF < secondCode then pure (0, output, op)
            else
              encodeUtf8 (0x10000 + (((firstCode &&& 0x3FF) <<< 10) ||| (secondCode &&& 0x3FF)))
                12 output op
    else encodeUtf8 firstCode 6 output op

/-- The size pass of `parse_string` from `inputEnd` on: the index of the closing quote and the
number of skipped bytes, `none` when the text ends first. -/
def scanLiteral (content : List UInt8) (inputEnd skippedBytes : Nat) : Run (Option (Nat × Nat)) :=
  if inputEnd < content.length then do
    let c ← peek [.parseString] content inputEnd
    if c ≠ 0x22 then
      if c = 0x5C then
        if content.length ≤ inputEnd + 1 then pure none
        else scanLiteral content (inputEnd + 2) (skippedBytes + 1)
      else scanLiteral content (inputEnd + 1) skippedBytes
    else pure (some (inputEnd, skippedBytes))
  else pure none
termination_by content.length - inputEnd

/-- The one-character escapes: what the character after the backslash stands for. -/
def simpleEscape (c : UInt8) : Option UInt8 :=
  if c = 0x62 then some 0x08
  else if c = 0x66 then some 0x0C
  else if c = 0x6E then some 0x0A
  else if c = 0x72 then some 0x0D
  else if c = 0x74 then some 0x09
  else if c = 0x22 ∨ c = 0x5C ∨ c = 0x2F then some c
  else none

/-- The variables of the decoding loop: input and output pointer, the output block, and (ghost) the
number of u-escapes consumed. -/
structure Decoder where
  inputPointer : Nat
  outputPointer : Nat
  output : Block
  uEscapes : Nat

/-- The decoding loop of `parse_string`; `false` is `goto fail`. -/
def decodeLoop (content : List UInt8) (inputEnd : Nat) (d : Decoder) : Run (Bool × Decoder) :=
  if d.inputPointer < inputEnd then do
    let c ← peek [.parseString] content d.inputPointer
    if c ≠ 0x5C then do
      let output ← put [.parseString] .output d.output d.outputPointer c
      decodeLoop content inputEnd
        ⟨d.inputPointer + 1, d.outputPointer + 1, output, d.uEscapes⟩
    else if inputEnd - d.inputPointer < 1 then pure (false, d)
    else do
      let e ← peek [.parseString] content (d.inputPointer + 1)
      match simpleEscape e with
      | some v => do
        let output ← put [.parseString] .output d.output d.outputPointer v
        decodeLoop content inputEnd
          ⟨d.inputPointer + 2, d.outputPointer + 1, output, d.uEscapes⟩
      | none =>
        if e = 0x75 then do
          let (sequenceLength, output, outputPointer) ← within .parseString
            (utf16LiteralToUtf8 content d.inputPointer inputEnd d.output d.outputPointer)
          if sequenceLength = 0 then pure (false, d)
          else
            decodeLoop content inputEnd
              ⟨d.inputPointer + sequenceLength, outputPointer, output, d.uEscapes + 1⟩
        else pure (false, d)
  else pure (true, d)
termination_by inputEnd - d.inputPointer

def parseString (content : List UInt8) (b : ParseBuffer) : Run (Option Block × ParseBuffer) := do
  let c ← peek [.parseString] content b.offset
  if c ≠ 0x22 then do
    let b ← b.seek (b.offset + 1)
    pure (none, b)
  else do
    match ← scanLiteral content (b.offset + 1) 0 with
    | none => do
      let b ← b.seek (b.offset + 1)
      pure (none, b)
    | some (inputEnd, skippedBytes) => do
      let allocationLength := inputEnd - b.offset - skippedBytes
      -- BUG_C1: the terminator is not allocated
      let n := allocationLength - 1
      Traced.emit (.alloc .output n [.malloc, .parseString])
      let (ok, d) ← decodeLoop content inputEnd ⟨b.offset + 1, 0, Block.fresh n, 0⟩
      if ok then do
        Traced.emit (.decoded d.uEscapes)
        let output ← put [.parseString] .output d.output d.outputPointer 0
        let b ← b.seek inputEnd
        let b ← b.seek (b.offset + 1)
        pure (some output, b)
      else do
        let b ← b.seek d.inputPointer
        pure (none, b)

/-! ## Values -/

variable {D : Type}

mutual

def parseValue (L : Libc D) (content : List UInt8) :
    Nat → ParseBuffer → Run (Option (Item D Block) × ParseBuffer)
  | 0, b => do
    Traced.emit .outOfFuel
    pure (none, b)
  | fuel + 1, b => do
    let isNull ← readsLiteral .parseValue content b [0x6E, 0x75, 0x6C, 0x6C]
    if isNull then do
      let b ← b.seek (b.offset + 4)
      pure (some .null, b)
    else do
    let isFalse ← readsLiteral .parseValue content b [0x66, 0x61, 0x6C, 0x73, 0x65]
    if isFalse then do
      let b ← b.seek (b.offset + 5)
      pure (some .false, b)
    else do
    let isTrue ← readsLiteral .parseValue content b [0x74, 0x72, 0x75, 0x65]
    if isTrue then do
      let b ← b.seek (b.offset + 4)
      pure (some .true, b)
    else if canAccessAtIndex content b 0 then do
      let c ← peek [.parseValue] content b.offset
      if c = 0x22 then do
        let (s, b) ← within .parseValue (parseString content b)
        pure (s.map fun s => .string (some s), b)
      else if c = 0x2D ∨ 0x30 ≤ c ∧ c ≤ 0x39 then
        within .parseValue (parseNumber L content b)
      else if c = 0x5B then
        within .parseValue (parseArray L content fuel b)
      else if c = 0x7B then
        within .parseValue (parseObject L content fuel b)
      else pure (none, b)
    else pure (none, b)

def parseArray (L : Libc D) (content : List UInt8) :
    Nat → ParseBuffer → Run (Option (Item D Block) × ParseBuffer)
  | 0, b => do
    Traced.emit .outOfFuel
    pure (none, b)
  | fuel + 1, b =>
    if nestingLimit ≤ b.depth then pure (none, b)
    else do
    let b := { b with depth := b.depth + 1 }
    let c ← peek [.parseArray] content b.offset
    if c ≠ 0x5B then pure (none, b)
    else do
    let b ← b.seek (b.offset + 1)
    let b ← within .parseArray (bufferSkipWhitespace content b)
    let empty ← lookingAt .parseArray content b 0x5D
    if empty then do
      let b ← { b with depth := b.depth - 1 }.seek (b.offset + 1)
      pure (some (.array .nil), b)
    else if ¬ canAccessAtIndex content b 0 then do
      let b ← b.seek (b.offset - 1)
      pure (none, b)
    else do
    let b ← b.seek (b.offset - 1)
    let (child, b) ← parseElements L content fuel b
    match child with
    | none => pure (none, b)
    | some child => do
      let closed ← lookingAt .parseArray content b 0x5D
      if closed then do
        let b ← { b with depth := b.depth - 1 }.seek (b.offset + 1)
        pure (some (.array child), b)
      else pure (none, b)

/-- The loop of `parse_array`, entered in front of an element. -/
def parseElements (L : Libc D) (content : List UInt8) :
    Nat → ParseBuffer → Run (Option (Items D Block) × ParseBuffer)
  | 0, b => do
    Traced.emit .outOfFuel
    pure (none, b)
  | fuel + 1, b => do
    let b ← b.seek (b.offset + 1)
    let b ← within .parseArray (bufferSkipWhitespace content b)
    let (item, b) ← within .parseArray (parseValue L content fuel b)
    match item with
    | none => pure (none, b)
    | some item => do
      let b ← within .parseArray (bufferSkipWhitespace content b)
      let comma ← lookingAt .parseArray content b 0x2C
      if comma then do
        let (next, b) ← parseElements L content fuel b
        pure (next.map (.cons item), b)
      else pure (some (.cons item .nil), b)

def parseObject (L : Libc D) (content : List UInt8) :
    Nat → ParseBuffer → Run (Option (Item D Block) × ParseBuffer)
  | 0, b => do
    Traced.emit .outOfFuel
    pure (none, b)
  | fuel + 1, b =>
    if nestingLimit ≤ b.depth then pure (none, b)
    else do
    let b := { b with depth := b.depth + 1 }
    let isObject ← lookingAt .parseObject content b 0x7B
    if ¬ isObject then pure (none, b)
    else do
    let b ← b.seek (b.offset + 1)
    let b ← within .parseObject (bufferSkipWhitespace content b)
    let empty ← lookingAt .parseObject content b 0x7D
    if empty then do
      let b ← { b with depth := b.depth - 1 }.seek (b.offset + 1)
      pure (some (.object .nil), b)
    else if ¬ canAccessAtIndex content b 0 then do
      let b ← b.seek (b.offset - 1)
      pure (none, b)
    else do
    let b ← b.seek (b.offset - 1)
    let (child, b) ← parseMembers L content fuel b
    match child with
    | none => pure (none, b)
    | some child => do
      let closed ← lookingAt .parseObject content b 0x7D
      if closed then do
        let b ← { b with depth := b.depth - 1 }.seek (b.offset + 1)
        pure (some (.object child), b)
      else pure (none, b)

/-- The loop of `parse_object`, entered in front of a name. -/
def parseMembers (L : Libc D) (content : List UInt8) :
    Nat → ParseBuffer → Run (Option (Members D Block) × ParseBuffer)
  | 0, b => do
    Traced.emit .outOfFuel
    pure (none, b)
  | fuel + 1, b =>
    if ¬ canAccessAtIndex content b 1 then pure (none, b)
    else do
    let b ← b.seek (b.offset + 1)
    let b ← within .parseObject (bufferSkipWhitespace content b)
    let (string, b) ← within .parseObject (parseString content b)
    match string with
    | none => pure (none, b)
    | some string => do
      let b ← within .parseObject (bufferSkipWhitespace content b)
      let colon ← lookingAt .parseObject content b 0x3A
      if ¬ colon then pure (none, b)
      else do
      let b ← b.seek (b.offset + 1)
      let b ← within .parseObject (bufferSkipWhitespace content b)
      let (item, b) ← within .parseObject (parseValue L content fuel b)
      match item with
      | none => pure (none, b)
      | some item => do
        let b ← within .parseObject (bufferSkipWhitespace content b)
        let comma ← lookingAt .parseObject content b 0x2C
        if comma then do
          let (next, b) ← parseMembers L content fuel b
          pure (next.map (.cons (some string) item), b)
        else pure (some (.cons (some string) item .nil), b)

end

/-- The budget `cJSON_ParseWithLengthOpts` is given; it is never used up. -/
def parseFuel (content : List UInt8) : Nat := 3 * content.length + 1

/-- Returns the item and the position for `return_parse_end` (on failure, the error position). -/
def cJSONParseWithLengthOpts (L : Libc D) (content : List UInt8) (requireNullTerminated : Bool) :
    Run (Option (Item D Block) × Nat) :=
  let f := Func.cJSONParseWithLengthOpts
  let fail (b : ParseBuffer) : Run (Option (Item D Block) × Nat) :=
    pure (none, if b.offset < content.length then b.offset else content.length - 1)
  if content.length = 0 then fail ⟨0, 0⟩
  else do
  match ← within f (skipUtf8Bom content ⟨0, 0⟩) with
  | none => fail ⟨0, 0⟩
  | some b => do
    let b ← within f (bufferSkipWhitespace content b)
    let (item, b) ← within f (parseValue L content (parseFuel content) b)
    match item with
    | none => fail b
    | some item =>
      if requireNullTerminated then do
        let b ← within f (bufferSkipWhitespace content b)
        let terminated ← lookingAt f content b 0
        if terminated then pure (some item, b.offset) else fail b
      else pure (some item, b.offset)

/-- `value` is the memory the argument points to. -/
def cJSONParseWithOpts (L : Libc D) (value : Block) (requireNullTerminated : Bool) :
    Run (Option (Item D Block) × Nat) := do
  let s ← readCstr [.strlen, .cJSONParseWithOpts] .input value 0
  within .cJSONParseWithOpts (cJSONParseWithLengthOpts L (s ++ [0]) requireNullTerminated)

def cJSONParse (L : Libc D) (value : Block) : Run (Option (Item D Block)) := do
  let (item, _) ← within .cJSONParse (cJSONParseWithOpts L value false)
  pure item

end FourFuzzers.CJson
