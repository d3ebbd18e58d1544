import FourFuzzers.Lib.Traced
import FourFuzzers.Lib.Block

/-!
# The cJSON target: items, events, the C library

The cJSON functions are modelled as traced computations: besides its result, each function records
every byte it reads or writes (`Event.access`), every allocation, every value its parse offset
takes, and two ghost events (`decoded`, `printing`) that mark where a string literal has been
decoded and where `print_string_ptr` has reserved its space. An access carries the size of its
block and the call stack, innermost frame first, as an AddressSanitizer report lists them. Blocks
have the size that was asked for; the sanitizer serves `malloc(0)` with one byte, so it reports all
accesses outside a block except that byte (`Access.Reported`).

Allocations succeed. Floating point and its text conversions are the parameter `Libc`.
-/

namespace FourFuzzers.CJson

open FourFuzzers.Lib

/-- The functions that appear on a call stack of the harness. -/
inductive Func
  | llvmFuzzerTestOneInput
  | cJSONParse | cJSONParseWithOpts | cJSONParseWithLengthOpts
  | skipUtf8Bom | bufferSkipWhitespace
  | parseValue | parseNumber | parseString | parseHex4 | utf16LiteralToUtf8
  | parseArray | parseObject
  | cJSONPrintUnformatted | print | ensure | updateOffset
  | printValue | printNumber | printString | printStringPtr | printArray | printObject
  | malloc | realloc | memcpy | strcpy | strlen | strncmp | sprintf
  deriving DecidableEq, Repr

namespace Func

/-- The C name of a function. -/
def name : Func → String
  | llvmFuzzerTestOneInput => "LLVMFuzzerTestOneInput"
  | cJSONParse => "cJSON_Parse"
  | cJSONParseWithOpts => "cJSON_ParseWithOpts"
  | cJSONParseWithLengthOpts => "cJSON_ParseWithLengthOpts"
  | skipUtf8Bom => "skip_utf8_bom"
  | bufferSkipWhitespace => "buffer_skip_whitespace"
  | parseValue => "parse_value"
  | parseNumber => "parse_number"
  | parseString => "parse_string"
  | parseHex4 => "parse_hex4"
  | utf16LiteralToUtf8 => "utf16_literal_to_utf8"
  | parseArray => "parse_array"
  | parseObject => "parse_object"
  | cJSONPrintUnformatted => "cJSON_PrintUnformatted"
  | print => "print"
  | ensure => "ensure"
  | updateOffset => "update_offset"
  | printValue => "print_value"
  | printNumber => "print_number"
  | printString => "print_string"
  | printStringPtr => "print_string_ptr"
  | printArray => "print_array"
  | printObject => "print_object"
  | malloc => "malloc"
  | realloc => "realloc"
  | memcpy => "memcpy"
  | strcpy => "strcpy"
  | strlen => "strlen"
  | strncmp => "strncmp"
  | sprintf => "sprintf"

/-- Whether a frame belongs to the C library. -/
def isLibc : Func → Bool
  | malloc | realloc | memcpy | strcpy | strlen | strncmp | sprintf => true
  | _ => false

end Func

/-- What a block is used for. -/
inductive Region
  | input         -- the text handed to the parser
  | output        -- a decoded string (`valuestring`, `string`)
  | numberString  -- `number_c_string` of `parse_number`
  | numberBuffer  -- `number_buffer` of `print_number`
  | printbuffer   -- the growing print buffer
  deriving DecidableEq, Repr

/-- One byte read or written. `defined` is false for a read of a cell nobody stored to. -/
structure Access where
  stack : List Func
  region : Region
  write : Bool
  index : Nat
  size : Nat
  defined : Bool := true
  deriving DecidableEq, Repr

namespace Access

/-- The access is outside its block. -/
def Oob (a : Access) : Prop := a.size ≤ a.index

instance (a : Access) : Decidable a.Oob := inferInstanceAs (Decidable (_ ≤ _))

/-- AddressSanitizer reports the access: it serves a request of zero bytes with one byte. -/
def Reported (a : Access) : Prop := max a.size 1 ≤ a.index

instance (a : Access) : Decidable a.Reported := inferInstanceAs (Decidable (_ ≤ _))

/-- The innermost function of cJSON itself on the stack. -/
def site (a : Access) : Option Func := a.stack.find? (!·.isLibc)

end Access

inductive Event
  | access (a : Access)
  | alloc (region : Region) (size : Nat) (stack : List Func)
  /-- A value taken by the offset of the parse buffer. -/
  | offset (n : Nat)
  /-- The decoding loop of `parse_string` ended, having consumed this many u-escapes. -/
  | decoded (uEscapes : Nat)
  /-- `print_string_ptr` on `s` at offset `o`; `length` is the buffer's length after its call of
  `ensure`, `grown` whether that call enlarged it. -/
  | printing (s : List UInt8) (o length : Nat) (grown : Bool)
  /-- The recursion budget of the model ran out. -/
  | outOfFuel
  deriving DecidableEq, Repr

namespace Event

/-- The event as seen from a caller: one more frame on its stack. -/
def push (f : Func) : Event → Event
  | access a => access { a with stack := a.stack ++ [f] }
  | alloc r n st => alloc r n (st ++ [f])
  | e => e

/-- An access outside its block. -/
def isOob : Event → Bool
  | access a => decide a.Oob
  | _ => false

/-- An access that the sanitizer reports. -/
def isReported : Event → Bool
  | access a => decide a.Reported
  | _ => false

end Event

/-- Traced computations of the cJSON target. -/
abbrev Run (α : Type) := Traced Event α

/-- A call made by `f`. -/
def within (f : Func) {α : Type} (x : Run α) : Run α := x.mapLog (Event.push f)

/-- One write of `v` at index `i` of a block. -/
def put (stack : List Func) (region : Region) (b : Block) (i : Nat) (v : UInt8) : Run Block :=
  ⟨b.set i v, [.access { stack, region, write := true, index := i, size := b.size }]⟩

/-- Consecutive writes from index `i` on. -/
def putAll (stack : List Func) (region : Region) (b : Block) (i : Nat) : List UInt8 → Run Block
  | [] => pure b
  | v :: vs => do
    let b ← put stack region b i v
    putAll stack region b (i + 1) vs

/-- A scan of the C string at `i`, its terminator included. -/
def readCstr (stack : List Func) (region : Region) (b : Block) (i : Nat) : Run (List UInt8) :=
  let s := b.cstrFrom i
  ⟨s, (List.range (s.length + 1)).map fun k => .access
    { stack, region, write := false, index := i + k, size := b.size,
      defined := (b.mem (i + k)).isSome }⟩

/-! ## Items -/

/-- `INT_MAX` -/
def intMax : Nat := 2147483647

/-- `INT_MIN` -/
def intMin : Int := -2147483648

/-- A C `int`. -/
abbrev CInt := { i : Int // intMin ≤ i ∧ i ≤ intMax }

mutual

/-- A cJSON item. `S` is the representation of its strings. -/
inductive Item (D S : Type)
  | invalid
  | false
  | true
  | null
  | number (valuedouble : D) (valueint : CInt)
  | string (valuestring : Option S)
  | array (child : Items D S)
  | object (child : Members D S)
  | raw (valuestring : Option S)

/-- The children of an array, linked by `next`. -/
inductive Items (D S : Type)
  | nil
  | cons (item : Item D S) (next : Items D S)

/-- The children of an object with their names, linked by `next`. -/
inductive Members (D S : Type)
  | nil
  | cons (string : Option S) (item : Item D S) (next : Members D S)

end

/-- `item->next == NULL` for the item in front of these. -/
def Items.isNil {D S : Type} : Items D S → Bool
  | .nil => true
  | .cons _ _ => false

@[inherit_doc Items.isNil]
def Members.isNil {D S : Type} : Members D S → Bool
  | .nil => true
  | .cons _ _ _ => false

/-! ## The C library -/

/-- Doubles and their text conversions. `strtod` returns the value and how many characters it
consumed; the two `sprintf` formats are the ones of `print_number`. -/
structure Libc (D : Type) where
  strtod : List UInt8 → D × Nat
  strtod_le : ∀ s, (strtod s).2 ≤ s.length
  /-- `number >= INT_MAX` -/
  geIntMax : D → Bool
  /-- `number <= (double)INT_MIN` -/
  leIntMin : D → Bool
  /-- `(int)number` -/
  toInt : D → CInt
  /-- `(double)i` -/
  ofInt : CInt → D
  isnan : D → Bool
  isinf : D → Bool
  /-- `a == b` -/
  eq : D → D → Bool
  /-- `compare_double` -/
  compareDouble : D → D → Bool
  /-- `sprintf("%1.15g", d)` -/
  sprintf15g : D → List UInt8
  /-- `sprintf("%1.17g", d)` -/
  sprintf17g : D → List UInt8
  sprintf15g_le : ∀ d, (sprintf15g d).length ≤ 25
  sprintf17g_le : ∀ d, (sprintf17g d).length ≤ 25
  /-- `sscanf("%lg")`, `none` when nothing was converted -/
  sscanfLg : List UInt8 → Option D

/-- `CJSON_NESTING_LIMIT` -/
def nestingLimit : Nat := 1000

/-- `sprintf("%d", i)` -/
def sprintfD (i : CInt) : List UInt8 :=
  let digits := (Nat.toDigits 10 i.1.natAbs).map fun c => c.toNat.toUInt8
  if i.1 < 0 then 0x2D :: digits else digits

end FourFuzzers.CJson
