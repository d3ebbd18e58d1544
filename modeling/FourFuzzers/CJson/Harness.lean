import FourFuzzers.CJson.Parse
import FourFuzzers.CJson.Print

/-!
# The fuzzing harness of the cJSON target

`LLVMFuzzerTestOneInput` of `cjson_harness.c`: the input is copied into a block with a terminator,
parsed, and printed again when the parse succeeded. (`free` and `cJSON_Delete` access no modelled
byte.)
-/

namespace FourFuzzers.CJson

open FourFuzzers.Lib

def llvmFuzzerTestOneInput {D : Type} (L : Libc D) (data : List UInt8) : Run Unit := do
  let f := Func.llvmFuzzerTestOneInput
  Traced.emit (.alloc .input (data.length + 1) [.malloc, f])
  let buf ← putAll [.memcpy, f] .input (Block.fresh (data.length + 1)) 0 data
  let buf ← put [f] .input buf data.length 0
  match ← within f (cJSONParse L buf) with
  | none => pure ()
  | some json => do
    let _ ← within f (cJSONPrintUnformatted L json)
    pure ()

end FourFuzzers.CJson
