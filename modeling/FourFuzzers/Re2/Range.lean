import FourFuzzers.Re2.Alloc

/-!
# The rune range compiler

From `BeginRange` to `EndRange`: a character class becomes a trie of byte ranges over the
instruction array, in the order of the bytes or against it (`reversed_`). Suffixes are shared
through `rune_cache_`, and an instruction that turns out to repeat one of the trie is given back to
`AllocInst` by `ninst_--`. The exits of the trie are on the patch list `rune_range_.end`, which is
threaded through their `out` fields.

Runes, bytes and words are natural numbers. `x & m` and `x & ~m` for `m = 2^k - 1` are written with
`%` and `/`. A fragment has no `nullable`, which nothing here reads. Every instruction that is
handed out or given back is recorded with the compiler at that moment.
-/

namespace FourFuzzers.Re2

open FourFuzzers.Lib FourFuzzers.Lib.Traced

/-! ## Instructions -/

namespace Inst

/-- `kInstAlt` -/
def opAlt : Nat := 0

/-- `kInstByteRange` -/
def opByteRange : Nat := 2

def out1 (ip : Inst) : Nat := ip.arg

def lo (ip : Inst) : Nat := ip.arg % 256

def hi (ip : Inst) : Nat := ip.arg / 256 % 256

def foldcase (ip : Inst) : Nat := ip.arg / 65536 % 2

/-- `set_out_opcode` -/
def setOutOpcode (ip : Inst) (out opcode : Nat) : Inst :=
  { ip with outOpcode := out * 16 % 2 ^ 32 + ip.last * 8 + opcode }

/-- `set_out` -/
def setOut (ip : Inst) (out : Nat) : Inst :=
  { ip with outOpcode := out * 16 % 2 ^ 32 + ip.last * 8 + ip.opcode }

/-- `out1_ = out1` -/
def setOut1 (ip : Inst) (out1 : Nat) : Inst := { ip with arg := out1 % 2 ^ 32 }

def initAlt (ip : Inst) (out out1 : Nat) : Inst := (ip.setOutOpcode out opAlt).setOut1 out1

def initByteRange (ip : Inst) (lo hi foldcase out : Nat) : Inst :=
  { ip.setOutOpcode out opByteRange with
    arg := lo % 256 + 256 * (hi % 256) + 65536 * (foldcase % 2) }

end Inst

/-! ## The compiler -/

/-- A patch list: entry `p` is the `out` of instruction `p >> 1`, or its `out1` when `p` is odd. -/
structure PatchList where
  head : Nat
  tail : Nat
  deriving DecidableEq, Repr

/-- `kNullPatchList` -/
def PatchList.null : PatchList := ⟨0, 0⟩

/-- `PatchList::Mk` -/
def PatchList.mk1 (p : Nat) : PatchList := ⟨p, p⟩

structure Frag where
  begin : Nat
  ends : PatchList
  deriving DecidableEq, Repr

/-- `NoMatch()` -/
def Frag.noMatch : Frag := ⟨0, .null⟩

/-- `IsNoMatch` -/
def Frag.isNoMatch (f : Frag) : Bool := f.begin = 0

/-- A compiler with the members the rune range compiler uses. -/
structure RangeCompiler extends Compiler where
  reversed : Bool
  runeCache : Nat → Option Nat
  runeRange : Frag

namespace RangeCompiler

/-- `inst_[id]` -/
def cell (s : RangeCompiler) (id : Nat) : Inst := s.inst.getD id Inst.zero

/-- `inst_[id]` is changed by `f`. -/
def modify (s : RangeCompiler) (id : Nat) (f : Inst → Inst) : RangeCompiler :=
  { s with inst := s.inst.modify id f }

end RangeCompiler

inductive Event
  /-- `AllocInst(1)` returns `id`; `s` is the compiler behind the call. -/
  | handOut (id : Nat) (s : RangeCompiler)
  /-- Instruction `id` is about to be freed by `ninst_--` in the compiler `s`. -/
  | release (id : Nat) (s : RangeCompiler)
  /-- A loop budget of the model ran out. -/
  | outOfFuel

abbrev RangeM := StateT RangeCompiler (Traced Event)

def record (e : Event) : RangeM Unit := fun s => do
  emit e
  pure ((), s)

/-- `inst_[id]` is changed by `f`. -/
def update (id : Nat) (f : Inst → Inst) : RangeM Unit := modify (RangeCompiler.modify · id f)

/-- The instruction `id`. -/
def load (id : Nat) : RangeM Inst := do
  return (← get).cell id

section

-- what indeterminate memory holds when an array grows
variable (g : Compiler → Garbage)

/-- `AllocInst(1)` -/
def alloc : RangeM Int := do
  let s ← get
  let (id, c) := (allocInst (g s.toCompiler) 1 s.toCompiler).val
  let s' := { s with toCompiler := c }
  set s'
  if 0 ≤ id then do
    record (.handOut id.toNat s')
    pure id
  else pure id

/-! ## Patch lists -/

/-- `PatchList::Patch(inst_.data(), l, p)` -/
def patch (p : Nat) : Nat → Nat → RangeM Unit
  | 0, _ => record .outOfFuel
  | fuel + 1, head =>
    if head ≠ 0 then do
      let ip ← load (head / 2)
      if head % 2 = 1 then do
        update (head / 2) (·.setOut1 p)
        patch p fuel ip.out1
      else do
        update (head / 2) (·.setOut p)
        patch p fuel ip.out
    else pure ()

/-- `PatchList::Append(inst_.data(), l1, l2)` -/
def append (l1 l2 : PatchList) : RangeM PatchList :=
  if l1.head = 0 then pure l2
  else if l2.head = 0 then pure l1
  else do
    if l1.tail % 2 = 1 then update (l1.tail / 2) (·.setOut1 l2.head)
    else update (l1.tail / 2) (·.setOut l2.head)
    pure ⟨l1.head, l2.tail⟩

/-! ## Suffixes -/

def byteRange (lo hi foldcase : Nat) : RangeM Frag := do
  let id ← alloc g
  if id < 0 then pure .noMatch
  else do
    update id.toNat (·.initByteRange lo hi foldcase 0)
    pure ⟨id.toNat, .mk1 (id.toNat * 2)⟩

def beginRange : RangeM Unit :=
  modify fun s => { s with runeCache := fun _ => none, runeRange := ⟨0, .null⟩ }

def uncachedRuneByteSuffix (lo hi foldcase next : Nat) : RangeM Nat := do
  let f ← byteRange g lo hi foldcase
  if next ≠ 0 then do
    patch next ((← get).ninst + 1) f.ends.head
    pure f.begin
  else do
    let ends ← append (← get).runeRange.ends f.ends
    modify fun s => { s with runeRange := ⟨s.runeRange.begin, ends⟩ }
    pure f.begin

def makeRuneCacheKey (lo hi foldcase next : Nat) : Nat :=
  next * 2 ^ 17 + lo * 2 ^ 9 + hi * 2 + foldcase

def cachedRuneByteSuffix (lo hi foldcase next : Nat) : RangeM Nat := do
  let key := makeRuneCacheKey lo hi foldcase next
  match (← get).runeCache key with
  | some id => pure id
  | none => do
    let id ← uncachedRuneByteSuffix g lo hi foldcase next
    modify fun s => { s with runeCache := Function.update s.runeCache key (some id) }
    pure id

def isCachedRuneByteSuffix (id : Nat) : RangeM Bool := do
  let ip ← load id
  return ((← get).runeCache (makeRuneCacheKey ip.lo ip.hi ip.foldcase ip.out)).isSome

/-! ## The trie -/

def byteRangeEqual (id1 id2 : Nat) : RangeM Bool := do
  let ip1 ← load id1
  let ip2 ← load id2
  return ip1.lo = ip2.lo ∧ ip1.hi = ip2.hi ∧ ip1.foldcase = ip2.foldcase

/-- The loop of `FindByteRange`. -/
def findByteRangeLoop (id : Nat) : Nat → Nat → RangeM Frag
  | 0, _ => do
    record .outOfFuel
    pure .noMatch
  | fuel + 1, root => do
    let ip ← load root
    if ip.opcode = Inst.opAlt then do
      if ← byteRangeEqual ip.out1 id then pure ⟨root, .mk1 (root * 2 + 1)⟩
      else if !(← get).reversed then pure .noMatch
      else do
        if (← load ip.out).opcode = Inst.opAlt then findByteRangeLoop id fuel ip.out
        else if ← byteRangeEqual ip.out id then pure ⟨root, .mk1 (root * 2)⟩
        else pure .noMatch
    else pure .noMatch

def findByteRange (root id : Nat) : RangeM Frag := do
  if (← load root).opcode = Inst.opByteRange then do
    if ← byteRangeEqual root id then pure ⟨root, .null⟩ else pure .noMatch
  else findByteRangeLoop id ((← get).ninst + 1) root

/-- The instruction that `FindByteRange` found. -/
def foundByteRange (root : Nat) (f : Frag) : RangeM Nat :=
  if f.ends.head = 0 then pure root
  else if f.ends.head % 2 = 1 then do
    return (← load f.begin).out1
  else do
    return (← load f.begin).out

/-- The parent of the instruction that was found points to `br`; the new root. -/
def redirect (root : Nat) (f : Frag) (br : Nat) : RangeM Nat :=
  if f.ends.head = 0 then pure br
  else if f.ends.head % 2 = 1 then do
    update f.begin (·.setOut1 br)
    pure root
  else do
    update f.begin (·.setOut br)
    pure root

/-- A cached suffix is cloned: the new root and the clone, `none` when there is no room for it. -/
def cloneCached (root : Nat) (f : Frag) (br : Nat) : RangeM (Option (Nat × Nat)) := do
  if ← isCachedRuneByteSuffix br then do
    let byterange ← alloc g
    if byterange < 0 then pure none
    else do
      let ip ← load br
      update byterange.toNat (·.initByteRange ip.lo ip.hi ip.foldcase ip.out)
      let root ← redirect root f byterange.toNat
      pure (some (root, byterange.toNat))
  else pure (some (root, br))

/-- The head `id` of a suffix is freed unless it is cached. -/
def freeHead (id : Nat) : RangeM Unit := do
  if ← isCachedRuneByteSuffix id then pure ()
  else do
    record (.release id (← get))
    update id fun _ => Inst.zero
    modify fun s => { s with ninst := s.ninst - 1 }

def addSuffixRecursive : Nat → Nat → Nat → RangeM Nat
  | 0, _, _ => do
    record .outOfFuel
    pure 0
  | fuel + 1, root, id => do
    let f ← findByteRange root id
    if f.isNoMatch then do
      let alt ← alloc g
      if alt < 0 then pure 0
      else do
        update alt.toNat (·.initAlt root id)
        pure alt.toNat
    else do
      let br ← foundByteRange root f
      match ← cloneCached g root f br with
      | none => pure 0
      | some (root, br) => do
        let out := (← load id).out
        freeHead id
        let out ← addSuffixRecursive fuel (← load br).out out
        if out = 0 then pure 0
        else do
          update br (·.setOut out)
          pure root

/-- `UTFmax` -/
def utfMax : Nat := 4

/-- `AddSuffix`, in UTF-8 -/
def addSuffix (id : Nat) : RangeM Unit := do
  let s ← get
  if s.failed then pure ()
  else if s.runeRange.begin = 0 then modify fun s => { s with runeRange := ⟨id, s.runeRange.ends⟩ }
  else do
    let begin ← addSuffixRecursive g (utfMax + 1) s.runeRange.begin id
    modify fun s => { s with runeRange := ⟨begin, s.runeRange.ends⟩ }

/-! ## Rune ranges -/

/-- `Add_80_10ffff` -/
def add_80_10ffff : RangeM Unit := do
  if (← get).reversed then do
    let id ← uncachedRuneByteSuffix g 0xC2 0xDF 0 0
    let id ← uncachedRuneByteSuffix g 0x80 0xBF 0 id
    addSuffix g id
    let id ← uncachedRuneByteSuffix g 0xE0 0xEF 0 0
    let id ← uncachedRuneByteSuffix g 0x80 0xBF 0 id
    let id ← uncachedRuneByteSuffix g 0x80 0xBF 0 id
    addSuffix g id
    let id ← uncachedRuneByteSuffix g 0xF0 0xF4 0 0
    let id ← uncachedRuneByteSuffix g 0x80 0xBF 0 id
    let id ← uncachedRuneByteSuffix g 0x80 0xBF 0 id
    let id ← uncachedRuneByteSuffix g 0x80 0xBF 0 id
    addSuffix g id
  else do
    let cont1 ← uncachedRuneByteSuffix g 0x80 0xBF 0 0
    let id ← uncachedRuneByteSuffix g 0xC2 0xDF 0 cont1
    addSuffix g id
    let cont2 ← uncachedRuneByteSuffix g 0x80 0xBF 0 cont1
    let id ← uncachedRuneByteSuffix g 0xE0 0xEF 0 cont2
    addSuffix g id
    let cont3 ← uncachedRuneByteSuffix g 0x80 0xBF 0 cont2
    let id ← uncachedRuneByteSuffix g 0xF0 0xF4 0 cont3
    addSuffix g id

/-- `MaxRune(len)` -/
def maxRune (len : Nat) : Nat :=
  2 ^ (if len = 1 then 7 else 8 - (len + 1) + 6 * (len - 1)) - 1

/-- `runetochar` -/
def runetochar (c : Nat) : List Nat :=
  if c ≤ 0x7F then [c]
  else if c ≤ 0x7FF then [0xC0 + c / 64, 0x80 + c % 64]
  else
    let c := if 0x10FFFF < c then 0xFFFD else c
    if c ≤ 0xFFFF then [0xE0 + c / 4096, 0x80 + c / 64 % 64, 0x80 + c % 64]
    else [0xF0 + c / 262144, 0x80 + c / 4096 % 64, 0x80 + c / 64 % 64, 0x80 + c % 64]

/-- The suffix of a range whose bytes are `ulo` to `uhi`, built from its last byte on. -/
def sequenceSuffix (ulo uhi : List Nat) : RangeM Nat := do
  let n := ulo.length
  if (← get).reversed then
    (List.range n).foldlM (fun id i =>
      if i = 0 ∨ (ulo.getD i 0 = uhi.getD i 0 ∧ i ≠ n - 1) then
        cachedRuneByteSuffix g (ulo.getD i 0) (uhi.getD i 0) 0 id
      else uncachedRuneByteSuffix g (ulo.getD i 0) (uhi.getD i 0) 0 id) 0
  else
    (List.range n).reverse.foldlM (fun id i =>
      if i = n - 1 ∨ (ulo.getD i 0 < uhi.getD i 0 ∧ i ≠ 0) then
        cachedRuneByteSuffix g (ulo.getD i 0) (uhi.getD i 0) 0 id
      else uncachedRuneByteSuffix g (ulo.getD i 0) (uhi.getD i 0) 0 id) 0

/-- Where the first loop of `AddRuneRangeUTF8` splits a range: at the largest rune of a length. -/
def splitLength (lo hi : Nat) : Option Nat :=
  ([1, 2, 3].find? fun i => lo ≤ maxRune i ∧ maxRune i < hi).map maxRune

/-- Where the second loop splits a range: the last rune of the first part. `w - 1` is the mask of
the last `i` bytes of a sequence. -/
def splitBytes (lo hi : Nat) : Option Nat :=
  [1, 2, 3].findSome? fun i =>
    let w := 2 ^ (6 * i)
    if lo / w ≠ hi / w then
      if lo % w ≠ 0 then some (lo / w * w + (w - 1))
      else if hi % w ≠ w - 1 then some (hi / w * w - 1)
      else none
    else none

theorem splitLength_bounds {lo hi mid : Nat} (h : splitLength lo hi = some mid) :
    lo ≤ mid ∧ mid < hi := by
  unfold splitLength at h
  obtain ⟨i, hi, rfl⟩ := Option.map_eq_some_iff.1 h
  simpa using List.find?_some hi

theorem splitBytes_bounds {lo hi mid : Nat} (hle : lo ≤ hi) (h : splitBytes lo hi = some mid) :
    lo ≤ mid ∧ mid < hi := by
  unfold splitBytes at h
  obtain ⟨i, -, h⟩ := List.exists_of_findSome?_eq_some h
  have hw : 0 < 2 ^ (6 * i) := Nat.two_pow_pos _
  generalize 2 ^ (6 * i) = w at h hw
  dsimp only at h
  have hlo := Nat.div_add_mod lo w
  have hhi := Nat.div_add_mod hi w
  have hmod := Nat.mod_lt lo hw
  have hmod' := Nat.mod_lt hi hw
  split at h
  next hne =>
    have hlt : lo / w < hi / w := Nat.lt_of_le_of_ne (Nat.div_le_div_right hle) hne
    have hmul : w * (lo / w) + w ≤ w * (hi / w) := by
      rw [← Nat.mul_succ]
      exact Nat.mul_le_mul_left w hlt
    rw [Nat.mul_comm] at hlo hhi
    split at h
    next hzero =>
      cases h
      rw [Nat.mul_comm w, Nat.mul_comm w] at hmul
      omega
    next hzero =>
      split at h
      next =>
        cases h
        rw [Nat.mul_comm w, Nat.mul_comm w] at hmul
        omega
      next => cases h
  next => cases h

/-- `AddRuneRangeUTF8` -/
def addRuneRangeUTF8 (lo hi foldcase : Nat) : RangeM Unit :=
  if hi < lo then pure ()
  else if lo = 0x80 ∧ hi = 0x10FFFF then add_80_10ffff g
  else match hlen : splitLength lo hi with
  | some max => do
    addRuneRangeUTF8 lo max foldcase
    addRuneRangeUTF8 (max + 1) hi foldcase
  | none =>
    if hi < 0x80 then do
      let id ← uncachedRuneByteSuffix g lo hi foldcase 0
      addSuffix g id
    else match hbytes : splitBytes lo hi with
    | some mid => do
      addRuneRangeUTF8 lo mid foldcase
      addRuneRangeUTF8 (mid + 1) hi foldcase
    | none => do
      let id ← sequenceSuffix g (runetochar lo) (runetochar hi)
      addSuffix g id
termination_by hi + 1 - lo
decreasing_by
  · have := splitLength_bounds hlen
    omega
  · have := splitLength_bounds hlen
    omega
  · have := splitBytes_bounds (by omega) hbytes
    omega
  · have := splitBytes_bounds (by omega) hbytes
    omega

/-- A range of a character class, and whether it is compiled for both cases. -/
structure RuneRange where
  lo : Nat
  hi : Nat
  fold : Bool
  deriving DecidableEq, Repr

/-- The part of `PostVisit` from `BeginRange` to `EndRange`. -/
def addClass (ranges : List RuneRange) : RangeM Frag := do
  beginRange
  ranges.forM fun r => addRuneRangeUTF8 g r.lo r.hi r.fold.toNat
  return (← get).runeRange

end

end FourFuzzers.Re2
