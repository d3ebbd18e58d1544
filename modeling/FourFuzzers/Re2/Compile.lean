import FourFuzzers.Re2.Regexp

/-!
# The compiler

The construction of `compile.cc`: a program for each regular expression, from the programs of its
parts. The exits of a fragment are the entries of its patch list. `WalkInternal` visits a tree depth
first, each node once its parts are visited, and counts the visits.

The input encoding and the anchor mode are fixed by `Setup`, so they are parameters, and so is what
indeterminate memory holds. The expression is one that `Simplify` returned, and the program is the
one that `Finish` hands to `Optimize`. Neither these two nor `Flatten` and `ComputeByteMap` are
modelled, nor the check of `CompileSet` that the DFA has enough memory. The captures' names are left
out.
-/

namespace FourFuzzers.Re2

open FourFuzzers.Lib FourFuzzers.Lib.Traced

/-- A fragment with its `nullable`. -/
structure Fragment extends Frag where
  nullable : Bool
  deriving DecidableEq, Repr

/-- `Frag()` and `NoMatch()` -/
def Fragment.noMatch : Fragment := ⟨.noMatch, false⟩

/-- `PatchList::Patch(inst_.data(), l, p)` -/
def patchList (l : PatchList) (p : Nat) : RangeM Unit := do
  patch p (2 * (← get).ninst + 1) l.head

section

variable (g : Compiler → Garbage)

/-- `AllocInst(2)` -/
def allocPair : RangeM Int := do
  let s ← get
  let (id, c) := (allocInst (g s.toCompiler) 2 s.toCompiler).val
  set { s with toCompiler := c }
  pure id

/-! ## Fragments -/

/-- `Cat` -/
def cat (a b : Fragment) : RangeM Fragment := do
  if a.isNoMatch ∨ b.isNoMatch then pure .noMatch
  else do
    let begin ← load a.begin
    -- a no-op is elided, but it may be referred to from elsewhere
    if begin.opcode = Inst.opNop ∧ a.ends.head = a.begin * 2 ∧ begin.out = 0 then do
      patchList a.ends b.begin
      pure b
    else if (← get).reversed then do
      patchList b.ends a.begin
      pure ⟨⟨b.begin, a.ends⟩, b.nullable && a.nullable⟩
    else do
      patchList a.ends b.begin
      pure ⟨⟨a.begin, b.ends⟩, a.nullable && b.nullable⟩

/-- `Alt` -/
def alt (a b : Fragment) : RangeM Fragment := do
  if a.isNoMatch then pure b
  else if b.isNoMatch then pure a
  else do
    let id ← alloc g
    if id < 0 then pure .noMatch
    else do
      update id.toNat (·.initAlt a.begin b.begin)
      let ends ← append a.ends b.ends
      pure ⟨⟨id.toNat, ends⟩, a.nullable || b.nullable⟩

/-- Instruction `id` becomes the choice between `begin` and what follows, the preferred one first;
the patch list of the latter. -/
def choice (nongreedy : Bool) (id begin : Nat) : RangeM PatchList :=
  if nongreedy then do
    update id (·.initAlt 0 begin)
    pure (.mk1 (id * 2))
  else do
    update id (·.initAlt begin 0)
    pure (.mk1 (id * 2 + 1))

/-- `Plus` -/
def plus (a : Fragment) (nongreedy : Bool) : RangeM Fragment := do
  let id ← alloc g
  if id < 0 then pure .noMatch
  else do
    let pl ← choice nongreedy id.toNat a.begin
    patchList a.ends id.toNat
    pure ⟨⟨a.begin, pl⟩, a.nullable⟩

/-- `Nop` -/
def nop : RangeM Fragment := do
  let id ← alloc g
  if id < 0 then pure .noMatch
  else do
    update id.toNat (·.initNop)
    pure ⟨⟨id.toNat, .mk1 (id.toNat * 2)⟩, true⟩

/-- `Quest` -/
def quest (a : Fragment) (nongreedy : Bool) : RangeM Fragment := do
  if a.isNoMatch then nop g
  else do
    let id ← alloc g
    if id < 0 then pure .noMatch
    else do
      let pl ← choice nongreedy id.toNat a.begin
      let ends ← append pl a.ends
      pure ⟨⟨id.toNat, ends⟩, true⟩

/-- `Star` -/
def star (a : Fragment) (nongreedy : Bool) : RangeM Fragment := do
  -- a loop whose body may match nothing is compiled as (a+)?
  if a.nullable then quest g (← plus g a nongreedy) nongreedy
  else do
    let id ← alloc g
    if id < 0 then pure .noMatch
    else do
      let pl ← choice nongreedy id.toNat a.begin
      patchList a.ends id.toNat
      pure ⟨⟨id.toNat, pl⟩, true⟩

/-- `ByteRange` -/
def byteRangeFragment (lo hi foldcase : Nat) : RangeM Fragment := do
  return ⟨← byteRange g lo hi foldcase, false⟩

/-- `Match` -/
def matchFragment (matchId : Nat) : RangeM Fragment := do
  let id ← alloc g
  if id < 0 then pure .noMatch
  else do
    update id.toNat (·.initMatch matchId)
    pure ⟨⟨id.toNat, .null⟩, false⟩

/-- `EmptyWidth` -/
def emptyWidth (empty : Nat) : RangeM Fragment := do
  let id ← alloc g
  if id < 0 then pure .noMatch
  else do
    update id.toNat (·.initEmptyWidth empty 0)
    pure ⟨⟨id.toNat, .mk1 (id.toNat * 2)⟩, true⟩

/-- `Capture` -/
def capture (a : Fragment) (n : Nat) : RangeM Fragment := do
  if a.isNoMatch then pure .noMatch
  else do
    let id ← allocPair g
    if id < 0 then pure .noMatch
    else do
      update id.toNat (·.initCapture (2 * n) a.begin)
      update (id.toNat + 1) (·.initCapture (2 * n + 1) 0)
      patchList a.ends (id.toNat + 1)
      pure ⟨⟨id.toNat, .mk1 ((id.toNat + 1) * 2)⟩, a.nullable⟩

/-- `DotStar` -/
def dotStar : RangeM Fragment := do
  star g (← byteRangeFragment g 0x00 0xFF 0) true

/-! ## Runes -/

/-- `Literal` -/
def literal (enc : Encoding) (r : Nat) (foldcase : Bool) : RangeM Fragment :=
  match enc with
  | .latin1 => byteRangeFragment g r r foldcase.toNat
  | .utf8 =>
    if r < 0x80 then byteRangeFragment g r r foldcase.toNat
    else
      match runetochar r with
      | [] => pure .noMatch  -- a sequence has a first byte
      | lead :: rest => do
        let f ← byteRangeFragment g lead lead 0
        rest.foldlM (fun f byte => do cat f (← byteRangeFragment g byte byte 0)) f

/-- `AddSuffix`, in Latin-1 -/
def addSuffixLatin1 (id : Nat) : RangeM Unit := do
  let s ← get
  if s.failed then pure ()
  else if s.runeRange.begin = 0 then modify fun s => { s with runeRange := ⟨id, s.runeRange.ends⟩ }
  else do
    let alt ← alloc g
    if alt < 0 then modify fun s => { s with runeRange := ⟨0, s.runeRange.ends⟩ }
    else do
      update alt.toNat (·.initAlt s.runeRange.begin id)
      modify fun s => { s with runeRange := ⟨alt.toNat, s.runeRange.ends⟩ }

/-- `AddRuneRangeLatin1` -/
def addRuneRangeLatin1 (lo hi foldcase : Nat) : RangeM Unit :=
  if hi < lo ∨ 0xFF < lo then pure ()
  else do
    let id ← uncachedRuneByteSuffix g lo (min hi 0xFF) foldcase 0
    addSuffixLatin1 g id

/-- From `BeginRange` to `EndRange`, with an `AddRuneRange` for each range between them. -/
def addRanges (enc : Encoding) (ranges : List RuneRange) : RangeM Fragment :=
  match enc with
  | .utf8 => do return ⟨← addClass g ranges, false⟩
  | .latin1 => do
    beginRange
    ranges.forM fun r => addRuneRangeLatin1 g r.lo r.hi r.fold.toNat
    return ⟨(← get).runeRange, false⟩

/-- The ranges that are added for a class, by the ASCII case-folding optimization. -/
def CharClass.foldRanges (cc : CharClass) : List RuneRange :=
  let kept := cc.ranges.filter fun r => !(cc.foldsAscii && 0x41 ≤ r.1 && r.2 ≤ 0x5A)
  kept.map fun r =>
    -- a range that holds all of A-Za-z or none of it needs no flag
    let plain := (r.1 ≤ 0x41 ∧ 0x7A ≤ r.2) ∨ r.2 < 0x41 ∨ 0x7A < r.1 ∨ (0x5A < r.1 ∧ r.2 < 0x61)
    ⟨r.1, r.2, cc.foldsAscii && !decide plain⟩

/-! ## The walk -/

/-- `failed_ = true` and `NoMatch()` -/
def giveUp : RangeM Fragment := do
  modify fun s => { s with failed := true }
  pure .noMatch

section

variable (enc : Encoding) (anchor : Anchor)

/-- The part of `PostVisit` behind its check of `failed_`. -/
def compileOp (re : Regexp) (child : List Fragment) : RangeM Fragment := do
  match re, child with
  | .noMatch, _ => pure .noMatch
  | .emptyMatch, _ => nop g
  | .haveMatch id, _ => do
    let f ← matchFragment g id
    if anchor = .anchorBoth then cat (← emptyWidth g emptyEndText) f else pure f
  | .concat _ _, f :: fs => fs.foldlM cat f
  | .alternate _ _, f :: fs => fs.foldlM (alt g) f
  | .star _ nonGreedy, [f] => star g f nonGreedy
  | .plus _ nonGreedy, [f] => plus g f nonGreedy
  | .quest _ nonGreedy, [f] => quest g f nonGreedy
  | .literal rune foldCase, _ => literal g enc rune foldCase
  | .literalString [] _, _ => nop g
  | .literalString (rune :: runes) foldCase, _ => do
    let f ← literal g enc rune foldCase
    runes.foldlM (fun f r => do cat f (← literal g enc r foldCase)) f
  | .anyChar, _ => addRanges g enc [⟨0, 0x10FFFF, false⟩]
  | .anyByte, _ => byteRangeFragment g 0x00 0xFF 0
  | .charClass cc, _ => if cc.ranges = [] then giveUp else addRanges g enc cc.foldRanges
  | .capture _ cap, [f] => if cap < 0 then pure f else capture g f cap.toNat
  | .beginLine, _ => do
    emptyWidth g (if (← get).reversed then emptyEndLine else emptyBeginLine)
  | .endLine, _ => do
    emptyWidth g (if (← get).reversed then emptyBeginLine else emptyEndLine)
  | .beginText, _ => do
    emptyWidth g (if (← get).reversed then emptyEndText else emptyBeginText)
  | .endText, _ => do
    emptyWidth g (if (← get).reversed then emptyBeginText else emptyEndText)
  | .wordBoundary, _ => emptyWidth g emptyWordBoundary
  | .noWordBoundary, _ => emptyWidth g emptyNonWordBoundary
  | _, _ => giveUp

/-- `PostVisit` -/
def postVisit (re : Regexp) (child : List Fragment) : RangeM Fragment := do
  if (← get).failed then pure .noMatch else compileOp g enc anchor re child

/-- A visit of the walk: `subs` visits the parts. The number is `max_visits_`. -/
def visit (re : Regexp) (subs : Int → RangeM (List Fragment × Int)) (visits : Int) :
    RangeM (Fragment × Int) := do
  -- `ShortVisit`
  if visits - 1 < 0 then return (← giveUp, visits - 1)
  -- `PreVisit`
  else if (← get).failed then pure (.noMatch, visits - 1)
  else do
    let (child, visits) ← subs (visits - 1)
    return (← postVisit g enc anchor re child, visits)

mutual

/-- `WalkInternal` -/
def walk : Regexp → Int → RangeM (Fragment × Int)
  | .concat sub subs => visit g enc anchor (.concat sub subs) fun visits => do
    let (f, visits) ← walk sub visits
    let (fs, visits) ← walkAll subs visits
    pure (f :: fs, visits)
  | .alternate sub subs => visit g enc anchor (.alternate sub subs) fun visits => do
    let (f, visits) ← walk sub visits
    let (fs, visits) ← walkAll subs visits
    pure (f :: fs, visits)
  | .star sub nonGreedy => visit g enc anchor (.star sub nonGreedy) fun visits => do
    let (f, visits) ← walk sub visits
    pure ([f], visits)
  | .plus sub nonGreedy => visit g enc anchor (.plus sub nonGreedy) fun visits => do
    let (f, visits) ← walk sub visits
    pure ([f], visits)
  | .quest sub nonGreedy => visit g enc anchor (.quest sub nonGreedy) fun visits => do
    let (f, visits) ← walk sub visits
    pure ([f], visits)
  | .rep sub min max nonGreedy => visit g enc anchor (.rep sub min max nonGreedy) fun visits => do
    let (f, visits) ← walk sub visits
    pure ([f], visits)
  | .capture sub cap => visit g enc anchor (.capture sub cap) fun visits => do
    let (f, visits) ← walk sub visits
    pure ([f], visits)
  | re => visit g enc anchor re fun visits => pure ([], visits)

def walkAll : List Regexp → Int → RangeM (List Fragment × Int)
  | [], visits => pure ([], visits)
  | re :: res, visits => do
    let (f, visits) ← walk re visits
    let (fs, visits) ← walkAll res visits
    pure (f :: fs, visits)

end

end

end

/-! ## Anchors -/

/-- `Regexp::Concat` of parts that are not nested any further. -/
def Regexp.mkConcat (sub : Regexp) (subs : List Regexp) : Regexp :=
  if subs = [] then sub else .concat sub subs

/-- `IsAnchorStart`, `n` levels from the depth limit: the expression without its anchor. -/
def isAnchorStart : Nat → Regexp → Option Regexp
  | 0, _ => none
  | n + 1, .concat sub subs => (isAnchorStart n sub).map fun sub => .mkConcat sub subs
  | n + 1, .capture sub cap => (isAnchorStart n sub).map fun sub => .capture sub cap
  | _ + 1, .beginText => some .emptyMatch
  | _ + 1, _ => none

/-- `IsAnchorEnd`, `n` levels from the depth limit: the expression without its anchor. -/
def isAnchorEnd : Nat → Regexp → Option Regexp
  | 0, _ => none
  | n + 1, .concat sub subs =>
    match subs.getLast? with
    | none => isAnchorEnd n sub
    | some last => (isAnchorEnd n last).map fun last => .concat sub (subs.dropLast ++ [last])
  | n + 1, .capture sub cap => (isAnchorEnd n sub).map fun sub => .capture sub cap
  | _ + 1, .endText => some .emptyMatch
  | _ + 1, _ => none

/-! ## Programs -/

/-- A program as `Finish` hands it to `Optimize`. -/
structure Prog where
  reversed : Bool
  anchorStart : Bool
  anchorEnd : Bool
  start : Nat
  startUnanchored : Nat
  inst : PODArray
  size : Nat

/-- The instruction `id`. -/
def Prog.cell (prog : Prog) (id : Nat) : Inst := prog.inst.getD id Inst.zero

/-- `max_ninst_` as `Setup` computes it, where `sizeofProg` is `sizeof(Prog)`. -/
def setupMaxNinst (sizeofProg : Nat) (maxMem : Int) : Int :=
  if maxMem ≤ 0 then 100000
  else if maxMem ≤ sizeofProg then 0
  else
    let m := (maxMem - sizeofProg) / 8
    let m := if 2 ^ 24 ≤ m then 2 ^ 24 else m
    if 2 ^ 28 - 1 < m then 2 ^ 28 - 1 else m

section

variable (g : Compiler → Garbage) (enc : Encoding)

/-- A compiler behind `Setup`. -/
def setup (initial : Garbage) (reversed : Bool) (sizeofProg : Nat) (maxMem : Int) :
    RangeCompiler where
  toCompiler := { Compiler.new initial with maxNinst := setupMaxNinst sizeofProg maxMem }
  reversed := reversed
  runeCache := fun _ => none
  runeRange := ⟨0, .null⟩

/-- `Finish`, up to its call of `Optimize` -/
def finishBeforeOptimize (reversed anchorStart anchorEnd : Bool) (start startUnanchored : Nat) :
    RangeM (Option Prog) := do
  let s ← get
  if s.failed then pure none
  else
    -- no possible matches; the fail instruction is kept only
    let ninst := if start = 0 ∧ startUnanchored = 0 then 1 else s.ninst
    pure (some ⟨reversed, anchorStart, anchorEnd, start, startUnanchored, s.inst, ninst⟩)

/-- `Compile` of an expression that `Simplify` returned, up to the call of `Optimize` in `Finish` -/
def compileSimplified (re : Regexp) (reversed : Bool) : RangeM (Option Prog) := do
  let isAnchoredStart := (isAnchorStart 4 re).isSome
  let re := (isAnchorStart 4 re).getD re
  let isAnchoredEnd := (isAnchorEnd 4 re).isSome
  let re := (isAnchorEnd 4 re).getD re
  let (all, _) ← walk g enc .unanchored re (2 * (← get).maxNinst)
  if (← get).failed then pure none
  else do
    -- the remaining concatenations behave normally
    modify fun s => { s with reversed := false }
    let all ← cat all (← matchFragment g 0)
    let anchorStart := if reversed then isAnchoredEnd else isAnchoredStart
    let anchorEnd := if reversed then isAnchoredStart else isAnchoredEnd
    let start := all.begin
    let all ← if anchorStart then pure all else cat (← dotStar g) all
    finishBeforeOptimize reversed anchorStart anchorEnd start all.begin

/-- `CompileSet` of an expression that `Simplify` returned, up to the call of `Optimize` in
`Finish`. A set whose DFA runs out of memory is refused behind it. -/
def compileSetSimplified (re : Regexp) (anchor : Anchor) : RangeM (Option Prog) := do
  let (all, _) ← walk g enc anchor re (2 * (← get).maxNinst)
  if (← get).failed then pure none
  else do
    let all ← if anchor = .unanchored then cat (← dotStar g) all else pure all
    finishBeforeOptimize false true true all.begin all.begin

end

end FourFuzzers.Re2
