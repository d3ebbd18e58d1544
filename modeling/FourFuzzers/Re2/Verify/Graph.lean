import FourFuzzers.Lib.Stateful
import FourFuzzers.Re2.Range
import FourFuzzers.Re2.Verify.Alloc

/-!
# The instructions of a rune range

Which instructions a compiler still uses between `BeginRange` and `EndRange`, and what it means for
`AllocInst` and `ninst_--` to respect them. The instruction array is read through `cell`, which
`AllocInst` does not change: behind `ninst_` it is zero before the call and after it.
-/

namespace FourFuzzers.Re2

open FourFuzzers.Lib FourFuzzers.Lib.Traced FourFuzzers.Lib.Stateful

/-! ## Fields -/

/-- The label of a byte range. -/
structure Sym where
  lo : Nat
  hi : Nat
  fold : Nat
  deriving DecidableEq, Repr

namespace Sym

/-- The values are those of `uint8_t`, `uint8_t` and `bool`. -/
def Valid (a : Sym) : Prop := a.lo < 256 ∧ a.hi < 256 ∧ a.fold < 2

instance (a : Sym) : Decidable a.Valid := inferInstanceAs (Decidable (_ ∧ _))

def key (a : Sym) (next : Nat) : Nat := makeRuneCacheKey a.lo a.hi a.fold next

theorem key_inj {a b : Sym} {m n : Nat} (ha : a.Valid) (hb : b.Valid) (h : a.key m = b.key n) :
    a = b ∧ m = n := by
  obtain ⟨alo, ahi, afold⟩ := a
  obtain ⟨blo, bhi, bfold⟩ := b
  simp only [Valid] at ha hb
  simp only [key, makeRuneCacheKey] at h
  simp only [mk.injEq]
  omega

end Sym

namespace Inst

variable {ip : Inst} {out out1 opcode lo hi fold : Nat}

def sym (ip : Inst) : Sym := ⟨ip.lo, ip.hi, ip.foldcase⟩

theorem valid_sym : ip.sym.Valid := by
  simp only [Sym.Valid, sym, Inst.lo, Inst.hi, foldcase]
  omega

theorem outOpcode_fields (hout : out < 2 ^ 28) (hop : opcode < 8) :
    (out * 16 % 2 ^ 32 + ip.last * 8 + opcode) / 16 = out ∧
      (out * 16 % 2 ^ 32 + ip.last * 8 + opcode) % 8 = opcode := by
  have hlast : ip.last < 2 := Nat.mod_lt _ (by omega)
  omega

theorem opcode_lt : ip.opcode < 8 := Nat.mod_lt _ (by omega)

theorem out_setOut (h : out < 2 ^ 28) : (ip.setOut out).out = out :=
  (outOpcode_fields h opcode_lt).1

theorem opcode_setOut (h : out < 2 ^ 28) : (ip.setOut out).opcode = ip.opcode :=
  (outOpcode_fields h opcode_lt).2

@[simp] theorem sym_setOut : (ip.setOut out).sym = ip.sym := rfl

theorem out1_setOut1 (h : out1 < 2 ^ 28) : (ip.setOut1 out1).out1 = out1 :=
  Nat.mod_eq_of_lt (by omega)

theorem initAlt_fields (h : out < 2 ^ 28) (h1 : out1 < 2 ^ 28) :
    (ip.initAlt out out1).opcode = opAlt ∧ (ip.initAlt out out1).out = out ∧
      (ip.initAlt out out1).out1 = out1 := by
  obtain ⟨hout, hop⟩ := @outOpcode_fields ip out opAlt h (by decide)
  exact ⟨hop, hout, out1_setOut1 h1⟩

theorem initByteRange_fields {a : Sym} (ha : a.Valid) (h : out < 2 ^ 28) :
    (ip.initByteRange a.lo a.hi a.fold out).opcode = opByteRange ∧
      (ip.initByteRange a.lo a.hi a.fold out).sym = a ∧
      (ip.initByteRange a.lo a.hi a.fold out).out = out := by
  obtain ⟨hout, hop⟩ := @outOpcode_fields ip out opByteRange h (by decide)
  refine ⟨hop, ?_, hout⟩
  obtain ⟨lo, hi, fold⟩ := a
  simp only [Sym.Valid] at ha
  simp only [initByteRange, sym, Inst.lo, Inst.hi, foldcase, Sym.mk.injEq]
  omega

end Inst

/-! ## Instructions in use -/

/-- Instruction `x` has an entry on the patch list that starts with `p`. -/
inductive PatchList.Holds (cell : Nat → Inst) : Nat → Nat → Prop
  | head {p : Nat} : p ≠ 0 → Holds cell p (p / 2)
  | out {p x : Nat} : p ≠ 0 → p % 2 = 0 → Holds cell (cell (p / 2)).out x → Holds cell p x
  | out1 {p x : Nat} : p ≠ 0 → p % 2 = 1 → Holds cell (cell (p / 2)).out1 x → Holds cell p x

/-- Instruction `x` is reached from the start of a fragment. A byte range on the end list leads
nowhere yet: its `out` is a link of that list. -/
inductive Frag.Reaches (cell : Nat → Inst) (f : Frag) : Nat → Prop
  | begin : f.begin ≠ 0 → Reaches cell f f.begin
  | out {x : Nat} : Reaches cell f x → (cell x).opcode = Inst.opAlt → Reaches cell f (cell x).out
  | out1 {x : Nat} : Reaches cell f x → (cell x).opcode = Inst.opAlt → Reaches cell f (cell x).out1
  | next {x : Nat} : Reaches cell f x → (cell x).opcode = Inst.opByteRange →
      ¬ PatchList.Holds cell f.ends.head x → Reaches cell f (cell x).out

namespace RangeCompiler

/-- Instruction `x` is reachable from `rune_range_.begin`, held in `rune_cache_`, or on the patch
list `rune_range_.end`. -/
def Live (s : RangeCompiler) (x : Nat) : Prop :=
  s.runeRange.Reaches s.cell x ∨ (∃ key, s.runeCache key = some x) ∨
    PatchList.Holds s.cell s.runeRange.ends.head x

end RangeCompiler

/-- What is required when an instruction is handed out or given back, where those below `base` were
handed out before. -/
def Event.Ok (base : Nat) : Event → Prop
  | handOut id s => base ≤ id ∧ id + 1 = s.ninst ∧ s.ninst ≤ s.inst.length ∧ ¬ s.Live id ∧
      ∀ i, id ≤ i → i < s.inst.length → s.inst[i]? = some Inst.zero
  | release id s => base ≤ id ∧ id + 1 = s.ninst ∧ ¬ s.Live id
  | outOfFuel => False

/-! ## Reading and writing -/

section

variable {s s' : RangeCompiler} {g : Compiler → Garbage} {id id1 id2 : Nat} {f : Inst → Inst}

theorem Silent.load : Silent (load id) s (s.cell id) s := rfl

theorem Silent.update : Silent (update id f) s ⟨⟩ (s.modify id f) := rfl

theorem Silent.byteRangeEqual :
    Silent (byteRangeEqual id1 id2) s (decide ((s.cell id1).sym = (s.cell id2).sym)) s := by
  have hiff : ((s.cell id1).lo = (s.cell id2).lo ∧ (s.cell id1).hi = (s.cell id2).hi ∧
      (s.cell id1).foldcase = (s.cell id2).foldcase) ↔ (s.cell id1).sym = (s.cell id2).sym := by
    simp only [Inst.sym, Sym.mk.injEq]
  rw [← decide_eq_decide.2 hiff]
  rfl

/-- Whether instruction `x` is found in the cache under its own key. -/
def RangeCompiler.isCached (s : RangeCompiler) (x : Nat) : Bool :=
  (s.runeCache ((s.cell x).sym.key (s.cell x).out)).isSome

theorem Silent.isCachedRuneByteSuffix :
    Silent (isCachedRuneByteSuffix id) s (s.isCached id) s := rfl

theorem RangeCompiler.cell_modify (h : id < s.inst.length) :
    (s.modify id f).cell = Function.update s.cell id (f (s.cell id)) := by
  funext x
  unfold RangeCompiler.cell RangeCompiler.modify
  rw [List.getD_eq_getElem?_getD, List.getElem?_modify, Function.update_apply]
  by_cases hx : x = id
  · subst hx
    simp only [List.getD_eq_getElem?_getD, List.getElem?_eq_getElem h, if_true]
    rfl
  · simp only [List.getD_eq_getElem?_getD, if_neg hx, if_neg (Ne.symm hx)]
    cases s.inst[x]? <;> rfl

theorem RangeCompiler.cell_zero (hinv : Inv s.toCompiler) (h : s.ninst ≤ id) :
    s.cell id = Inst.zero := by
  unfold RangeCompiler.cell
  rw [List.getD_eq_getElem?_getD]
  by_cases hlen : id < s.inst.length
  · rw [hinv.clear id h hlen]
    rfl
  · rw [List.getElem?_eq_none (by omega)]
    rfl

theorem RangeCompiler.inst_modify (h : id < s.inst.length) :
    (s.modify id f).inst = s.inst.set id (f (s.cell id)) := by
  unfold RangeCompiler.modify RangeCompiler.cell
  rw [List.modify_eq_set_getElem?, List.getD_eq_getElem?_getD, List.getElem?_eq_getElem h]
  rfl

theorem Inv.modify (hinv : Inv s.toCompiler) (h : id < s.ninst) :
    Inv (s.modify id f).toCompiler := by
  have hwrite : Inv { s.toCompiler with inst := s.inst.set id (f (s.cell id)) } :=
    @Inv.step _ (.write id (f (s.cell id))) hinv h
  rwa [← RangeCompiler.inst_modify (Nat.lt_of_lt_of_le h hinv.used)] at hwrite

/-! ## Allocation -/

/-- The compiler has given up. -/
def Failed (s : RangeCompiler) : Prop := s.failed = true

/-- The compiler has given up and, where it was `sound` before, for want of room for an
instruction. -/
structure Refused (sound : Prop) (s : RangeCompiler) : Prop where
  failed : s.failed = true
  full : sound → s.maxNinst < s.ninst + 1

/-- `s'` is `s` with one more instruction. -/
structure Grown (s s' : RangeCompiler) : Prop where
  inv : Inv s'.toCompiler
  failed : s'.failed = false
  ninst : s'.ninst = s.ninst + 1
  cell : s'.cell = s.cell
  cache : s'.runeCache = s.runeCache
  range : s'.runeRange = s.runeRange
  reversed : s'.reversed = s.reversed

theorem Grown.lt (h : Grown s s') : s.ninst < s'.ninst := by
  rw [h.ninst]
  exact Nat.lt_succ_self s.ninst

theorem Silent.alloc (hno : ¬ Accepts s.toCompiler 1) :
    Silent (alloc g) s (-1) { s with failed := true } := by
  have hval := (@allocInstWith_refused _ (g s.toCompiler) _ copyN hno).1
  unfold Re2.alloc
  apply Silent.read.bind
  unfold allocInst
  rw [hval]
  rfl

/-- `AllocInst` changes no instruction that is read. -/
theorem cell_grown {k n : Nat} (hinv : Inv s.toCompiler) :
    { s with inst := grown s.toCompiler k, ninst := n : RangeCompiler }.cell = s.cell := by
  funext x
  by_cases hx : x < s.ninst
  · unfold RangeCompiler.cell
    rw [List.getD_eq_getElem?_getD, List.getD_eq_getElem?_getD, grown_below hinv hx]
  · rw [RangeCompiler.cell_zero hinv (Nat.le_of_not_lt hx)]
    unfold RangeCompiler.cell
    rw [List.getD_eq_getElem?_getD]
    by_cases hlen : x < (grown s.toCompiler k).length
    · rw [grown_above hinv (Nat.le_of_not_lt hx) hlen]
      rfl
    · rw [List.getElem?_eq_none (Nat.le_of_not_lt hlen)]
      rfl

/-- `AllocInst` hands out the instruction behind the last one, or has no room for it. -/
theorem alloc_grows {P : Event → Prop} {sound : Prop} (hinv : Inv s.toCompiler)
    (hf : s.failed = false) (hP : ∀ s', Grown s s' → P (.handOut s.ninst s')) :
    Ensures P (alloc g) s fun id s' =>
      (id < 0 ∧ Refused sound s') ∨ (id = s.ninst ∧ Grown s s') := by
  by_cases hacc : Accepts s.toCompiler 1
  · have hval := allocInstWith_val (g := g s.toCompiler) hinv hacc copies_copyN
    have hinv' := hinv.allocInst (g := g s.toCompiler) (Nat.le_refl 1)
    unfold allocInst at hinv'
    rw [hval] at hinv'
    have hgrown : Grown s { s with inst := grown s.toCompiler 1, ninst := s.ninst + 1 } :=
      ⟨hinv', hacc.1, rfl, cell_grown hinv, rfl, rfl, rfl⟩
    unfold alloc
    apply Ensures.after Silent.read
    unfold allocInst
    rw [hval]
    refine ⟨?_, .inr ⟨rfl, hgrown⟩⟩
    intro e he
    rw [List.mem_singleton.1 he]
    exact hP _ hgrown
  · refine .of_silent (Silent.alloc hacc) (.inl ⟨by decide, rfl, fun _ => ?_⟩)
    have hroom : ¬ (s.ninst + 1 : Int) ≤ s.maxNinst := fun hle => hacc ⟨hf, hle⟩
    exact Int.not_le.1 hroom

/-- No instruction that is handed out is in use, where those in use are below `ninst_`. -/
theorem alloc_ensures {base : Nat} {sound : Prop} (hinv : Inv s.toCompiler)
    (hf : s.failed = false) (hbase : base ≤ s.ninst) (hlive : ∀ x, s.Live x → x < s.ninst) :
    Ensures (Event.Ok base) (alloc g) s fun id s' =>
      (id < 0 ∧ Refused sound s') ∨ (id = s.ninst ∧ Grown s s') := by
  apply alloc_grows hinv hf
  intro s' hs'
  refine ⟨hbase, hs'.ninst.symm, hs'.inv.used, fun hl => ?_, fun i hi hlen => ?_⟩
  · unfold RangeCompiler.Live at hl
    rw [hs'.cell, hs'.cache, hs'.range] at hl
    exact absurd (hlive _ hl) (Nat.lt_irrefl _)
  · have hcell : s'.cell i = Inst.zero := by
      rw [hs'.cell, RangeCompiler.cell_zero hinv hi]
    unfold RangeCompiler.cell at hcell
    rw [List.getD_eq_getElem?_getD, List.getElem?_eq_getElem hlen, Option.getD_some] at hcell
    rw [List.getElem?_eq_getElem hlen, hcell]

end

end FourFuzzers.Re2
