import FourFuzzers.Re2.Verify.Fragments
import FourFuzzers.Re2.Verify.Suffix

/-!
# The constructions of the compiler

What each construction leaves behind: a fragment with the language that is wanted, which owns new
instructions and those of its parts, while all other instructions stay as they are. Or there was no
room for an instruction, and the compiler has failed.
-/

namespace FourFuzzers.Re2

open FourFuzzers.Lib FourFuzzers.Lib.Traced FourFuzzers.Lib.Stateful

/-- No loop budget of the model runs out. -/
def Event.Fueled : Event → Prop
  | outOfFuel => False
  | _ => True

/-- A compiler that has not failed, with the fail instruction of the constructor. -/
structure Good (s : RangeCompiler) : Prop where
  inv : Inv s.toCompiler
  failed : s.failed = false
  pos : 0 < s.ninst
  fail : (s.cell 0).opcode = Inst.opFail

/-- `s'` comes from `s` by changes of `W` and of new instructions. -/
structure Step (W : Set Nat) (s s' : RangeCompiler) : Prop where
  good : Good s'
  ninst : s.ninst ≤ s'.ninst
  reversed : s'.reversed = s.reversed
  cell : ∀ x, x < s.ninst → x ∉ W → s'.cell x = s.cell x

/-- From `s`, the fragment `f` for `L` has been built in `s'` from `W` and new instructions. -/
def Yields (W : Set Nat) (L : Lang) (s : RangeCompiler) (f : Fragment) (s' : RangeCompiler) : Prop :=
  ∃ own, (∀ x ∈ own, x < s'.ninst ∧ (x < s.ninst → x ∈ W)) ∧ Step W s s' ∧
    Realizes s'.cell own f L

/-- The fragment has been built, or there was no room for it. -/
def Builds (W : Set Nat) (L : Lang) (s : RangeCompiler) (f : Fragment) (s' : RangeCompiler) : Prop :=
  (f = .noMatch ∧ Failed s') ∨ Yields W L s f s'

section

variable {s s' s'' : RangeCompiler} {W W' A B own : Set Nat} {L LA LB : Lang} {a b f : Fragment}
  {holes hs : List Nat} {x : Nat} {g : Compiler → Garbage}

theorem Step.refl (hs : Good s) : Step W s s := ⟨hs, Nat.le_refl _, rfl, fun _ _ _ => rfl⟩

theorem Step.trans (h : Step W s s') (h' : Step W' s' s'')
    (hsub : ∀ x ∈ W', x < s.ninst → x ∈ W) : Step W s s'' where
  good := h'.good
  ninst := Nat.le_trans h.ninst h'.ninst
  reversed := h'.reversed.trans h.reversed
  cell x hx hW := (h'.cell x (Nat.lt_of_lt_of_le hx h.ninst) fun hx' => hW (hsub x hx' hx)).trans
    (h.cell x hx hW)

theorem Step.mono (h : Step W s s') (hsub : W ⊆ W') : Step W' s s' :=
  ⟨h.good, h.ninst, h.reversed, fun x hx hW => h.cell x hx fun hx' => hW (hsub hx')⟩

/-- A fragment that is left alone stays the same. -/
theorem Step.realizes (h : Step W s s') (hs : Good s) (hf : Realizes s.cell own f L)
    (hlt : ∀ x ∈ own, x < s.ninst) (hdisj : Disjoint W own) (h0 : 0 ∉ W) :
    Realizes s'.cell own f L := by
  apply hf.frame hs.fail
  rintro x (rfl | hx)
  · exact h.cell 0 hs.pos h0
  · exact h.cell x (hlt x hx) fun hW => Set.disjoint_left.1 hdisj hW hx

/-! ## New instructions -/

/-- `s'` is `s` with the instruction `ip` on top. -/
structure Fresh (ip : Inst) (s s' : RangeCompiler) : Prop where
  good : Good s'
  ninst : s'.ninst = s.ninst + 1
  reversed : s'.reversed = s.reversed
  cell : s'.cell = Function.update s.cell s.ninst ip

theorem Good.lt_pow (h : Good s) (hx : x ≤ 2 * s.ninst + 1) : x < 2 ^ 28 := by
  have := h.inv.ninst_le
  omega

theorem alloc_fueled (hs : Good s) :
    Ensures Event.Fueled (alloc g) s fun id s' =>
      (id < 0 ∧ Refused True s') ∨ (id = s.ninst ∧ Grown s s') :=
  alloc_grows hs.inv hs.failed fun _ _ => trivial

/-- A new instruction is set for the first time. -/
theorem Good.fresh (hs : Good s) (hg : Grown s s') {F : Inst → Inst} :
    Fresh (F Inst.zero) s (s'.modify s.ninst F) := by
  have hcell := @RangeCompiler.cell_modify s' s.ninst F (Nat.lt_of_lt_of_le hg.lt hg.inv.used)
  rw [hg.cell, RangeCompiler.cell_zero hs.inv (Nat.le_refl _)] at hcell
  refine ⟨⟨hg.inv.modify hg.lt, hg.failed, ?_, ?_⟩, hg.ninst, hg.reversed, hcell⟩
  · exact Nat.lt_trans hs.pos hg.lt
  · rw [hcell, Function.update_of_ne (Nat.ne_of_lt hs.pos)]
    exact hs.fail

theorem Fresh.cell_self {ip : Inst} (h : Fresh ip s s') : s'.cell s.ninst = ip := by
  rw [h.cell, Function.update_self]

theorem Fresh.cell_of_lt {ip : Inst} (h : Fresh ip s s') (hx : x < s.ninst) :
    s'.cell x = s.cell x := by
  rw [h.cell, Function.update_of_ne (Nat.ne_of_lt hx)]

theorem Fresh.step {ip : Inst} (h : Fresh ip s s') : Step W s s' :=
  ⟨h.good, by rw [h.ninst]; exact Nat.le_succ _, h.reversed, fun _ hx _ => h.cell_of_lt hx⟩

theorem Failed.alloc (h : Failed s) : Silent (alloc g) s (-1) s := by
  have hf : s.failed = true := h
  have hsame : { s with failed := true } = s := by rw [← hf]
  have halloc := @Silent.alloc s g h.not_accepts
  rwa [hsame] at halloc

/-- An instruction that is left through a hole or not at all. -/
theorem Fresh.leaf {ip : Inst} {nullable : Bool} (h : Fresh ip s s') (hs : Good s)
    (hout : ip.out = 0) (hslots : ip.slots s.ninst = [s.ninst * 2])
    (hnext : ∀ text p port p', (port, p') ∈ ip.next text s.ninst p ↔
      port = .slot (s.ninst * 2) ∧ L text p none p')
    (hL : L.Plain) (hnull : nullable = false → ∀ text p, ¬ L text p none p) :
    Yields W L s ⟨⟨s.ninst, .mk1 (s.ninst * 2)⟩, nullable⟩ s' := by
  have hdiv : s.ninst * 2 / 2 = s.ninst := by omega
  have htarget : target s'.cell (s.ninst * 2) = 0 := by
    unfold target
    rw [if_neg (by omega), hdiv, h.cell_self, hout]
  refine ⟨{s.ninst}, ?_, h.step, [s.ninst * 2], ?_, ?_, hnull⟩
  · rintro x rfl
    exact ⟨by rw [h.ninst]; exact Nat.lt_succ_self _, fun hlt => absurd hlt (Nat.lt_irrefl _)⟩
  · refine ⟨⟨?_, ?_, ?_⟩, .inr rfl, ⟨rfl, htarget⟩, ?_, List.nodup_singleton _⟩
    · exact fun h0 => Nat.ne_of_gt hs.pos h0.symm
    · intro r hr
      rw [List.mem_singleton.1 hr]
      exact ⟨hdiv, by omega⟩
    · rintro x rfl r hr hmem
      rw [h.cell_self, hslots] at hr
      exact absurd hr hmem
    · intro r hr
      exact Option.some.inj hr
  · apply denotes_leaf _ hL (List.mem_singleton_self _)
    rw [h.cell_self]
    exact hnext

/-! ## Leaves -/

theorem nop_builds (hs : Good s) : Ensures Event.Fueled (nop g) s (Builds W .empty s) := by
  unfold nop
  apply (alloc_fueled hs).bind
  rintro id s₁ (⟨hneg, hfail⟩ | ⟨rfl, hg⟩)
  · rw [if_pos hneg]
    exact .pure (.inl ⟨rfl, hfail.failed⟩)
  · rw [if_neg (by omega), Int.toNat_natCast]
    apply Ensures.after Silent.update
    apply Ensures.pure
    have hop : (Inst.zero.initNop).opcode = Inst.opNop := rfl
    refine .inr ((hs.fresh hg).leaf hs rfl ?_ ?_ ?_ (by simp))
    · simp [Inst.slots, hop, Inst.opNop, Inst.opAlt, Inst.opAltMatch, Inst.opMatch, Inst.opFail]
    · simp [Inst.next, hop, Inst.opNop, Inst.opAlt, Inst.opAltMatch, Inst.opByteRange, Lang.empty]
    · simp [Lang.Plain, Lang.empty]

/-- The empty-width flags of an instruction. -/
theorem Inst.initEmptyWidth_fields {empty : Nat} (h : empty < 2 ^ 32) :
    (Inst.zero.initEmptyWidth empty 0).opcode = Inst.opEmptyWidth ∧
      (Inst.zero.initEmptyWidth empty 0).out = 0 ∧
      (Inst.zero.initEmptyWidth empty 0).empty = empty :=
  ⟨rfl, by simp [initEmptyWidth, setOutOpcode, out, last, zero, opEmptyWidth],
    Nat.mod_eq_of_lt h⟩

theorem emptyWidth_builds {empty : Nat} (hs : Good s) (hempty : empty < 2 ^ 32) :
    Ensures Event.Fueled (emptyWidth g empty) s (Builds W (.assert empty) s) := by
  unfold emptyWidth
  apply (alloc_fueled hs).bind
  rintro id s₁ (⟨hneg, hfail⟩ | ⟨rfl, hg⟩)
  · rw [if_pos hneg]
    exact .pure (.inl ⟨rfl, hfail.failed⟩)
  · rw [if_neg (by omega), Int.toNat_natCast]
    apply Ensures.after Silent.update
    apply Ensures.pure
    obtain ⟨hop, hout, hemp⟩ := Inst.initEmptyWidth_fields hempty
    refine .inr ((hs.fresh hg).leaf hs hout ?_ ?_ ?_ (by simp))
    · simp [Inst.slots, hop, Inst.opEmptyWidth, Inst.opAlt, Inst.opAltMatch, Inst.opMatch,
        Inst.opFail]
    · intro text p port p'
      by_cases hflags : empty &&& emptyFlags text p = empty <;>
        simp [Inst.next, hop, hemp, hflags, Inst.opEmptyWidth, Inst.opAlt, Inst.opAltMatch,
          Inst.opByteRange, Inst.opCapture, Inst.opNop, Lang.assert]
    · simp [Lang.Plain, Lang.assert]

/-- The texts of one byte that a byte range admits. -/
def byteTexts (a : Sym) : Set (List Nat) :=
  {w | ∃ c, w = [c] ∧ a.lo ≤ Inst.foldByte a.fold c ∧ Inst.foldByte a.fold c ≤ a.hi}

theorem singleton_prefix {α : Type} {c : α} {text : List α} {p : Nat} :
    [c] <+: text.drop p ↔ text[p]? = some c := by
  rw [← List.head?_drop]
  cases text.drop p with
  | nil => simp
  | cons d rest => simp [List.cons_prefix_cons, eq_comm]

/-- A byte range reads one byte. -/
theorem Inst.mem_next_byteRange {ip : Inst} {text : List Nat} {p : Nat} {port : Port} {p' : Nat}
    (hop : ip.opcode = Inst.opByteRange) :
    (port, p') ∈ ip.next text x p ↔
      port = .slot (x * 2) ∧ Lang.spell (byteTexts ip.sym) text p none p' := by
  have hadmits : ∀ c, ip.admits c = true ↔
      ip.lo ≤ Inst.foldByte ip.foldcase c ∧ Inst.foldByte ip.foldcase c ≤ ip.hi := fun c => by
    simp [Inst.admits]
  have hspell : Lang.spell (byteTexts ip.sym) text p none p' ↔
      ∃ c, text[p]? = some c ∧ ip.admits c = true ∧ p' = p + 1 := by
    constructor
    · rintro ⟨-, _, ⟨c, rfl, hc⟩, hpre, rfl⟩
      exact ⟨c, singleton_prefix.1 hpre, (hadmits c).2 hc, rfl⟩
    · rintro ⟨c, htext, hc, rfl⟩
      exact ⟨rfl, [c], ⟨c, rfl, (hadmits c).1 hc⟩, singleton_prefix.2 htext, rfl⟩
  rw [hspell]
  unfold Inst.next
  rw [hop, if_neg (by decide), if_pos rfl]
  cases htext : text[p]? with
  | none => simp
  | some c =>
    by_cases hc : ip.admits c = true <;> simp [hc]

theorem byteRange_builds {c : Sym} (hs : Good s) (hc : c.Valid) :
    Ensures Event.Fueled (byteRange g c.lo c.hi c.fold) s fun f s' =>
      (f = .noMatch ∧ Refused True s') ∨
        Yields W (.spell (byteTexts c)) s ⟨f, false⟩ s' ∧ s'.runeRange = s.runeRange := by
  unfold byteRange
  apply (alloc_fueled hs).bind
  rintro id s₁ (⟨hneg, hfail⟩ | ⟨rfl, hg⟩)
  · rw [if_pos hneg]
    exact .pure (.inl ⟨rfl, hfail⟩)
  · rw [if_neg (by omega), Int.toNat_natCast]
    apply Ensures.after Silent.update
    apply Ensures.pure
    obtain ⟨hop, hsym, hout⟩ := @Inst.initByteRange_fields Inst.zero 0 c hc (by omega)
    refine .inr ⟨(hs.fresh hg).leaf hs hout ?_ ?_ ?_ ?_, hg.range⟩
    · simp [Inst.slots, hop, Inst.opByteRange, Inst.opAlt, Inst.opAltMatch, Inst.opMatch,
        Inst.opFail]
    · intro text p port p'
      rw [Inst.mem_next_byteRange hop, hsym]
    · simp [Lang.Plain, Lang.spell]
    · rintro - text p ⟨-, _, ⟨c, rfl, -⟩, -, hlen⟩
      simp at hlen

theorem byteRangeFragment_builds {c : Sym} (hs : Good s) (hc : c.Valid) :
    Ensures Event.Fueled (byteRangeFragment g c.lo c.hi c.fold) s
      (Builds W (.spell (byteTexts c)) s) := by
  unfold byteRangeFragment
  apply (byteRange_builds hs hc).bind
  rintro f s' (⟨rfl, hfail⟩ | ⟨hyields, -⟩)
  · exact .pure (.inl ⟨rfl, hfail.failed⟩)
  · exact .pure (.inr hyields)

theorem matchFragment_builds {id : Nat} (hs : Good s) (hid : id < 2 ^ 32) :
    Ensures Event.Fueled (matchFragment g id) s (Builds W (.signal id) s) := by
  unfold matchFragment
  apply (alloc_fueled hs).bind
  rintro i s₁ (⟨hneg, hfail⟩ | ⟨rfl, hg⟩)
  · rw [if_pos hneg]
    exact .pure (.inl ⟨rfl, hfail.failed⟩)
  · rw [if_neg (by omega), Int.toNat_natCast]
    apply Ensures.after Silent.update
    apply Ensures.pure
    have h := hs.fresh hg (F := (·.initMatch id))
    have hop : (Inst.zero.initMatch id).opcode = Inst.opMatch := rfl
    have harg : (Inst.zero.initMatch id).matchId = id := Nat.mod_eq_of_lt hid
    refine .inr ⟨{s.ninst}, ?_, h.step, [], ⟨⟨?_, by simp, ?_⟩, .inr rfl, rfl, by simp, by simp⟩, ?_,
      by simp [Lang.signal]⟩
    · rintro x rfl
      exact ⟨by rw [h.ninst]; exact Nat.lt_succ_self _, fun hlt => absurd hlt (Nat.lt_irrefl _)⟩
    · exact fun h0 => Nat.ne_of_gt hs.pos h0.symm
    · rintro x rfl r hr
      rw [h.cell_self] at hr
      simp [Inst.slots, hop, Inst.opMatch, Inst.opAlt, Inst.opAltMatch] at hr
    · intro text p e p'
      have hnext : ∀ port p', (port, p') ∈ (Inst.zero.initMatch id).next text s.ninst p ↔
          port = .matched id ∧ p' = p := by
        simp [Inst.next, hop, harg, Inst.opMatch, Inst.opAlt, Inst.opAltMatch, Inst.opByteRange,
          Inst.opCapture, Inst.opNop, Inst.opEmptyWidth]
      rw [Network.exits_iff]
      change (∃ port p₁, (port, p₁) ∈ (RangeCompiler.cell _ s.ninst).next text s.ninst p ∧ _) ↔ _
      rw [h.cell_self]
      simp only [hnext]
      constructor
      · rintro ⟨port, p₁, ⟨rfl, rfl⟩, ⟨hwire, rfl⟩ | ⟨y, hwire, -⟩⟩
        · exact ⟨(Sum.inr.inj hwire).symm, rfl⟩
        · cases hwire
      · rintro ⟨rfl, rfl⟩
        exact ⟨_, _, ⟨rfl, rfl⟩, .inl ⟨rfl, rfl⟩⟩

/-! ## Fragments and their parts -/

theorem Inst.next_le {ip : Inst} {text : List Nat} {p p' : Nat} {port : Port}
    (h : (port, p') ∈ ip.next text x p) : p ≤ p' := by
  simp only [Inst.next] at h
  split_ifs at h
  · simp only [List.mem_cons, Prod.mk.injEq, List.not_mem_nil, or_false] at h
    omega
  · split at h
    · split at h
      · simp only [List.mem_cons, Prod.mk.injEq, List.not_mem_nil, or_false] at h
        omega
      · cases h
    · cases h
  all_goals simp only [List.mem_cons, Prod.mk.injEq, List.not_mem_nil, or_false] at h
  all_goals omega

/-- Runs go forward. -/
theorem exits_le {cell : Nat → Inst} {text : List Nat} {p p' : Nat} {e : Option Nat}
    (h : (net cell holes text).Exits x p e p') : p ≤ p' := by
  induction h with
  | leave hact _ => exact Inst.next_le hact
  | follow hact _ _ ih => exact Nat.le_trans (Inst.next_le hact) ih

theorem Denotes.le {cell : Nat → Inst} (h : Denotes cell holes x L) {text : List Nat} {p p' : Nat}
    {e : Option Nat} (hL : L text p e p') : p ≤ p' :=
  exits_le ((h text p e p').2 hL)

theorem Wired.slots (h : Wired s.cell own holes f.toFrag) (hlt : ∀ x ∈ own, x < s.ninst) :
    Slots s holes := by
  intro r hr
  obtain ⟨hmem, hodd⟩ := h.hole r hr
  refine ⟨Nat.pos_of_ne_zero ?_, hlt _ hmem, hodd⟩
  rintro rfl
  exact h.pos hmem

theorem Wired.begin_lt (h : Wired s.cell own holes f.toFrag) (hs : Good s)
    (hlt : ∀ x ∈ own, x < s.ninst) : f.begin < s.ninst := by
  rcases h.begin with h0 | hmem
  · rw [h0]
    exact hs.pos
  · exact hlt _ hmem

theorem Good.rewired (hs : Good s) (h : Rewired holes s s') : Good s' where
  inv := h.inv
  failed := h.failed.trans hs.failed
  pos := by
    rw [h.ninst]
    exact hs.pos
  fail := (h.opcode 0).trans hs.fail

theorem Rewired.step (h : Rewired holes s s') (hs : Good s) (hsub : ∀ r ∈ holes, r / 2 ∈ W) :
    Step W s s' where
  good := hs.rewired h
  ninst := Nat.le_of_eq h.ninst.symm
  reversed := h.reversed
  cell x _ hx := h.cell x fun r hr hdiv => hx (hdiv ▸ hsub r hr)

theorem realizes_noMatch (hfail : (s.cell 0).opcode = Inst.opFail) :
    Realizes s.cell ∅ .noMatch .none :=
  ⟨[], ⟨⟨Set.notMem_empty 0, by simp, by simp⟩, .inl rfl, rfl, by simp, by simp⟩, denotes_fail hfail,
    fun _ _ _ h => h⟩

/-- A fragment without a begin matches nothing. -/
theorem Realizes.eq_none (h : Realizes s.cell own f L) (hfail : (s.cell 0).opcode = Inst.opFail)
    (hf : f.isNoMatch = true) : L = .none := by
  obtain ⟨holes, -, hden, -⟩ := h
  have h0 : f.begin = 0 := of_decide_eq_true hf
  rw [h0] at hden
  exact hden.unique (denotes_fail hfail)

theorem yields_noMatch (hs : Good s) : Yields W .none s .noMatch s :=
  ⟨∅, by simp, .refl hs, realizes_noMatch hs.fail⟩

/-- A fragment that is returned as it is. -/
theorem Realizes.yields (h : Realizes s.cell own f L) (hs : Good s) (hlt : ∀ x ∈ own, x < s.ninst)
    (hsub : own ⊆ W) : Yields W L s f s :=
  ⟨own, fun x hx => ⟨hlt x hx, fun _ => hsub hx⟩, .refl hs, h⟩

/-! ## Concatenation -/

/-- The holes of `a` are patched with `b`. -/
theorem connect_silent (hs : Good s) (ha : Realizes s.cell A a LA) (hb : Realizes s.cell B b LB)
    (hA : ∀ x ∈ A, x < s.ninst) (hB : ∀ x ∈ B, x < s.ninst) (hdisj : Disjoint A B) :
    ∃ s', Silent (patchList a.ends b.begin) s ⟨⟩ s' ∧
      Yields (A ∪ B) (LA.seq LB) s ⟨⟨a.begin, b.ends⟩, a.nullable && b.nullable⟩ s' ∧
      Realizes s'.cell B b LB := by
  obtain ⟨hsa, wa, da, na⟩ := ha
  obtain ⟨hsb, wb, db, nb⟩ := hb
  have hbegin := wb.begin_lt hs hB
  obtain ⟨s', hrun, hrew, hset⟩ := patchList_silent hs.inv
    (@Good.lt_pow s b.begin hs (by omega)) wa.nodup (wa.slots hA) wa.entries
  have hnotA : ∀ {x}, x ∈ B → x ∉ A := fun hx hx' => Set.disjoint_left.1 hdisj hx' hx
  have hnotB : ∀ {x}, x ∈ A → x ∉ B := fun hx hx' => Set.disjoint_left.1 hdisj hx hx'
  have hab : ∀ r ∈ hsa, r / 2 ∈ B → r ∈ hsb := fun r hr hrB => absurd (wa.hole r hr).1 (hnotA hrB)
  have hkeep := (hrew.step (W := A) hs fun r hr => (wa.hole r hr).1).realizes hs ⟨hsb, wb, db, nb⟩ hB
    hdisj wa.pos
  refine ⟨s', hrun, ⟨A ∪ B, ?_, hrew.step hs fun r hr => .inl (wa.hole r hr).1, hsb, ?_, ?_, ?_⟩,
    hkeep⟩
  · intro x hx
    rw [hrew.ninst]
    exact ⟨hx.elim (hA x) (hB x), fun _ => hx⟩
  · refine ⟨⟨?_, ?_, ?_⟩, ?_, ?_, wb.tail, wb.nodup⟩
    · rintro (h0 | h0)
      · exact wa.pos h0
      · exact wb.pos h0
    · intro r hr
      rw [hrew.opcode]
      exact ⟨.inr (wb.hole r hr).1, (wb.hole r hr).2⟩
    · rintro x (hx | hx) r hr hmem
      · rcases wa.target_cases hrew.sameOn (fun _ h _ => h) hx hr with hra | htarget
        · rw [hset r hra]
          exact Set.insert_subset_insert Set.subset_union_right wb.begin
        · exact Set.insert_subset_insert Set.subset_union_left htarget
      · rcases wb.target_cases hrew.sameOn hab hx hr with hrb | htarget
        · exact absurd hrb hmem
        · exact Set.insert_subset_insert Set.subset_union_right htarget
    · exact Set.insert_subset_insert Set.subset_union_left wa.begin
    · apply wb.entries.congr
      intro r hr
      exact hrew.target r fun hra => hnotA (wb.hole r hr).1 (wa.hole r hra).1
  · apply wa.denotes_seq hs.fail da hrew.sameOn hset
    · exact fun r hr hrb => hnotB hr (wb.hole r hrb).1
    · intro text p e p'
      rw [← db text p e p']
      exact wb.exits_same hs.fail hrew.sameOn hab (fun _ _ => Iff.rfl) wb.begin
  · rintro hnull text p (⟨hne, -⟩ | ⟨p₁, hLA, hLB⟩)
    · exact hne rfl
    · obtain rfl : p₁ = p := Nat.le_antisymm (db.le hLB) (da.le hLA)
      rcases Bool.and_eq_false_iff.1 hnull with hnull | hnull
      · exact na hnull text _ hLA
      · exact nb hnull text _ hLB

/-- A no-op that leads nowhere yet matches nothing and does nothing. -/
theorem Wired.of_nop (h : Wired s.cell own holes f.toFrag) (hne : f.begin ≠ 0)
    (hop : (s.cell f.begin).opcode = Inst.opNop) (hhead : f.ends.head = f.begin * 2)
    (hout : (s.cell f.begin).out = 0) : holes = [f.begin * 2] ∧ Denotes s.cell holes f.begin .empty := by
  have hholes : holes = [f.begin * 2] := by
    have hentries := h.entries
    rw [hhead] at hentries
    cases holes with
    | nil =>
      have h0 : f.begin * 2 = 0 := hentries
      omega
    | cons r rest =>
      obtain ⟨rfl, hrest⟩ := hentries
      have htarget : target s.cell (f.begin * 2) = 0 := by
        unfold target
        rw [if_neg (by omega), Nat.mul_div_cancel _ (by omega), hout]
      rw [htarget] at hrest
      cases rest with
      | nil => rfl
      | cons r' rest =>
        have hmem := (h.hole r' (by simp)).1
        rw [← hrest.1] at hmem
        exact absurd hmem h.pos
  refine ⟨hholes, ?_⟩
  rw [hholes]
  apply denotes_leaf _ _ (List.mem_singleton_self _)
  · simp [Inst.next, hop, Inst.opNop, Inst.opAlt, Inst.opAltMatch, Inst.opByteRange, Lang.empty]
  · simp [Lang.Plain, Lang.empty]

/-- What comes first in a concatenation signals no match. -/
def CatPlain (reversed : Bool) (LA LB : Lang) : Prop := if reversed then LB.Plain else LA.Plain

theorem cat_noMatch (h : a.isNoMatch = true ∨ b.isNoMatch = true) :
    Silent (cat a b) s .noMatch s := by
  unfold cat
  rw [if_pos (by simpa using h)]
  exact .pure

theorem cat_silent (hs : Good s) (ha : Realizes s.cell A a LA) (hb : Realizes s.cell B b LB)
    (hA : ∀ x ∈ A, x < s.ninst) (hB : ∀ x ∈ B, x < s.ninst) (hdisj : Disjoint A B)
    (hplain : CatPlain s.reversed LA LB) :
    ∃ f s', Silent (cat a b) s f s' ∧ Yields (A ∪ B) (.cat s.reversed LA LB) s f s' ∧
      (s.reversed = false → Realizes s'.cell B b LB) := by
  by_cases hno : a.isNoMatch = true ∨ b.isNoMatch = true
  · refine ⟨.noMatch, s, cat_noMatch hno, ?_, fun _ => hb⟩
    have hnone : Lang.cat s.reversed LA LB = .none := by
      unfold CatPlain at hplain
      unfold Lang.cat
      rcases hno with h | h
      · rw [ha.eq_none hs.fail h] at hplain ⊢
        split at hplain
        next hrev => rw [if_pos hrev, Lang.seq_none hplain]
        next hrev => rw [if_neg hrev, Lang.none_seq]
      · rw [hb.eq_none hs.fail h] at hplain ⊢
        split at hplain
        next hrev => rw [if_pos hrev, Lang.none_seq]
        next hrev => rw [if_neg hrev, Lang.seq_none hplain]
    rw [hnone]
    exact yields_noMatch hs
  · have hne : a.begin ≠ 0 := fun h0 => hno (.inl (decide_eq_true h0))
    unfold cat
    rw [if_neg (by simpa using hno)]
    by_cases hnop : (s.cell a.begin).opcode = Inst.opNop ∧ a.ends.head = a.begin * 2 ∧
        (s.cell a.begin).out = 0
    · obtain ⟨hsa, wa, da, -⟩ := ha
      have hbegin : b.begin < s.ninst := hb.elim fun _ h => h.1.begin_lt hs hB
      obtain ⟨s', hrun, hrew, -⟩ := patchList_silent hs.inv
        (@Good.lt_pow s b.begin hs (by omega)) wa.nodup (wa.slots hA) wa.entries
      have hstep : Step A s s' := hrew.step hs fun r hr => (wa.hole r hr).1
      have hkeep := hstep.realizes hs hb hB hdisj wa.pos
      refine ⟨b, s', ?_, ⟨B, ?_, hstep.mono Set.subset_union_left, ?_⟩, fun _ => hkeep⟩
      · apply Silent.load.bind
        rw [if_pos hnop]
        exact hrun.bind .pure
      · exact fun x hx => ⟨Nat.lt_of_lt_of_le (hB x hx) hstep.ninst, fun _ => .inr hx⟩
      · have hempty : Lang.cat s.reversed LA LB = LB := by
          unfold Lang.cat
          rw [da.unique (wa.of_nop hne hnop.1 hnop.2.1 hnop.2.2).2]
          split
          · exact Lang.seq_empty LB
          · exact Lang.empty_seq LB
        rw [hempty]
        exact hkeep
    · by_cases hrev : s.reversed = true
      · obtain ⟨s', hrun, hyields, -⟩ := connect_silent hs hb ha hB hA hdisj.symm
        refine ⟨⟨⟨b.begin, a.ends⟩, b.nullable && a.nullable⟩, s', ?_, ?_, fun h => ?_⟩
        · apply Silent.load.bind
          rw [if_neg hnop]
          apply Silent.read.bind
          rw [if_pos hrev]
          exact hrun.bind .pure
        · rw [Set.union_comm] at hyields
          unfold Lang.cat
          rw [if_pos hrev]
          exact hyields
        · exact absurd (hrev.symm.trans h) (by simp)
      · obtain ⟨s', hrun, hyields, hkeep⟩ := connect_silent hs ha hb hA hB hdisj
        refine ⟨⟨⟨a.begin, b.ends⟩, a.nullable && b.nullable⟩, s', ?_, ?_, fun _ => hkeep⟩
        · apply Silent.load.bind
          rw [if_neg hnop]
          apply Silent.read.bind
          rw [if_neg hrev]
          exact hrun.bind .pure
        · unfold Lang.cat
          rw [if_neg hrev]
          exact hyields

end

end FourFuzzers.Re2
