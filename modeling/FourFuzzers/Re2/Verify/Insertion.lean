import FourFuzzers.Re2.Verify.Readings

/-!
# What adding a suffix keeps

`AddSuffixRecursive` loses no word of the trie, and the new suffix is read behind its place. Where a
suffix that is cached is cloned, the clone reads what the suffix does; where the `out` of a byte
range changes, the new one reads what the old one did.
-/

namespace FourFuzzers.Re2

open FourFuzzers.Lib FourFuzzers.Lib.Traced FourFuzzers.Lib.Stateful

/-- A role that no change at places of `n` labels or more touches. -/
def Role.Outside (n : Nat) : Role → Prop
  | alt p => p.length < n
  | step p _ => p.length < n
  | shared _ => True

/-- A change at the place `p` and behind it, where the new root reads what the old one does. -/
structure Inside (P : Plan) (G G' : Ghost) (p : Word) (root root' : Nat) (s s' : RangeCompiler) :
    Prop extends Refines P G G' s s' where
  ends : G'.ends = G.ends
  outer : ∀ {x r}, G.role x = some r → r.Outside p.length → s'.cell x = s.cell x
  covers : ∀ {w}, Reads s'.cell G'.ends root w → Reads s'.cell G'.ends root' w

section

variable {P : Plan} {G G' : Ghost} {B : Nat} {s s' : RangeCompiler} {p v w : Word}
  {root id br c x y b : Nat} {f : Frag} {a : Sym} {g : Compiler → Garbage} {cell cell' : Nat → Inst} {sound : Prop}

theorem Role.Outside.mono {m n : Nat} {r : Role} (h : r.Outside m) (hmn : m ≤ n) :
    r.Outside n := by
  cases r with
  | alt p => exact Nat.lt_of_lt_of_le h hmn
  | step p a => exact Nat.lt_of_lt_of_le h hmn
  | shared v => trivial

/-! ## Byte ranges behind a place -/

theorem Down.heads (h : Down G p cell root x) (hx : Heads cell' x b)
    (hcell : ∀ y, G.role y = some (.alt p) → y ≠ x → cell' y = cell y)
    (hop : ∀ y, G.role y = some (.alt p) → (cell y).opcode = Inst.opAlt) :
    Heads cell' root b := by
  induction h with
  | refl => exact hx
  | @out y x hy _ ih =>
    by_cases hne : y = x
    · rw [hne]
      exact hx
    · have hsame := hcell y hy hne
      have ih := ih hx hcell
      rw [← hsame] at ih
      refine .out ?_ ih
      rw [hsame]
      exact hop y hy

/-- The byte range that is found is reached. -/
theorem Found.heads (hf : Found s G p root f br) (h : Fits P G B s)
    (hdown : Down G p s.cell root f.begin) : Heads s.cell root br := by
  have hop : ∀ y, G.role y = some (.alt p) → (s.cell y).opcode = Inst.opAlt := fun y hy =>
    (h.role hy).1
  have hself := Heads.self (h.opcode_branch (hf.branch h))
  cases hf with
  | root => exact hself
  | @right x hx => exact hdown.heads (.out1 (hop x hx) hself) (fun _ _ _ => rfl) hop
  | @left x hx _ => exact hdown.heads (.out (hop x hx) hself) (fun _ _ _ => rfl) hop

/-- The byte ranges behind a place depend on its alternatives only. -/
theorem Fits.heads_congr (h : Fits P G B s) (hx : G.Child p x) (hb : Heads s.cell x b)
    (halt : ∀ y, G.role y = some (.alt p) → cell' y = s.cell y)
    (hop : (cell' b).opcode = Inst.opByteRange) : Heads cell' x b := by
  induction hb with
  | self => exact .self hop
  | @out y b halt' _ ih =>
    rcases hx with hx | hx
    · have hsame := halt y hx
      have ih := ih ((h.role hx).2.2.elim .inr fun hout => .inl hout.1) hop
      rw [← hsame] at ih halt'
      exact .out halt' ih
    · exact absurd (halt'.symm.trans (h.opcode_branch hx)) (by decide)
  | @out1 y b halt' _ ih =>
    rcases hx with hx | hx
    · have hsame := halt y hx
      have ih := ih (.inr (h.role hx).2.1) hop
      rw [← hsame] at ih halt'
      exact .out1 halt' ih
    · exact absurd (halt'.symm.trans (h.opcode_branch hx)) (by decide)

/-! ## Clones -/

/-- Alternatives at the place `p` lead to `c` instead of `br`. -/
structure Redirected (G : Ghost) (p : Word) (br c : Nat) (s s' : RangeCompiler) : Prop where
  cell : ∀ x, G.role x ≠ some (.alt p) → s'.cell x = s.cell x
  opcode : ∀ x, (s'.cell x).opcode = (s.cell x).opcode
  out : ∀ x, (s.cell x).opcode = Inst.opAlt →
    (s'.cell x).out = (s.cell x).out ∨ (s.cell x).out = br ∧ (s'.cell x).out = c
  out1 : ∀ x, (s.cell x).opcode = Inst.opAlt →
    (s'.cell x).out1 = (s.cell x).out1 ∨ (s.cell x).out1 = br ∧ (s'.cell x).out1 = c

/-- Instruction `c` is a byte range with the fields of `br`, and both go on. -/
structure Clone (cell : Nat → Inst) (ends : List Nat) (br c : Nat) : Prop where
  opcode : (cell br).opcode = Inst.opByteRange
  opcode_clone : (cell c).opcode = Inst.opByteRange
  sym : (cell c).sym = (cell br).sym
  out : (cell c).out = (cell br).out
  not_mem : br ∉ ends
  clone_not_mem : c ∉ ends

theorem Clone.reads {ends : List Nat} (h : Clone cell ends br c) (hw : Reads cell ends br w) :
    Reads cell ends c w := by
  cases hw with
  | last hb hend =>
    rw [hb.eq_self h.opcode] at hend
    exact absurd hend h.not_mem
  | step hb _ hv =>
    rw [hb.eq_self h.opcode, ← h.out] at hv
    rw [hb.eq_self h.opcode, ← h.sym]
    exact .step (.self h.opcode_clone) h.clone_not_mem hv

theorem Redirected.heads (h : Redirected G p br c s s')
    (hbr : (s.cell br).opcode = Inst.opByteRange) (hc : (s.cell c).opcode = Inst.opByteRange)
    (hb : Heads s.cell x b) : ∃ b', Heads s'.cell x b' ∧ (b' = b ∨ b = br ∧ b' = c) := by
  have hself : Heads s'.cell c c := .self (by rw [h.opcode, hc])
  induction hb with
  | @self x hop => exact ⟨x, .self (by rw [h.opcode, hop]), .inl rfl⟩
  | @out x b hop hb ih =>
    have hop' : (s'.cell x).opcode = Inst.opAlt := by rw [h.opcode, hop]
    rcases h.out x hop with hout | ⟨hout, hout'⟩
    · obtain ⟨b', hb', hcases⟩ := ih
      rw [← hout] at hb'
      exact ⟨b', .out hop' hb', hcases⟩
    · rw [hout] at hb
      refine ⟨c, .out hop' ?_, .inr ⟨hb.eq_self hbr, rfl⟩⟩
      rw [hout']
      exact hself
  | @out1 x b hop hb ih =>
    have hop' : (s'.cell x).opcode = Inst.opAlt := by rw [h.opcode, hop]
    rcases h.out1 x hop with hout | ⟨hout, hout'⟩
    · obtain ⟨b', hb', hcases⟩ := ih
      rw [← hout] at hb'
      exact ⟨b', .out1 hop' hb', hcases⟩
    · rw [hout] at hb
      refine ⟨c, .out1 hop' ?_, .inr ⟨hb.eq_self hbr, rfl⟩⟩
      rw [hout']
      exact hself

/-- What is read through `br` is read through `c`. -/
theorem Redirected.reads {ends : List Nat} (h : Redirected G p br c s s')
    (hc : Clone s.cell ends br c) (halt : ∀ x, G.role x = some (.alt p) → (s.cell x).opcode = Inst.opAlt)
    (hw : Reads s.cell ends x w) : Reads s'.cell ends x w := by
  have hcell : ∀ {b}, (s.cell b).opcode = Inst.opByteRange → s'.cell b = s.cell b := fun hop =>
    h.cell _ fun hr => absurd ((halt _ hr).symm.trans hop) (by decide)
  refine Reads.sim (R := Eq) ?_ rfl hw
  rintro x _ b rfl hb
  obtain ⟨b', hb', rfl | ⟨rfl, rfl⟩⟩ := h.heads hc.opcode hc.opcode_clone hb
  · refine ⟨b', hb', ?_⟩
    rw [hcell hb.opcode]
    exact ⟨rfl, Iff.rfl, fun _ => rfl⟩
  · refine ⟨b', hb', ?_⟩
    rw [hcell hc.opcode_clone, hc.sym, hc.out]
    exact ⟨rfl, iff_of_false hc.clone_not_mem hc.not_mem, fun _ => rfl⟩

theorem redirected_modify {F : Inst → Inst} (hx : G.role x = some (.alt p))
    (hlt : x < s.inst.length) (hop : (F (s.cell x)).opcode = (s.cell x).opcode)
    (hout : (F (s.cell x)).out = (s.cell x).out ∨ (s.cell x).out = br ∧ (F (s.cell x)).out = c)
    (hout1 : (F (s.cell x)).out1 = (s.cell x).out1 ∨
      (s.cell x).out1 = br ∧ (F (s.cell x)).out1 = c) :
    Redirected G p br c s (s.modify x F) := by
  have hcell := @RangeCompiler.cell_modify s x F hlt
  have hself : (s.modify x F).cell x = F (s.cell x) := by rw [hcell, Function.update_self]
  have hother : ∀ y, y ≠ x → (s.modify x F).cell y = s.cell y := fun y hne => by
    rw [hcell, Function.update_of_ne hne]
  refine ⟨fun y hy => hother y ?_, fun y => ?_, fun y _ => ?_, fun y _ => ?_⟩
  · rintro rfl
    exact hy hx
  · by_cases hne : y = x
    · rw [hne, hself, hop]
    · rw [hother y hne]
  · by_cases hne : y = x
    · rw [hne, hself]
      exact hout
    · exact .inl (by rw [hother y hne])
  · by_cases hne : y = x
    · rw [hne, hself]
      exact hout1
    · exact .inl (by rw [hother y hne])

/-- The parent of the byte range that was found leads to `c`. -/
theorem Found.redirected {root' : Nat} {s'' : RangeCompiler} (hf : Found s G p root f br)
    (h : Fits P G B s)
    (hsame : ∀ {x r}, G.role x = some r → s'.cell x = s.cell x)
    (hrole : ∀ {x}, G.role x = some (.alt p) → x < s'.inst.length) (hc : c < 2 ^ 28)
    (hop : (s'.cell c).opcode = Inst.opByteRange) (hdown : Down G p s.cell root f.begin)
    (hred : Silent (Re2.redirect root f c) s' root' s'') :
    Redirected G p br c s' s'' ∧ (root' = root ∨ root = br ∧ root' = c) ∧
      Heads s''.cell root' c := by
  have halt : ∀ y, G.role y = some (.alt p) → (s.cell y).opcode = Inst.opAlt := fun y hy =>
    (h.role hy).1
  have hdowncell : ∀ {x F}, G.role x = some (.alt p) → ∀ y, G.role y = some (.alt p) → y ≠ x →
      (s'.modify x F).cell y = s.cell y := by
    intro x F hx y hy hne
    rw [RangeCompiler.cell_modify (hrole hx), Function.update_of_ne hne, hsame hy]
  unfold Re2.redirect at hred
  cases hf with
  | root hroot =>
    obtain ⟨rfl, rfl⟩ := Silent.unique .pure hred
    exact ⟨⟨fun _ _ => rfl, fun _ => rfl, fun _ _ => .inl rfl, fun _ _ => .inl rfl⟩,
      .inr ⟨rfl, rfl⟩, .self hop⟩
  | @right x hx =>
    have hsilent : Silent (Re2.redirect root ⟨x, .mk1 (x * 2 + 1)⟩ c) s' root
        (s'.modify x (·.setOut1 c)) := by
      change Silent (if x * 2 + 1 = 0 then _ else if (x * 2 + 1) % 2 = 1 then _ else _) s' _ _
      rw [if_neg (by omega), if_pos (by omega)]
      exact Silent.update.bind .pure
    obtain ⟨rfl, rfl⟩ := hsilent.unique hred
    have hredirected : Redirected G p (s.cell x).out1 c s' (s'.modify x (·.setOut1 c)) :=
      redirected_modify hx (hrole hx) rfl (.inl rfl)
        (.inr ⟨by rw [hsame hx], Inst.out1_setOut1 hc⟩)
    have hlead : ((s'.modify x (·.setOut1 c)).cell x).out1 = c := by
      rw [RangeCompiler.cell_modify (hrole hx), Function.update_self, Inst.out1_setOut1 hc]
    refine ⟨hredirected, .inl rfl, hdown.heads ?_ (hdowncell hx) halt⟩
    refine .out1 (by rw [hredirected.opcode, hsame hx, halt x hx]) ?_
    rw [hlead]
    exact .self (by rw [hredirected.opcode, hop])
  | @left x hx _ =>
    have hpos := (h.bound hx).1
    have hsilent : Silent (Re2.redirect root ⟨x, .mk1 (x * 2)⟩ c) s' root
        (s'.modify x (·.setOut c)) := by
      change Silent (if x * 2 = 0 then _ else if x * 2 % 2 = 1 then _ else _) s' _ _
      rw [if_neg (by omega), if_neg (by omega)]
      exact Silent.update.bind .pure
    obtain ⟨rfl, rfl⟩ := hsilent.unique hred
    have hredirected : Redirected G p (s.cell x).out c s' (s'.modify x (·.setOut c)) :=
      redirected_modify hx (hrole hx) (Inst.opcode_setOut hc)
        (.inr ⟨by rw [hsame hx], Inst.out_setOut hc⟩) (.inl rfl)
    have hlead : ((s'.modify x (·.setOut c)).cell x).out = c := by
      rw [RangeCompiler.cell_modify (hrole hx), Function.update_self, Inst.out_setOut hc]
    refine ⟨hredirected, .inl rfl, hdown.heads ?_ (hdowncell hx) halt⟩
    refine .out (by rw [hredirected.opcode, hsame hx, halt x hx]) ?_
    rw [hlead]
    exact .self (by rw [hredirected.opcode, hop])

/-- A byte range that is found is no exit. -/
theorem Fits.not_exit (h : Fits P G B s) (hbr : G.Branch p br) (ha : (s.cell br).sym = a)
    (hcompat : ∀ y, p ++ y ∈ G.words → P.Compat y (a :: v)) : br ∉ G.ends := by
  intro hend
  obtain ⟨c, hc⟩ := h.mem_ends.1 hend
  rcases hbr with ⟨b, hr⟩ | ⟨w, hr, hw⟩
  · rw [hc] at hr
    cases hr
  · rw [hc] at hr
    cases hr
    obtain ⟨-, w, heq, -⟩ := h.role hc
    obtain ⟨rfl, rfl⟩ := List.cons.inj heq
    exact (hcompat _ hw ha).2.1 rfl

/-- The trie after `cloneCached`: from the new root the byte range `br'` is reached, which is a
clone of the old root if that is not the new one. -/
structure Cloned (P : Plan) (G G' : Ghost) (p : Word) (root root' br' : Nat)
    (s s' : RangeCompiler) : Prop extends Inside P G G' p root root' s s' where
  heads : Heads s'.cell root' br'
  same : root' = root ∨ root' = br' ∧ root ≠ br' ∧ Clone s'.cell G'.ends root br'

/-- The clone has the fields of the byte range. -/
theorem Fits.clone_fields (h : Fits P G B s) (hs : Grown s s') (hB : s.ninst = B)
    (hbr : G.Branch p br) (hend : br ∉ G.ends) (hout : (s.cell br).out < 2 ^ 28) {s₂ : RangeCompiler}
    (hs₂ : s'.modify B (·.initByteRange (s.cell br).lo (s.cell br).hi (s.cell br).foldcase
      (s.cell br).out) = s₂) : (∀ y, y ≠ B → s₂.cell y = s.cell y) ∧ Clone s₂.cell G.ends br B := by
  have hlt : B < s'.inst.length := by
    rw [← hB]
    exact Nat.lt_of_lt_of_le hs.lt hs.inv.used
  have hcell := @RangeCompiler.cell_modify s' B (·.initByteRange (s.cell br).lo (s.cell br).hi
    (s.cell br).foldcase (s.cell br).out) hlt
  rw [hs₂, hs.cell] at hcell
  have hother : ∀ y, y ≠ B → s₂.cell y = s.cell y := fun y hy => by
    rw [hcell, Function.update_of_ne hy]
  have hself := congrFun hcell B
  rw [Function.update_self] at hself
  obtain ⟨hop, hsym, hout'⟩ := @Inst.initByteRange_fields (s.cell B) _ _
    (@Inst.valid_sym (s.cell br)) hout
  have hne : br ≠ B := Nat.ne_of_lt (h.bound_child (.inr hbr)).2
  refine ⟨hother, ?_, ?_, ?_, ?_, hend, fun hmem => ?_⟩
  · rw [hother br hne]
    exact h.opcode_branch hbr
  · rw [hself]
    exact hop
  · rw [hself, hother br hne]
    exact hsym
  · rw [hself, hother br hne]
    exact hout'
  · obtain ⟨c, hc⟩ := h.mem_ends.1 hmem
    exact absurd (h.bound hc).2 (Nat.lt_irrefl B)

theorem cloneCached_ensures (h : Fits P G B s) (hroot : G.Child p root)
    (hfound : Found s G p root f br) (hchain : Chain P G B s.cell s.ninst id v)
    (ha : (s.cell br).sym = a) (hnext : G.Child (p ++ [a]) (s.cell br).out)
    (hsample : ∃ y, p ++ a :: y ∈ G.words) (hcached : s.isCached br = true → s.ninst = B)
    (hstep : s.isCached br = false → G.role br = some (.step p a))
    (hdown : Down G p s.cell root f.begin) (hend : br ∉ G.ends) :
    Ensures (Event.Ok P.base) (cloneCached g root f br) s fun r s' =>
      (r = none ∧ Refused sound s') ∨ ∃ root' br' G' B', r = some (root', br') ∧
        G'.words = G.words ∧ Fits P G' B' s' ∧ G'.Child p root' ∧
        G'.role br' = some (.step p a) ∧ Chain P G' B' s'.cell s'.ninst id v ∧
        Cloned P G G' p root root' br' s s' := by
  unfold cloneCached
  apply Ensures.after Silent.isCachedRuneByteSuffix
  cases hc : s.isCached br with
  | false =>
    rw [if_neg Bool.false_ne_true]
    refine .pure (.inr ⟨root, br, G, B, rfl, rfl, h, hroot, hstep hc, hchain, ?_⟩)
    have hinside : Inside P G G p root root s s :=
      { Refines.refl with ends := rfl, outer := fun _ _ => rfl, covers := fun hw => hw }
    exact { hinside with heads := hfound.heads h hdown, same := .inl rfl }
  | true =>
    have hB := hcached hc
    rw [if_pos rfl]
    apply h.alloc.bind
    rintro c s₁ (⟨hneg, hfail⟩ | ⟨rfl, hs⟩)
    · rw [if_pos hneg]
      exact .pure (.inl ⟨rfl, hfail⟩)
    have hset := Ghost.extends_set (r := .step p a) (h.role_none (Nat.le_refl B))
    have hfits := h.add_clone hs hB ha hnext hsample
    rw [if_neg (by omega)]
    apply Ensures.after Silent.load
    apply Ensures.after Silent.update
    rw [hs.cell, Int.toNat_natCast, hB]
    generalize hs₂ : s₁.modify B _ = s₂ at hfits
    have hbr := hfound.branch h
    obtain ⟨hother, hclone⟩ := h.clone_fields hs hB hbr hend (h.child_lt_pow hnext) hs₂
    have hne : ∀ {y r}, G.role y = some r → y ≠ B := fun hy => Nat.ne_of_lt (h.bound hy).2
    have hsame : ∀ {y r}, G.role y = some r → s₂.cell y = s.cell y := fun hy => hother _ (hne hy)
    have hlen : ∀ {y}, y ≤ B → y < s₂.inst.length := fun hy =>
      Nat.lt_of_le_of_lt hy (Nat.lt_of_lt_of_le (Nat.lt_succ_self B)
        (Nat.le_trans hfits.top hfits.inv.used))
    have hB28 : B < 2 ^ 28 := by
      have := h.lt_pow (Nat.le_of_eq hB.symm)
      omega
    obtain ⟨root', s₃, hred, hfits₃, hroot', hninst, -⟩ := hfound.redirect h hset hfits hroot
      (.inl ⟨a, Ghost.role_set_self⟩)
    obtain ⟨hredirected, hcases, hheads⟩ := hfound.redirected h hsame
      (fun hy => hlen (Nat.le_of_lt (h.bound hy).2)) hB28 hclone.opcode_clone hdown hred
    apply Ensures.after hred
    refine .pure (.inr ⟨root', B, G.set B (.step p a), B + 1, rfl, rfl, hfits₃, hroot',
      Ghost.role_set_self, ?_, ?_⟩)
    · have hninst₃ : s₃.ninst = B + 1 := by
        rw [hninst, ← hs₂]
        change s₁.ninst = B + 1
        rw [hs.ninst, hB]
      rw [hninst₃]
      rw [hB] at hchain
      cases hchain with
      | shared hx => exact .shared (hset.role hx)
      | own hchain =>
        have := hchain.le
        omega
    · have halt : ∀ y, G.role y = some (.alt p) → (s₂.cell y).opcode = Inst.opAlt := fun y hy => by
        rw [hsame hy]
        exact (h.role hy).1
      have hkeep : ∀ {y}, (s₂.cell y).opcode = Inst.opByteRange → s₃.cell y = s₂.cell y := fun hop =>
        hredirected.cell _ fun hr => absurd ((halt _ hr).symm.trans hop) (by decide)
      have hkeepbr := hkeep hclone.opcode
      have hkeepB := hkeep hclone.opcode_clone
      have hclone₃ : Clone s₃.cell G.ends br B := {
        opcode := by rw [hkeepbr, hclone.opcode]
        opcode_clone := by rw [hkeepB, hclone.opcode_clone]
        sym := by rw [hkeepbr, hkeepB, hclone.sym]
        out := by rw [hkeepbr, hkeepB, hclone.out]
        not_mem := hclone.not_mem
        clone_not_mem := hclone.clone_not_mem }
      have hexit : ∀ y ∈ G.ends, (s₂.cell y).opcode = (s.cell y).opcode ∧
          (s₂.cell y).sym = (s.cell y).sym := fun y hy => by
        obtain ⟨c, hc⟩ := h.mem_ends.1 hy
        rw [hsame hc]
        exact ⟨rfl, rfl⟩
      have habove : G.Above P.base → (G.set B (.step p a)).Above P.base := fun habove y r hy => by
        by_cases hyB : y = B
        · rw [hyB]
          exact h.base
        · rw [Ghost.role_set_of_ne hyB] at hy
          exact habove hy
      have hgrown : Refines P G (G.set B (.step p a)) s s₂ := .of_cells hset h hfits habove
        (fun y hy _ => hother y (Nat.ne_of_lt (Nat.lt_of_lt_of_le hy h.base)))
        (fun hy _ => hsame hy) hexit
      exact {
        toExtends := hset
        above := habove
        below := fun hG y hy => by
          rw [hredirected.cell y fun hr => absurd (hG hr) (Nat.not_le.2 hy), hgrown.below hG y hy]
        reads := fun hx hw => hredirected.reads hclone halt (hgrown.reads hx hw)
        ends := rfl
        outer := fun {y r} hy hr => by
          rw [hredirected.cell y fun hr' => ?_, hsame hy]
          rw [hr'] at hy
          cases hy
          exact Nat.lt_irrefl _ hr
        covers := fun hw => by
          rcases hcases with rfl | ⟨rfl, rfl⟩
          · exact hw
          · exact hclone₃.reads hw
        heads := hheads
        same := by
          rcases hcases with rfl | ⟨rfl, rfl⟩
          · exact .inl rfl
          · exact .inr ⟨rfl, Nat.ne_of_lt (h.bound_child (.inr hbr)).2, hclone₃⟩ }

/-- A change of instructions without roles. -/
theorem Refines.of_below {B' : Nat} (h : Fits P G B s) (h' : Fits P G' B' s') (hG : G.Extends G')
    (habove : G.Above P.base → G'.Above P.base) (hcell : ∀ y, y < B → s'.cell y = s.cell y) :
    Refines P G G' s s' := by
  refine .of_cells hG h h' habove (fun y hy _ => hcell y (Nat.lt_of_lt_of_le hy h.base))
    (fun hy _ => hcell _ (h.bound hy).2) fun y hy => ?_
  obtain ⟨c, hc⟩ := h.mem_ends.1 hy
  rw [hcell y (h.bound hc).2]
  exact ⟨rfl, rfl⟩

/-! ## The new suffix -/

/-- A suffix that has been built is read. -/
theorem Chain.reads {t : Nat} (h : Chain P G B s.cell t id v) (hfits : Fits P G B s) :
    Reads s.cell G.ends id v := by
  induction h with
  | shared hx => exact (hfits.shared_reads hx).2 rfl
  | @own t v hchain hop _ ih =>
    refine .step (.self hop) (fun hend => ?_) ih
    obtain ⟨c, hc⟩ := hfits.mem_ends.1 hend
    exact absurd (hfits.bound hc).2 (Nat.not_lt.2 hchain.le)

/-- A chain becomes part of the trie, at the place `p`. -/
theorem Chain.attach {t : Nat} (h : Chain P G B s.cell t id v) (hfits : Fits P G B s)
    (ht : t ≤ s.ninst) (p : Word) : ∃ G', G.Extends G' ∧ G'.words = insert (p ++ v) G.words ∧
      Fits P G' t s ∧ G'.Branch p id ∧ G'.ends = G.ends ∧ (G.Above P.base → G'.Above P.base) := by
  induction h generalizing p with
  | @shared x v hx =>
    exact ⟨{ G with words := insert (p ++ v) G.words }, ⟨fun hy => hy, Set.subset_insert _ _⟩, rfl,
      hfits.insert_word _, .inr ⟨v, hx, Set.mem_insert _ _⟩, rfl, fun habove => habove⟩
  | @own t v hchain hop _ ih =>
    obtain ⟨G', hG, hwords, hfits', hout, hends, habove⟩ :=
      ih (Nat.le_of_succ_le ht) (p ++ [(s.cell t).sym])
    rw [List.append_assoc] at hwords
    have hset := Ghost.extends_set (r := .step p (s.cell t).sym) (hfits'.role_none (Nat.le_refl t))
    refine ⟨G'.set t (.step p (s.cell t).sym), hG.trans hset, hwords, ?_,
      .inl ⟨_, Ghost.role_set_self⟩, hends, fun hG y r hy => ?_⟩
    · apply hfits'.add_own ht fun w hw => by cases hw
      refine ⟨hop, rfl, Ghost.Child.extend (.inr hout) hset, v, ?_⟩
      change _ ∈ G'.words
      rw [hwords]
      exact Set.mem_insert _ _
    · by_cases hyt : y = t
      · rw [hyt]
        exact Nat.le_trans hfits.base hchain.le
      · rw [Ghost.role_set_of_ne hyt] at hy
        exact habove hG hy

/-- What adding `v` at the place `p` leaves behind. -/
def Inserted (P : Plan) (G : Ghost) (p v : Word) (root : Nat) (s : RangeCompiler) (root' : Nat)
    (s' : RangeCompiler) : Prop :=
  ∃ G', Inside P G G' p root root' s s' ∧ G'.words = insert (p ++ v) G.words ∧
    Fits P G' s'.ninst s' ∧ G'.Child p root' ∧ Reads s'.cell G'.ends root' v

/-- An alternative is added above the root. -/
theorem Fits.add_alt (h : Fits P G B s) (hroot : G.Child p root)
    (hchain : Chain P G B s.cell s.ninst id v) (hs : Grown s s') :
    Inserted P G p v root s s.ninst (s'.modify s.ninst (·.initAlt root id)) := by
  obtain ⟨G', hG, hwords, hfits, hid, hends, habove⟩ := hchain.attach h (Nat.le_refl _) p
  have hroot' := hroot.extend hG
  obtain ⟨hop, hout, hout1⟩ := @Inst.initAlt_fields (s'.cell s.ninst) _ _
    (hfits.child_lt_pow hroot') (hfits.child_lt_pow (.inr hid))
  have hset := Ghost.extends_set (r := .alt p) (hfits.role_none (Nat.le_refl s.ninst))
  have hcell := @RangeCompiler.cell_modify s' s.ninst (·.initAlt root id)
    (Nat.lt_of_lt_of_le hs.lt hs.inv.used)
  have hself : (s'.modify s.ninst (·.initAlt root id)).cell s.ninst =
      (s'.cell s.ninst).initAlt root id := by rw [hcell, Function.update_self]
  have hother : ∀ y, y ≠ s.ninst →
      (s'.modify s.ninst (·.initAlt root id)).cell y = s.cell y := fun y hy => by
    rw [hcell, Function.update_of_ne hy, hs.cell]
  have hgrown := (h.grow hs).modify_new (f := (·.initAlt root id)) h.top hs.lt
  have hfits' : Fits P (G'.set s.ninst (.alt p)) (s.ninst + 1)
      (s'.modify s.ninst (·.initAlt root id)) := by
    apply ((hfits.grow hs).modify_new (Nat.le_refl _) hs.lt).add_own hs.lt fun w hw => by cases hw
    rw [hself]
    refine ⟨hop, ?_, ?_⟩
    · rw [hout1]
      exact hid.extend hset
    · rw [hout]
      rcases hroot' with hr | hr
      · exact .inr ⟨hset.role hr, (hfits.bound hr).2⟩
      · exact .inl (hr.extend hset)
  have hninst : (s'.modify s.ninst (·.initAlt root id)).ninst = s.ninst + 1 := hs.ninst
  generalize s'.modify s.ninst (·.initAlt root id) = s₁ at hself hother hgrown hfits' hninst ⊢
  have hends' : (G'.set s.ninst (.alt p)).ends = G.ends := hends
  have hbelow : ∀ y, y < B → s₁.cell y = s.cell y := fun y hy =>
    hother y (Nat.ne_of_lt (Nat.lt_of_lt_of_le hy h.top))
  have habove' : G.Above P.base → (G'.set s.ninst (.alt p)).Above P.base := fun hG y r hy => by
    by_cases hyt : y = s.ninst
    · rw [hyt]
      exact Nat.le_trans h.base h.top
    · rw [Ghost.role_set_of_ne hyt] at hy
      exact habove hG hy
  have hop₁ : (s₁.cell s.ninst).opcode = Inst.opAlt := by rw [hself, hop]
  refine ⟨_, { Refines.of_below h hfits' (hG.trans hset) habove' hbelow with
    ends := hends', outer := fun hy _ => hbelow _ (h.bound hy).2, covers := fun hw => ?_ },
    hwords, by rwa [hninst], .inl Ghost.role_set_self, ?_⟩
  · refine .out hop₁ ?_
    rwa [hself, hout]
  · refine .out1 hop₁ ?_
    rw [hself, hout1, hends']
    exact (hchain.congr fun y _ hy => hother y (Nat.ne_of_lt hy)).reads hgrown

/-! ## The `out` of a byte range -/

theorem Heads.congr (hop : ∀ y, (cell' y).opcode = (cell y).opcode)
    (halt : ∀ y, (cell y).opcode = Inst.opAlt → cell' y = cell y) (h : Heads cell x b) :
    Heads cell' x b := by
  induction h with
  | @self x hx => exact .self (by rw [hop, hx])
  | @out x b hx _ ih =>
    rw [← halt x hx] at ih
    exact .out (by rw [hop, hx]) ih
  | @out1 x b hx _ ih =>
    rw [← halt x hx] at ih
    exact .out1 (by rw [hop, hx]) ih

/-- `cell'` is `cell` where the byte range `b` leads to `y`. -/
structure Relead (cell cell' : Nat → Inst) (b y : Nat) : Prop where
  opcode : (cell b).opcode = Inst.opByteRange
  other : ∀ x, x ≠ b → cell' x = cell x
  opcode_self : (cell' b).opcode = (cell b).opcode
  sym : (cell' b).sym = (cell b).sym
  out : (cell' b).out = y

namespace Relead

theorem opcode_eq (h : Relead cell cell' b y) (x : Nat) : (cell' x).opcode = (cell x).opcode := by
  by_cases hx : x = b
  · rw [hx, h.opcode_self]
  · rw [h.other x hx]

theorem sym_eq (h : Relead cell cell' b y) (x : Nat) : (cell' x).sym = (cell x).sym := by
  by_cases hx : x = b
  · rw [hx, h.sym]
  · rw [h.other x hx]

theorem alt (h : Relead cell cell' b y) {x : Nat} (hx : (cell x).opcode = Inst.opAlt) :
    cell' x = cell x := by
  apply h.other
  rintro rfl
  exact absurd (hx.symm.trans h.opcode) (by decide)

theorem heads (h : Relead cell cell' b y) : Heads cell' x c ↔ Heads cell x c := by
  refine ⟨Heads.congr (fun z => (h.opcode_eq z).symm) fun z hz => ?_,
    Heads.congr h.opcode_eq fun z => h.alt⟩
  rw [h.opcode_eq] at hz
  exact (h.alt hz).symm

/-- Where the new `out` reads what the old one did, nothing is lost. -/
theorem reads {ends : List Nat} (h : Relead cell cell' b y)
    (hmore : ∀ {w}, Reads cell ends (cell b).out w → Reads cell ends y w)
    (hw : Reads cell ends x w) : Reads cell' ends x w := by
  induction w generalizing x with
  | nil => exact absurd rfl hw.ne_nil
  | cons a w ih =>
    cases hw with
    | @last _ c hc hend =>
      rw [← h.sym_eq c]
      exact .last (h.heads.2 hc) hend
    | @step _ c _ hc hend hv =>
      rw [← h.sym_eq c]
      refine .step (h.heads.2 hc) hend ?_
      by_cases hcb : c = b
      · rw [hcb] at hv ⊢
        rw [h.out]
        exact ih (hmore hv)
      · rw [h.other c hcb]
        exact ih hv

end Relead

theorem Fits.relead {q : Word} (h : Fits P G B s) (hb : G.role b = some (.step q a))
    (hy : y < 2 ^ 28) : Relead s.cell (s.modify b (·.setOut y)).cell b y := by
  have hlt := Nat.lt_of_lt_of_le (h.bound hb).2 (Nat.le_trans h.top h.inv.used)
  have hcell := @RangeCompiler.cell_modify s b (·.setOut y) hlt
  refine ⟨(h.role hb).1, fun x hx => ?_, ?_, ?_, ?_⟩
  · rw [hcell, Function.update_of_ne hx]
  · rw [hcell, Function.update_self, Inst.opcode_setOut hy]
  · rw [hcell, Function.update_self, Inst.sym_setOut]
  · rw [hcell, Function.update_self, Inst.out_setOut hy]

/-- Behind a byte range at a place there is the next place. -/
theorem Fits.out_child (h : Fits P G B s) (hb : G.Branch p b) (hend : b ∉ G.ends) :
    G.Child (p ++ [(s.cell b).sym]) (s.cell b).out := by
  rcases hb with ⟨a, hr⟩ | ⟨v, hr, hv⟩
  · obtain ⟨-, rfl, hchild, -⟩ := h.role hr
    exact hchild
  · obtain ⟨-, v, rfl, hnext⟩ := h.role hr
    have hne : v ≠ [] := by
      rintro rfl
      exact hend (h.mem_ends.2 ⟨_, hr⟩)
    refine .inr (.inr ⟨v, (hnext hne).1, ?_⟩)
    rwa [List.append_assoc]

/-- What is read behind later places does not depend on a byte range at `p`. -/
theorem Fits.reads_deeper {q : Word} (h : Fits P G B s) (hb : G.role b = some (.step p a))
    (hy : Relead s.cell cell' b y) (hlen : p.length < q.length) (hx : G.Child q x)
    (hw : Reads cell' G.ends x w) : Reads s.cell G.ends x w := by
  refine Reads.sim (R := fun x y => x = y ∧ ∃ q : Word, p.length < q.length ∧ G.Child q x) ?_
    ⟨rfl, q, hlen, hx⟩ hw
  rintro x _ c ⟨rfl, q, hlen, hx⟩ hc
  have hc := hy.heads.1 hc
  have hbranch := h.heads_branch hx hc
  have hne : c ≠ b := by
    rintro rfl
    rcases hbranch with ⟨a', hr⟩ | ⟨v, hr, -⟩
    · rw [hb] at hr
      cases hr
      exact Nat.lt_irrefl _ hlen
    · rw [hb] at hr
      cases hr
  refine ⟨c, hc, (hy.sym_eq c).symm, Iff.rfl, fun hend => ?_⟩
  rw [hy.other c hne]
  refine ⟨rfl, _, ?_, h.out_child hbranch hend⟩
  rw [List.length_append]
  exact Nat.lt_add_right _ hlen

/-! ## The recursion -/

/-- Behind the byte range that was found, the suffix has been added. -/
theorem Cloned.inserted {G₁ G₃ : Ghost} {s₁ s₂ s₃ : RangeCompiler} {root₁ br₁ out : Nat}
    (h₁ : Fits P G₁ B s₁) (hroot : G.Child p root) (hroot₁ : G₁.Child p root₁)
    (hbr₁ : G₁.role br₁ = some (.step p a)) (hcloned : Cloned P G G₁ p root root₁ br₁ s s₁)
    (hfree : ∀ y, y < B → s₂.cell y = s₁.cell y) (hfree' : Refines P G₁ G₁ s₁ s₂)
    (h₃ : Fits P G₃ s₃.ninst s₃) (hin : Inside P G₁ G₃ (p ++ [a]) (s₂.cell br₁).out out s₂ s₃)
    (hwords : G₁.words = G.words) (hwords₃ : G₃.words = insert (p ++ [a] ++ v) G₁.words)
    (hout : G₃.Child (p ++ [a]) out) (hv : Reads s₃.cell G₃.ends out v) :
    Inserted P G p (a :: v) root s root₁ (s₃.modify br₁ (·.setOut out)) := by
  have hsmall := h₃.child_lt_pow hout
  have hbr₃ := hin.role hbr₁
  obtain ⟨hop₃, hsym₃, -, hsample₃⟩ := h₃.role hbr₃
  have hlead := h₃.relead hbr₃ hsmall
  have hfits : Fits P G₃ s₃.ninst (s₃.modify br₁ (·.setOut out)) := by
    apply h₃.modify_own hbr₃ fun w hw => by cases hw
    refine ⟨(Inst.opcode_setOut hsmall).trans hop₃, hsym₃, ?_, hsample₃⟩
    rw [Inst.out_setOut hsmall]
    exact hout
  have hninst : (s₃.modify br₁ (·.setOut out)).ninst = s₃.ninst := rfl
  generalize s₃.modify br₁ (·.setOut out) = s₄ at hlead hfits hninst ⊢
  have hlen : p.length < (p ++ [a]).length := by simp
  -- the byte range that is changed later is the only one at `p` that changes
  have hkeep : ∀ {y r}, G₁.role y = some r → r.Outside (p ++ [a]).length →
      s₃.cell y = s₁.cell y := fun hy hr => by rw [hin.outer hy hr, hfree _ (h₁.bound hy).2]
  have hbrOut : (s₃.cell br₁).out = (s₂.cell br₁).out := by rw [hin.outer hbr₁ hlen]
  have hrefines : Refines P G₃ G₃ s₃ s₄ := {
    toExtends := .refl
    above := fun habove => habove
    below := fun habove y hy => hlead.other y fun heq =>
      absurd (habove hbr₃) (Nat.not_le.2 (heq ▸ hy))
    reads := fun _ hw => hlead.reads (fun hw' => by
      rw [hbrOut] at hw'
      exact hin.covers hw') hw }
  have hends : G₃.ends = G₁.ends := hin.ends
  have hnotmem : br₁ ∉ G₃.ends := fun hend => by
    obtain ⟨c, hc⟩ := h₃.mem_ends.1 hend
    rw [hbr₃] at hc
    cases hc
  have hop₁ : ∀ y, (s₄.cell y).opcode = (s₃.cell y).opcode := hlead.opcode_eq
  have hsame₁ : s₃.cell br₁ = s₁.cell br₁ := hkeep hbr₁ hlen
  obtain ⟨r, hr⟩ := hout.role
  refine ⟨G₃, { (hcloned.toRefines.trans hfree').trans (hin.toRefines.trans hrefines) with
    ends := hends.trans hcloned.ends
    outer := fun {y r} hy hr => ?_
    covers := fun {w} hw => ?_ }, ?_, by rwa [hninst], hroot₁.extend hin.toExtends, ?_⟩
  · have hy₁ := hcloned.role hy
    have hne : y ≠ br₁ := by
      rintro rfl
      rw [hbr₁] at hy₁
      cases hy₁
      exact Nat.lt_irrefl _ hr
    rw [hlead.other y hne, hkeep hy₁ (hr.mono (Nat.le_of_lt hlen)), hcloned.outer hy hr]
  · rcases hcloned.same with rfl | ⟨rfl, hne, hclone⟩
    · exact hw
    -- the old root still leads to what is behind its clone
    have hrootcell : s₄.cell root = s₁.cell root := by
      rw [hlead.other root hne]
      rcases hroot.extend hcloned.toExtends with hr | ⟨b, hr⟩ | ⟨v, hr, -⟩
      · exact absurd ((h₁.role hr).1.symm.trans hclone.opcode) (by decide)
      · exact hkeep hr hlen
      · exact hkeep hr trivial
    have hopRoot : (s₄.cell root).opcode = Inst.opByteRange := by rw [hrootcell, hclone.opcode]
    have hold : G₃.Child (p ++ [a]) (s₂.cell root₁).out := by
      rw [hfree _ (h₁.bound hbr₁).2]
      exact (h₁.role hbr₁).2.2.1.extend hin.toExtends
    cases hw with
    | last hb hend =>
      rw [hb.eq_self hopRoot, hends] at hend
      exact absurd hend hclone.not_mem
    | step hb _ hv =>
      rw [hb.eq_self hopRoot] at hv ⊢
      rw [hrootcell, ← hclone.out, ← hfree _ (h₁.bound hbr₁).2] at hv
      have hv₄ := hrefines.reads hr (hin.covers (h₃.reads_deeper hbr₃ hlead hlen hold hv))
      have hsym : (s₄.cell root).sym = (s₄.cell root₁).sym := by
        rw [hrootcell, ← hclone.sym, hlead.sym, hsame₁]
      rw [hsym]
      refine .step (.self ?_) hnotmem ?_
      · rw [hop₁, hop₃]
      · rwa [hlead.out]
  · rw [hwords₃, hwords, List.append_assoc]
    rfl
  · have hheads : Heads s₄.cell root₁ br₁ := by
      apply h₁.heads_congr hroot₁ hcloned.heads fun y hy => ?_
      · rw [hop₁, hop₃]
      · rw [hlead.alt ?_, hkeep hy hlen]
        rw [hkeep hy hlen]
        exact (h₁.role hy).1
    have hstep : Reads s₄.cell G₃.ends root₁ ((s₄.cell br₁).sym :: v) := by
      refine .step hheads hnotmem ?_
      rw [hlead.out]
      exact hrefines.reads hr hv
    rwa [hlead.sym, hsym₃] at hstep

/-- The recursion goes one label down where it finds the label of the new suffix. -/
theorem addSuffixRecursive_ensures (fuel : Nat) (h : Fits P G B s) (hroot : G.Child p root)
    (hchain : Chain P G B s.cell s.ninst id v)
    (hcompat : ∀ y, p ++ y ∈ G.words → P.Compat y v) (hfuel : v.length ≤ fuel) :
    Ensures (Event.Ok P.base) (addSuffixRecursive g fuel root id) s fun root' s' =>
      (root' = 0 ∧ Refused sound s') ∨ Inserted P G p v root s root' s' := by
  induction fuel generalizing G B s p root id v with
  | zero =>
    obtain ⟨-, w, rfl⟩ := hchain.head h
    exact absurd hfuel (by simp)
  | succ fuel ih =>
    obtain ⟨-, w, hw⟩ := hchain.head h
    obtain ⟨f, hf, hfound⟩ := findByteRange_silent id h hroot
    unfold addSuffixRecursive
    apply Ensures.after hf
    rcases hfound with rfl | ⟨br, hfound, hdown, hsym⟩
    · have hnone : Frag.noMatch.isNoMatch = true := rfl
      rw [if_pos hnone]
      apply h.alloc.bind
      rintro alt s₁ (⟨hneg, hfail⟩ | ⟨rfl, hs⟩)
      · rw [if_pos hneg]
        exact .pure (.inl ⟨rfl, hfail⟩)
      · rw [if_neg (by omega), Int.toNat_natCast]
        apply Ensures.after Silent.update
        exact .pure (.inr (h.add_alt hroot hchain hs))
    · generalize hsa : (s.cell id).sym = a at hw hsym
      subst hw
      have hbr := hfound.branch h
      have hsome := hfound.isNoMatch h
      obtain ⟨hstrict, hne, hnext, hsample, hflag, hstep⟩ := h.of_branch hbr hsym hcompat
      have hend := h.not_exit hbr hsym hcompat
      have hcached : s.isCached br = true → s.ninst = B := by
        intro hc
        generalize hv : a :: w = v at hchain
        generalize s.ninst = t at hchain ⊢
        cases hchain with
        | shared => rfl
        | own _ _ hno =>
          cases hv
          exact absurd (hflag hc) (hno hstrict)
      rw [if_neg (by rw [hsome]; exact Bool.false_ne_true)]
      apply Ensures.after (hfound.foundByteRange h)
      apply (cloneCached_ensures h hroot hfound hchain hsym hnext hsample hcached hstep hdown
        hend).bind
      rintro r s₁ (⟨rfl, hfail⟩ | ⟨root₁, br₁, G₁, B₁, rfl, hwords, h₁, hroot₁, hbr₁, hchain₁,
        hcloned⟩)
      · exact .pure (.inl ⟨rfl, hfail⟩)
      apply Ensures.after Silent.load
      apply (freeHead_ensures h₁ hchain₁ hstrict hne).bind
      rintro _ s₂ ⟨h₂, hchain₂, hfree⟩
      have hlower := h₂.role hbr₁
      apply Ensures.after Silent.load
      have hcompat₂ : ∀ y, p ++ [a] ++ y ∈ G₁.words → P.Compat y w := by
        intro y hy
        rw [hwords, List.append_assoc] at hy
        exact (hcompat _ hy rfl).2.2.2.2
      apply (ih h₂ hlower.2.2.1 hchain₂ hcompat₂ (by simpa using hfuel)).bind
      rintro out s₃ (⟨rfl, hfail⟩ | ⟨G₃, hin, hwords₃, h₃, hout₃, hv⟩)
      · exact .pure (.inl ⟨rfl, hfail⟩)
      rw [if_neg (Nat.ne_of_gt (h₃.bound_child hout₃).1)]
      apply Ensures.after Silent.update
      exact .pure (.inr (hcloned.inserted h₁ hroot hroot₁ hbr₁ hfree
        (.of_below h₁ h₂ .refl (fun habove => habove) hfree) h₃ hin hwords hwords₃ hout₃ hv))

end

end FourFuzzers.Re2
