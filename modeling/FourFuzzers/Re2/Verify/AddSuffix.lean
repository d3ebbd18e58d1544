import FourFuzzers.Re2.Verify.Trie

/-!
# The steps of adding a suffix

`AddSuffixRecursive` goes down the trie while it finds the next label of the suffix. What makes
freeing work is `Compat`: where the new word follows an old one, both go on, and if the old one is
cached, so is the new one. A head that is not cached is the instruction allocated last, since
nothing is cloned before the first label that is cached; from that label on, nothing is freed.
-/

namespace FourFuzzers.Re2

open FourFuzzers.Lib FourFuzzers.Lib.Traced FourFuzzers.Lib.Stateful

/-! ## Finding -/

/-- What `FindByteRange` reports from `root` at the place `p` when it finds the byte range `br`. -/
inductive Found (s : RangeCompiler) (G : Ghost) (p : Word) (root : Nat) : Frag → Nat → Prop
  | root : G.Branch p root → Found s G p root ⟨root, .null⟩ root
  | right {x : Nat} : G.role x = some (.alt p) →
      Found s G p root ⟨x, .mk1 (x * 2 + 1)⟩ (s.cell x).out1
  | left {x : Nat} : G.role x = some (.alt p) → G.Branch p (s.cell x).out →
      Found s G p root ⟨x, .mk1 (x * 2)⟩ (s.cell x).out

/-- From instruction `x` the alternative `y` at the place `p` is reached through the first
choices. -/
inductive Down (G : Ghost) (p : Word) (cell : Nat → Inst) : Nat → Nat → Prop
  | refl {x : Nat} : Down G p cell x x
  | out {x y : Nat} : G.role x = some (.alt p) → Down G p cell (cell x).out y → Down G p cell x y

section

variable {P : Plan} {G : Ghost} {B : Nat} {s : RangeCompiler} {p : Word} {root id br : Nat}
  {f : Frag}

theorem Fits.opcode_branch (h : Fits P G B s) (hx : G.Branch p br) :
    (s.cell br).opcode = Inst.opByteRange := by
  rcases hx with ⟨a, hx⟩ | ⟨v, hx, -⟩ <;> exact (h.role hx).1

/-- The loop goes down a list of alternatives, each of them allocated before the one above it. -/
theorem findByteRangeLoop_silent (root id : Nat) (h : Fits P G B s) (fuel : Nat) {x : Nat}
    (hx : G.role x = some (.alt p)) (hfuel : x < fuel) :
    ∃ f, Silent (findByteRangeLoop id fuel x) s f s ∧ (f = .noMatch ∨
      ∃ br, Found s G p root f br ∧ Down G p s.cell x f.begin ∧
        (s.cell br).sym = (s.cell id).sym) := by
  induction fuel generalizing x with
  | zero => omega
  | succ fuel ih =>
    obtain ⟨hop, -, hout⟩ := h.role hx
    unfold findByteRangeLoop
    apply Silent.load.bind_exists
    rw [if_pos hop]
    apply Silent.byteRangeEqual.bind_exists
    by_cases hright : (s.cell (s.cell x).out1).sym = (s.cell id).sym
    · rw [if_pos (decide_eq_true hright)]
      exact ⟨_, .pure, .inr ⟨_, .right hx, .refl, hright⟩⟩
    rw [if_neg fun hd => hright (of_decide_eq_true hd)]
    apply Silent.read.bind_exists
    by_cases hrev : s.reversed = true
    · rw [if_neg (by simp [hrev])]
      apply Silent.load.bind_exists
      rcases hout with hout | ⟨hout, hlt⟩
      · have hop' : ¬ (s.cell (s.cell x).out).opcode = Inst.opAlt := by
          rw [h.opcode_branch hout]
          decide
        rw [if_neg hop']
        apply Silent.byteRangeEqual.bind_exists
        by_cases hleft : (s.cell (s.cell x).out).sym = (s.cell id).sym
        · rw [if_pos (decide_eq_true hleft)]
          exact ⟨_, .pure, .inr ⟨_, .left hx hout, .refl, hleft⟩⟩
        · rw [if_neg fun hd => hleft (of_decide_eq_true hd)]
          exact ⟨.noMatch, .pure, .inl rfl⟩
      · rw [if_pos (h.role hout).1]
        obtain ⟨f, hf, hfound⟩ := ih hout (by omega)
        refine ⟨f, hf, hfound.imp_right ?_⟩
        rintro ⟨br, hbr, hdown, hsym⟩
        exact ⟨br, hbr, .out hx hdown, hsym⟩
    · rw [if_pos (by simp [hrev])]
      exact ⟨.noMatch, .pure, .inl rfl⟩

theorem findByteRange_silent (id : Nat) (h : Fits P G B s) (hroot : G.Child p root) :
    ∃ f, Silent (findByteRange root id) s f s ∧ (f = .noMatch ∨
      ∃ br, Found s G p root f br ∧ Down G p s.cell root f.begin ∧
        (s.cell br).sym = (s.cell id).sym) := by
  unfold findByteRange
  apply Silent.load.bind_exists
  rcases hroot with hroot | hroot
  · have hop : ¬ (s.cell root).opcode = Inst.opByteRange := by
      rw [(h.role hroot).1]
      decide
    have hlt := Nat.lt_of_lt_of_le (h.bound hroot).2 h.top
    rw [if_neg hop]
    apply Silent.read.bind_exists
    exact findByteRangeLoop_silent root id h (s.ninst + 1) hroot (by omega)
  · rw [if_pos (h.opcode_branch hroot)]
    apply Silent.byteRangeEqual.bind_exists
    by_cases heq : (s.cell root).sym = (s.cell id).sym
    · rw [if_pos (decide_eq_true heq)]
      exact ⟨_, .pure, .inr ⟨_, .root hroot, .refl, heq⟩⟩
    · rw [if_neg fun hd => heq (of_decide_eq_true hd)]
      exact ⟨.noMatch, .pure, .inl rfl⟩

namespace Found

theorem branch (hf : Found s G p root f br) (h : Fits P G B s) : G.Branch p br := by
  cases hf with
  | root hx => exact hx
  | right hx => exact (h.role hx).2.1
  | left _ hout => exact hout

theorem isNoMatch (hf : Found s G p root f br) (h : Fits P G B s) : f.isNoMatch = false := by
  have hpos : f.begin ≠ 0 := by
    cases hf with
    | root hx => exact Nat.ne_of_gt (h.bound_child (.inr hx)).1
    | right hx => exact Nat.ne_of_gt (h.bound hx).1
    | left hx _ => exact Nat.ne_of_gt (h.bound hx).1
  exact decide_eq_false hpos

theorem foundByteRange (hf : Found s G p root f br) (h : Fits P G B s) :
    Silent (foundByteRange root f) s br s := by
  unfold Re2.foundByteRange
  cases hf with
  | root => exact .pure
  | @right x hx =>
    change Silent (if x * 2 + 1 = 0 then _ else if (x * 2 + 1) % 2 = 1 then _ else _) s _ s
    rw [if_neg (by omega), if_pos (by omega)]
    exact Silent.load.bind .pure
  | @left x hx _ =>
    have := (h.bound hx).1
    change Silent (if x * 2 = 0 then _ else if x * 2 % 2 = 1 then _ else _) s _ s
    rw [if_neg (by omega), if_neg (by omega)]
    exact Silent.load.bind .pure

/-- The parent of the byte range that was found points to the byte range `c` instead. -/
theorem redirect {s' : RangeCompiler} {G' : Ghost} {B' c : Nat} (hf : Found s G p root f br)
    (h : Fits P G B s) (hG : G.Extends G') (h' : Fits P G' B' s') (hroot : G.Child p root)
    (hc : G'.Branch p c) :
    ∃ root' s'', Silent (redirect root f c) s' root' s'' ∧ Fits P G' B' s'' ∧ G'.Child p root' ∧
      s''.ninst = s'.ninst ∧ (∀ y, B' ≤ y → s''.cell y = s'.cell y) := by
  have hclt : c < 2 ^ 28 := h'.child_lt_pow (.inr hc)
  have hother : ∀ {x : Nat} {F : Inst → Inst} {r : Role}, G'.role x = some r → ∀ y, B' ≤ y →
      (s'.modify x F).cell y = s'.cell y := by
    intro x F r hx y hy
    have hlt := (h'.bound hx).2
    rw [RangeCompiler.cell_modify
      (Nat.lt_of_lt_of_le hlt (Nat.le_trans h'.top h'.inv.used)), Function.update_of_ne (by omega)]
  unfold Re2.redirect
  cases hf with
  | root => exact ⟨c, s', .pure, h', .inr hc, rfl, fun _ _ => rfl⟩
  | @right x hx =>
    have hx' := hG.role hx
    obtain ⟨hop, -, hout⟩ := h'.role hx'
    refine ⟨root, s'.modify x (·.setOut1 c), ?_, ?_, hroot.extend hG, rfl, hother hx'⟩
    · change Silent (if x * 2 + 1 = 0 then _ else if (x * 2 + 1) % 2 = 1 then _ else _) s' _ _
      rw [if_neg (by omega), if_pos (by omega)]
      exact Silent.update.bind .pure
    · apply h'.modify_own hx' fun w hw => by cases hw
      refine ⟨hop, ?_, hout⟩
      rw [Inst.out1_setOut1 hclt]
      exact hc
  | @left x hx _ =>
    have hx' := hG.role hx
    have hpos := (h.bound hx).1
    obtain ⟨hop, hout1, -⟩ := h'.role hx'
    refine ⟨root, s'.modify x (·.setOut c), ?_, ?_, hroot.extend hG, rfl, hother hx'⟩
    · change Silent (if x * 2 = 0 then _ else if x * 2 % 2 = 1 then _ else _) s' _ _
      rw [if_neg (by omega), if_neg (by omega)]
      exact Silent.update.bind .pure
    · apply h'.modify_own hx' fun w hw => by cases hw
      refine ⟨(Inst.opcode_setOut hclt).trans hop, hout1, .inl ?_⟩
      rw [Inst.out_setOut hclt]
      exact hc

end Found

end

/-! ## Allocating and freeing -/

section

variable {P : Plan} {G : Ghost} {B : Nat} {s : RangeCompiler} {p v w : Word} {root id br : Nat}
  {f : Frag} {a : Sym} {g : Compiler → Garbage} {sound : Prop}

theorem Fits.alloc (h : Fits P G B s) :
    Ensures (Event.Ok P.base) (alloc g) s fun id s' =>
      (id < 0 ∧ Refused sound s') ∨ (id = s.ninst ∧ Grown s s') :=
  alloc_ensures h.inv h.failed (Nat.le_trans h.base h.top) fun _ hx =>
    Nat.lt_of_lt_of_le (h.live_lt hx) h.top

/-- A new byte range with the fields of `br` takes the place of `br`. -/
theorem Fits.add_clone {s' : RangeCompiler} (h : Fits P G B s) (hs : Grown s s') (hB : s.ninst = B)
    (ha : (s.cell br).sym = a) (hnext : G.Child (p ++ [a]) (s.cell br).out)
    (hsample : ∃ y, p ++ a :: y ∈ G.words) :
    Fits P (G.set B (.step p a)) (B + 1) (s'.modify B
      (·.initByteRange (s.cell br).lo (s.cell br).hi (s.cell br).foldcase (s.cell br).out)) := by
  have h' := h.grow hs
  have hlt : B < s'.ninst := by
    rw [hs.ninst, hB]
    exact Nat.lt_succ_self B
  have hout : (s.cell br).out < 2 ^ 28 := h.child_lt_pow hnext
  obtain ⟨hop, hsym, hout'⟩ := @Inst.initByteRange_fields (s'.cell B) _ _
    (@Inst.valid_sym (s.cell br)) hout
  have hset := Ghost.extends_set (r := .step p a) (h.role_none (Nat.le_refl B))
  apply (h'.modify_new (Nat.le_refl B) hlt).add_own hlt fun w hw => by cases hw
  rw [RangeCompiler.cell_modify (Nat.lt_of_lt_of_le hlt hs.inv.used), Function.update_self]
  refine ⟨hop, hsym.trans ha, ?_, hsample⟩
  have hout'' : ((s'.cell B).initByteRange (s.cell br).lo (s.cell br).hi (s.cell br).foldcase
      (s.cell br).out).out = (s.cell br).out := hout'
  rw [hout'']
  exact hnext.extend hset

/-- The compiler after the instruction at the top of the array is given back. -/
def released (s : RangeCompiler) (id : Nat) : RangeCompiler :=
  { s.modify id fun _ => Inst.zero with ninst := s.ninst - 1 }

theorem cell_released {x : Nat} (h : Inv s.toCompiler) (hid : s.ninst = id + 1) (hx : x ≠ id) :
    (released s id).cell x = s.cell x := by
  have hlen : id < s.inst.length := by
    have := h.used
    omega
  change (s.modify id fun _ => Inst.zero).cell x = s.cell x
  rw [RangeCompiler.cell_modify hlen, Function.update_of_ne hx]

theorem Fits.release (h : Fits P G B s) (hid : s.ninst = id + 1) (hB : B ≤ id) :
    Fits P G B (released s id) := by
  have hlen : id < s.inst.length := by
    have := h.inv.used
    omega
  have hinv : Inv (released s id).toCompiler := by
    have hpos : Op.release.Allowed s.toCompiler := by
      rw [Op.Allowed, hid]
      exact Nat.succ_pos id
    have htop : s.ninst - 1 = id := Nat.sub_eq_of_eq_add hid
    have hrelease : Inv { s.toCompiler with
        inst := s.inst.set (s.ninst - 1) Inst.zero, ninst := s.ninst - 1 } :=
      @Inv.step _ .release h.inv hpos
    rw [htop, ← @RangeCompiler.inst_modify s id (fun _ => Inst.zero) hlen] at hrelease
    unfold released
    rw [htop]
    exact hrelease
  refine h.congr hinv h.failed rfl ?_ ?_ rfl rfl
  · change B ≤ s.ninst - 1
    omega
  · intro x hx
    exact cell_released h.inv hid (by omega)

/-- `freeHead` changes no instruction that has a role. -/
theorem freeHead_ensures (h : Fits P G B s) (hchain : Chain P G B s.cell s.ninst id (a :: v))
    (hstrict : P.strict) (hv : v ≠ []) :
    Ensures (Event.Ok P.base) (freeHead id) s fun _ s' =>
      Fits P G B s' ∧ Chain P G B s'.cell s'.ninst (s.cell id).out v ∧
        ∀ y, y < B → s'.cell y = s.cell y := by
  unfold freeHead
  apply Ensures.after Silent.isCachedRuneByteSuffix
  generalize hw : a :: v = w at hchain
  generalize ht : s.ninst = t at hchain
  cases hchain with
  | shared hx =>
    subst hw
    have hlen : 2 ≤ (a :: v).length := by
      have := List.length_pos_of_ne_nil hv
      rw [List.length_cons]
      omega
    rw [if_pos (h.cached_of_shared hstrict hx hlen)]
    obtain ⟨-, y, hy, hnext⟩ := h.role hx
    cases hy
    refine .pure ⟨h, ?_, fun _ _ => rfl⟩
    rw [ht]
    exact .shared (hnext hv).1
  | own hchain hop hflag =>
    cases hw
    have hle := hchain.le
    rw [if_neg (by rw [hchain.not_cached h hstrict hflag]; exact Bool.false_ne_true)]
    apply Ensures.after Silent.read
    have hrelease : Event.Ok P.base (.release id s) :=
      ⟨Nat.le_trans h.base hle, ht.symm, fun hl => absurd (h.live_lt hl) (by omega)⟩
    have hrec : Ensures (Event.Ok P.base) (record (.release id s)) s fun _ s' => s' = s := by
      refine ⟨?_, rfl⟩
      intro e he
      rw [List.mem_singleton.1 he]
      exact hrelease
    apply hrec.bind
    rintro _ s' hs'
    rw [hs']
    apply Ensures.after Silent.update
    have hninst : (released s id).ninst = id := Nat.sub_eq_of_eq_add ht
    refine .of_silent Silent.write ⟨h.release ht hle, ?_, fun y hy =>
      cell_released h.inv ht (Nat.ne_of_lt (Nat.lt_of_lt_of_le hy hle))⟩
    change Chain P G B (released s id).cell (released s id).ninst _ v
    rw [hninst]
    exact hchain.congr fun y _ hy => cell_released h.inv ht (Nat.ne_of_lt hy)

/-- What is known of a byte range of the trie with the label of the new suffix: words go through it,
so that both go on, and if it is cached, the new suffix is. -/
theorem Fits.of_branch (h : Fits P G B s) (hbr : G.Branch p br) (ha : (s.cell br).sym = a)
    (hcompat : ∀ y, p ++ y ∈ G.words → P.Compat y (a :: v)) :
    P.strict ∧ v ≠ [] ∧ G.Child (p ++ [a]) (s.cell br).out ∧ (∃ y, p ++ a :: y ∈ G.words) ∧
      (s.isCached br = true → P.flag (a :: v)) ∧
      (s.isCached br = false → G.role br = some (.step p a)) := by
  have hflag : (s.cell br).out ≠ 0 → G.Child (p ++ [a]) (s.cell br).out → s.isCached br = true →
      P.flag (a :: v) := by
    intro hne hchild hc
    obtain ⟨y, hy, hyflag⟩ := h.flag_of_cached hc hne
    have hmem : p ++ a :: y ∈ G.words := by
      rcases hchild with hr | ⟨b, hr⟩ | ⟨y', hr, hmem⟩
      · rw [hy] at hr
        cases hr
      · rw [hy] at hr
        cases hr
      · rw [hy] at hr
        cases hr
        rwa [List.append_assoc] at hmem
    rw [ha] at hyflag
    exact (hcompat _ hmem rfl).2.2.2.1 hyflag
  rcases hbr with ⟨b, hr⟩ | ⟨w, hr, hw⟩
  · obtain ⟨-, hsym, hchild, y, hmem⟩ := h.role hr
    obtain rfl : b = a := hsym.symm.trans ha
    obtain ⟨hstrict, -, hv, -⟩ := hcompat _ hmem rfl
    exact ⟨hstrict, hv, hchild, ⟨y, hmem⟩, hflag (Nat.ne_of_gt (h.bound_child hchild).1) hchild,
      fun _ => hr⟩
  · obtain ⟨-, y, rfl, hy⟩ := h.role hr
    rw [ha] at hw hr hy
    obtain ⟨hstrict, hne, hv, -⟩ := hcompat _ hw rfl
    have hnext := (hy hne).1
    have hchild : G.Child (p ++ [a]) (s.cell br).out := by
      refine .inr (.inr ⟨y, hnext, ?_⟩)
      rwa [List.append_assoc]
    refine ⟨hstrict, hv, hchild, ⟨y, hw⟩, hflag (Nat.ne_of_gt (h.bound hnext).1) hchild, ?_⟩
    intro hc
    have hlen : 2 ≤ (a :: y).length := by
      have := List.length_pos_of_ne_nil hne
      rw [List.length_cons]
      omega
    rw [h.cached_of_shared hstrict hr hlen] at hc
    cases hc

end

end FourFuzzers.Re2
