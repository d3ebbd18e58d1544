import FourFuzzers.Re2.Verify.Language

/-!
# The walk over an expression

Each visit leaves a fragment with the language of its expression, or the compiler has failed. The
parts of an expression are fragments of disjoint instructions, so what is built from two of them
leaves the others alone.
-/

namespace FourFuzzers.Re2

open FourFuzzers.Lib FourFuzzers.Lib.Traced FourFuzzers.Lib.Stateful

/-- The fragments `fs` have the languages `Ls`, and own disjoint sets of instructions, together
`own`. -/
inductive Forest (s : RangeCompiler) : List Fragment → List Lang → Set Nat → Prop
  | nil : Forest s [] [] ∅
  | cons {f : Fragment} {fs : List Fragment} {L : Lang} {Ls : List Lang} {A B : Set Nat} :
      Realizes s.cell A f L → (∀ x ∈ A, x < s.ninst) → Disjoint A B → Forest s fs Ls B →
      Forest s (f :: fs) (L :: Ls) (A ∪ B)

/-- Unless the compiler has failed, the fragment `f` for `L` has been built. -/
def Attempts (W : Set Nat) (L : Lang) (s : RangeCompiler) (f : Fragment) (s' : RangeCompiler) :
    Prop :=
  Failed s' ∨ Yields W L s f s'

section

variable {s s' s₀ : RangeCompiler} {W A B own : Set Nat} {L : Lang} {Ls : List Lang}
  {f : Fragment} {fs : List Fragment} {g : Compiler → Garbage}

theorem Builds.attempts (h : Builds W L s f s') : Attempts W L s f s' := h.imp_left And.right

namespace Forest

theorem lt (h : Forest s fs Ls own) : ∀ x ∈ own, x < s.ninst := by
  induction h with
  | nil => exact fun x hx => absurd hx (Set.notMem_empty x)
  | cons _ hA _ _ ih => exact fun x hx => hx.elim (hA x) (ih x)

/-- Fragments that are left alone stay the same. -/
theorem step (h : Forest s fs Ls own) (hs : Good s) (hstep : Step W s s') (hdisj : Disjoint W own)
    (h0 : 0 ∉ W) : Forest s' fs Ls own := by
  induction h with
  | nil => exact .nil
  | cons hf hA hAB _ ih =>
    rw [Set.disjoint_union_right] at hdisj
    exact .cons (hstep.realizes hs hf hA hdisj.1 h0)
      (fun x hx => Nat.lt_of_lt_of_le (hA x hx) hstep.ninst) hAB (ih hdisj.2)

end Forest

/-! ## Folds over the parts -/

/-- What `op` makes of two parts, with the side condition `C` on their languages. -/
structure Combines (F : RangeCompiler → Prop) (op : Fragment → Fragment → RangeM Fragment)
    (join : Lang → Lang → Lang) (reversed : Bool) (C : Lang → Lang → Prop) : Prop where
  failed : ∀ a b, Keeps Event.Fueled F (op a b)
  built : ∀ s a b A B LA LB, Good s → s.reversed = reversed → Realizes s.cell A a LA →
    Realizes s.cell B b LB → (∀ x ∈ A, x < s.ninst) → (∀ x ∈ B, x < s.ninst) → Disjoint A B →
    C LA LB → Ensures Event.Fueled (op a b) s fun f s' => F s' ∨ Yields (A ∪ B) (join LA LB) s f s'

/-- The side condition along a fold. -/
def AlongFold (join : Lang → Lang → Lang) (C : Lang → Lang → Prop) : Lang → List Lang → Prop
  | _, [] => True
  | L, L' :: Ls => C L L' ∧ AlongFold join C (join L L') Ls

theorem Combines.foldlM {F : RangeCompiler → Prop} {op : Fragment → Fragment → RangeM Fragment}
    {join : Lang → Lang → Lang} {reversed : Bool} {C : Lang → Lang → Prop}
    (hop : Combines F op join reversed C) (hs : Good s) (hrev : s.reversed = reversed)
    (hf : Realizes s.cell A f L) (hA : ∀ x ∈ A, x < s.ninst) (hdisj : Disjoint A B)
    (hC : AlongFold join C L Ls) (h : Forest s fs Ls B) :
    Ensures Event.Fueled (fs.foldlM op f) s fun f' s' =>
      F s' ∨ Yields (A ∪ B) (Ls.foldl join L) s f' s' := by
  induction fs generalizing s A B L Ls f with
  | nil =>
    cases h
    exact .pure (.inr (hf.yields hs hA Set.subset_union_left))
  | cons b fs ih =>
    cases h with
    | @cons _ _ L' Ls A' B' hb hA' hAB hfs =>
    rw [Set.disjoint_union_right] at hdisj
    rw [List.foldlM_cons]
    apply (hop.built s f b A A' L L' hs hrev hf hb hA hA' hdisj.1 hC.1).bind
    rintro f' s' (hfail | ⟨own, hown, hstep, hf'⟩)
    · exact (Keeps.foldlM hop.failed fs f' s' hfail).mono fun _ _ => .inl
    have hrest := hfs.step hs hstep (Set.disjoint_union_left.2 ⟨hdisj.2, hAB⟩)
      fun h0 => h0.elim hf.pos hb.pos
    have hdisj' : Disjoint own B' := by
      rw [Set.disjoint_left]
      intro x hx hxB
      rcases (hown x hx).2 (hfs.lt x hxB) with hmem | hmem
      · exact Set.disjoint_left.1 hdisj.2 hmem hxB
      · exact Set.disjoint_left.1 hAB hmem hxB
    apply (ih hstep.good (hstep.reversed.trans hrev) hf' (fun x hx => (hown x hx).1) hdisj' hC.2
      hrest).mono
    rintro f'' s'' (hfail | hyields)
    · exact .inl hfail
    have hsub : A ∪ A' ⊆ A ∪ (A' ∪ B') := Set.union_subset_union_right A Set.subset_union_left
    refine .inr ((hstep.mono hsub).yields hyields ?_)
    rintro x (hx | hx) hlt
    · exact hsub ((hown x hx).2 hlt)
    · exact .inr (.inr hx)

theorem cat_combines {reversed : Bool} :
    Combines (fun _ => False) cat (.cat reversed) reversed (CatPlain reversed) where
  failed _ _ _ h := h.elim
  built s a b A B LA LB hs hrev ha hb hA hB hdisj hplain := by
    subst hrev
    obtain ⟨f, s', hrun, hyields, -⟩ := cat_silent hs ha hb hA hB hdisj hplain
    exact .of_silent hrun (.inr hyields)

theorem alt_combines {reversed : Bool} :
    Combines Failed (alt g) .alt reversed fun _ _ => True where
  failed a b s hs := by
    unfold alt
    split
    · exact .pure hs
    · split
      · exact .pure hs
      · exact .of_silent (hs.alloc.bind .pure) hs
  built s a b A B LA LB hs _ ha hb hA hB hdisj _ :=
    (alt_builds hs ha hb hA hB hdisj).mono fun _ _ h => h.attempts

theorem alongFold_true {join : Lang → Lang → Lang} : AlongFold join (fun _ _ => True) L Ls := by
  induction Ls generalizing L with
  | nil => trivial
  | cons L' Ls ih => exact ⟨trivial, ih⟩

end

/-! ## Matches of a set -/

namespace Lang

variable {A B : Lang} {Ls : List Lang}

theorem plain_none : none.Plain := fun _ _ _ _ => id

theorem Plain.alt (hA : A.Plain) (hB : B.Plain) : (A.alt B).Plain := fun text p id p' h =>
  h.elim (hA text p id p') (hB text p id p')

theorem Plain.star (hA : A.Plain) : A.star.Plain := by
  rintro text p id p' ⟨p₁, -, ⟨h, -⟩ | ⟨-, h⟩⟩
  · exact Option.some_ne_none id h
  · exact hA text p₁ id p' h

theorem Plain.power (hA : A.Plain) (n : Nat) : (A.power n).Plain := by
  induction n with
  | zero => exact plain_empty
  | succ n ih => exact hA.seq ih

theorem Plain.rep (hA : A.Plain) {min max : Int} : (A.rep min max).Plain :=
  fun text p id p' ⟨n, _, _, h⟩ => hA.power n text p id p' h

theorem Plain.foldl {join : Lang → Lang → Lang} (hjoin : ∀ A B, Plain A → Plain B → Plain (join A B))
    (hA : A.Plain) (hLs : ∀ L ∈ Ls, Plain L) : (Ls.foldl join A).Plain := by
  induction Ls generalizing A with
  | nil => exact hA
  | cons L Ls ih =>
    exact ih (hjoin A L hA (hLs L List.mem_cons_self)) fun L' hL' =>
      hLs L' (List.mem_cons_of_mem _ hL')

end Lang

section

variable {enc : Encoding} {anchor : Anchor} {reversed : Bool}

mutual

theorem Regexp.Plain.lang : (re : Regexp) → re.Plain → (re.lang enc anchor reversed).Plain
  | .noMatch, _ => Lang.plain_none
  | .emptyMatch, _ => Lang.plain_empty
  | .literal _ _, _ => Lang.plain_spell
  | .literalString _ _, _ => by
    unfold Regexp.lang
    apply Lang.Plain.foldl (fun _ _ => Lang.Plain.cat) Lang.plain_empty
    intro L hL
    obtain ⟨r, -, rfl⟩ := List.mem_map.1 hL
    exact literalLang_plain
  | .concat sub subs, h => by
    unfold Regexp.lang
    exact Lang.Plain.foldl (fun _ _ => Lang.Plain.cat) (Regexp.Plain.lang sub h.1)
      (PlainAll.langs subs h.2)
  | .alternate sub subs, h => by
    unfold Regexp.lang
    exact Lang.Plain.foldl (fun _ _ => Lang.Plain.alt) (Regexp.Plain.lang sub h.1)
      (PlainAll.langs subs h.2)
  | .star sub _, h => Lang.Plain.star (Regexp.Plain.lang sub h)
  | .plus sub _, h => (Regexp.Plain.lang sub h).seq (Regexp.Plain.lang sub h).star
  | .quest sub _, h => Lang.plain_empty.alt (Regexp.Plain.lang sub h)
  | .rep sub _ _ _, h => Lang.Plain.rep (Regexp.Plain.lang sub h)
  | .capture sub _, h => Regexp.Plain.lang sub h
  | .anyChar, _ => Lang.plain_spell
  | .anyByte, _ => Lang.plain_spell
  | .beginLine, _ => Lang.plain_assert
  | .endLine, _ => Lang.plain_assert
  | .wordBoundary, _ => Lang.plain_assert
  | .noWordBoundary, _ => Lang.plain_assert
  | .beginText, _ => Lang.plain_assert
  | .endText, _ => Lang.plain_assert
  | .charClass _, _ => Lang.plain_spell
  | .haveMatch _, h => h.elim

theorem PlainAll.langs : (res : List Regexp) → PlainAll res →
    ∀ L ∈ langs enc anchor reversed res, L.Plain
  | [], _ => fun L hL => absurd hL List.not_mem_nil
  | re :: res, h => fun L hL => by
    unfold Re2.langs at hL
    rcases List.mem_cons.1 hL with rfl | hL
    · exact Regexp.Plain.lang re h.1
    · exact PlainAll.langs res h.2 L hL

end

/-! ## In reverse, nothing is signalled -/

mutual

theorem Regexp.Valid.plain : (re : Regexp) → re.Valid enc true → re.Plain
  | .noMatch, _ => trivial
  | .emptyMatch, _ => trivial
  | .literal _ _, _ => trivial
  | .literalString _ _, _ => trivial
  | .concat sub subs, h => ⟨Regexp.Valid.plain sub h.1, ValidAll.plain subs h.2.1⟩
  | .alternate sub subs, h => ⟨Regexp.Valid.plain sub h.1, ValidAll.plain subs h.2⟩
  | .star sub _, h => Regexp.Valid.plain sub h
  | .plus sub _, h => Regexp.Valid.plain sub h
  | .quest sub _, h => Regexp.Valid.plain sub h
  | .rep sub _ _ _, h => Regexp.Valid.plain sub h
  | .capture sub _, h => Regexp.Valid.plain sub h
  | .anyChar, _ => trivial
  | .anyByte, _ => trivial
  | .beginLine, _ => trivial
  | .endLine, _ => trivial
  | .wordBoundary, _ => trivial
  | .noWordBoundary, _ => trivial
  | .beginText, _ => trivial
  | .endText, _ => trivial
  | .charClass _, _ => trivial
  | .haveMatch _, h => Bool.noConfusion h.1

theorem ValidAll.plain : (res : List Regexp) → ValidAll enc true res → PlainAll res
  | [], _ => trivial
  | re :: res, h => ⟨Regexp.Valid.plain re h.1, ValidAll.plain res h.2⟩

end

theorem alongFold_plain {L : Lang} {Ls : List Lang} (hL : L.Plain) (hLs : ∀ L ∈ Ls, L.Plain) :
    AlongFold (.cat reversed) (CatPlain reversed) L Ls := by
  induction Ls generalizing L with
  | nil => trivial
  | cons L' Ls ih =>
    have hL' := hLs L' List.mem_cons_self
    exact ⟨hL.catPlain hL', ih (hL.cat hL') fun L'' h => hLs L'' (List.mem_cons_of_mem _ h)⟩

/-- Forward, only the last part may signal a match. -/
theorem alongFold_forward {L : Lang} {subs : List Regexp} (hL : subs ≠ [] → L.Plain)
    (h : ∀ re ∈ subs.dropLast, re.Plain) :
    AlongFold (.cat false) (CatPlain false) L (langs enc anchor false subs) := by
  induction subs generalizing L with
  | nil => trivial
  | cons sub subs ih =>
    have hL := hL (List.cons_ne_nil _ _)
    refine ⟨hL, ih (fun hne => ?_) fun re hre => ?_⟩
    · rw [List.dropLast_cons_of_ne_nil hne] at h
      exact hL.cat (Regexp.Plain.lang sub (h sub List.mem_cons_self))
    · cases subs with
      | nil => exact absurd hre List.not_mem_nil
      | cons sub' subs => exact h re (List.mem_cons_of_mem _ hre)

/-- The parts of a concatenation may be concatenated one after the other. -/
theorem alongFold_cat {sub : Regexp} {subs : List Regexp}
    (h : (Regexp.concat sub subs).Valid enc reversed) :
    AlongFold (.cat reversed) (CatPlain reversed) (sub.lang enc anchor reversed)
      (langs enc anchor reversed subs) := by
  obtain ⟨hsub, hsubs, hplain⟩ := h
  cases reversed with
  | true =>
    exact alongFold_plain (Regexp.Plain.lang sub (Regexp.Valid.plain sub hsub))
      (PlainAll.langs subs (ValidAll.plain subs hsubs))
  | false =>
    apply alongFold_forward
    · intro hne
      rw [List.dropLast_cons_of_ne_nil hne] at hplain
      exact Regexp.Plain.lang sub (hplain sub List.mem_cons_self)
    · intro re hre
      cases subs with
      | nil => exact absurd hre List.not_mem_nil
      | cons sub' subs => exact hplain re (List.mem_cons_of_mem _ hre)

end

/-! ## One expression -/

section

variable {s s' : RangeCompiler} {W B : Set Nat} {L : Lang} {Ls : List Lang} {f : Fragment}
  {child : List Fragment} {g : Compiler → Garbage} {enc : Encoding} {anchor : Anchor}

theorem turn_latin1 {reversed : Bool} {ranges : List RuneRange} :
    turn reversed {w | ∃ r ∈ ranges, w ∈ r.texts .latin1} =
      {w | ∃ r ∈ ranges, w ∈ r.texts .latin1} := by
  have hbytes : {w | ∃ r ∈ ranges, w ∈ r.texts .latin1} = {w | ∃ c, w = [c] ∧
      ∃ r ∈ ranges, r.lo ≤ Inst.foldByte r.fold.toNat c ∧
        Inst.foldByte r.fold.toNat c ≤ min r.hi 0xFF} := by
    ext w
    constructor
    · rintro ⟨r, hr, ⟨c, rfl, hc⟩ | hw⟩
      · exact ⟨c, rfl, r, hr, hc⟩
      · exact absurd hw (Set.notMem_empty w)
    · rintro ⟨c, rfl, r, hr, hc⟩
      exact ⟨r, hr, .inl ⟨c, rfl, hc⟩⟩
  rw [hbytes]
  exact turn_bytes

/-- The ranges of a class in either encoding: a fragment for their texts, or there was no room for
it. -/
theorem addRanges_ensures {ranges : List RuneRange} (hs : Good s) (hranges : ClassRanges ranges) :
    Ensures Event.Fueled (addRanges g enc ranges) s fun f s' => Refused True s' ∨
      Yields ∅ (.spell (turn s.reversed {w | ∃ r ∈ ranges, w ∈ r.texts enc})) s f s' := by
  cases enc with
  | latin1 =>
    rw [turn_latin1]
    exact addRanges_latin1 hs
  | utf8 => exact addRanges_utf8 hs hranges

theorem addRanges_attempts {ranges : List RuneRange} (hs : Good s) (hranges : ClassRanges ranges) :
    Ensures Event.Fueled (addRanges g enc ranges) s
      (Attempts ∅ (.spell (turn s.reversed {w | ∃ r ∈ ranges, w ∈ r.texts enc})) s) :=
  (addRanges_ensures hs hranges).mono fun _ _ => .imp_left Refused.failed

theorem Yields.mono (h : Yields ∅ L s f s') : Yields B L s f s' := by
  obtain ⟨own, hown, hstep, hf⟩ := h
  exact ⟨own, fun x hx => ⟨(hown x hx).1, fun hlt => absurd ((hown x hx).2 hlt) (Set.notMem_empty x)⟩,
    hstep.mono (Set.empty_subset B), hf⟩

theorem emptyWidth_makes {reversed : Bool} {empty : Nat} (h : empty < 2 ^ 32) :
    Makes reversed (.assert empty) (emptyWidth g empty) where
  failed _ hs := hs.alloc.bind .pure
  good _ hs _ := emptyWidth_builds hs h

theorem giveUp_failed : Ensures Event.Fueled giveUp s fun _ s' => Failed s' :=
  .of_silent (Silent.write.bind .pure) rfl

theorem giveUp_attempts : Ensures Event.Fueled giveUp s (Attempts W L s) :=
  giveUp_failed.mono fun _ _ => .inl

/-- A match of a set. -/
theorem haveMatch_attempts {id : Nat} (hs : Good s) (hrev : s.reversed = false)
    (hid : id < 2 ^ 32) : Ensures Event.Fueled (compileOp g enc anchor (.haveMatch id) child) s
      (Attempts W (Regexp.lang enc anchor s.reversed (.haveMatch id)) s) := by
  unfold compileOp Regexp.lang
  dsimp only
  apply (matchFragment_builds hs hid).bind
  intro f s' h
  split
  next =>
    have hend : Makes false (.assert emptyEndText) (emptyWidth g emptyEndText) :=
      emptyWidth_makes (by decide)
    rw [hrev]
    exact (hend.cat_front h hrev Lang.plain_assert).mono fun _ _ h => h.imp And.right And.left
  next => exact .pure h.attempts

/-- Empty-width flags that depend on the direction. -/
theorem emptyWidth_attempts {forward backward : Nat} (hs : Good s) (h : forward < 2 ^ 32)
    (h' : backward < 2 ^ 32) :
    Ensures Event.Fueled (do emptyWidth g (if (← get).reversed then backward else forward)) s
      (Attempts W (.assert (if s.reversed then backward else forward)) s) := by
  apply Ensures.after Silent.read
  have hflags : (if s.reversed then backward else forward) < 2 ^ 32 := by
    split
    · exact h'
    · exact h
  exact (emptyWidth_builds hs hflags).mono fun _ _ h => h.attempts

/-- The languages of the parts. -/
def Regexp.parts (enc : Encoding) (anchor : Anchor) (reversed : Bool) : Regexp → List Lang
  | .concat sub subs | .alternate sub subs => langs enc anchor reversed (sub :: subs)
  | .star sub _ | .plus sub _ | .quest sub _ | .rep sub _ _ _ | .capture sub _ =>
    [sub.lang enc anchor reversed]
  | _ => []

/-- A fold over the parts of an expression. -/
theorem Combines.parts {F : RangeCompiler → Prop} {op : Fragment → Fragment → RangeM Fragment}
    {join : Lang → Lang → Lang} {C : Lang → Lang → Prop} (hop : Combines F op join s.reversed C)
    (hs : Good s) (hC : AlongFold join C L Ls) (h : Forest s (f :: child) (L :: Ls) B) :
    Ensures Event.Fueled (child.foldlM op f) s fun f' s' =>
      F s' ∨ Yields B (Ls.foldl join L) s f' s' := by
  cases h with
  | cons hf hA hdisj hrest => exact hop.foldlM hs rfl hf hA hdisj hC hrest

/-- The only part of an expression. -/
theorem Forest.single (h : Forest s child [L] B) :
    ∃ f, child = [f] ∧ Realizes s.cell B f L ∧ ∀ x ∈ B, x < s.ninst := by
  cases h with
  | cons hf hA _ hrest =>
    cases hrest with
    | nil => exact ⟨_, rfl, by simpa using hf, by simpa using hA⟩

theorem compileOp_attempts {re : Regexp} (hs : Good s) (hre : re.Valid enc s.reversed)
    (h : Forest s child (re.parts enc anchor s.reversed) B) :
    Ensures Event.Fueled (compileOp g enc anchor re child) s
      (Attempts B (re.lang enc anchor s.reversed) s) := by
  cases re with
  | noMatch =>
    unfold compileOp
    exact .pure (.inr (yields_noMatch hs))
  | emptyMatch =>
    unfold compileOp
    exact (nop_builds hs).mono fun _ _ h => h.attempts
  | haveMatch id => exact haveMatch_attempts hs hre.1 hre.2
  | concat sub subs =>
    cases h with
    | cons hf hA hdisj hrest =>
      have hfold := cat_combines.parts hs (alongFold_cat hre) (.cons hf hA hdisj hrest)
      unfold compileOp Regexp.lang
      exact hfold.mono fun _ _ h => .inr (h.resolve_left id)
  | alternate sub subs =>
    cases h with
    | cons hf hA hdisj hrest =>
      have hfold := (alt_combines (g := g)).parts hs alongFold_true (.cons hf hA hdisj hrest)
      unfold compileOp Regexp.lang
      exact hfold
  | star sub nonGreedy =>
    obtain ⟨f, rfl, hf, hB⟩ := h.single
    exact (star_builds hs hf hB).mono fun _ _ h => h.attempts
  | plus sub nonGreedy =>
    obtain ⟨f, rfl, hf, hB⟩ := h.single
    exact (plus_builds hs hf hB).mono fun _ _ h => h.attempts
  | quest sub nonGreedy =>
    obtain ⟨f, rfl, hf, hB⟩ := h.single
    exact (quest_builds hs hf hB).mono fun _ _ h => h.attempts
  | rep sub min max nonGreedy =>
    obtain ⟨f, rfl, hf, hB⟩ := h.single
    exact giveUp_attempts
  | capture sub cap =>
    obtain ⟨f, rfl, hf, hB⟩ := h.single
    unfold compileOp
    dsimp only
    split
    next => exact .pure (.inr (hf.yields hs hB subset_rfl))
    next => exact (capture_builds hs hf hB).mono fun _ _ h => h.attempts
  | literal rune foldCase =>
    exact ((literal_makes hre).good s hs rfl).mono fun _ _ h => h.attempts.imp_right Yields.mono
  | literalString runes foldCase =>
    cases runes with
    | nil =>
      unfold compileOp
      exact (nop_builds hs).mono fun _ _ h => h.attempts
    | cons rune runes =>
      unfold compileOp Regexp.lang
      exact (literalString_builds hs hre).mono fun _ _ h => h.attempts.imp_right Yields.mono
  | anyChar =>
    have hclass : ClassRanges [⟨0, 0x10FFFF, false⟩] := ⟨by simp, List.pairwise_singleton _ _⟩
    have hranges := @addRanges_attempts s g enc _ hs hclass
    simp only [List.mem_singleton, exists_eq_left, RuneRange.texts_false] at hranges
    exact hranges.mono fun _ _ h => h.imp_right Yields.mono
  | anyByte =>
    have hbyte := byteRangeFragment_builds (g := g) (W := B) (c := ⟨0x00, 0xFF, 0⟩) hs (by decide)
    rw [byteTexts_any] at hbyte
    exact hbyte.mono fun _ _ h => h.attempts
  | charClass cc =>
    unfold compileOp Regexp.lang
    dsimp only
    split
    next => exact giveUp_attempts
    next =>
      have hranges := @addRanges_attempts s g enc _ hs cc.foldRanges_class
      rw [CharClass.foldRanges_texts] at hranges
      exact hranges.mono fun _ _ h => h.imp_right Yields.mono
  | beginLine => exact emptyWidth_attempts hs (by decide) (by decide)
  | endLine => exact emptyWidth_attempts hs (by decide) (by decide)
  | beginText => exact emptyWidth_attempts hs (by decide) (by decide)
  | endText => exact emptyWidth_attempts hs (by decide) (by decide)
  | wordBoundary => exact (emptyWidth_builds hs (by decide)).mono fun _ _ h => h.attempts
  | noWordBoundary => exact (emptyWidth_builds hs (by decide)).mono fun _ _ h => h.attempts

/-! ## The walk -/

/-- What the walk over the parts leaves behind. -/
def Grove (Ls : List Lang) (s : RangeCompiler) (child : List Fragment) (s' : RangeCompiler) : Prop :=
  ∃ B, Forest s' child Ls B ∧ (∀ x ∈ B, s.ninst ≤ x) ∧ Step ∅ s s'

theorem Grove.nil (hs : Good s) : Grove [] s [] s :=
  ⟨∅, .nil, fun x hx => absurd hx (Set.notMem_empty x), .refl hs⟩

theorem Grove.cons {s'' : RangeCompiler} (h : Yields ∅ L s f s') (h' : Grove Ls s' child s'') :
    Grove (L :: Ls) s (f :: child) s'' := by
  obtain ⟨A, hA, hstep, hf⟩ := h
  obtain ⟨B, hforest, hB, hstep'⟩ := h'
  refine ⟨A ∪ B, .cons ?_ ?_ ?_ hforest, ?_, hstep.trans hstep' fun x hx =>
    absurd hx (Set.notMem_empty x)⟩
  · exact hstep'.realizes hstep.good hf (fun x hx => (hA x hx).1) (Set.empty_disjoint A)
      (Set.notMem_empty 0)
  · exact fun x hx => Nat.lt_of_lt_of_le (hA x hx).1 hstep'.ninst
  · exact Set.disjoint_left.2 fun x hx hx' => absurd (hA x hx).1 (Nat.not_lt.2 (hB x hx'))
  · rintro x (hx | hx)
    · exact Nat.le_of_not_lt (hA x hx).2
    · exact Nat.le_trans hstep.ninst (hB x hx)

theorem postVisit_attempts {s₀ : RangeCompiler} {re : Regexp} (hre : re.Valid enc s₀.reversed)
    (h : Failed s ∨ Grove (re.parts enc anchor s₀.reversed) s₀ child s) :
    Ensures Event.Fueled (postVisit g enc anchor re child) s
      (Attempts ∅ (re.lang enc anchor s₀.reversed) s₀) := by
  unfold postVisit
  apply Ensures.after Silent.read
  rcases h with hfail | ⟨B, hforest, hB, hstep⟩
  · have hf : s.failed = true := hfail
    rw [if_pos hf]
    exact .pure (.inl hfail)
  · rw [if_neg (by rw [hstep.good.failed]; decide)]
    rw [← hstep.reversed] at hre hforest ⊢
    apply (compileOp_attempts hstep.good hre hforest).mono
    intro f s' h
    refine h.imp_right fun h => hstep.yields h ?_
    exact fun x hx hlt => absurd (hB x hx) (Nat.not_le.2 hlt)

/-- A visit, from what the visits of the parts do. -/
theorem visit_attempts {re : Regexp} {subs : Int → RangeM (List Fragment × Int)} {visits : Int}
    (hs : Good s) (hre : re.Valid enc s.reversed)
    (hsubs : ∀ visits, Ensures Event.Fueled (subs visits) s fun r s' =>
      Failed s' ∨ Grove (re.parts enc anchor s.reversed) s r.1 s') :
    Ensures Event.Fueled (visit g enc anchor re subs visits) s fun r s' =>
      Attempts ∅ (re.lang enc anchor s.reversed) s r.1 s' := by
  unfold visit
  split
  next => exact giveUp_attempts.bind fun f s' h => .pure h
  next =>
    apply Ensures.after Silent.read
    rw [if_neg (by rw [hs.failed]; decide)]
    apply (hsubs (visits - 1)).bind
    intro r s' h
    exact (postVisit_attempts hre h).bind fun f s'' h => .pure h

/-- Once the compiler has failed, a visit does nothing. -/
theorem keeps_visit {re : Regexp} {subs : Int → RangeM (List Fragment × Int)} {visits : Int} :
    Keeps Event.Fueled Failed (visit g enc anchor re subs visits) := by
  intro s hs
  have hf : s.failed = true := hs
  unfold visit
  split
  next => exact giveUp_failed.bind fun f s' h => .pure h
  next =>
    apply Ensures.after Silent.read
    rw [if_pos hf]
    exact .pure hs

theorem keeps_walk (re : Regexp) (visits : Int) :
    Keeps Event.Fueled Failed (walk g enc anchor re visits) := by
  cases re <;> exact keeps_visit

theorem keeps_walkAll (res : List Regexp) (visits : Int) :
    Keeps Event.Fueled Failed (walkAll g enc anchor res visits) := by
  induction res generalizing visits with
  | nil => exact .pure
  | cons re res ih => exact (keeps_walk re visits).bind fun r => (ih r.2).bind fun _ => .pure

/-- The walk over the only part. -/
theorem single_grove {x : RangeM (Fragment × Int)}
    (hx : Ensures Event.Fueled x s fun r s' => Attempts ∅ L s r.1 s') :
    Ensures Event.Fueled (do
      let (f, visits) ← x
      pure ([f], visits)) s fun r s' => Failed s' ∨ Grove [L] s r.1 s' := by
  apply hx.bind
  rintro ⟨f, visits⟩ s' (hfail | h)
  · exact .pure (.inl hfail)
  · exact .pure (.inr (.cons h (.nil (h.elim fun _ h => h.2.1.good))))

/-- The walk over a first part and the others. -/
theorem cons_grove {x : RangeM (Fragment × Int)} {y : Int → RangeM (List Fragment × Int)}
    (hx : Ensures Event.Fueled x s fun r s' => Attempts ∅ L s r.1 s')
    (hfailed : ∀ visits, Keeps Event.Fueled Failed (y visits))
    (hy : ∀ visits s', Good s' → s'.reversed = s.reversed →
      Ensures Event.Fueled (y visits) s' fun r s'' => Failed s'' ∨ Grove Ls s' r.1 s'') :
    Ensures Event.Fueled (do
      let (f, visits) ← x
      let (fs, visits) ← y visits
      pure (f :: fs, visits)) s fun r s' => Failed s' ∨ Grove (L :: Ls) s r.1 s' := by
  apply hx.bind
  rintro ⟨f, visits⟩ s' (hfail | h)
  · exact (hfailed visits s' hfail).bind fun r s'' h => .pure (.inl h)
  · have hstep := h.elim fun _ h => h.2.1
    apply (hy visits s' hstep.good hstep.reversed).bind
    rintro ⟨fs, visits⟩ s'' (hfail | h')
    · exact .pure (.inl hfail)
    · exact .pure (.inr (.cons h h'))

/-- An expression without parts. -/
theorem leaf_grove (hs : Good s) {visits : Int} :
    Ensures Event.Fueled (pure ([], visits) : RangeM (List Fragment × Int)) s
      fun r s' => Failed s' ∨ Grove [] s r.1 s' :=
  .pure (.inr (.nil hs))

mutual

theorem walk_attempts : (re : Regexp) → (visits : Int) → (s : RangeCompiler) → Good s →
    re.Valid enc s.reversed → Ensures Event.Fueled (walk g enc anchor re visits) s fun r s' =>
      Attempts ∅ (re.lang enc anchor s.reversed) s r.1 s'
  | .noMatch, _, _, hs, h => visit_attempts hs h fun _ => leaf_grove hs
  | .emptyMatch, _, _, hs, h => visit_attempts hs h fun _ => leaf_grove hs
  | .literal _ _, _, _, hs, h => visit_attempts hs h fun _ => leaf_grove hs
  | .literalString _ _, _, _, hs, h => visit_attempts hs h fun _ => leaf_grove hs
  | .concat sub subs, _, s, hs, h => visit_attempts hs h fun visits =>
    cons_grove (walk_attempts sub visits s hs h.1) (keeps_walkAll subs) fun visits s' hs' hrev => by
      rw [← hrev] at h ⊢
      exact walkAll_attempts subs visits s' hs' h.2.1
  | .alternate sub subs, _, s, hs, h => visit_attempts hs h fun visits =>
    cons_grove (walk_attempts sub visits s hs h.1) (keeps_walkAll subs) fun visits s' hs' hrev => by
      rw [← hrev] at h ⊢
      exact walkAll_attempts subs visits s' hs' h.2
  | .star sub _, _, s, hs, h => visit_attempts hs h fun visits =>
    single_grove (walk_attempts sub visits s hs h)
  | .plus sub _, _, s, hs, h => visit_attempts hs h fun visits =>
    single_grove (walk_attempts sub visits s hs h)
  | .quest sub _, _, s, hs, h => visit_attempts hs h fun visits =>
    single_grove (walk_attempts sub visits s hs h)
  | .rep sub _ _ _, _, s, hs, h => visit_attempts hs h fun visits =>
    single_grove (walk_attempts sub visits s hs h)
  | .capture sub _, _, s, hs, h => visit_attempts hs h fun visits =>
    single_grove (walk_attempts sub visits s hs h)
  | .anyChar, _, _, hs, h => visit_attempts hs h fun _ => leaf_grove hs
  | .anyByte, _, _, hs, h => visit_attempts hs h fun _ => leaf_grove hs
  | .beginLine, _, _, hs, h => visit_attempts hs h fun _ => leaf_grove hs
  | .endLine, _, _, hs, h => visit_attempts hs h fun _ => leaf_grove hs
  | .wordBoundary, _, _, hs, h => visit_attempts hs h fun _ => leaf_grove hs
  | .noWordBoundary, _, _, hs, h => visit_attempts hs h fun _ => leaf_grove hs
  | .beginText, _, _, hs, h => visit_attempts hs h fun _ => leaf_grove hs
  | .endText, _, _, hs, h => visit_attempts hs h fun _ => leaf_grove hs
  | .charClass _, _, _, hs, h => visit_attempts hs h fun _ => leaf_grove hs
  | .haveMatch _, _, _, hs, h => visit_attempts hs h fun _ => leaf_grove hs

theorem walkAll_attempts : (res : List Regexp) → (visits : Int) → (s : RangeCompiler) → Good s →
    ValidAll enc s.reversed res → Ensures Event.Fueled (walkAll g enc anchor res visits) s
      fun r s' => Failed s' ∨ Grove (langs enc anchor s.reversed res) s r.1 s'
  | [], _, _, hs, _ => leaf_grove hs
  | re :: res, visits, s, hs, h =>
    cons_grove (walk_attempts re visits s hs h.1) (keeps_walkAll res) fun visits s' hs' hrev => by
      rw [← hrev] at h ⊢
      exact walkAll_attempts res visits s' hs' h.2

end

end

end FourFuzzers.Re2
