import FourFuzzers.Re2.Verify.Anchors

/-!
# Compiled programs

What `Compile` makes of a simplified expression, up to the call of `Optimize` in `Finish`, whatever
the limit on memory and whatever the memory held before: instructions whose runs are the matches of
the expression.
-/

namespace FourFuzzers.Re2

open FourFuzzers.Lib FourFuzzers.Lib.Traced FourFuzzers.Lib.Stateful

/-- The program signals a match with `id` from `p` to `q`, as a search that is anchored at its begin
sees it. -/
def Prog.Matches (prog : Prog) (text : List Nat) (id p q : Nat) : Prop :=
  (prog.anchorStart = true → p = 0) ∧ (prog.anchorEnd = true → q = text.length) ∧
    (net prog.cell [] text).Exits prog.start p (some id) q

section

variable {g : Compiler → Garbage} {enc : Encoding} {initial : Garbage} {reversed : Bool}
  {sizeofProg : Nat} {maxMem : Int} {s s' : RangeCompiler} {L : Lang}

/-! ## A compiler behind `Setup` -/

theorem setupMaxNinst_le : setupMaxNinst sizeofProg maxMem ≤ 2 ^ 24 := by
  unfold setupMaxNinst
  split
  · decide
  · split
    · decide
    · dsimp only
      split_ifs <;> omega

theorem good_setup : Good (setup initial reversed sizeofProg maxMem) where
  inv := @Inv.step _ (.setMaxNinst (setupMaxNinst sizeofProg maxMem)) (inv_new initial)
    setupMaxNinst_le
  failed := by
    unfold setup
    rw [new_eq]
  pos := by
    unfold setup
    rw [new_eq]
    exact Nat.one_pos
  fail := by
    unfold setup RangeCompiler.cell
    rw [new_eq]
    rfl

/-- A class, whatever its ranges: what is built from new instructions has the texts of its runes,
unless there was no room under `max_ninst_` for another instruction. -/
theorem charClass_texts (cc : CharClass) (hs : Good s) :
    let built := ((addRanges g enc cc.foldRanges).run s).val
    (built.2.failed = true ∧ built.2.maxNinst < built.2.ninst + 1) ∨
      Yields ∅ (.spell (turn s.reversed (classTexts enc cc.ranges))) s built.1 built.2 := by
  have hranges := (@addRanges_ensures s g enc _ hs cc.foldRanges_class).val
  rw [CharClass.foldRanges_texts] at hranges
  exact hranges.imp_left fun hrefused => ⟨hrefused.failed, hrefused.full trivial⟩

/-- `[A-Za-zà-ÿ€-￿]` -/
def sampleCharClass : CharClass where
  ranges := [(0x41, 0x5A), (0x61, 0x7A), (0xE0, 0xFF), (0x20AC, 0xFFFF)]
  foldsAscii := true
  bounds := by decide
  sorted := by decide
  folds _ c h h' := by
    simp only [InRanges, List.mem_cons, List.not_mem_nil, or_false, exists_eq_or_imp, exists_eq_left]
    omega

/-- `A-Z` is read by the folding byte range `a-z`. -/
theorem charClass_texts_sample :
    sampleCharClass.foldRanges =
        [⟨0x61, 0x7A, true⟩, ⟨0xE0, 0xFF, false⟩, ⟨0x20AC, 0xFFFF, false⟩] ∧
      Yields ∅ (.spell (turn true (classTexts .utf8 sampleCharClass.ranges)))
        (setup sampleGarbage true 120 65536)
        ((addRanges (fun _ => sampleGarbage) .utf8 sampleCharClass.foldRanges).run
          (setup sampleGarbage true 120 65536)).val.1
        ((addRanges (fun _ => sampleGarbage) .utf8 sampleCharClass.foldRanges).run
          (setup sampleGarbage true 120 65536)).val.2 := by
  have hnotFailed : ((addRanges (fun _ => sampleGarbage) .utf8 sampleCharClass.foldRanges).run
      (setup sampleGarbage true 120 65536)).val.2.failed ≠ true := by
    decide +kernel
  refine ⟨by decide, ?_⟩
  exact (charClass_texts sampleCharClass good_setup).resolve_left fun h => hnotFailed h.1

/-! ## Patch lists that are left -/

/-- Where all runs signal a match, the holes do not matter. -/
theorem Denotes.no_holes {cell : Nat → Inst} {holes : List Nat} {x : Nat}
    (h : Denotes cell holes x L) (hL : ∀ text p q, ¬ L text p none q) : Denotes cell [] x L := by
  intro text p e q
  rw [← h text p e q]
  have hwire : ∀ port, (net cell holes text).wire port ≠ .inr none →
      (net cell [] text).wire port = (net cell holes text).wire port := by
    intro port hport
    cases port with
    | matched id => rfl
    | slot r =>
      have hr : r ∉ holes := fun hr => hport (wire_hole hr)
      rw [wire_slot hr, wire_slot List.not_mem_nil]
  have hno : ∀ q, ¬ (net cell holes text).Exits x p none q := fun q hrun =>
    hL text p q ((h text p none q).1 hrun)
  exact Network.exits_unused (fun _ _ _ _ => Iff.rfl) hwire hno

/-! ## Compiling -/

/-- An expression without the anchors at its ends. -/
def stripped (re : Regexp) : Regexp :=
  let re := (isAnchorStart 4 re).getD re
  (isAnchorEnd 4 re).getD re

/-- The anchors of a program, in the direction in which it reads. -/
def anchors (reversed : Bool) (re : Regexp) : Bool × Bool :=
  let start := (isAnchorStart 4 re).isSome
  let stop := (isAnchorEnd 4 ((isAnchorStart 4 re).getD re)).isSome
  if reversed then (stop, start) else (start, stop)

theorem stripped_ordinary {re : Regexp} (h : re.Ordinary enc reversed) :
    (stripped re).Ordinary enc reversed := by
  have hstart : ((isAnchorStart 4 re).getD re).Ordinary enc reversed := by
    cases hs : isAnchorStart 4 re with
    | none => exact h
    | some re' => exact isAnchorStart_ordinary hs h
  unfold stripped
  dsimp only
  generalize (isAnchorStart 4 re).getD re = re' at hstart ⊢
  cases he : isAnchorEnd 4 re' with
  | none => exact hstart
  | some re'' => exact isAnchorEnd_ordinary he hstart

/-- What the anchors ask is what an expression loses with them. -/
theorem stripped_lang {re : Regexp} {anchor : Anchor} {text : List Nat} {p q : Nat} :
    re.lang enc anchor reversed text p none q ↔ ((anchors reversed re).1 = true → p = 0) ∧
      ((anchors reversed re).2 = true → q = text.length) ∧
      (stripped re).lang enc anchor reversed text p none q := by
  have hstart : re.lang enc anchor reversed text p none q ↔
      ((isAnchorStart 4 re).isSome = true → if reversed then q = text.length else p = 0) ∧
        ((isAnchorStart 4 re).getD re).lang enc anchor reversed text p none q := by
    cases hs : isAnchorStart 4 re with
    | none => simp
    | some re' =>
      have h := @isAnchorStart_guarded reversed enc anchor 4 re re' hs text p q
      cases reversed <;> simpa using h
  unfold stripped anchors
  dsimp only
  rw [hstart]
  generalize (isAnchorStart 4 re).getD re = re'
  have hend : re'.lang enc anchor reversed text p none q ↔
      ((isAnchorEnd 4 re').isSome = true → if reversed then p = 0 else q = text.length) ∧
        ((isAnchorEnd 4 re').getD re').lang enc anchor reversed text p none q := by
    cases hs : isAnchorEnd 4 re' with
    | none => simp
    | some re'' =>
      have h := @isAnchorEnd_guarded reversed enc anchor 4 re' re'' hs text p q
      cases reversed <;> simpa using h
  rw [hend]
  cases reversed with
  | false => simp
  | true =>
    simp only [if_true]
    tauto

/-- What is in front of a match that is searched for. -/
def anyBytes : Lang := (Lang.spell {w | ∃ c, w = [c] ∧ c ≤ 0xFF}).star

/-- The program of the language `L`, with a loop over bytes in front of it unless it is anchored. -/
structure Prog.Runs (prog : Prog) (L : Lang) : Prop where
  start : Denotes prog.cell [] prog.start L
  startUnanchored : Denotes prog.cell [] prog.startUnanchored
    (if prog.anchorStart then L else anyBytes.seq L)

theorem anyBytes_plain : anyBytes.Plain := Lang.plain_spell.star

theorem dotStar_makes : Makes reversed anyBytes (dotStar g) where
  failed s hs := by
    have hbyte : Silent (byteRangeFragment g 0x00 0xFF 0) s .noMatch s := hs.byteRange.bind .pure
    exact hbyte.bind hs.star
  good _ hs _ := dotStar_builds hs

theorem matchFragment_makes {id : Nat} (hid : id < 2 ^ 32) :
    Makes reversed (.signal id) (matchFragment g id) where
  failed _ hs := hs.alloc.bind .pure
  good _ hs _ := matchFragment_builds hs hid

theorem seq_signal_ne {id : Nat} {text : List Nat} {p q : Nat} :
    ¬ (L.seq (.signal id)) text p none q := by
  rintro (⟨h, -⟩ | ⟨_, -, h, -⟩)
  · exact h rfl
  · exact Option.some_ne_none id h.symm

theorem finishBeforeOptimize_ensures {anchorStart anchorEnd : Bool} {start startUnanchored : Nat}
    {Q : Prog → Prop} (hQ : s.failed = false → ∀ size, Q ⟨reversed, anchorStart, anchorEnd, start,
      startUnanchored, s.inst, size⟩) :
    Ensures Event.Fueled (finishBeforeOptimize reversed anchorStart anchorEnd start startUnanchored) s
      fun r _ => ∀ prog, r = some prog → Q prog := by
  unfold finishBeforeOptimize
  apply Ensures.after Silent.read
  cases hf : s.failed with
  | true =>
    rw [if_pos rfl]
    exact .pure fun _ h => by cases h
  | false =>
    rw [if_neg (by decide)]
    refine .pure ?_
    rintro prog ⟨⟩
    exact hQ hf _

/-- A fragment for a whole program. -/
theorem Realizes.no_holes {cell : Nat → Inst} {own : Set Nat} {f : Fragment}
    (h : Realizes cell own f L) (hL : ∀ text p q, ¬ L text p none q) :
    Denotes cell [] f.begin L := by
  obtain ⟨holes, -, hden, -⟩ := h
  exact hden.no_holes hL

/-- The end of `Compile`: a loop in front of the fragment unless it is anchored. -/
theorem start_ensures {W : Set Nat} {all : Fragment} {anchorStart anchorEnd : Bool}
    (h : Builds W L s all s') (hrev : s.reversed = false) (hL : ∀ text p q, ¬ L text p none q) :
    Ensures Event.Fueled (do
      let all' ← if anchorStart then pure all else do cat (← dotStar g) all
      finishBeforeOptimize reversed anchorStart anchorEnd all.begin all'.begin) s' fun r _ =>
        ∀ prog, r = some prog → (prog.anchorStart, prog.anchorEnd) = (anchorStart, anchorEnd) ∧
          prog.Runs L := by
  have hfinish : ∀ {s : RangeCompiler} {x y : Nat}, (s.failed = false → Denotes s.cell [] x L ∧
      Denotes s.cell [] y (if anchorStart then L else anyBytes.seq L)) →
      Ensures Event.Fueled (finishBeforeOptimize reversed anchorStart anchorEnd x y) s fun r _ =>
        ∀ prog, r = some prog → (prog.anchorStart, prog.anchorEnd) = (anchorStart, anchorEnd) ∧
          prog.Runs L := fun hden =>
        finishBeforeOptimize_ensures fun hf _ => ⟨rfl, (hden hf).1, (hden hf).2⟩
  cases anchorStart with
  | true =>
    rw [if_pos rfl, pure_bind]
    apply hfinish
    intro hf
    rcases h with ⟨-, hfail⟩ | ⟨own, -, -, hall⟩
    · exact absurd (hfail.symm.trans hf) (by decide)
    · exact ⟨hall.no_holes hL, hall.no_holes hL⟩
  | false =>
    rw [if_neg (by decide)]
    rw [← bind_assoc]
    apply (dotStar_makes.cat_front h hrev anyBytes_plain).bind
    intro all' s'' h'
    apply hfinish
    intro hf
    rcases h' with ⟨-, hfail⟩ | ⟨⟨own, -, -, hall'⟩, hkeep⟩
    · exact absurd (hfail.symm.trans hf) (by decide)
    obtain ⟨own', hall⟩ := hkeep rfl
    refine ⟨hall.no_holes hL, hall'.no_holes ?_⟩
    rintro text p q (⟨hne, -⟩ | ⟨r, -, h⟩)
    · exact hne rfl
    · exact hL text r q h

theorem compileSimplified_ensures {re : Regexp} (hs : Good s) (hrev : s.reversed = reversed)
    (hre : re.Ordinary enc reversed) :
    Ensures Event.Fueled (compileSimplified g enc re reversed) s fun r _ => ∀ prog, r = some prog →
      (prog.anchorStart, prog.anchorEnd) = anchors reversed re ∧
        prog.Runs (((stripped re).lang enc .unanchored reversed).seq (.signal 0)) := by
  obtain ⟨hvalid, hplain⟩ := stripped_ordinary hre
  unfold compileSimplified
  dsimp only
  apply Ensures.after Silent.read
  have hwalk := @walk_attempts g enc .unanchored (stripped re) (2 * s.maxNinst) s hs (hrev ▸ hvalid)
  apply hwalk.bind
  rintro ⟨all, visits⟩ s₁ h
  apply Ensures.after Silent.read
  rcases h with hfail | ⟨own, hown, hstep, hall⟩
  · have hf : s₁.failed = true := hfail
    rw [if_pos hf]
    exact .pure fun _ h => by cases h
  rw [if_neg (by rw [hstep.good.failed]; decide)]
  apply Ensures.after Silent.write
  -- the remaining concatenations are read forward
  have hs₁ : Good { s₁ with reversed := false } :=
    ⟨hstep.good.inv, hstep.good.failed, hstep.good.pos, hstep.good.fail⟩
  generalize hforward : { s₁ with reversed := false } = s₂ at hs₁
  have hall₂ : Realizes s₂.cell own all ((stripped re).lang enc .unanchored reversed) := by
    rw [← hforward, ← hrev]
    exact hall
  have hown₂ : ∀ x ∈ own, x < s₂.ninst := by
    rw [← hforward]
    exact fun x hx => (hown x hx).1
  have hrev₂ : s₂.reversed = false := by rw [← hforward]
  have hlangPlain : ((stripped re).lang enc .unanchored reversed).Plain :=
    Regexp.Plain.lang (stripped re) hplain
  generalize (stripped re).lang enc .unanchored reversed = L at hall₂ hlangPlain ⊢
  have hcat := (matchFragment_makes (g := g) (by decide : 0 < 2 ^ 32)).cat
    (.inr (hall₂.yields hs₁ hown₂ subset_rfl)) hrev₂ hlangPlain
  rw [← bind_assoc]
  apply hcat.bind
  intro all₁ s₃ h₁
  have hanchors : (if reversed = true then (isAnchorEnd 4 ((isAnchorStart 4 re).getD re)).isSome
      else (isAnchorStart 4 re).isSome, if reversed = true then (isAnchorStart 4 re).isSome
      else (isAnchorEnd 4 ((isAnchorStart 4 re).getD re)).isSome) = anchors reversed re := by
    unfold anchors
    cases reversed <;> rfl
  rw [← hanchors]
  exact start_ensures h₁ hrev₂ fun _ _ _ => seq_signal_ne

/-- A signal behind what is no match of a set. -/
theorem seq_signal_iff {id q p : Nat} {text : List Nat} (hL : L.Plain) :
    (L.seq (.signal id)) text p (some id) q ↔ L text p none q := by
  constructor
  · rintro (⟨-, h⟩ | ⟨r, h, -, rfl⟩)
    · exact absurd h (hL text p id q)
    · exact h
  · exact fun h => .inr ⟨q, h, rfl, rfl⟩

theorem setup_reversed : (setup initial reversed sizeofProg maxMem).reversed = reversed := rfl

variable {re : Regexp} {prog : Prog}

/-- `a*b` -/
def sampleRegexp : Regexp := .concat (.star (.literal 0x61 false) false) [.literal 0x62 false]

theorem sampleRegexp_ordinary : sampleRegexp.Ordinary .utf8 false := by
  simp [sampleRegexp, Regexp.Ordinary, Regexp.Valid, Regexp.Plain, ValidAll, PlainAll,
    Encoding.maxRune]

/-- Its program with 2^16 bytes of memory. -/
def sampleProg : Option Prog :=
  ((compileSimplified (fun _ => sampleGarbage) .utf8 sampleRegexp false).run
    (setup sampleGarbage false 120 65536)).val.1

/-- Whatever the limit on memory and whatever the memory held before: the instructions that
`Compile` hands to `Optimize` match from `p` to `q` where the simplified expression does. -/
theorem compileSimplified_matches (hre : re.Ordinary enc reversed)
    (hprog : ((compileSimplified g enc re reversed).run
      (setup initial reversed sizeofProg maxMem)).val.1 = some prog) (text : List Nat) (p q : Nat) :
    prog.Matches text 0 p q ↔ re.lang enc .unanchored reversed text p none q := by
  have hplain : ((stripped re).lang enc .unanchored reversed).Plain :=
    Regexp.Plain.lang (stripped re) (stripped_ordinary hre).2
  obtain ⟨hanchors, hruns⟩ :=
    (compileSimplified_ensures good_setup setup_reversed hre).val prog hprog
  have hstart : prog.anchorStart = (anchors reversed re).1 := congrArg Prod.fst hanchors
  have hend : prog.anchorEnd = (anchors reversed re).2 := congrArg Prod.snd hanchors
  unfold Prog.Matches
  rw [stripped_lang, hstart, hend, hruns.start text p (some 0) q, seq_signal_iff hplain]

theorem compileSimplified_matches_sample : ∃ prog, sampleProg = some prog ∧ ∀ text p q,
    prog.Matches text 0 p q ↔ sampleRegexp.lang .utf8 .unanchored false text p none q := by
  have hsome : sampleProg.isSome = true := by decide +kernel
  obtain ⟨prog, hprog⟩ := Option.isSome_iff_exists.1 hsome
  exact ⟨prog, hprog, compileSimplified_matches sampleRegexp_ordinary hprog⟩

/-- A search that is not anchored at its begin finds the matches behind any bytes. -/
theorem compileSimplified_searches (hre : re.Ordinary enc reversed)
    (hprog : ((compileSimplified g enc re reversed).run
      (setup initial reversed sizeofProg maxMem)).val.1 = some prog)
    (hanchor : prog.anchorStart = false) (text : List Nat) (p q : Nat) :
    (prog.anchorEnd = true → q = text.length) ∧
        (net prog.cell [] text).Exits prog.startUnanchored p (some 0) q ↔
      ∃ r, anyBytes text p none r ∧ re.lang enc .unanchored reversed text r none q := by
  have hplain : ((stripped re).lang enc .unanchored reversed).Plain :=
    Regexp.Plain.lang (stripped re) (stripped_ordinary hre).2
  obtain ⟨hanchors, hruns⟩ :=
    (compileSimplified_ensures good_setup setup_reversed hre).val prog hprog
  have hstart : (anchors reversed re).1 = false := by
    rw [← hanchor]
    exact (congrArg Prod.fst hanchors).symm
  have hend : prog.anchorEnd = (anchors reversed re).2 := congrArg Prod.snd hanchors
  have hlang : ∀ r, re.lang enc .unanchored reversed text r none q ↔
      (prog.anchorEnd = true → q = text.length) ∧
        (stripped re).lang enc .unanchored reversed text r none q := by
    intro r
    rw [stripped_lang, hstart, hend]
    exact and_iff_right fun h => absurd h Bool.false_ne_true
  have hrun := hruns.startUnanchored text p (some 0) q
  rw [if_neg (by rw [hanchor]; exact Bool.false_ne_true)] at hrun
  rw [hrun]
  simp only [hlang]
  constructor
  · rintro ⟨hq, ⟨-, h⟩ | ⟨r, hr, h⟩⟩
    · exact absurd h (anyBytes_plain text p 0 q)
    · exact ⟨r, hr, hq, (seq_signal_iff hplain).1 h⟩
  · rintro ⟨r, hr, hq, h⟩
    exact ⟨hq, .inr ⟨r, hr, (seq_signal_iff hplain).2 h⟩⟩

theorem compileSimplified_searches_sample : ∃ prog, sampleProg = some prog ∧ ∀ text p q,
    (prog.anchorEnd = true → q = text.length) ∧
        (net prog.cell [] text).Exits prog.startUnanchored p (some 0) q ↔
      ∃ r, anyBytes text p none r ∧
        sampleRegexp.lang .utf8 .unanchored false text r none q := by
  have hsome : ∃ prog, sampleProg = some prog ∧ prog.anchorStart = false := by
    have h : (sampleProg.map (·.anchorStart)) = some false := by decide +kernel
    exact Option.map_eq_some_iff.1 h
  obtain ⟨prog, hprog, hanchor⟩ := hsome
  exact ⟨prog, hprog, compileSimplified_searches sampleRegexp_ordinary hprog hanchor⟩

/-- The walks of `Compile` over patch lists and tries end, up to the call of `Optimize`. -/
theorem compileSimplified_fueled (hre : re.Ordinary enc reversed) :
    Event.outOfFuel ∉
      ((compileSimplified g enc re reversed).run (setup initial reversed sizeofProg maxMem)).log :=
  fun he => (compileSimplified_ensures good_setup setup_reversed hre).log _ he

theorem compileSimplified_fueled_sample :
    Event.outOfFuel ∉ ((compileSimplified (fun _ => sampleGarbage) .utf8 sampleRegexp false).run
      (setup sampleGarbage false 120 65536)).log :=
  compileSimplified_fueled sampleRegexp_ordinary

end

end FourFuzzers.Re2
