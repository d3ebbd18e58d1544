import FourFuzzers.Re2.Verify.Program

/-!
# Compiled sets

`CompileSet` puts no match behind the expression of a set: each of its branches ends in one of its
own. So the runs of the instructions are the matches of the simplified expression, each under its
id, and behind any bytes unless the set is anchored.
-/

namespace FourFuzzers.Re2

open FourFuzzers.Lib FourFuzzers.Lib.Traced FourFuzzers.Lib.Stateful

mutual

/-- Every match of the expression ends in one of a set. -/
def Regexp.Signals : Regexp → Prop
  | .noMatch => True
  | .haveMatch _ => True
  | .concat sub subs => (subs = [] → sub.Signals) ∧ SignalsLast subs
  | .alternate sub subs => sub.Signals ∧ SignalsAll subs
  | _ => False

def SignalsAll : List Regexp → Prop
  | [] => True
  | re :: res => re.Signals ∧ SignalsAll res

/-- The last of the expressions does. -/
def SignalsLast : List Regexp → Prop
  | [] => True
  | re :: res => (res = [] → re.Signals) ∧ SignalsLast res

end

/-- No match goes on behind. -/
def Lang.Signalled (L : Lang) : Prop := ∀ text p q, ¬ L text p .none q

/-- The last of the languages does not. -/
def SignalledLast : List Lang → Prop
  | [] => True
  | L :: Ls => (Ls = [] → L.Signalled) ∧ SignalledLast Ls

section

variable {enc : Encoding} {anchor : Anchor} {A L : Lang} {Ls : List Lang} {re : Regexp}
  {res : List Regexp}

namespace Lang.Signalled

theorem none : Lang.none.Signalled := fun _ _ _ h => h

/-- What is in front of a signal does not matter. -/
theorem seq (h : L.Signalled) : (A.seq L).Signalled := by
  rintro text p q (⟨hne, -⟩ | ⟨r, -, hrest⟩)
  · exact hne rfl
  · exact h text r q hrest

theorem alt (hA : A.Signalled) (h : L.Signalled) : (A.alt L).Signalled := by
  rintro text p q (hmatch | hmatch)
  · exact hA text p q hmatch
  · exact h text p q hmatch

theorem signal {id : Nat} : (Lang.signal id).Signalled := by
  rintro text p q ⟨h, -⟩
  exact Option.some_ne_none id h.symm

/-- A concatenation signals where its last part does. -/
theorem foldl_cat (hL : Ls = [] → L.Signalled) (hLs : SignalledLast Ls) :
    (Ls.foldl (.cat false) L).Signalled := by
  induction Ls generalizing L with
  | nil => exact hL rfl
  | cons L' Ls ih => exact ih (fun hnil => (hLs.1 hnil).seq) hLs.2

theorem foldl_alt (hL : L.Signalled) (hLs : ∀ L' ∈ Ls, L'.Signalled) :
    (Ls.foldl .alt L).Signalled := by
  induction Ls generalizing L with
  | nil => exact hL
  | cons L' Ls ih =>
    exact ih (hL.alt (hLs L' List.mem_cons_self)) fun L'' h => hLs L'' (List.mem_cons_of_mem _ h)

end Lang.Signalled

theorem langs_eq_nil (h : langs enc anchor false res = []) : res = [] := by
  cases res with
  | nil => rfl
  | cons re res => cases h

mutual

/-- The language of an expression whose matches all end in one of a set. -/
theorem Regexp.Signals.lang : (re : Regexp) → re.Signals → (re.lang enc anchor false).Signalled
  | .noMatch, _ => .none
  | .haveMatch id, _ => by
    unfold Regexp.lang
    split
    · exact Lang.Signalled.signal.seq
    · exact .signal
  | .concat sub subs, h => by
    unfold Regexp.lang
    exact .foldl_cat (fun hnil => Regexp.Signals.lang sub (h.1 (langs_eq_nil hnil)))
      (SignalsLast.langs subs h.2)
  | .alternate sub subs, h => by
    unfold Regexp.lang
    exact .foldl_alt (Regexp.Signals.lang sub h.1) (SignalsAll.langs subs h.2)
  | .emptyMatch, h => h.elim
  | .literal _ _, h => h.elim
  | .literalString _ _, h => h.elim
  | .star _ _, h => h.elim
  | .plus _ _, h => h.elim
  | .quest _ _, h => h.elim
  | .rep _ _ _ _, h => h.elim
  | .capture _ _, h => h.elim
  | .anyChar, h => h.elim
  | .anyByte, h => h.elim
  | .beginLine, h => h.elim
  | .endLine, h => h.elim
  | .wordBoundary, h => h.elim
  | .noWordBoundary, h => h.elim
  | .beginText, h => h.elim
  | .endText, h => h.elim
  | .charClass _, h => h.elim

theorem SignalsAll.langs : (res : List Regexp) → SignalsAll res →
    ∀ L ∈ langs enc anchor false res, L.Signalled
  | [], _ => fun L hL => absurd hL List.not_mem_nil
  | re :: res, h => fun L hL => by
    unfold Re2.langs at hL
    rcases List.mem_cons.1 hL with rfl | hL
    · exact Regexp.Signals.lang re h.1
    · exact SignalsAll.langs res h.2 L hL

theorem SignalsLast.langs : (res : List Regexp) → SignalsLast res →
    SignalledLast (langs enc anchor false res)
  | [], _ => trivial
  | re :: res, h =>
    ⟨fun hnil => Regexp.Signals.lang re (h.1 (langs_eq_nil hnil)), SignalsLast.langs res h.2⟩

end

variable {g : Compiler → Garbage} {initial : Garbage} {sizeofProg : Nat} {maxMem : Int}
  {s : RangeCompiler} {prog : Prog}

/-- The instructions from `start`: the expression, behind any bytes unless the set is anchored. -/
theorem compileSetSimplified_ensures (hs : Good s) (hrev : s.reversed = false)
    (hre : re.Valid enc false) (hsignals : re.Signals) :
    Ensures Event.Fueled (compileSetSimplified g enc re anchor) s fun r _ => ∀ prog, r = some prog →
      Denotes prog.cell [] prog.start (if anchor = .unanchored then
        anyBytes.seq (re.lang enc anchor false) else re.lang enc anchor false) := by
  have hL : (re.lang enc anchor false).Signalled := Regexp.Signals.lang re hsignals
  unfold compileSetSimplified
  apply Ensures.after Silent.read
  have hwalk := @walk_attempts g enc anchor re (2 * s.maxNinst) s hs (hrev ▸ hre)
  rw [hrev] at hwalk
  apply hwalk.bind
  rintro ⟨all, visits⟩ s₁ h
  apply Ensures.after Silent.read
  rcases h with hfail | hyields
  · have hf : s₁.failed = true := hfail
    rw [if_pos hf]
    exact .pure fun _ h => by cases h
  obtain ⟨own, -, hstep, hall⟩ := id hyields
  rw [if_neg (by rw [hstep.good.failed]; decide)]
  by_cases hanchor : anchor = .unanchored
  · rw [if_pos hanchor, if_pos hanchor, ← bind_assoc]
    apply (dotStar_makes.cat_front (.inr hyields) hrev anyBytes_plain).bind
    intro all' s₂ h'
    apply finishBeforeOptimize_ensures
    intro hf size
    rcases h' with ⟨-, hfail⟩ | ⟨⟨own', -, -, hall'⟩, -⟩
    · exact absurd (hfail.symm.trans hf) (by decide)
    · exact hall'.no_holes hL.seq
  · rw [if_neg hanchor, if_neg hanchor, pure_bind]
    exact finishBeforeOptimize_ensures fun _ _ => hall.no_holes hL

/-- Whatever the limit on memory and whatever the memory held before: the instructions that
`CompileSet` hands to `Optimize` signal the matches of the simplified set. -/
theorem compileSetSimplified_matches (hre : re.Valid enc false) (hsignals : re.Signals)
    (hprog : ((compileSetSimplified g enc re anchor).run
      (setup initial false sizeofProg maxMem)).val.1 = some prog) (text : List Nat) (id p q : Nat) :
    (net prog.cell [] text).Exits prog.start p (some id) q ↔
      if anchor = .unanchored then
        ∃ r, anyBytes text p none r ∧ re.lang enc anchor false text r (some id) q
      else re.lang enc anchor false text p (some id) q := by
  have hruns := (compileSetSimplified_ensures good_setup setup_reversed hre hsignals).val prog hprog
  rw [hruns text p (some id) q]
  by_cases hanchor : anchor = .unanchored
  · rw [if_pos hanchor, if_pos hanchor]
    constructor
    · rintro (⟨-, h⟩ | h)
      · exact absurd h (anyBytes_plain text p id q)
      · exact h
    · exact .inr
  · rw [if_neg hanchor, if_neg hanchor]

end

/-- The set of `a` and `b*` -/
def sampleSet : Regexp :=
  .alternate (.concat (.literal 0x61 false) [.haveMatch 0])
    [.concat (.star (.literal 0x62 false) false) [.haveMatch 1]]

/-- Its program with 2^16 bytes of memory. -/
def sampleSetProg : Option Prog :=
  ((compileSetSimplified (fun _ => sampleGarbage) .utf8 sampleSet .unanchored).run
    (setup sampleGarbage false 120 65536)).val.1

theorem compileSetSimplified_matches_sample : ∃ prog, sampleSetProg = some prog ∧ ∀ text id p q,
    (net prog.cell [] text).Exits prog.start p (some id) q ↔
      if Anchor.unanchored = .unanchored then ∃ r, anyBytes text p none r ∧
        sampleSet.lang .utf8 .unanchored false text r (some id) q
      else sampleSet.lang .utf8 .unanchored false text p (some id) q := by
  have hsome : sampleSetProg.isSome = true := by decide +kernel
  obtain ⟨prog, hprog⟩ := Option.isSome_iff_exists.1 hsome
  have hre : sampleSet.Valid .utf8 false := by
    simp [sampleSet, Regexp.Valid, ValidAll, Regexp.Plain, Encoding.maxRune]
  have hsignals : sampleSet.Signals := by
    simp [sampleSet, Regexp.Signals, SignalsAll, SignalsLast]
  exact ⟨prog, hprog, compileSetSimplified_matches hre hsignals hprog⟩

end FourFuzzers.Re2
