import FourFuzzers.Re2.Machine

/-!
# Regular expressions

The syntax trees of `regexp.h` as the compiler walks them, and what they match. `Lang` is a relation
on the positions of a text: `L text p none p'` says that the text from `p` to `p'` matches, and
`L text p (some id) p'` that a match with this id is signalled at `p'`.

The meaning is given for both directions in which a program reads its text. In reverse, a
concatenation is read from its last part on, an encoding from its last byte on, and the begin of the
text that is read is the end of the original one.
-/

namespace FourFuzzers.Re2

/-- `Encoding` -/
inductive Encoding
  | utf8
  | latin1
  deriving DecidableEq, Repr

/-- The largest rune of an encoding. -/
def Encoding.maxRune : Encoding → Nat
  | utf8 => 0x10FFFF
  | latin1 => 0xFF

/-- `RE2::Anchor` -/
inductive Anchor
  | unanchored
  | anchorStart
  | anchorBoth
  deriving DecidableEq, Repr

/-! ## Syntax -/

/-- Rune `r` is in one of the ranges. -/
def InRanges (ranges : List (Nat × Nat)) (r : Nat) : Prop := ∃ s ∈ ranges, s.1 ≤ r ∧ r ≤ s.2

/-- `CharClass`: ascending disjoint ranges, and whether the class is the same on A-Z and on a-z. -/
structure CharClass where
  ranges : List (Nat × Nat)
  foldsAscii : Bool
  bounds : ∀ r ∈ ranges, r.1 ≤ r.2 ∧ r.2 ≤ 0x10FFFF
  sorted : ranges.Pairwise fun r r' => r.2 < r'.1
  folds : foldsAscii = true → ∀ c, 0x41 ≤ c → c ≤ 0x5A →
    (InRanges ranges c ↔ InRanges ranges (c + 32))

inductive Regexp
  | noMatch
  | emptyMatch
  | literal (rune : Nat) (foldCase : Bool)
  | literalString (runes : List Nat) (foldCase : Bool)
  | concat (sub : Regexp) (subs : List Regexp)
  | alternate (sub : Regexp) (subs : List Regexp)
  | star (sub : Regexp) (nonGreedy : Bool)
  | plus (sub : Regexp) (nonGreedy : Bool)
  | quest (sub : Regexp) (nonGreedy : Bool)
  | rep (sub : Regexp) (min max : Int) (nonGreedy : Bool)
  | capture (sub : Regexp) (cap : Int)
  | anyChar
  | anyByte
  | beginLine
  | endLine
  | wordBoundary
  | noWordBoundary
  | beginText
  | endText
  | charClass (cc : CharClass)
  | haveMatch (id : Nat)

/-! ## Languages -/

abbrev Lang := List Nat → Nat → Option Nat → Nat → Prop

namespace Lang

def none : Lang := fun _ _ _ _ => False

def empty : Lang := fun _ p e p' => e = .none ∧ p' = p

/-- The texts of `W`. -/
def spell (W : Set (List Nat)) : Lang := fun text p e p' =>
  e = .none ∧ ∃ w ∈ W, w <+: text.drop p ∧ p' = p + w.length

/-- The empty-width flags `flags` hold. -/
def assert (flags : Nat) : Lang := fun text p e p' =>
  e = .none ∧ p' = p ∧ flags &&& emptyFlags text p = flags

def signal (id : Nat) : Lang := fun _ p e p' => e = some id ∧ p' = p

def seq (A B : Lang) : Lang := fun text p e p' =>
  (e ≠ .none ∧ A text p e p') ∨ ∃ p₁, A text p .none p₁ ∧ B text p₁ e p'

def alt (A B : Lang) : Lang := fun text p e p' => A text p e p' ∨ B text p e p'

def star (A : Lang) : Lang := fun text p e p' =>
  ∃ p₁, Relation.ReflTransGen (fun p p' => A text p .none p') p p₁ ∧
    ((e = .none ∧ p' = p₁) ∨ e ≠ .none ∧ A text p₁ e p')

def plus (A : Lang) : Lang := A.seq A.star

def quest (A : Lang) : Lang := empty.alt A

def power (A : Lang) : Nat → Lang
  | 0 => empty
  | n + 1 => A.seq (A.power n)

/-- From `min` to `max` times, where -1 stands for no upper bound. -/
def rep (A : Lang) (min max : Int) : Lang := fun text p e p' =>
  ∃ n : Nat, min ≤ n ∧ (max = -1 ∨ n ≤ max) ∧ A.power n text p e p'

/-- `A` and behind it `B`, in the direction in which the text is read. -/
def cat (reversed : Bool) (A B : Lang) : Lang := if reversed then B.seq A else A.seq B

end Lang

/-- The texts in the direction in which they are read. -/
def turn (reversed : Bool) (W : Set (List Nat)) : Set (List Nat) :=
  if reversed then {w | w.reverse ∈ W} else W

/-- The texts of one rune that is `rune`, up to the case of ASCII letters with `foldCase`. -/
def literalTexts (enc : Encoding) (rune : Nat) (foldCase : Bool) : Set (List Nat) :=
  if enc = .latin1 ∨ rune < 0x80 then {w | ∃ c, w = [c] ∧ Inst.foldByte foldCase.toNat c = rune}
  else {runetochar rune}

/-- 80-10FFFF as `Add_80_10ffff` has it: with overlong encodings, and beyond 10FFFF. -/
def WideText : List Nat → Prop
  | [a, b] => (0xC2 ≤ a ∧ a ≤ 0xDF) ∧ 0x80 ≤ b ∧ b ≤ 0xBF
  | [a, b, c] => (0xE0 ≤ a ∧ a ≤ 0xEF) ∧ (0x80 ≤ b ∧ b ≤ 0xBF) ∧ 0x80 ≤ c ∧ c ≤ 0xBF
  | [a, b, c, d] => (0xF0 ≤ a ∧ a ≤ 0xF4) ∧ (0x80 ≤ b ∧ b ≤ 0xBF) ∧ (0x80 ≤ c ∧ c ≤ 0xBF) ∧
      0x80 ≤ d ∧ d ≤ 0xBF
  | _ => False

/-- The texts of the runes of a range. A range that holds all of 80-10FFFF is the special case. -/
def rangeTexts (enc : Encoding) (lo hi : Nat) : Set (List Nat) :=
  match enc with
  | .latin1 => {w | ∃ c, w = [c] ∧ lo ≤ c ∧ c ≤ hi ∧ c ≤ 0xFF}
  | .utf8 =>
    if lo ≤ 0x80 ∧ hi = 0x10FFFF then {w | WideText w ∨ ∃ c, w = [c] ∧ lo ≤ c ∧ c < 0x80}
    else {w | ∃ r, w = runetochar r ∧ lo ≤ r ∧ r ≤ hi}

def classTexts (enc : Encoding) (ranges : List (Nat × Nat)) : Set (List Nat) :=
  {w | ∃ s ∈ ranges, w ∈ rangeTexts enc s.1 s.2}

/-! ## Meaning -/

section

variable (enc : Encoding) (anchor : Anchor) (reversed : Bool)

/-- What a literal matches. -/
def literalLang (foldCase : Bool) (rune : Nat) : Lang :=
  .spell (turn reversed (literalTexts enc rune foldCase))

mutual

/-- What a regular expression matches in a text that is read in the direction `reversed`. A match of
a set that is anchored at both ends is signalled at the end of the text only. -/
def Regexp.lang : Regexp → Lang
  | .noMatch => .none
  | .emptyMatch => .empty
  | .literal rune foldCase => literalLang enc reversed foldCase rune
  | .literalString runes foldCase =>
    (runes.map (literalLang enc reversed foldCase)).foldl (.cat reversed) .empty
  | .concat sub subs => (langs subs).foldl (.cat reversed) sub.lang
  | .alternate sub subs => (langs subs).foldl .alt sub.lang
  | .star sub _ => sub.lang.star
  | .plus sub _ => sub.lang.plus
  | .quest sub _ => sub.lang.quest
  | .rep sub min max _ => sub.lang.rep min max
  | .capture sub _ => sub.lang
  | .anyChar => .spell (turn reversed (rangeTexts enc 0 0x10FFFF))
  | .anyByte => .spell {w | ∃ c, w = [c] ∧ c ≤ 0xFF}
  | .beginLine => .assert (if reversed then emptyEndLine else emptyBeginLine)
  | .endLine => .assert (if reversed then emptyBeginLine else emptyEndLine)
  | .wordBoundary => .assert emptyWordBoundary
  | .noWordBoundary => .assert emptyNonWordBoundary
  | .beginText => .assert (if reversed then emptyEndText else emptyBeginText)
  | .endText => .assert (if reversed then emptyBeginText else emptyEndText)
  | .charClass cc => .spell (turn reversed (classTexts enc cc.ranges))
  | .haveMatch id =>
    if anchor = .anchorBoth then .cat reversed (.assert emptyEndText) (.signal id) else .signal id

def langs : List Regexp → List Lang
  | [] => []
  | re :: res => re.lang :: langs res

end

end

/-! ## Expressions that are compiled -/

mutual

/-- No match of a set is in it. -/
def Regexp.Plain : Regexp → Prop
  | .concat sub subs => sub.Plain ∧ PlainAll subs
  | .alternate sub subs => sub.Plain ∧ PlainAll subs
  | .star sub _ => sub.Plain
  | .plus sub _ => sub.Plain
  | .quest sub _ => sub.Plain
  | .rep sub _ _ _ => sub.Plain
  | .capture sub _ => sub.Plain
  | .haveMatch _ => False
  | _ => True

def PlainAll : List Regexp → Prop
  | [] => True
  | re :: res => re.Plain ∧ PlainAll res

end

section

variable (enc : Encoding) (reversed : Bool)

mutual

/-- What the parser and `RE2::Set` hand to the compiler: runes of the encoding, and a match of a set
at the end of a concatenation only, in a text that is not read in reverse. -/
def Regexp.Valid : Regexp → Prop
  | .literal rune _ => rune ≤ enc.maxRune
  | .literalString runes _ => ∀ rune ∈ runes, rune ≤ enc.maxRune
  | .concat sub subs =>
    sub.Valid ∧ ValidAll subs ∧ ∀ re ∈ (sub :: subs).dropLast, re.Plain
  | .alternate sub subs => sub.Valid ∧ ValidAll subs
  | .star sub _ => sub.Valid
  | .plus sub _ => sub.Valid
  | .quest sub _ => sub.Valid
  | .rep sub _ _ _ => sub.Valid
  | .capture sub _ => sub.Valid
  | .haveMatch id => reversed = false ∧ id < 2 ^ 32
  | _ => True

def ValidAll : List Regexp → Prop
  | [] => True
  | re :: res => re.Valid ∧ ValidAll res

end

end

end FourFuzzers.Re2
