import FourFuzzers.CJson.Verify.Parser
import FourFuzzers.CJson.Verify.Printer

/-!
# The strings of a parsed item

A string whose terminator store the sanitizer does not report ends inside its block, or is empty. So
when a run of the parser shows no reported access, every string of the item it returns is a C string
that the printer may read without a report.
-/

namespace FourFuzzers.CJson

open FourFuzzers.Lib FourFuzzers.Lib.Traced

variable {content : List UInt8} {D : Type} {L : Libc D} {α : Type} {Q : α → Prop}

/-- Not an access that the sanitizer reports. -/
def Event.Unreported (e : Event) : Prop := e.isReported = false

/-- A frame changes no access. -/
theorem isReported_push (f : Func) (e : Event) : (e.push f).isReported = e.isReported := by
  cases e <;> rfl

/-- A caller's frame makes no access reported, so it keeps what a silent run yields. -/
theorem Yields.within {x : Run α} (h : Yields Event.Unreported Q x) (f : Func) :
    Yields Event.Unreported Q (within f x) :=
  h.mapLog fun e he => (isReported_push f e).symm.trans he

/-- The terminator of a decoded string is at the index its store has in the trace. -/
theorem parseString_valid (b : ParseBuffer) :
    Yields Event.Unreported (fun r => ValidPtr r.1) (parseString content b) := by
  rcases Nat.lt_or_ge b.offset content.length with hb | hb
  · intro hlog s hs
    obtain ⟨pre, -, htrace⟩ := (parseString_call hb).trace
    rw [hs] at htrace
    obtain ⟨u, i, e, heq, -, hterm, -, -⟩ := htrace
    have hi : ¬ max s.size 1 ≤ i := of_decide_eq_false <| hlog (.access
      { stack := [.parseString], region := .output, write := true, index := i, size := s.size })
      (by rw [heq]; simp)
    obtain ⟨t, ht, hlen, hholds⟩ := Block.exists_cstr (i := 0) i
      (fun k hk => by rw [Nat.zero_add]; exact hterm.filled k hk)
      (by rw [Nat.zero_add]; exact hterm.zero)
    exact ⟨t, ht, hholds, by omega⟩
  · intro _ s hs
    have hget : content.getD b.offset 0 = 0 := by
      rw [List.getD_eq_getElem?_getD, List.getElem?_eq_none hb, Option.getD_none]
    rw [parseString, val_bind, val_peek, hget, if_pos (by decide)] at hs
    cases hs

/-- The five recursive functions with budget `fuel` return valid strings only. -/
structure ParserValid (L : Libc D) (content : List UInt8) (fuel : Nat) : Prop where
  value : ∀ b, Yields Event.Unreported (fun r => ∀ item, r.1 = some item → item.ValidStrings)
    (parseValue L content fuel b)
  array : ∀ b, Yields Event.Unreported (fun r => ∀ item, r.1 = some item → item.ValidStrings)
    (parseArray L content fuel b)
  elements : ∀ b, Yields Event.Unreported
    (fun r => ∀ child, r.1 = some child → child.All LeafValid ValidPtr)
    (parseElements L content fuel b)
  object : ∀ b, Yields Event.Unreported (fun r => ∀ item, r.1 = some item → item.ValidStrings)
    (parseObject L content fuel b)
  members : ∀ b, Yields Event.Unreported
    (fun r => ∀ child, r.1 = some child → child.All LeafValid ValidPtr)
    (parseMembers L content fuel b)

/-- A number holds no string. -/
theorem parseNumber_valid (b : ParseBuffer) :
    Yields Event.Unreported (fun r => ∀ item, r.1 = some item → item.ValidStrings)
      (parseNumber L content b) := by
  refine .skip fun n => .skip fun _ => .skip fun s => .skip fun _ => .skip fun _ => ?_
  dsimp only
  split
  · exact .pure (by simp)
  · refine .skip fun b' => .pure fun item hitem => ?_
    obtain rfl := Option.some.inj hitem
    trivial

/-- A value is a constant, a string, a number, or what the budget below returns. -/
theorem parseValue_valid {fuel : Nat} (ih : ParserValid L content fuel) (b : ParseBuffer) :
    Yields Event.Unreported (fun r => ∀ item, r.1 = some item → item.ValidStrings)
      (parseValue L content (fuel + 1) b) := by
  have leaf : ∀ (item : Item D Block) (b : ParseBuffer) (n : Nat), item.ValidStrings →
      Yields Event.Unreported (fun r => ∀ item, r.1 = some item → item.ValidStrings)
        (do let b ← b.seek n; pure (some item, b) :
          Run (Option (Item D Block) × ParseBuffer)) := by
    intro item b n h
    refine .skip fun b' => .pure fun item' h' => ?_
    obtain rfl := Option.some.inj h'
    exact h
  rw [parseValue]
  refine .skip fun isNull => ?_
  split
  · exact leaf .null b _ trivial
  refine .skip fun isFalse => ?_
  split
  · exact leaf .false b _ trivial
  refine .skip fun isTrue => ?_
  split
  · exact leaf .true b _ trivial
  split
  · refine .skip fun c => ?_
    split
    · refine (Yields.within (parseString_valid b) _).bind fun r hr => .pure fun item hitem => ?_
      obtain ⟨s, hs, rfl⟩ := Option.map_eq_some_iff.1 hitem
      rw [hs] at hr
      exact hr
    split
    · exact Yields.within (parseNumber_valid b) _
    split
    · exact Yields.within (ih.array b) _
    split
    · exact Yields.within (ih.object b) _
    · exact .pure (by simp)
  · exact .pure (by simp)

/-- An array that is returned holds what `parseElements` returned. -/
theorem parseArray_valid {fuel : Nat} (ih : ParserValid L content fuel) (b : ParseBuffer) :
    Yields Event.Unreported (fun r => ∀ item, r.1 = some item → item.ValidStrings)
      (parseArray L content (fuel + 1) b) := by
  rw [parseArray]
  split
  · exact .pure (by simp)
  refine .skip fun c => ?_
  split
  · exact .pure (by simp)
  refine .skip fun b => .skip fun b => .skip fun empty => ?_
  split
  · refine .skip fun b => .pure fun item hitem => ?_
    obtain rfl := Option.some.inj hitem
    trivial
  split
  · exact .skip fun b => .pure (by simp)
  refine .skip fun b => (ih.elements b).bind fun r hr => ?_
  obtain ⟨child, b⟩ := r
  dsimp only
  split
  · exact .pure (by simp)
  refine .skip fun closed => ?_
  split
  · refine .skip fun b => .pure fun item hitem => ?_
    obtain rfl := Option.some.inj hitem
    exact hr _ rfl
  · exact .pure (by simp)

/-- An object that is returned holds what `parseMembers` returned. -/
theorem parseObject_valid {fuel : Nat} (ih : ParserValid L content fuel) (b : ParseBuffer) :
    Yields Event.Unreported (fun r => ∀ item, r.1 = some item → item.ValidStrings)
      (parseObject L content (fuel + 1) b) := by
  rw [parseObject]
  split
  · exact .pure (by simp)
  refine .skip fun isObject => ?_
  split
  · exact .pure (by simp)
  refine .skip fun b => .skip fun b => .skip fun empty => ?_
  split
  · refine .skip fun b => .pure fun item hitem => ?_
    obtain rfl := Option.some.inj hitem
    trivial
  split
  · exact .skip fun b => .pure (by simp)
  refine .skip fun b => (ih.members b).bind fun r hr => ?_
  obtain ⟨child, b⟩ := r
  dsimp only
  split
  · exact .pure (by simp)
  refine .skip fun closed => ?_
  split
  · refine .skip fun b => .pure fun item hitem => ?_
    obtain rfl := Option.some.inj hitem
    exact hr _ rfl
  · exact .pure (by simp)

/-- Each item of an array is a value of the budget below. -/
theorem parseElements_valid {fuel : Nat} (ih : ParserValid L content fuel) (b : ParseBuffer) :
    Yields Event.Unreported (fun r => ∀ child, r.1 = some child → child.All LeafValid ValidPtr)
      (parseElements L content (fuel + 1) b) := by
  rw [parseElements]
  refine .skip fun b => .skip fun b => (Yields.within (ih.value b) _).bind fun r hr => ?_
  obtain ⟨item, b⟩ := r
  dsimp only
  split
  · exact .pure (by simp)
  next item =>
  refine .skip fun b => .skip fun comma => ?_
  split
  · refine (ih.elements b).bind fun r hr' => .pure fun child hchild => ?_
    obtain ⟨next, hnext, rfl⟩ := Option.map_eq_some_iff.1 hchild
    exact ⟨hr item rfl, hr' next hnext⟩
  · refine .pure fun child hchild => ?_
    obtain rfl := Option.some.inj hchild
    exact ⟨hr item rfl, trivial⟩

/-- Each name is a string the parser decoded, each item a value of the budget below. -/
theorem parseMembers_valid {fuel : Nat} (ih : ParserValid L content fuel) (b : ParseBuffer) :
    Yields Event.Unreported (fun r => ∀ child, r.1 = some child → child.All LeafValid ValidPtr)
      (parseMembers L content (fuel + 1) b) := by
  rw [parseMembers]
  split
  · exact .pure (by simp)
  refine .skip fun b => .skip fun b => (Yields.within (parseString_valid b) _).bind fun r hs => ?_
  obtain ⟨string, b⟩ := r
  dsimp only
  split
  · exact .pure (by simp)
  next string =>
  refine .skip fun b => .skip fun colon => ?_
  split
  · exact .pure (by simp)
  refine .skip fun b => .skip fun b => (Yields.within (ih.value b) _).bind fun r hr => ?_
  obtain ⟨item, b⟩ := r
  dsimp only
  split
  · exact .pure (by simp)
  next item =>
  refine .skip fun b => .skip fun comma => ?_
  split
  · refine (ih.members b).bind fun r hr' => .pure fun child hchild => ?_
    obtain ⟨next, hnext, rfl⟩ := Option.map_eq_some_iff.1 hchild
    exact ⟨hs, hr item rfl, hr' next hnext⟩
  · refine .pure fun child hchild => ?_
    obtain rfl := Option.some.inj hchild
    exact ⟨hs, hr item rfl, trivial⟩

/-- By induction on the budget; without any, each function returns no item. -/
theorem parserValid (L : Libc D) (content : List UInt8) (fuel : Nat) :
    ParserValid L content fuel := by
  induction fuel with
  | zero =>
    constructor <;> intro b <;> first
      | rw [parseValue]; exact .skip fun _ => .pure (by simp)
      | rw [parseArray]; exact .skip fun _ => .pure (by simp)
      | rw [parseElements]; exact .skip fun _ => .pure (by simp)
      | rw [parseObject]; exact .skip fun _ => .pure (by simp)
      | rw [parseMembers]; exact .skip fun _ => .pure (by simp)
  | succ fuel ih =>
    exact ⟨parseValue_valid ih, parseArray_valid ih, parseElements_valid ih, parseObject_valid ih,
      parseMembers_valid ih⟩

/-- Without a reported access, the parsed item has valid strings only. -/
theorem cJSONParseWithLengthOpts_valid (requireNullTerminated : Bool) :
    Yields Event.Unreported (fun r => ∀ item, r.1 = some item → item.ValidStrings)
      (cJSONParseWithLengthOpts L content requireNullTerminated) := by
  unfold cJSONParseWithLengthOpts
  dsimp only
  split
  · exact .pure (by simp)
  refine .skip fun r => ?_
  split
  · exact .pure (by simp)
  next b =>
  refine .skip fun b => (Yields.within ((parserValid L content _).value b) _).bind fun r hr => ?_
  obtain ⟨item, b⟩ := r
  dsimp only
  split
  · exact .pure (by simp)
  next item =>
  have hitem : ∀ item', some item = some item' → item'.ValidStrings := hr
  split
  · refine .skip fun b => .skip fun terminated => ?_
    split
    · exact .pure hitem
    · exact .pure (by simp)
  · exact .pure hitem

end FourFuzzers.CJson
