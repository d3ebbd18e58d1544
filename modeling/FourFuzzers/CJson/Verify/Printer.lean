import FourFuzzers.CJson.IntLibc
import FourFuzzers.CJson.Verify.PrintString

/-!
# The printer

`render` is the text the unformatted printer is to leave in its buffer. The functions of the printer
either advance the offset themselves or leave it for `update_offset` to find the terminator:
`Printed` is the state before, `Extends` the state after. Whole runs are put together from pieces of
text, each behind the one before.
-/

namespace FourFuzzers.CJson

open FourFuzzers.Lib FourFuzzers.Lib.Traced

/-! ## Items -/

section

variable {D S : Type}

mutual

/-- Every leaf of an item has `P`, every name of a member has `K`. -/
def Item.All (P : Item D S → Prop) (K : Option S → Prop) : Item D S → Prop
  | .array child => child.All P K
  | .object child => child.All P K
  | .invalid => P .invalid
  | .null => P .null
  | .false => P .false
  | .true => P .true
  | .number d i => P (.number d i)
  | .string s => P (.string s)
  | .raw s => P (.raw s)

def Items.All (P : Item D S → Prop) (K : Option S → Prop) : Items D S → Prop
  | .nil => True
  | .cons item next => item.All P K ∧ next.All P K

def Members.All (P : Item D S → Prop) (K : Option S → Prop) : Members D S → Prop
  | .nil => True
  | .cons string item next => K string ∧ item.All P K ∧ next.All P K

end

mutual

/-- Nesting depth: arrays and objects on a path. -/
def Item.height : Item D S → Nat
  | .array child => child.height + 1
  | .object child => child.height + 1
  | .invalid | .null | .false | .true | .number _ _ | .string _ | .raw _ => 0

def Items.height : Items D S → Nat
  | .nil => 0
  | .cons item next => max item.height next.height

def Members.height : Members D S → Nat
  | .nil => 0
  | .cons _ item next => max item.height next.height

end

end

/-- The string pointer, if any, is a C string inside its block. -/
def ValidPtr (string : Option Block) : Prop := ∀ b, string = some b → ValidString b

/-- The strings of a leaf are C strings inside their blocks. -/
def LeafValid {D : Type} : Item D Block → Prop
  | .string s => ValidPtr s
  | .raw s => ValidPtr s
  | _ => True

/-- A leaf `print_value` knows how to print. -/
def LeafPrintable {D : Type} : Item D Block → Prop
  | .invalid => False
  | .raw s => s.isSome
  | _ => True

variable {D : Type} {L : Libc D}

/-- All strings of an item are C strings inside their blocks. -/
def Item.ValidStrings (item : Item D Block) : Prop := item.All LeafValid ValidPtr

/-- `print_value` fails on no part of the item for its kind. -/
def Item.Printable (item : Item D Block) : Prop := item.All LeafPrintable fun _ => True

mutual

/-- The text of an item, as the unformatted printer leaves it. -/
def render (L : Libc D) : Item D Block → List UInt8
  | .invalid => []
  | .null => [0x6E, 0x75, 0x6C, 0x6C]
  | .false => [0x66, 0x61, 0x6C, 0x73, 0x65]
  | .true => [0x74, 0x72, 0x75, 0x65]
  | .number d i => numberText L d i
  | .string s => quotedPtr s
  | .raw s => (s.map Block.cstr).getD []
  | .array child => 0x5B :: renderElements L child ++ [0x5D]
  | .object child => 0x7B :: renderMembers L child ++ [0x7D]

def renderElements (L : Libc D) : Items D Block → List UInt8
  | .nil => []
  | .cons item next => render L item ++
    ((if next.isNil then [] else [0x2C]) ++ renderElements L next)

def renderMembers (L : Libc D) : Members D Block → List UInt8
  | .nil => []
  | .cons string item next => quotedPtr string ++ (0x3A :: (render L item ++
    ((if next.isNil then [] else [0x2C]) ++ renderMembers L next)))

end

/-! ## Pieces of text -/

/-- `text` stands behind what `p` held, and the offset behind it. -/
structure Extends (p : PrintBuffer) (text : List UInt8) (p' : PrintBuffer) : Prop where
  inv : p'.Inv
  offset : p'.offset = p.offset + text.length
  below : ∀ i, i < p.offset → p'.buffer.mem i = p.buffer.mem i
  holds : p'.buffer.HoldsAt p.offset text

namespace Extends

variable {p p₁ p₂ : PrintBuffer} {t t₁ t₂ : List UInt8}

theorem refl (hp : p.Inv) : Extends p [] p := ⟨hp, rfl, fun _ _ => rfl, Block.holdsAt_nil⟩

theorem trans (h₁ : Extends p t₁ p₁) (h₂ : Extends p₁ t₂ p₂) : Extends p (t₁ ++ t₂) p₂ := by
  have ho := h₁.offset
  refine ⟨h₂.inv, ?_, fun i hi => ?_, ?_⟩
  · rw [h₂.offset, ho, List.length_append, Nat.add_assoc]
  · rw [h₂.below i (by omega), h₁.below i hi]
  · rw [Block.holdsAt_append, ← ho]
    exact ⟨h₁.holds.congr fun k _ hk => h₂.below k (by omega), h₂.holds⟩

theorem printed (h₁ : Extends p t₁ p₁) (h₂ : Printed p₁ t₂ p₂) : Printed p (t₁ ++ t₂) p₂ := by
  have ho := h₁.offset
  have hge := h₂.ge
  have hle := h₂.le
  have hfits := h₂.fits
  refine ⟨h₂.inv, by omega, ?_, ?_, fun i hi => ?_, ?_, ?_⟩
  · rw [List.length_append]
    omega
  · rw [List.length_append]
    omega
  · rw [h₂.below i (by omega), h₁.below i hi]
  · rw [List.append_assoc, Block.holdsAt_append, ← ho]
    exact ⟨h₁.holds.congr fun k _ hk => h₂.below k (by omega), h₂.holds⟩
  · rw [show p₂.offset - p.offset = t₁.length + (p₂.offset - p₁.offset) by omega,
      List.drop_length_add_append]
    exact h₂.rest

end Extends

/-- `update_offset` moves the offset to the terminator. -/
theorem updateOffset_spec {p p' : PrintBuffer} {text : List UInt8} (h : Printed p text p') :
    Meets (safeLog 0) (fun q => Extends p text q ∧ q.depth = p'.depth ∧ q.buffer = p'.buffer)
      (updateOffset p') := by
  have hge := h.ge
  have hle := h.le
  have hfits := h.fits
  have hsplit := List.take_append_drop (p'.offset - p.offset) text
  have htake : (text.take (p'.offset - p.offset)).length = p'.offset - p.offset := by
    rw [List.length_take]
    omega
  have hdrop : (text.drop (p'.offset - p.offset)).length =
      text.length - (p'.offset - p.offset) := List.length_drop
  have hholds := h.holds
  rw [← hsplit, List.append_assoc, Block.holdsAt_append, htake,
    show p.offset + (p'.offset - p.offset) = p'.offset by omega] at hholds
  refine (meets_readCstr h.rest hholds.2 ?_ (by simp)).bind fun s hs => .pure ?_
  · rw [hdrop]
    show _ < p'.length
    omega
  subst hs
  refine ⟨⟨⟨?_, h.inv.noalloc, h.inv.format⟩, ?_, h.below, (Block.holdsAt_append.1 h.holds).1⟩,
    rfl, rfl⟩
  · show p'.offset + _ < p'.length
    omega
  · show p'.offset + _ = _
    omega

/-- `text` was written behind `ensure`, the offset not yet advanced. -/
structure Emitted (p : PrintBuffer) (needed : Nat) (text : List UInt8) (p' : PrintBuffer) :
    Prop where
  frame : p.Frame p'
  fits : p.offset + needed < p'.length
  below : ∀ i, i < p.offset → p'.buffer.mem i = p.buffer.mem i
  holds : p'.buffer.HoldsAt p.offset text

theorem emitText_spec {f : Func} {needed : Nat} {text : List UInt8} {p : PrintBuffer} (hp : p.Inv)
    (hfit : text.length ≤ needed + 1) :
    Meets (safeLog 0) (fun r => (r.1 = true → Emitted p needed text r.2) ∧
      (r.1 = false → intMax < p.offset + needed + 1)) (emitText f needed text p) := by
  refine (Meets.within (ensure_spec hp needed) _).bind fun r hr => ?_
  obtain ⟨_ | o, p'⟩ := r
  · exact .pure ⟨by simp, fun _ => hr.2⟩
  · obtain ⟨rfl, hroom⟩ := hr
    have hfits : p.offset + needed + 1 ≤ p'.length := hroom.fits
    refine (PrintBuffer.meets_putAll (by omega)).bind fun p'' hp'' => ?_
    subst hp''
    refine .pure ⟨fun _ => ⟨hroom.frame.trans (.block p' _), ?_, fun i hi => ?_,
      Block.holdsAt_store _ _ _⟩, by simp⟩
    · rw [PrintBuffer.length, Block.size_store]
      exact hfits
    · dsimp only
      rw [Block.mem_store_of_lt _ _ hi, hroom.below i hi]

/-- Advancing over the text (or all but its terminator). -/
theorem Emitted.extends {needed : Nat} {p p' : PrintBuffer} (hp : p.Inv) (t rest : List UInt8)
    (h : Emitted p needed (t ++ rest) p') (hfit : t.length ≤ needed) (n : Nat) :
    Extends p t { p' with offset := p'.offset + t.length, depth := n } := by
  have hfits := h.fits
  have hoff : p'.offset + t.length = p.offset + t.length := by rw [h.frame.offset]
  refine ⟨⟨?_, h.frame.noalloc.trans hp.noalloc, h.frame.format.trans hp.format⟩, hoff, h.below,
    (Block.holdsAt_append.1 h.holds).1⟩
  show p'.offset + t.length < p'.length
  omega

/-- Leaving the offset in front of the text. -/
theorem Emitted.printed {needed : Nat} {p p' : PrintBuffer} (hp : p.Inv) (text : List UInt8)
    (h : Emitted p needed (text ++ [0]) p') (hfit : text.length ≤ needed)
    (hne : ∀ c ∈ text, c ≠ 0) (n : Nat) : Printed p text { p' with depth := n } := by
  have hfits := h.fits
  have hoff := h.frame.offset
  refine ⟨⟨?_, h.frame.noalloc.trans hp.noalloc, h.frame.format.trans hp.format⟩, ?_, ?_, ?_, h.below,
    h.holds, fun c hc => hne c (List.mem_of_mem_drop hc)⟩
  · show p'.offset < p'.length
    omega
  · exact Nat.le_of_eq hoff.symm
  · show p'.offset ≤ _
    omega
  · show _ < p'.length
    omega

/-! ## Leaves -/

theorem printLiteral_spec {text : List UInt8} {p : PrintBuffer} (hp : p.Inv)
    (hne : ∀ c ∈ text, c ≠ 0) :
    Meets (safeLog 0) (Prints p text True) (printLiteral text p) := by
  refine (Meets.within (ensure_spec hp _) _).bind fun r hr => ?_
  obtain ⟨_ | o, p'⟩ := r
  · exact .pure (.fails fun _ => by have := hr.2; omega)
  · obtain ⟨rfl, hroom⟩ := hr
    have hfits : p.offset + (text.length + 1) + 1 ≤ p'.length := hroom.fits
    refine (PrintBuffer.meets_putAll ?_).bind fun p'' hp'' => ?_
    · rw [List.length_append, List.length_singleton]
      omega
    subst hp''
    exact .pure (.store hp hroom (by omega) hne)

theorem printRaw_spec {strict : Prop} {string : Option Block} {p : PrintBuffer} (hp : p.Inv)
    (hin : strict → ValidPtr string) :
    Meets (printLog strict) (Prints p ((string.map Block.cstr).getD []) string.isSome)
      (printRaw string p) := by
  cases string with
  | none => exact .pure (.fails (by simp))
  | some raw =>
    rw [printRaw]
    refine (meets_readString fun h => hin h raw rfl).bind fun s hs => ?_
    obtain ⟨rfl, hs⟩ := hs
    refine Meets.bind_print (Meets.within (ensure_spec hp _) _) fun r hr => ?_
    obtain ⟨_ | o, p'⟩ := r
    · exact .pure (.fails fun _ => by have := hr.2; simp; omega)
    · obtain ⟨rfl, hroom⟩ := hr
      have hfits : p.offset + (raw.cstr.length + 1) + 1 ≤ p'.length := hroom.fits
      refine Meets.bind_print (PrintBuffer.meets_putAll ?_) fun p'' hp'' => ?_
      · rw [List.length_append, List.length_singleton]
        omega
      subst hp''
      exact .pure (.store hp hroom (Nat.le_succ _) hs)

theorem sprintfD_length_le (i : CInt) : (sprintfD i).length ≤ 11 := by
  have hlt : i.1.natAbs < 10 ^ 10 := by
    have h := i.2
    simp only [intMin, intMax] at h
    omega
  have hdigits := (Nat.length_toDigits_le_iff (show 1 < 10 by decide) (show 0 < 10 by decide)).2 hlt
  unfold sprintfD
  dsimp only
  split
  · rw [List.length_cons, List.length_map]
    omega
  · rw [List.length_map]
    omega

/-- Numbers take at most 25 characters. -/
theorem numberText_length_le (d : D) (i : CInt) : (numberText L d i).length ≤ 25 := by
  unfold numberText
  split_ifs
  · decide
  · exact Nat.le_trans (sprintfD_length_le i) (by decide)
  · dsimp only
    split
    · split
      · exact L.sprintf15g_le d
      · exact L.sprintf17g_le d
    · exact L.sprintf17g_le d

/-- A text stored with its terminator, with the offset moved behind it. -/
theorem Printed.advance {needed : Nat} {p p' p'' : PrintBuffer} {text : List UInt8} (hp : p.Inv)
    (hroom : Room needed p p') (hfit : text.length ≤ needed)
    (hp'' : p'' = { p' with buffer := p'.buffer.store p.offset (text ++ [0]),
                            offset := p.offset + text.length }) : Printed p text p'' := by
  have hfits := hroom.fits
  have hlt : p.offset + text.length < p''.length := by
    rw [hp'', PrintBuffer.length, Block.size_store]
    rw [PrintBuffer.length] at hfits
    omega
  subst hp''
  refine ⟨⟨hlt, hroom.frame.noalloc.trans hp.noalloc, hroom.frame.format.trans hp.format⟩,
    Nat.le_add_right _ _, Nat.le_refl _, hlt, fun i hi => ?_, Block.holdsAt_store _ _ _, ?_⟩
  · dsimp only
    rw [Block.mem_store_of_lt _ _ hi, hroom.below i hi]
  · simp only [Nat.add_sub_cancel_left, List.drop_length, List.not_mem_nil, false_implies,
      implies_true]

theorem printNumber_spec {d : D} {i : CInt} {p : PrintBuffer} (hp : p.Inv) :
    Meets (safeLog 0) (Prints p (numberText L d i) True) (printNumber L d i p) := by
  have hle : (numberText L d i).length ≤ 25 := numberText_length_le d i
  unfold printNumber
  dsimp only
  refine (meets_putAll ?_).bind fun _ _ => ?_
  · rw [List.length_append, List.length_singleton, Block.size_fresh]
    omega
  rw [if_neg (by omega)]
  refine (Meets.within (ensure_spec hp _) _).bind fun r hr => ?_
  obtain ⟨_ | o, p'⟩ := r
  · exact .pure (.fails fun _ => by have := hr.2; omega)
  · obtain ⟨rfl, hroom⟩ := hr
    have hfits : p.offset + ((numberText L d i).length + 1) + 1 ≤ p'.length := hroom.fits
    refine (PrintBuffer.meets_putAll (by omega)).bind fun p₁ hp₁ => ?_
    subst hp₁
    refine (PrintBuffer.meets_put ?_).bind fun p₂ hp₂ => ?_
    · rw [PrintBuffer.length, Block.size_store]
      rw [PrintBuffer.length] at hfits
      omega
    subst hp₂
    refine .pure ⟨fun _ => .advance hp hroom (Nat.le_succ _) ?_, fun _ => hroom.frame.depth,
      fun _ _ => rfl⟩
    dsimp only
    rw [Block.store_append, hroom.frame.offset]
    rfl

/-! ## Arrays and objects -/

/-- What the loops of `print_array` and `print_object` return. -/
structure Appends (p : PrintBuffer) (text : List UInt8) (extra : Prop) (r : Bool × PrintBuffer) :
    Prop where
  extends_ : r.1 = true → Extends p text r.2
  depth : r.1 = true → r.2.depth = p.depth
  succeeds : extra → p.offset + text.length + 2 ≤ intMax → r.1 = true

theorem Appends.fails {p p' : PrintBuffer} {text : List UInt8} {extra : Prop}
    (h : extra → intMax < p.offset + text.length + 2) : Appends p text extra (false, p') :=
  ⟨by simp, by simp, fun he h' => by have := h he; omega⟩

/-- The specification of the three recursive functions at one item. -/
def ValueSpec (L : Libc D) (strict : Prop) (item : Item D Block) : Prop :=
  ∀ p : PrintBuffer, p.Inv → (strict → item.ValidStrings) →
    Meets (printLog strict)
      (Prints p (render L item) (item.Printable ∧ p.depth + item.height ≤ nestingLimit))
      (printValue L item p)

def ElementsSpec (L : Libc D) (strict : Prop) (child : Items D Block) : Prop :=
  ∀ p : PrintBuffer, p.Inv → (strict → child.All LeafValid ValidPtr) →
    Meets (printLog strict)
      (Appends p (renderElements L child)
        (child.All LeafPrintable (fun _ => True) ∧ p.depth + child.height ≤ nestingLimit))
      (printElements L child p)

def MembersSpec (L : Libc D) (strict : Prop) (child : Members D Block) : Prop :=
  ∀ p : PrintBuffer, p.Inv → (strict → child.All LeafValid ValidPtr) →
    Meets (printLog strict)
      (Appends p (renderMembers L child)
        (child.All LeafPrintable (fun _ => True) ∧ p.depth + child.height ≤ nestingLimit))
      (printMembers L child p)

/-- A bracketed text: the brackets `o` and `c` around what the children append. -/
theorem printBrackets_spec {strict extra : Prop} {f : Func} {needed : Nat} {o c : UInt8}
    {close : PrintBuffer → Nat × List UInt8} {children : PrintBuffer → Run (Bool × PrintBuffer)}
    {text : List UInt8} {p : PrintBuffer} {h : Nat} (hp : p.Inv) (hneeded : needed = 1 ∨ needed = 2)
    (hclose : ∀ p : PrintBuffer, p.Inv → close p = (2, [c, 0])) (hc : c ≠ 0)
    (ih : ∀ p' : PrintBuffer, p'.Inv → Meets (printLog strict)
      (Appends p' text (extra ∧ p'.depth + h ≤ nestingLimit)) (children p')) :
    Meets (printLog strict)
      (Prints p (o :: text ++ [c]) (extra ∧ p.depth + (h + 1) ≤ nestingLimit))
      (printBrackets f needed [o] close children p) := by
  have hlen : (o :: text ++ [c]).length = text.length + 2 := by simp
  unfold printBrackets
  split
  · exact .pure (.fails fun hx => by omega)
  refine Meets.bind_print (emitText_spec hp (by simp)) fun r hr => ?_
  obtain ⟨_ | _, p₁⟩ := r
  · exact .pure (.fails fun _ => by have := hr.2 rfl; omega)
  have hopen : Extends p [o] { p₁ with offset := p₁.offset + 1, depth := p₁.depth + 1 } :=
    Emitted.extends hp [o] [] (hr.1 rfl) (by simp; omega) _
  have hdepth : p₁.depth = p.depth := (hr.1 rfl).frame.depth
  have hoff₁ : p₁.offset + 1 = p.offset + 1 := hopen.offset
  refine (ih _ hopen.inv).bind fun r hr => ?_
  obtain ⟨_ | _, p₂⟩ := r
  · refine .pure (.fails fun hx => ?_)
    by_contra hle
    exact Bool.false_ne_true (hr.succeeds ⟨hx.1, by dsimp only; omega⟩ (by dsimp only; omega))
  have hbody := hopen.trans (hr.extends_ rfl)
  have hdepth₂ : p₂.depth = p₁.depth + 1 := hr.depth rfl
  have hoff₂ : p₂.offset = p.offset + (text.length + 1) := hbody.offset
  dsimp only
  rw [hclose p₂ hbody.inv]
  refine Meets.bind_print (emitText_spec hbody.inv (by simp)) fun r hr => ?_
  obtain ⟨_ | _, p₃⟩ := r
  · exact .pure (.fails fun _ => by have := hr.2 rfl; dsimp only at this; omega)
  have hend : Printed p₂ [c] { p₃ with depth := p₃.depth - 1 } :=
    Emitted.printed hbody.inv [c] (hr.1 rfl) (by simp) (by simpa using hc) _
  refine .pure ⟨fun _ => hbody.printed hend, fun _ => ?_, fun _ _ => rfl⟩
  show p₃.depth - 1 = p.depth
  rw [(hr.1 rfl).frame.depth, hdepth₂, hdepth, Nat.add_sub_cancel]

theorem printArray_spec {strict : Prop} {child : Items D Block} (ih : ElementsSpec L strict child) :
    ValueSpec L strict (.array child) := by
  intro p hp hv
  rw [printValue, render, Item.height, Item.Printable, Item.All]
  refine Meets.within_print ?_ _
  exact printBrackets_spec hp (.inl rfl) (fun _ _ => rfl) (by decide) fun p' hp' => ih p' hp' hv

theorem printObject_spec {strict : Prop} {child : Members D Block}
    (ih : MembersSpec L strict child) : ValueSpec L strict (.object child) := by
  intro p hp hv
  rw [printValue, render, Item.height, Item.Printable, Item.All]
  refine Meets.within_print ?_ _
  unfold printObject
  rw [hp.format]
  exact printBrackets_spec hp (.inr rfl) (fun p hp => by rw [hp.format]; rfl) (by decide)
    fun p' hp' => ih p' hp' hv

theorem renderElements_of_isNil {child : Items D Block} (h : child.isNil = true) :
    renderElements L child = [] := by
  cases child with
  | nil => rw [renderElements]
  | cons _ _ => exact absurd h Bool.false_ne_true

theorem renderMembers_of_isNil {child : Members D Block} (h : child.isNil = true) :
    renderMembers L child = [] := by
  cases child with
  | nil => rw [renderMembers]
  | cons _ _ _ => exact absurd h Bool.false_ne_true

theorem printElements_step {strict : Prop} {item : Item D Block} {next : Items D Block}
    (ihv : ValueSpec L strict item) (ihn : ElementsSpec L strict next) :
    ElementsSpec L strict (.cons item next) := by
  intro p hp hv
  rw [printElements]
  simp only [Items.All] at hv
  refine (Meets.within_print (ihv p hp fun h => (hv h).1) _).bind fun r hr => ?_
  have hlen : (render L item).length ≤ (renderElements L (.cons item next)).length := by
    rw [renderElements, List.length_append]
    omega
  obtain ⟨_ | _, p₁⟩ := r
  · refine .pure (.fails fun hx => ?_)
    rw [Items.All, Items.height] at hx
    by_contra hle
    exact Bool.false_ne_true (hr.succeeds ⟨hx.1.1, by omega⟩ (by omega))
  refine Meets.bind_print (Meets.within (updateOffset_spec (hr.printed rfl)) _) fun p₂ hp₂ => ?_
  obtain ⟨hitem, hdepth, -⟩ := hp₂
  have hdepth₂ : p₂.depth = p.depth := hdepth.trans (hr.depth rfl)
  have hoff₂ := hitem.offset
  split
  · next hnil =>
    rw [renderElements, hnil, renderElements_of_isNil hnil, if_pos rfl, List.append_nil,
      List.append_nil]
    exact .pure ⟨fun _ => hitem, fun _ => hdepth₂, fun _ _ => rfl⟩
  next hnil =>
  have htext : renderElements L (.cons item next) =
      render L item ++ ([0x2C] ++ renderElements L next) := by
    rw [renderElements, if_neg hnil]
  have hlen' : (renderElements L (.cons item next)).length =
      (render L item).length + ((renderElements L next).length + 1) := by
    rw [htext, List.length_append, List.singleton_append, List.length_cons]
  dsimp only
  rw [hitem.inv.format]
  refine Meets.bind_print (emitText_spec hitem.inv (by decide)) fun r hr => ?_
  obtain ⟨_ | _, p₃⟩ := r
  · refine .pure (.fails fun _ => ?_)
    have : intMax < p₂.offset + 2 + 1 := hr.2 rfl
    omega
  have hcomma : Extends p₂ [0x2C] { p₃ with offset := p₃.offset + 1 } :=
    Emitted.extends hitem.inv [0x2C] [0] (hr.1 rfl) (by decide) p₃.depth
  have hdepth₃ : p₃.depth = p₂.depth := (hr.1 rfl).frame.depth
  have hoff₃ : p₃.offset + 1 = p₂.offset + 1 := hcomma.offset
  refine (ihn _ hcomma.inv fun h => (hv h).2).mono fun r hr => ⟨fun h => ?_, fun h => ?_, ?_⟩
  · rw [htext]
    exact hitem.trans (hcomma.trans (hr.extends_ h))
  · rw [hr.depth h]
    show p₃.depth = p.depth
    omega
  · intro hx hle
    rw [Items.All, Items.height] at hx
    refine hr.succeeds ⟨hx.1.2, ?_⟩ ?_
    · show p₃.depth + _ ≤ _
      omega
    · show p₃.offset + 1 + _ + 2 ≤ _
      omega

theorem printMembers_step {strict : Prop} {string : Option Block} {item : Item D Block}
    {next : Members D Block} (ihv : ValueSpec L strict item) (ihn : MembersSpec L strict next) :
    MembersSpec L strict (.cons string item next) := by
  intro p hp hv
  rw [printMembers]
  simp only [Members.All] at hv
  generalize hsep : (if next.isNil then [] else [0x2C] : List UInt8) = sep
  have hseplen : sep.length ≤ 1 := by
    rw [← hsep]
    split <;> simp
  have htext : renderMembers L (.cons string item next) =
      quotedPtr string ++ ([0x3A] ++ (render L item ++ (sep ++ renderMembers L next))) := by
    rw [renderMembers, hsep]
    rfl
  have hlen : (renderMembers L (.cons string item next)).length = (quotedPtr string).length +
      (1 + ((render L item).length + (sep.length + (renderMembers L next).length))) := by
    simp only [htext, List.length_append, List.length_singleton]
  rw [printIndent, hp.format, if_neg Bool.false_ne_true, pure_bind]
  -- the name
  refine (Meets.within_print (printStringPtr_spec hp fun h => (hv h).1) _).bind fun r hr => ?_
  obtain ⟨_ | _, p₁⟩ := r
  · refine .pure (.fails fun _ => ?_)
    by_contra hle
    exact Bool.false_ne_true (hr.succeeds trivial (by omega))
  refine Meets.bind_print (Meets.within (updateOffset_spec (hr.printed rfl)) _) fun p₂ hp₂ => ?_
  obtain ⟨hname, hdepth, -⟩ := hp₂
  have hdepth₂ : p₂.depth = p.depth := hdepth.trans (hr.depth rfl)
  have hoff₂ := hname.offset
  -- the colon
  dsimp only
  rw [hname.inv.format]
  refine Meets.bind_print (emitText_spec hname.inv (by decide)) fun r hr => ?_
  obtain ⟨_ | _, p₃⟩ := r
  · refine .pure (.fails fun _ => ?_)
    have : intMax < p₂.offset + 1 + 1 := hr.2 rfl
    omega
  have hcolon : Extends p₂ [0x3A] { p₃ with offset := p₃.offset + 1 } :=
    Emitted.extends hname.inv [0x3A] [] (hr.1 rfl) (by decide) p₃.depth
  have hdepth₃ : p₃.depth = p₂.depth := (hr.1 rfl).frame.depth
  have hoff₃ : p₃.offset + 1 = p₂.offset + 1 := hcolon.offset
  -- the value
  refine (Meets.within_print (ihv _ hcolon.inv fun h => (hv h).2.1) _).bind fun r hr => ?_
  obtain ⟨_ | _, p₄⟩ := r
  · refine .pure (.fails fun hx => ?_)
    rw [Members.All, Members.height] at hx
    by_contra hle
    refine Bool.false_ne_true (hr.succeeds ⟨hx.1.2.1, ?_⟩ ?_)
    · show p₃.depth + _ ≤ _
      omega
    · show p₃.offset + 1 + _ + 2 ≤ _
      omega
  refine Meets.bind_print (Meets.within (updateOffset_spec (hr.printed rfl)) _) fun p₅ hp₅ => ?_
  obtain ⟨hvalue, hdepth, -⟩ := hp₅
  have hdepth₅ : p₅.depth = p₃.depth := hdepth.trans (hr.depth rfl)
  have hoff₅ : p₅.offset = p₃.offset + 1 + _ := hvalue.offset
  -- the comma
  rw [hvalue.inv.format, if_neg Bool.false_ne_true, List.append_nil]
  refine Meets.bind_print (emitText_spec hvalue.inv (by simp)) fun r hr => ?_
  obtain ⟨_ | _, p₆⟩ := r
  · refine .pure (.fails fun _ => ?_)
    have := hr.2 rfl
    omega
  have hcomma : Extends p₅ sep { p₆ with offset := p₆.offset + sep.length } :=
    Emitted.extends hvalue.inv sep [0] (hr.1 rfl) (by omega) p₆.depth
  have hdepth₆ : p₆.depth = p₅.depth := (hr.1 rfl).frame.depth
  have hoff₆ : p₆.offset + sep.length = p₅.offset + sep.length := hcomma.offset
  refine (ihn _ hcomma.inv fun h => (hv h).2.2).mono fun r hr => ⟨fun h => ?_, fun h => ?_, ?_⟩
  · rw [htext]
    exact hname.trans (hcolon.trans (hvalue.trans (hcomma.trans (hr.extends_ h))))
  · rw [hr.depth h]
    show p₆.depth = p.depth
    omega
  · intro hx hle
    rw [Members.All, Members.height] at hx
    refine hr.succeeds ⟨hx.1.2.2, ?_⟩ ?_
    · show p₆.depth + _ ≤ _
      omega
    · show p₆.offset + sep.length + _ + 2 ≤ _
      omega

mutual

/-- `print_value` on every item, in every state of the buffer. -/
theorem printValue_spec (L : Libc D) (strict : Prop) :
    (item : Item D Block) → ValueSpec L strict item
  | .invalid => fun p hp hv => by
    rw [printValue]
    exact .pure (.fails fun hx => absurd hx.1 (by simp [Item.Printable, Item.All, LeafPrintable]))
  | .null => fun p hp hv => by
    rw [printValue, render]
    exact (Meets.printLog (printLiteral_spec hp (by simp))).mono fun _ h => h.mono fun _ => trivial
  | .false => fun p hp hv => by
    rw [printValue, render]
    exact (Meets.printLog (printLiteral_spec hp (by simp))).mono fun _ h => h.mono fun _ => trivial
  | .true => fun p hp hv => by
    rw [printValue, render]
    exact (Meets.printLog (printLiteral_spec hp (by simp))).mono fun _ h => h.mono fun _ => trivial
  | .number d i => fun p hp hv => by
    rw [printValue, render]
    exact (Meets.printLog (Meets.within (printNumber_spec hp) _)).mono
      fun _ h => h.mono fun _ => trivial
  | .string s => fun p hp hv => by
    rw [printValue, render]
    exact (Meets.within_print (Meets.within_print (printStringPtr_spec hp hv) _) _).mono
      fun _ h => h.mono fun _ => trivial
  | .raw s => fun p hp hv => by
    rw [printValue, render]
    exact (printRaw_spec hp hv).mono fun _ h => h.mono fun hx => hx.1
  | .array child => printArray_spec (printElements_spec L strict child)
  | .object child => printObject_spec (printMembers_spec L strict child)

theorem printElements_spec (L : Libc D) (strict : Prop) :
    (child : Items D Block) → ElementsSpec L strict child
  | .nil => fun p hp _ => by
    rw [printElements, renderElements]
    exact .pure ⟨fun _ => .refl hp, fun _ => rfl, fun _ _ => rfl⟩
  | .cons item next =>
    printElements_step (printValue_spec L strict item) (printElements_spec L strict next)

theorem printMembers_spec (L : Libc D) (strict : Prop) :
    (child : Members D Block) → MembersSpec L strict child
  | .nil => fun p hp _ => by
    rw [printMembers, renderMembers]
    exact .pure ⟨fun _ => .refl hp, fun _ => rfl, fun _ _ => rfl⟩
  | .cons _ item next =>
    printMembers_step (printValue_spec L strict item) (printMembers_spec L strict next)

end

/-! ## Whole runs -/

/-- What `cJSON_PrintUnformatted` returns: a block that holds the text of the item and its
terminator. -/
structure PrintResult (L : Libc D) (item : Item D Block) (r : Option Block) : Prop where
  holds : ∀ b, r = some b → b.size = (render L item).length + 1 ∧ b.HoldsAt 0 (render L item ++ [0])
  succeeds : item.Printable → item.height ≤ nestingLimit →
    (render L item).length + 2 ≤ intMax → r.isSome

theorem cJSONPrintUnformatted_spec {strict : Prop} {item : Item D Block}
    (hv : strict → item.ValidStrings) :
    Meets (printLog strict) (PrintResult L item) (cJSONPrintUnformatted L item) := by
  refine Meets.within_print ?_ _
  refine Meets.bind_print (n := 0) (meets_alloc _ _ _) fun _ _ => ?_
  have hp : PrintBuffer.Inv ⟨Block.fresh 256, 0, 0, false, false⟩ :=
    ⟨by simp [PrintBuffer.length], rfl, rfl⟩
  refine (Meets.within_print (printValue_spec L strict item _ hp hv) _).bind fun r hr => ?_
  obtain ⟨_ | _, p₁⟩ := r
  · refine .pure ⟨by simp, fun hpr hh hle => ?_⟩
    refine absurd (hr.succeeds ⟨hpr, ?_⟩ ?_) Bool.false_ne_true
    · show 0 + _ ≤ _
      omega
    · show 0 + _ + 2 ≤ _
      omega
  have hprinted := hr.printed rfl
  refine Meets.bind_print (Meets.within (updateOffset_spec hprinted) _) fun p₂ hp₂ => ?_
  obtain ⟨hext, -, hbuf⟩ := hp₂
  refine Meets.bind_print (n := 0) (meets_alloc _ _ _) fun _ _ => ?_
  have hoff : p₂.offset = 0 + (render L item).length := hext.offset
  refine .pure ⟨fun b hb => ?_, fun _ _ _ => rfl⟩
  obtain rfl := Option.some.inj hb
  refine ⟨by rw [Block.size_realloc]; omega, ?_⟩
  rw [hbuf]
  refine hprinted.holds.realloc ?_ ?_
  · rw [List.length_append, List.length_singleton]
    exact hprinted.fits
  · rw [List.length_append, List.length_singleton]
    show 0 + _ ≤ _
    omega

namespace PrintLog

variable {strict : Prop} {l : List Event}

/-- A call of `print_string_ptr` in the trace of a run, with its writes. -/
theorem exists_writes (h : PrintLog strict l) {s : List UInt8} {o len : Nat} {grown : Bool}
    (hm : .printing s o len grown ∈ l) :
    ∃ pre ws post, l = pre ++ .printing s o len grown :: (ws ++ post) ∧
      StringWrites s o len grown ws := by
  induction h with
  | nil => simp at hm
  | @safe e l he _ ih =>
    rcases List.mem_cons.1 hm with rfl | hm
    · exact he.elim
    · obtain ⟨pre, ws, post, rfl, hw⟩ := ih hm
      exact ⟨e :: pre, ws, post, rfl, hw⟩
  | @string s' o' len' grown' ws' l hw _ ih =>
    rcases List.mem_cons.1 hm with heq | hm
    · obtain ⟨rfl, rfl, rfl, rfl⟩ := Event.printing.inj heq
      exact ⟨[], ws', l, rfl, hw⟩
    · rcases List.mem_append.1 hm with hm | hm
      · obtain ⟨a, ha, -⟩ := hw.all _ hm
        cases ha
      · obtain ⟨pre, ws, post, rfl, hw'⟩ := ih hm
        refine ⟨.printing s' o' len' grown' :: (ws' ++ pre), ws, post, ?_, hw'⟩
        rw [List.cons_append, List.append_assoc]

/-- An access out of bounds is a write by `print_string_ptr` into the print buffer, or a read; none
of the reads is reported if `strict`. -/
theorem oob_cases (h : PrintLog strict l) {a : Access} (hm : .access a ∈ l) (hoob : a.Oob) :
    a.site = some .printStringPtr ∧ a.region = .printbuffer ∨
      a.write = false ∧ (strict → ¬ a.Reported) := by
  induction h with
  | nil => simp at hm
  | safe he _ ih =>
    rcases List.mem_cons.1 hm with rfl | hm
    · rcases he with ⟨hin, -⟩ | ⟨-, hw, hs⟩
      · exact absurd hoob hin
      · exact .inr ⟨hw, fun hstrict => (hs hstrict).1⟩
    · exact ih hm
  | string hws _ ih =>
    simp only [List.mem_cons, reduceCtorEq, List.mem_append, false_or] at hm
    rcases hm with hm | hm
    · obtain ⟨a', ha', hsw⟩ := hws.all _ hm
      obtain rfl := Event.access.inj ha'
      exact .inl ⟨hsw.site, hsw.region⟩
    · exact ih hm

end PrintLog

/-- Every write of an unformatted print is inside its block, except in `print_string_ptr`: its
writes on `s` at offset `o` leave a buffer of `len` bytes exactly when `s` has a control character
and the escape of `s`, with the terminator `sprintf` adds behind a control character at the end,
does not fit; and never when `ensure` has just doubled the buffer. -/
theorem cJSONPrintUnformatted_writes (L : Libc D) (item : Item D Block) :
    PrintLog False (cJSONPrintUnformatted L item).log ∧
      (∀ a : Access, .access a ∈ (cJSONPrintUnformatted L item).log → a.write = true → a.Oob →
        a.site = some .printStringPtr ∧ a.region = .printbuffer) ∧
      ∀ s o len grown, .printing s o len grown ∈ (cJSONPrintUnformatted L item).log →
        ∃ pre ws post,
          (cJSONPrintUnformatted L item).log = pre ++ .printing s o len grown :: (ws ++ post) ∧
          (∀ e ∈ ws, ∃ a, e = .access a ∧ StringWrite len a) ∧
          ((∃ e ∈ ws, e.isOob = true) ↔
            1 ≤ controls s ∧ len ≤ o + (fullEscape s).length + endsInControl s) ∧
          (grown = true → len < intMax → ∀ e ∈ ws, e.isOob = false) := by
  have hlog : PrintLog False (cJSONPrintUnformatted L item).log :=
    (cJSONPrintUnformatted_spec (L := L) False.elim).log
  refine ⟨hlog, fun a ha hw hoob => (hlog.oob_cases ha hoob).resolve_right fun h => ?_,
    fun s o len grown hm => ?_⟩
  · rw [hw] at h
    exact Bool.false_ne_true h.1.symm
  obtain ⟨pre, ws, post, heq, hws⟩ := hlog.exists_writes hm
  exact ⟨pre, ws, post, heq, hws.all, hws.oob, hws.doubled⟩

/-! ## The cap of `ensure` -/

/-- A string of `n` control characters. -/
def controlBlock (n : Nat) : Block :=
  (Block.fresh (n + 1)).store 0 (List.replicate n 1 ++ [0])

theorem ne_zero_of_mem_replicate {n : Nat} : ∀ c ∈ List.replicate n (1 : UInt8), c ≠ 0 := by
  intro c hc
  rw [List.eq_of_mem_replicate hc]
  decide

theorem cstr_controlBlock (n : Nat) : (controlBlock n).cstr = List.replicate n 1 := by
  refine Block.cstrFrom_eq ne_zero_of_mem_replicate (Block.holdsAt_store _ _ _) ?_
  rw [List.length_replicate, controlBlock, Block.size_store, Block.size_fresh]
  omega

theorem controls_replicate (n : Nat) : controls (List.replicate n 1) = n := by
  rw [controls, List.countP_replicate, if_pos (by decide)]

theorem fullEscape_replicate_length (n : Nat) :
    (fullEscape (List.replicate n 1)).length = 6 * n := by
  induction n with
  | zero => rfl
  | succ n ih =>
    rw [List.replicate_succ, fullEscape_cons, List.length_append, ih,
      show (escapeByte 1).length = 6 from by decide]
    omega

/-- The mark of a call whose `ensure` returned `o`. -/
theorem printing_mem {b : Block} {p p' : PrintBuffer} {o : Nat}
    (h : (ensure p (b.cstr.length + (b.cstr.map escapeCount).sum + 3)).val = (some o, p')) :
    .printing b.cstr o p'.length (decide (p.length < p'.length)) ∈
      (printStringPtr (some b) p).log := by
  rw [printStringPtr_some, log_bind, List.mem_append, log_bind, List.mem_append]
  refine .inr (.inr ?_)
  rw [val_within, val_readCstr, show b.cstrFrom 0 = b.cstr from rfl, h, log_bind, log_emit]
  exact List.mem_cons_self

/-- The mark is seen from the whole run. -/
theorem printing_mem_cJSONPrintUnformatted (L : Libc D) {b : Block} {s : List UInt8} {o len : Nat}
    {grown : Bool}
    (h : .printing s o len grown ∈
      (printStringPtr (some b) ⟨Block.fresh 256, 0, 0, false, false⟩).log) :
    .printing s o len grown ∈ (cJSONPrintUnformatted L (.string (some b))).log := by
  have hpush : ∀ (f : Func) (l : List Event), .printing s o len grown ∈ l →
      .printing s o len grown ∈ l.map (Event.push f) :=
    fun f l hl => List.mem_map.2 ⟨_, hl, rfl⟩
  refine hpush _ _ ?_
  rw [print, log_bind, List.mem_append, log_bind, List.mem_append]
  refine .inr (.inl (hpush _ _ ?_))
  rw [printValue]
  exact hpush _ _ (hpush _ _ h)

/-- `ensure` on the empty buffer, for more than half of `INT_MAX` bytes. -/
theorem val_ensure_cap {needed : Nat} (hhalf : intMax / 2 < needed + 1)
    (hmax : needed + 1 ≤ intMax) :
    (ensure ⟨Block.fresh 256, 0, 0, false, false⟩ needed).val =
      (some 0, ⟨(Block.fresh 256).realloc intMax, 0, 0, false, false⟩) := by
  have h256 : 256 < intMax / 2 := by decide
  have hlen : PrintBuffer.length ⟨Block.fresh 256, 0, 0, false, false⟩ = 256 := rfl
  have hsize : newBufferSize (needed + (0 + 1)) = some intMax := by
    rw [newBufferSize, if_pos (by omega), if_pos (by omega)]
  rw [ensure, hlen, if_neg (by simp), if_neg (by omega)]
  dsimp only
  rw [if_neg (by omega), if_neg (by simp), hsize]
  rfl

/-- A string of control characters too long for a doubled buffer, printed first. -/
theorem printing_controlBlock {n : Nat} (hmax : 5 * n + 4 ≤ intMax) (hhalf : intMax / 2 < 5 * n + 4) :
    .printing (List.replicate n 1) 0 intMax true ∈
      (printStringPtr (some (controlBlock n)) ⟨Block.fresh 256, 0, 0, false, false⟩).log := by
  have hcount := outputLength_eq (ne_zero_of_mem_replicate (n := n))
  rw [controls_replicate, fullEscape_replicate_length] at hcount
  have hmem := printing_mem (b := controlBlock n) (val_ensure_cap
    (by rw [cstr_controlBlock]; omega) (by rw [cstr_controlBlock]; omega))
  rw [cstr_controlBlock] at hmem
  exact hmem

/-- `ensure` raises the buffer to `INT_MAX` bytes only, and the text is longer. -/
theorem ensure_cap_overflows :
    ∃ pre s o len ws post,
      (cJSONPrintUnformatted intLibc (.string (some (controlBlock 357913942)))).log =
        pre ++ .printing s o len true :: (ws ++ post) ∧
      (∀ e ∈ ws, ∃ a, e = .access a ∧ StringWrite len a) ∧ ∃ e ∈ ws, e.isOob = true := by
  have hmem := printing_mem_cJSONPrintUnformatted intLibc
    (printing_controlBlock (n := 357913942) (by decide) (by decide))
  obtain ⟨pre, ws, post, heq, hw⟩ :=
    (cJSONPrintUnformatted_spec (L := intLibc) False.elim).log.exists_writes hmem
  refine ⟨pre, _, _, _, ws, post, heq, hw.all, hw.oob.2 ⟨?_, ?_⟩⟩
  · rw [controls_replicate]
    decide
  · rw [fullEscape_replicate_length]
    exact Nat.le_trans (by decide) (Nat.le_add_right _ _)

end FourFuzzers.CJson
