import FourFuzzers.Bugs.Identify
import FourFuzzers.CJson.IntLibc
import FourFuzzers.CJson.Verify.ValidStrings

/-!
# Ground truth of the cJSON target

Which injected bug an input of the harness is charged to: the first access that the sanitizer
reports decides, since the run stops there. It is the terminator store of `parse_string` as soon as
one literal that is not empty is decoded without a u-escape; otherwise every string of the parsed
item is intact, and only `print_string_ptr` can leave its buffer. The block of an empty literal has
no bytes, and the sanitizer serves it with one, which takes the terminator. The report lists the
stack of the access and the stack that allocated the block; in the second case neither mentions
`parse_string`, so the order of the signature chain does no harm.
-/

namespace FourFuzzers.CJson

open FourFuzzers.Lib FourFuzzers.Lib.Traced FourFuzzers.Bugs

/-! ## Stacks of the printer -/

/-- `parse_string` is not on the stack of the event. -/
def Event.Clear : Event → Prop
  | .access a => .parseString ∉ a.stack
  | .alloc _ _ st => .parseString ∉ st
  | _ => True

/-- No event of the run has `parse_string` on its stack. -/
def Clear {α : Type} (x : Run α) : Prop := ∀ e ∈ x.log, e.Clear

namespace Clear

variable {α β : Type} {x : Run α} {st : List Func}

theorem pure (a : α) : Clear (Pure.pure a : Run α) := by simp [Clear]

theorem bind {f : α → Run β} (hx : Clear x) (hf : ∀ a, Clear (f a)) : Clear (x >>= f) := by
  intro e he
  rcases List.mem_append.1 he with he | he
  · exact hx e he
  · exact hf _ e he

theorem map {f : α → β} (hx : Clear x) : Clear (f <$> x) := by
  rw [map_eq_pure_bind]
  exact hx.bind fun _ => .pure _

theorem within {f : Func} (hf : f ≠ .parseString) (hx : Clear x) : Clear (within f x) := by
  intro e he
  obtain ⟨e', he', rfl⟩ := List.mem_map.1 he
  have h := hx e' he'
  cases e' with
  | access a => simpa [Event.Clear, Event.push, hf.symm] using h
  | alloc r n st => simpa [Event.Clear, Event.push, hf.symm] using h
  | offset => trivial
  | decoded => trivial
  | printing => trivial
  | outOfFuel => trivial

theorem emit {e : Event} (he : e.Clear) : Clear (Traced.emit e) := by
  simpa [Clear] using he

theorem alloc {r : Region} {n : Nat} (hst : .parseString ∉ st) :
    Clear (Traced.emit (.alloc r n st)) :=
  emit hst

theorem put {r : Region} {b : Block} {i : Nat} {v : UInt8} (hst : .parseString ∉ st) :
    Clear (put st r b i v) := by
  simpa [Clear, CJson.put, Event.Clear] using hst

theorem putAll {r : Region} {b : Block} {i : Nat} {vs : List UInt8} (hst : .parseString ∉ st) :
    Clear (putAll st r b i vs) := by
  induction vs generalizing b i with
  | nil => exact .pure _
  | cons v vs ih => exact (put hst).bind fun _ => ih

theorem readCstr {r : Region} {b : Block} {i : Nat} (hst : .parseString ∉ st) :
    Clear (readCstr st r b i) := by
  intro e he
  obtain ⟨k, -, rfl⟩ := List.mem_map.1 he
  exact hst

variable {p : PrintBuffer}

theorem bufferPut {i : Nat} {v : UInt8} (hst : .parseString ∉ st) : Clear (p.put st i v) :=
  (put hst).bind fun _ => .pure _

theorem bufferPutAll {i : Nat} {vs : List UInt8} (hst : .parseString ∉ st) :
    Clear (p.putAll st i vs) :=
  (putAll hst).bind fun _ => .pure _

theorem ensure {needed : Nat} : Clear (ensure p needed) := by
  unfold CJson.ensure
  split
  · exact .pure _
  split
  · exact .pure _
  dsimp only
  split
  · exact .pure _
  split
  · exact .pure _
  split
  · exact .pure _
  · exact (alloc (by decide)).bind fun _ => .pure _

theorem updateOffset : Clear (updateOffset p) := (readCstr (by decide)).bind fun _ => .pure _

theorem printNumber {D : Type} {L : Libc D} {d : D} {i : CInt} : Clear (printNumber L d i p) := by
  unfold CJson.printNumber
  refine (putAll (by decide)).bind fun _ => ?_
  split
  · exact .pure _
  refine (within (by decide) ensure).bind fun r => ?_
  split
  · exact .pure _
  · exact (bufferPutAll (by decide)).bind fun _ => (bufferPut (by decide)).bind fun _ => .pure _

theorem copyEscaped {s : List UInt8} {op : Nat} : Clear (copyEscaped s p op) := by
  induction s generalizing p op with
  | nil => exact .pure _
  | cons c cs ih =>
    rw [CJson.copyEscaped]
    split
    · exact (bufferPut (by decide)).bind fun _ => ih
    · refine (bufferPut (by decide)).bind fun _ => ?_
      split
      · exact (bufferPut (by decide)).bind fun _ => ih
      · exact (bufferPutAll (by decide)).bind fun _ => ih

theorem printStringPtr {input : Option Block} : Clear (printStringPtr input p) := by
  cases input with
  | none =>
    refine (within (by decide) ensure).bind fun r => ?_
    split
    · exact .pure _
    · exact (bufferPutAll (by decide)).bind fun _ => .pure _
  | some b =>
    rw [printStringPtr_some]
    refine (readCstr (by decide)).bind fun s => (within (by decide) ensure).bind fun r => ?_
    split
    · exact .pure _
    · refine (emit (by exact trivial)).bind fun _ => map ?_
      refine (bufferPut (by decide)).bind fun _ => bind ?_ fun _ =>
        (bufferPut (by decide)).bind fun _ => bufferPut (by decide)
      unfold copyBody
      split
      · exact bufferPutAll (by decide)
      · exact map copyEscaped

theorem printLiteral {text : List UInt8} : Clear (printLiteral text p) := by
  refine (within (by decide) ensure).bind fun r => ?_
  split
  · exact .pure _
  · exact (bufferPutAll (by decide)).bind fun _ => .pure _

theorem printRaw {string : Option Block} : Clear (printRaw string p) := by
  cases string with
  | none => exact .pure _
  | some raw =>
    refine (readCstr (by decide)).bind fun s => (within (by decide) ensure).bind fun r => ?_
    split
    · exact .pure _
    · exact (bufferPutAll (by decide)).bind fun _ => .pure _

theorem emitText {f : Func} {needed : Nat} {text : List UInt8} (hf : f ≠ .parseString) :
    Clear (emitText f needed text p) := by
  refine (within hf ensure).bind fun r => ?_
  split
  · exact .pure _
  · exact (bufferPutAll (by simpa using hf.symm)).bind fun _ => .pure _

theorem printIndent : Clear (printIndent p) := by
  unfold CJson.printIndent
  split
  · refine (emitText (by decide)).bind fun r => ?_
    split <;> exact .pure _
  · exact .pure _

theorem printBrackets {f : Func} {needed : Nat} {open_ : List UInt8}
    {close : PrintBuffer → Nat × List UInt8} {children : PrintBuffer → Run (Bool × PrintBuffer)}
    (hf : f ≠ .parseString) (h : ∀ p, Clear (children p)) :
    Clear (printBrackets f needed open_ close children p) := by
  unfold CJson.printBrackets
  split
  · exact .pure _
  refine (emitText hf).bind fun r => ?_
  split
  · exact .pure _
  refine (h _).bind fun r => ?_
  split
  · exact .pure _
  refine (emitText hf).bind fun r => ?_
  split <;> exact .pure _

end Clear

section

variable {D : Type}

mutual

theorem printValue_clear (L : Libc D) : (item : Item D Block) → (p : PrintBuffer) →
    Clear (printValue L item p)
  | .invalid, p => by rw [printValue]; exact .pure _
  | .null, p => by rw [printValue]; exact .printLiteral
  | .false, p => by rw [printValue]; exact .printLiteral
  | .true, p => by rw [printValue]; exact .printLiteral
  | .number d i, p => by rw [printValue]; exact .within (by decide) .printNumber
  | .raw s, p => by rw [printValue]; exact .printRaw
  | .string s, p => by
    rw [printValue]
    exact .within (by decide) (.within (by decide) .printStringPtr)
  | .array child, p => by
    rw [printValue]
    exact .within (by decide) (.printBrackets (by decide) fun p => printElements_clear L child p)
  | .object child, p => by
    rw [printValue]
    exact .within (by decide) (.printBrackets (by decide) fun p => printMembers_clear L child p)

theorem printElements_clear (L : Libc D) : (child : Items D Block) → (p : PrintBuffer) →
    Clear (printElements L child p)
  | .nil, p => by rw [printElements]; exact .pure _
  | .cons item next, p => by
    rw [printElements]
    refine (Clear.within (by decide) (printValue_clear L item p)).bind fun r => ?_
    split
    · exact .pure _
    refine (Clear.within (by decide) .updateOffset).bind fun p => ?_
    split
    · exact .pure _
    refine (Clear.emitText (by decide)).bind fun r => ?_
    split
    · exact .pure _
    · exact printElements_clear L next _

theorem printMembers_clear (L : Libc D) : (child : Members D Block) → (p : PrintBuffer) →
    Clear (printMembers L child p)
  | .nil, p => by rw [printMembers]; exact .pure _
  | .cons string item next, p => by
    rw [printMembers]
    refine Clear.printIndent.bind fun r => ?_
    split
    · exact .pure _
    refine (Clear.within (by decide) .printStringPtr).bind fun r => ?_
    split
    · exact .pure _
    refine (Clear.within (by decide) .updateOffset).bind fun p => ?_
    refine (Clear.emitText (by decide)).bind fun r => ?_
    split
    · exact .pure _
    refine (Clear.within (by decide) (printValue_clear L item _)).bind fun r => ?_
    split
    · exact .pure _
    refine (Clear.within (by decide) .updateOffset).bind fun p => ?_
    refine (Clear.emitText (by decide)).bind fun r => ?_
    split
    · exact .pure _
    · exact printMembers_clear L next _

end

end

/-! ## Reports -/

/-- What the symbolizer prints for a frame besides the name of the function: an address, and the
words of a location, such as `/cJSON.c:917:21` or `(/usr/lib/libasan.so.8+0xb4b80) (BuildId:
5f2c)`. -/
structure Symbolizer where
  address : Nat → Func → List Char
  location : Nat → Func → List (List Char)
  address_blank : ∀ k f, ' ' ∉ address k f
  location_blank : ∀ k f, ∀ w ∈ location k f, ' ' ∉ w
  /-- No word of a location is, or ends in, `in`. -/
  location_in : ∀ k f, ∀ w ∈ location k f, ¬ ['i', 'n'] <:+ w

/-- The words of a frame line. -/
def frameWords (sym : Symbolizer) (k : Nat) (f : Func) : List (List Char) :=
  [[], [], [], [], '#' :: Nat.toDigits 10 k, sym.address k f, ['i', 'n'], f.name.toList] ++
    sym.location k f

/-- A line of a stack trace: `    #k address in name location`. -/
def frameLine (sym : Symbolizer) (k : Nat) (f : Func) : List Char :=
  [' '].intercalate (frameWords sym k f)

/-- A stack trace, innermost frame first. -/
def stackLines (sym : Symbolizer) (stack : List Func) : Lines := stack.mapIdx (frameLine sym)

theorem blank_not_mem_frameWords (sym : Symbolizer) (k : Nat) (f : Func) :
    ∀ w ∈ frameWords sym k f, ' ' ∉ w := by
  have hname : ' ' ∉ f.name.toList := by
    cases f <;> decide
  have hdigits : ' ' ∉ Nat.toDigits 10 k := fun h =>
    absurd (Nat.isDigit_of_mem_toDigits (by decide) (by decide) h) (by decide)
  intro w hw
  simp only [frameWords, List.mem_append, List.mem_cons, List.not_mem_nil, or_false] at hw
  rcases hw with (rfl | rfl | rfl | rfl | rfl | rfl | rfl | rfl) | hw
  · decide
  · decide
  · decide
  · decide
  · simpa using hdigits
  · exact sym.address_blank k f
  · decide
  · exact hname
  · exact sym.location_blank k f w hw

/-- A frame line matches `in name` exactly when the name of its function starts with it. -/
theorem infix_frameLine {sym : Symbolizer} {k : Nat} {f : Func} {name : List Char}
    (hname : ' ' ∉ name) (hlen : 2 < name.length) :
    ['i', 'n'] ++ ' ' :: name <:+: frameLine sym k f ↔ name <+: f.name.toList := by
  constructor
  · intro h
    obtain ⟨l, t, u, r, hws, ht, hu⟩ :=
      exists_adjacent_of_infix (by decide) hname (blank_not_mem_frameWords sym k f) h
    have hmem := mem_zip_tail_of_adjacent (l := l) (r := r) (t := t) (u := u)
    rw [← hws] at hmem
    have hn : 'n' ∈ t := ht.subset (by decide)
    have hdigits : 'n' ∉ Nat.toDigits 10 k := fun h =>
      absurd (Nat.isDigit_of_mem_toDigits (by decide) (by decide) h) (by decide)
    have hend : ¬ ['i', 'n'] <:+ f.name.toList := by
      cases f <;> decide
    simp only [frameWords, List.cons_append, List.nil_append, List.tail_cons, List.zip_cons_cons,
      List.mem_cons, Prod.mk.injEq] at hmem
    rcases hmem with h | h | h | h | h | h | h | h
    · simp [h.1] at hn
    · simp [h.1] at hn
    · simp [h.1] at hn
    · simp [h.1] at hn
    · simp [h.1, hdigits] at hn
    · have := hu.length_le
      rw [h.2] at this
      exact absurd this (by simpa using hlen)
    · exact h.2 ▸ hu
    · -- `t` is the name or a word of the location
      rcases List.mem_cons.1 (List.of_mem_zip h).1 with rfl | hloc
      · exact absurd ht hend
      · exact absurd ht (sym.location_in k f t hloc)
  · intro h
    exact infix_of_adjacent (l := [[], [], [], [], '#' :: Nat.toDigits 10 k, sym.address k f])
      List.suffix_rfl h

/-- The pattern of a function's name is found in a stack trace exactly when the function is on
it. -/
theorem grep_stackLines {sym : Symbolizer} {stack : List Func} {g : Func} {pattern : String}
    (hpattern : pattern.toList = ['i', 'n'] ++ ' ' :: g.name.toList)
    (hlen : 2 < g.name.toList.length)
    (hg : ∀ f : Func, g.name.toList <+: f.name.toList ↔ f = g) :
    grep pattern (stackLines sym stack) = true ↔ g ∈ stack := by
  have hblank : ' ' ∉ g.name.toList := by
    cases g <;> decide
  rw [grep_eq_true, hpattern]
  constructor
  · rintro ⟨line, hline, hin⟩
    obtain ⟨i, hi, rfl⟩ := List.mem_mapIdx.1 hline
    rw [infix_frameLine hblank hlen, hg] at hin
    exact hin ▸ List.getElem_mem hi
  · intro hmem
    obtain ⟨i, hi, rfl⟩ := List.getElem_of_mem hmem
    exact ⟨_, List.mem_mapIdx.2 ⟨i, hi, rfl⟩, (infix_frameLine hblank hlen).2 List.prefix_rfl⟩

theorem grep_parse_string (sym : Symbolizer) {stack : List Func} :
    grep "in parse_string" (stackLines sym stack) = true ↔ .parseString ∈ stack := by
  refine grep_stackLines (by decide) (by decide) fun f => ?_
  cases f <;> decide

theorem grep_print_string_ptr {sym : Symbolizer} {stack : List Func} :
    grep "in print_string_ptr" (stackLines sym stack) = true ↔ .printStringPtr ∈ stack := by
  refine grep_stackLines (by decide) (by decide) fun f => ?_
  cases f <;> decide

/-! ## The first fault -/

/-- The events before the first access that the sanitizer reports. -/
def beforeFault (l : List Event) : List Event := l.takeWhile (!·.isReported)

/-- The first access that the sanitizer reports: the run stops there. -/
def fault? (l : List Event) : Option Access :=
  match l.dropWhile (!·.isReported) with
  | .access a :: _ => some a
  | _ => none

/-- The stack that last allocated a block of the kind. -/
def lastAlloc (r : Region) (l : List Event) : List Func :=
  (l.reverse.findSome? fun e => match e with
    | .alloc r' _ st => if r' = r then some st else none
    | _ => none).getD []

/-- The report on the run: the stack of the fault and the stack that allocated the block. -/
def report (sym : Symbolizer) (l : List Event) : Lines :=
  match fault? l with
  | some a => stackLines sym a.stack ++ stackLines sym (lastAlloc a.region (beforeFault l))
  | none => []

variable {l l₁ l₂ pre post : List Event} {a : Access} {len : Nat}

theorem fault?_eq (post : List Event) (hpre : ∀ e ∈ pre, e.isReported = false) (ha : a.Reported) :
    fault? (pre ++ .access a :: post) = some a ∧ beforeFault (pre ++ .access a :: post) = pre := by
  have hpre' : ∀ e ∈ pre, (!e.isReported) = true := fun e he => by simp [hpre e he]
  have ha' : (!(Event.access a).isReported) = false := by simp [Event.isReported, ha]
  refine ⟨?_, ?_⟩
  · rw [fault?, List.dropWhile_append_of_pos hpre', List.dropWhile_cons_of_neg (by simp [ha'])]
  · rw [beforeFault, List.takeWhile_append_of_pos hpre', List.takeWhile_cons_of_neg (by simp [ha']),
      List.append_nil]

theorem fault?_eq_none (h : ∀ e ∈ l, e.isReported = false) : fault? l = none := by
  have h' : ∀ e ∈ l, (!e.isReported) = true := fun e he => by simp [h e he]
  have hdrop : l.dropWhile (!·.isReported) = [] := by
    rw [← List.append_nil l, List.dropWhile_append_of_pos h', List.dropWhile_nil]
  rw [fault?, hdrop]

theorem exists_fault (l : List Event) : (∀ e ∈ l, e.isReported = false) ∨
    ∃ pre a post, l = pre ++ .access a :: post ∧ (∀ e ∈ pre, e.isReported = false) ∧
      a.Reported := by
  induction l with
  | nil => exact .inl (by simp)
  | cons e l ih =>
    cases he : e.isReported with
    | true =>
      cases e with
      | access a => exact .inr ⟨[], a, l, rfl, by simp, of_decide_eq_true he⟩
      | alloc | offset | decoded | printing | outOfFuel => exact absurd he Bool.false_ne_true
    | false =>
      rcases ih with hall | ⟨pre, a, post, rfl, hpre, ha⟩
      · exact .inl (by simpa [he] using hall)
      · exact .inr ⟨e :: pre, a, post, rfl, by simpa [he] using hpre, ha⟩

/-- A literal that is not empty was decoded in full without u-escapes: its terminator is stored
next, and its block has a byte for each of its characters. -/
def PlainLiteral (l : List Event) : Prop :=
  ∃ a : Access, 0 < a.size ∧ [.decoded 0, .access a] <:+: l

theorem not_plainLiteral (h : .decoded 0 ∉ l) : ¬ PlainLiteral l := by
  rintro ⟨a, -, hin⟩
  exact h (hin.subset List.mem_cons_self)

theorem plainLiteral_cons {e : Event} (he : .decoded 0 ≠ e) :
    PlainLiteral (e :: l) ↔ PlainLiteral l := by
  refine exists_congr fun a => and_congr_right fun _ => ?_
  rw [List.infix_cons_iff, List.cons_prefix_cons]
  exact ⟨fun h => h.resolve_left fun h => he h.1, .inr⟩

theorem plainLiteral_append (h : .decoded 0 ∉ l₁) :
    PlainLiteral (l₁ ++ l₂) ↔ PlainLiteral l₂ := by
  induction l₁ with
  | nil => rfl
  | cons e l₁ ih =>
    rw [List.mem_cons, not_or] at h
    rw [List.cons_append, plainLiteral_cons h.1, ih h.2]

/-- A literal and its terminator. -/
theorem plainLiteral_decoded {u : Nat} :
    PlainLiteral (.decoded u :: .access a :: l) ↔ u = 0 ∧ 0 < a.size ∨ PlainLiteral l := by
  have hrest : PlainLiteral (.access a :: l) ↔ PlainLiteral l := plainLiteral_cons (by simp)
  rw [← hrest]
  constructor
  · rintro ⟨a', hsize, hin⟩
    rcases List.infix_cons_iff.1 hin with hpre | hin
    · simp only [List.cons_prefix_cons, Event.decoded.injEq, Event.access.injEq, List.nil_prefix,
        and_true] at hpre
      exact .inl ⟨hpre.1.symm, hpre.2 ▸ hsize⟩
    · exact .inr ⟨a', hsize, hin⟩
  · rintro (⟨rfl, hsize⟩ | ⟨a', hsize, hin⟩)
    · exact ⟨a, hsize, List.infix_cons_iff.2 (.inl (by simp))⟩
    · exact ⟨a', hsize, List.infix_cons_iff.2 (.inr hin)⟩

/-- No fault and no plain literal, or such a literal and its terminator store as the first fault. -/
def ParseFault (l : List Event) : Prop :=
  (¬ PlainLiteral l ∧ ∀ e ∈ l, e.isReported = false) ∨
    ∃ pre a post, l = pre ++ .decoded 0 :: .access a :: post ∧
      (∀ e ∈ pre, e.isReported = false) ∧ a.IsTerminator 0 ∧ 0 < a.size

theorem ParseFault.append (es : List Event) (hplain : PlainLiteral (es ++ l) → PlainLiteral l)
    (hes : ∀ e ∈ es, e.isReported = false) (h : ParseFault l) : ParseFault (es ++ l) := by
  have happend : ∀ {l' : List Event}, (∀ e ∈ l', e.isReported = false) →
      ∀ e ∈ es ++ l', e.isReported = false := by
    intro l' hl' e he
    rcases List.mem_append.1 he with he | he
    · exact hes e he
    · exact hl' e he
  rcases h with ⟨hno, hsafe⟩ | ⟨pre, a, post, rfl, hpre, ha, hsize⟩
  · exact .inl ⟨fun h => hno (hplain h), happend hsafe⟩
  · exact .inr ⟨es ++ pre, a, post, (List.append_assoc _ _ _).symm, happend hpre, ha, hsize⟩

/-- A terminator that stands at the end of an empty block, or inside its block, is not reported. -/
theorem Access.IsTerminator.unreported {u : Nat} (ha : a.IsTerminator u) (h : 0 < u ∨ a.size = 0) :
    ¬ a.Reported := by
  unfold Access.Reported
  rcases Nat.eq_zero_or_pos u with rfl | hu
  · have := ha.oob rfl
    omega
  · have := ha.inb hu
    omega

/-- A run of the parser faults exactly when a plain literal was decoded. -/
theorem ParseLog.fault (h : ParseLog len l) : ParseFault l := by
  induction h with
  | nil => exact .inl ⟨not_plainLiteral (by simp), by simp⟩
  | @safe e l he _ ih =>
    refine ih.append [e] ?_ ?_
    · refine (plainLiteral_cons ?_).1
      rintro rfl
      exact he
    · simp only [List.mem_singleton, forall_eq]
      cases e with
      | access a =>
        have hin : a.index < a.size := Nat.lt_of_not_le he.1
        refine decide_eq_false ?_
        unfold Access.Reported
        omega
      | alloc | offset | decoded | printing | outOfFuel => rfl
  | @terminator u a l ha _ ih =>
    by_cases hplain : u = 0 ∧ 0 < a.size
    · obtain ⟨rfl, hsize⟩ := hplain
      exact .inr ⟨[], a, l, rfl, by simp, ha, hsize⟩
    · refine ih.append [.decoded u, .access a] ?_ ?_
      · exact fun h => (plainLiteral_decoded.1 h).resolve_left hplain
      · have hun : ¬ a.Reported := ha.unreported (by omega)
        simpa [Event.isReported] using hun

/-- A run of the printer on intact strings faults in `print_string_ptr` only. -/
theorem PrintLog.fault (h : PrintLog True l) :
    (∀ e ∈ l, e.isReported = false) ∨
      ∃ pre a post, l = pre ++ .access a :: post ∧ (∀ e ∈ pre, e.isReported = false) ∧
        a.Reported ∧ a.site = some .printStringPtr ∧ a.region = .printbuffer := by
  rcases exists_fault l with hall | ⟨pre, a, post, rfl, hpre, ha⟩
  · exact .inl hall
  · have hoob : a.Oob := Nat.le_trans (Nat.le_max_left _ _) ha
    obtain ⟨hsite, hregion⟩ := (h.oob_cases (by simp) hoob).resolve_right fun h => h.2 trivial ha
    exact .inr ⟨pre, a, post, rfl, hpre, ha, hsite, hregion⟩

/-- The last allocation of a kind is looked for from the end. -/
theorem lastAlloc_append (l₁ : List Event) {r : Region} {n : Nat} {st : List Func}
    (h : .alloc r n st ∈ l₂) :
    ∃ m st', .alloc r m st' ∈ l₂ ∧ lastAlloc r (l₁ ++ l₂) = st' := by
  rw [lastAlloc, List.reverse_append, List.findSome?_append]
  cases hfind : l₂.reverse.findSome? fun e => match e with
      | .alloc r' _ st => if r' = r then some st else none
      | _ => none with
  | none =>
    have := List.findSome?_eq_none_iff.1 hfind _ (List.mem_reverse.2 h)
    simp at this
  | some st' =>
    obtain ⟨e, he, heq⟩ := List.exists_of_findSome?_eq_some hfind
    cases e with
    | alloc r' m st =>
      simp only [Option.ite_none_right_eq_some, Option.some.injEq] at heq
      obtain ⟨rfl, rfl⟩ := heq
      exact ⟨m, st, List.mem_reverse.1 he, rfl⟩
    | access | offset | decoded | printing | outOfFuel => cases heq

theorem Access.mem_of_site {f : Func} (h : a.site = some f) : f ∈ a.stack :=
  List.mem_of_find?_eq_some h

/-! ## The harness -/

section

variable {D : Type} {L : Libc D}

/-- The block of the harness: the input and a terminator. -/
def inputBlock (data : List UInt8) : Block :=
  ((Block.fresh (data.length + 1)).store 0 data).set data.length 0

theorem inputBlock_holds (data : List UInt8) : (inputBlock data).HoldsAt 0 (data ++ [0]) := by
  have heq : inputBlock data = (Block.fresh (data.length + 1)).store 0 (data ++ [0]) := by
    rw [Block.store_append, Nat.zero_add]
    rfl
  rw [heq]
  exact Block.holdsAt_store _ _ _

/-- `cJSON_Parse` reads the input up to its first NUL. -/
theorem inputBlock_cstr (data : List UInt8) :
    ∃ s : List UInt8, (∀ c ∈ s, c ≠ 0) ∧ s.length ≤ data.length ∧
      (inputBlock data).HoldsAt 0 (s ++ [0]) := by
  obtain ⟨hdata, hzero⟩ := Block.holdsAt_append.1 (inputBlock_holds data)
  refine Block.exists_cstr data.length (fun k hk => ?_) (Block.holdsAt_cons.1 hzero).1
  rw [hdata k _ (List.getElem?_eq_getElem hk)]
  rfl

theorem cJSONParse_spec (data : List UInt8) :
    Meets (parseLog (data.length + 1)) (fun _ => True) (cJSONParse L (inputBlock data)) := by
  obtain ⟨s, hs, hlen, hholds⟩ := inputBlock_cstr data
  have hsize : (inputBlock data).size = data.length + 1 := by
    rw [inputBlock, Block.size_set, Block.size_store, Block.size_fresh]
  have hopts : Meets (parseLog (data.length + 1)) (fun _ => True)
      (cJSONParseWithOpts L (inputBlock data) false) := by
    refine Meets.bind_parse (meets_readCstr hs hholds (by omega) (fun _ => by omega)) fun t ht => ?_
    subst ht
    have hparse : ParseLog (t ++ [0]).length
        (cJSONParseWithLengthOpts L (t ++ [0]) false).log :=
      (cJSONParseWithLengthOpts_spec false).log
    refine Meets.within_parse ⟨hparse.mono ?_, trivial⟩ _
    rw [List.length_append, List.length_singleton]
    omega
  exact (Meets.within_parse hopts _).bind fun _ _ => .pure trivial

theorem cJSONParse_valid (value : Block) :
    Yields Event.Unreported (fun r => ∀ item, r = some item → item.ValidStrings)
      (cJSONParse L value) := by
  have hopts : Yields Event.Unreported (fun r => ∀ item, r.1 = some item → item.ValidStrings)
      (cJSONParseWithOpts L value false) :=
    .skip fun _ => Yields.within (cJSONParseWithLengthOpts_valid false) _
  exact (Yields.within hopts _).bind fun _ hr => .pure hr

/-- The copy of the input. -/
def copyToBlock (data : List UInt8) : Run Block := do
  Traced.emit (.alloc .input (data.length + 1) [.malloc, .llvmFuzzerTestOneInput])
  let buf ← putAll [.memcpy, .llvmFuzzerTestOneInput] .input (Block.fresh (data.length + 1)) 0 data
  put [.llvmFuzzerTestOneInput] .input buf data.length 0

theorem copyToBlock_spec (data : List UInt8) :
    Meets (safeLog (data.length + 1)) (· = inputBlock data) (copyToBlock data) := by
  refine (meets_alloc _ _ _).bind fun _ _ => ?_
  refine (meets_putAll (by rw [Block.size_fresh]; omega)).bind fun b hb => ?_
  subst hb
  exact meets_put (by rw [Block.size_store, Block.size_fresh]; omega)

/-- The print of a parsed item. -/
def printAgain (L : Libc D) : Option (Item D Block) → Run Unit
  | none => pure ()
  | some json => do
    let _ ← within .llvmFuzzerTestOneInput (cJSONPrintUnformatted L json)
    pure ()

theorem llvmFuzzerTestOneInput_eq (L : Libc D) (data : List UInt8) :
    llvmFuzzerTestOneInput L data = copyToBlock data >>= fun buf =>
      within .llvmFuzzerTestOneInput (cJSONParse L buf) >>= printAgain L := by
  simp only [llvmFuzzerTestOneInput, copyToBlock, bind_assoc]
  refine bind_congr fun _ => bind_congr fun _ => bind_congr fun _ => bind_congr fun r => ?_
  cases r <;> rfl

/-- A run of the harness copies the input, parses the copy and prints the item. -/
theorem llvmFuzzerTestOneInput_log (L : Libc D) (data : List UInt8) :
    (llvmFuzzerTestOneInput L data).log = (copyToBlock data).log ++
      (within .llvmFuzzerTestOneInput (cJSONParse L (inputBlock data))).log ++
      (printAgain L (cJSONParse L (inputBlock data)).val).log := by
  rw [llvmFuzzerTestOneInput_eq, log_bind, (copyToBlock_spec data).val, log_bind, List.append_assoc]
  rfl

section

variable {parsed : Option (Item D Block)}

theorem printAgain_log (h : ∀ json, parsed = some json → json.ValidStrings) :
    PrintLog True (printAgain L parsed).log := by
  cases parsed with
  | none => exact .nil
  | some json =>
    have hprint : Meets (printLog True) (PrintResult L json) (cJSONPrintUnformatted L json) :=
      cJSONPrintUnformatted_spec fun _ => h json rfl
    have hwithin := Meets.within_print hprint .llvmFuzzerTestOneInput
    exact (hwithin.bind (S := fun _ => True) fun _ _ => .pure trivial).log

theorem printAgain_clear : Clear (printAgain L parsed) := by
  cases parsed with
  | none => exact .pure _
  | some json =>
    refine (Clear.within (by decide) (Clear.within (by decide) ?_)).bind fun _ => .pure _
    refine (Clear.alloc (by decide)).bind fun _ => ?_
    refine (Clear.within (by decide) (printValue_clear L json _)).bind fun r => ?_
    split
    · exact .pure _
    · refine (Clear.within (by decide) .updateOffset).bind fun p => ?_
      exact (Clear.alloc (by decide)).bind fun _ => .pure _

/-- An access while printing: the parse succeeded, `cJSON_PrintUnformatted` is running and has
allocated its buffer. -/
theorem printAgain_access (h : (printAgain L parsed).log = pre ++ .access a :: post) :
    (∃ json, parsed = some json) ∧ .cJSONPrintUnformatted ∈ a.stack ∧
      ∃ n st, .alloc .printbuffer n st ∈ pre := by
  cases parsed with
  | none => exact absurd h (by simp [printAgain])
  | some json =>
    have hlog : (printAgain L (some json)).log =
        (within .llvmFuzzerTestOneInput (cJSONPrintUnformatted L json)).log :=
      List.append_nil _
    rw [hlog] at h
    refine ⟨⟨json, rfl⟩, ?_, ?_⟩
    · have ha : .access a ∈ (within .llvmFuzzerTestOneInput (cJSONPrintUnformatted L json)).log :=
        h ▸ List.mem_append_right _ List.mem_cons_self
      obtain ⟨e, he, heq⟩ := List.mem_map.1 ha
      obtain ⟨e', he', rfl⟩ := List.mem_map.1 he
      cases e' with
      | access a' =>
        obtain rfl := Event.access.inj heq
        simp
      | alloc | offset | decoded | printing | outOfFuel => cases heq
    · cases pre with
      | nil => cases (List.cons.inj h).1
      | cons e pre =>
        obtain ⟨rfl, -⟩ := List.cons.inj h
        exact ⟨_, _, List.mem_cons_self⟩

end

/-! ## The bug of a run -/

/-- The terminator store of `parse_string` comes first. -/
theorem identifyBug_parse (sym : Symbolizer) {echoed : String → Bool} {log : List Event}
    (hfault : fault? log = some a) (hsite : a.site = some .parseString)
    (hecho : echoed "in parse_string" = true) :
    identifyBug true true echoed (report sym log) = some .c1 := by
  refine identifyBug_c1 (grep_eq_true.2 ?_) hecho
  obtain ⟨line, hline, hin⟩ := grep_eq_true.1 ((grep_parse_string sym).2 (Access.mem_of_site hsite))
  refine ⟨line, ?_, hin⟩
  rw [report, hfault]
  exact List.mem_append_left _ hline

/-- A write of `print_string_ptr` comes first, with no trace of `parse_string` on the stacks. -/
theorem identifyBug_print (sym : Symbolizer) {echoed : String → Bool} {parsed : List Event}
    (hpre : ∀ e ∈ parsed ++ pre, e.isReported = false) (ha : a.Reported)
    (hsite : a.site = some .printStringPtr) (hregion : a.region = .printbuffer)
    (hclear : ∀ e ∈ pre ++ .access a :: post, e.Clear)
    (halloc : ∃ n st, .alloc .printbuffer n st ∈ pre)
    (hecho : echoed "in print_string_ptr" = true) :
    identifyBug true true echoed (report sym (parsed ++ (pre ++ .access a :: post))) =
      some .c2 := by
  obtain ⟨hfault, hbefore⟩ := fault?_eq post hpre ha
  rw [List.append_assoc] at hfault hbefore
  obtain ⟨n, st, hst⟩ := halloc
  obtain ⟨m, st', hst', hlast⟩ := lastAlloc_append parsed hst
  have hreport : report sym (parsed ++ (pre ++ .access a :: post)) =
      stackLines sym a.stack ++ stackLines sym st' := by
    rw [report, hfault]
    dsimp only
    rw [hbefore, hregion, hlast]
  have hc1 : ∀ stack : List Func, .parseString ∉ stack →
      grep "in parse_string" (stackLines sym stack) = false := by
    intro stack h
    rw [← Bool.not_eq_true, grep_parse_string]
    exact h
  rw [hreport]
  refine identifyBug_c2 ?_ ?_ hecho
  · rw [grep, List.any_append, Bool.or_eq_false_iff]
    exact ⟨hc1 _ (hclear (.access a) (by simp)), hc1 _ (hclear _ (List.mem_append_left _ hst'))⟩
  · rw [grep, List.any_append, Bool.or_eq_true]
    exact .inl (grep_print_string_ptr.2 (Access.mem_of_site hsite))

/-- Which bug a run of the harness is charged to. The run copies the input, parses the copy and
prints the item. Its first reported access is in `parse_string` exactly when the parse decoded a
literal that is not empty without a u-escape, and is then the store of the terminator right after
that decoding; otherwise it is in `print_string_ptr`, while printing, and every literal of the parse
that is not empty has a u-escape. On the report of the fault the signature chain returns the bug
accordingly, where the `echo` of the matching test completes. -/
theorem llvmFuzzerTestOneInput_groundTruth (L : Libc D) (sym : Symbolizer) (echoed : String → Bool)
    (data : List UInt8) :
    let log := (llvmFuzzerTestOneInput L data).log
    let parse := within .llvmFuzzerTestOneInput (cJSONParse L (inputBlock data))
    log = (copyToBlock data).log ++ parse.log ++ (printAgain L parse.val).log ∧
    ((∃ a, fault? log = some a ∧ a.site = some .parseString) ↔ PlainLiteral parse.log) ∧
    ∀ a, fault? log = some a →
      (a.site = some .parseString ∧ a.index = a.size ∧ 0 < a.size ∧
          (beforeFault log).getLast? = some (.decoded 0) ∧
          (echoed "in parse_string" = true →
            identifyBug true true echoed (report sym log) = some .c1)) ∨
        (a.site = some .printStringPtr ∧ .cJSONPrintUnformatted ∈ a.stack ∧
          (∃ json, parse.val = some json) ∧
          (∀ u a', [.decoded u, .access a'] <:+: parse.log → 0 < u ∨ a'.size = 0) ∧
          (echoed "in print_string_ptr" = true →
            identifyBug true true echoed (report sym log) = some .c2)) := by
  intro log parse
  have hsplit : log = (copyToBlock data).log ++ parse.log ++ (printAgain L parse.val).log :=
    llvmFuzzerTestOneInput_log L data
  have hcopy := copyToBlock_spec data
  have hparse : ParseLog (data.length + 1) ((copyToBlock data).log ++ parse.log) :=
    (ParseLog.of_safe hcopy.log).append (Meets.within_parse (cJSONParse_spec data) _).log
  have hplain : PlainLiteral ((copyToBlock data).log ++ parse.log) ↔ PlainLiteral parse.log :=
    plainLiteral_append fun h => hcopy.log _ h
  refine ⟨hsplit, ?_⟩
  clear_value log
  rcases hparse.fault with ⟨hno, hun⟩ | ⟨pre, a, post, heq, hpre, ha, hsize⟩
  · -- the parse has no fault, so the strings of the item are intact
    rw [hplain] at hno
    have hvalid : ∀ json, parse.val = some json → json.ValidStrings :=
      Yields.within (cJSONParse_valid (inputBlock data)) _ fun e he =>
        hun e (List.mem_append_right _ he)
    rcases (printAgain_log (L := L) hvalid).fault with hall |
      ⟨pre, a, post, heq, hpre, ha, hsite, hregion⟩
    · have hnone : fault? log = none := by
        refine fault?_eq_none fun e he => ?_
        rw [hsplit] at he
        rcases List.mem_append.1 he with he | he
        · exact hun e he
        · exact hall e he
      rw [hnone]
      exact ⟨by simp [hno], fun a ha => nomatch ha⟩
    obtain ⟨hjson, hstack, halloc⟩ := printAgain_access heq
    have hpre' : ∀ e ∈ (copyToBlock data).log ++ parse.log ++ pre, e.isReported = false := by
      intro e he
      rcases List.mem_append.1 he with he | he
      · exact hun e he
      · exact hpre e he
    have hfault : fault? log = some a := by
      rw [hsplit, heq, ← List.append_assoc]
      exact (fault?_eq post hpre' ha).1
    refine ⟨⟨?_, fun h => absurd h hno⟩, fun a' ha' => .inr ?_⟩
    · rintro ⟨a', ha', hsite'⟩
      obtain rfl : a = a' := Option.some.inj (hfault.symm.trans ha')
      exact absurd (hsite.symm.trans hsite') (by decide)
    · obtain rfl : a = a' := Option.some.inj (hfault.symm.trans ha')
      refine ⟨hsite, hstack, hjson, fun u a' hin => ?_, fun hecho => ?_⟩
      · by_contra hcon
        obtain ⟨rfl, hpos⟩ : u = 0 ∧ 0 < a'.size := by omega
        exact hno ⟨a', hpos, hin⟩
      · rw [hsplit, heq]
        exact identifyBug_print sym hpre' ha hsite hregion
          (fun e he => printAgain_clear e (heq ▸ he)) halloc hecho
  · -- the first fault is the terminator store after a plain literal
    have hsite : a.site = some .parseString := Access.site_eq ha.stack rfl
    have hreported : a.Reported := by
      have := ha.oob rfl
      unfold Access.Reported
      omega
    have hlog : log = (pre ++ [.decoded 0]) ++ .access a :: (post ++ (printAgain L parse.val).log) := by
      rw [hsplit, heq]
      simp
    have hpre' : ∀ e ∈ pre ++ [.decoded 0], e.isReported = false := by
      intro e he
      rcases List.mem_append.1 he with he | he
      · exact hpre e he
      · obtain rfl := List.mem_singleton.1 he
        rfl
    obtain ⟨hfault, hbefore⟩ := fault?_eq (post ++ (printAgain L parse.val).log) hpre' hreported
    rw [← hlog] at hfault hbefore
    have hlit : PlainLiteral parse.log := hplain.1 ⟨a, hsize, pre, post, by rw [heq]; simp⟩
    refine ⟨⟨fun _ => hlit, fun _ => ⟨a, hfault, hsite⟩⟩, fun a' ha' => .inl ?_⟩
    obtain rfl : a = a' := Option.some.inj (hfault.symm.trans ha')
    refine ⟨hsite, ha.oob rfl, hsize, ?_, identifyBug_parse sym hfault hsite⟩
    rw [hbefore, List.getLast?_concat]

end

/-- Frames as a sanitizer prints them: with the source position, or with the module and its build
for a function of the C library. -/
def sampleSymbolizer : Symbolizer where
  address _ _ := "0x55d0c8f3a1b2".toList
  location _ f := if f.isLibc then
      ["(/cjson_fuzzer+0xb4b80)".toList, "(BuildId:".toList, "5f2c)".toList]
    else ["/cJSON.c:917:21".toList]
  address_blank _ f := by decide
  location_blank _ f := by
    cases f <;> decide
  location_in _ f := by
    cases f <;> decide

/-- The input `"a"` is charged to `parse_string`; the input of a u-escape and 42 bytes `01` passes
the parser and is charged to `print_string_ptr`. -/
theorem llvmFuzzerTestOneInput_groundTruth_sample :
    identifyBug true true (fun _ => true)
        (report sampleSymbolizer (llvmFuzzerTestOneInput intLibc [34, 97, 34]).log) = some .c1 ∧
      identifyBug true true (fun _ => true)
        (report sampleSymbolizer (llvmFuzzerTestOneInput intLibc
          ([34, 92, 117, 48, 48, 48, 49] ++ List.replicate 42 1 ++ [34])).log) = some .c2 := by
  constructor
  · obtain ⟨-, -, h⟩ := llvmFuzzerTestOneInput_groundTruth intLibc sampleSymbolizer (fun _ => true)
      [34, 97, 34]
    have hsite : (fault? (llvmFuzzerTestOneInput intLibc [34, 97, 34]).log).map (·.site) =
        some (some .parseString) := by
      decide +kernel
    obtain ⟨a, ha, hsite⟩ := Option.map_eq_some_iff.1 hsite
    rcases h a ha with ⟨-, -, -, -, hbug⟩ | ⟨hsite', -⟩
    · exact hbug rfl
    · exact absurd (hsite.symm.trans hsite') (by decide)
  · obtain ⟨-, -, h⟩ := llvmFuzzerTestOneInput_groundTruth intLibc sampleSymbolizer (fun _ => true)
      ([34, 92, 117, 48, 48, 48, 49] ++ List.replicate 42 1 ++ [34])
    have hsite : (fault? (llvmFuzzerTestOneInput intLibc
        ([34, 92, 117, 48, 48, 48, 49] ++ List.replicate 42 1 ++ [34])).log).map (·.site) =
        some (some .printStringPtr) := by
      decide +kernel
    obtain ⟨a, ha, hsite⟩ := Option.map_eq_some_iff.1 hsite
    rcases h a ha with ⟨hsite', -⟩ | ⟨-, -, -, -, hbug⟩
    · exact absurd (hsite.symm.trans hsite') (by decide)
    · exact hbug rfl

/-- The literal `""` is decoded without a u-escape, and nothing is reported: the sanitizer serves
its block of no bytes with one. -/
theorem empty_literal_unreported :
    ¬ ((∃ a, fault? (llvmFuzzerTestOneInput intLibc [34, 34]).log = some a ∧
          a.site = some .parseString) ↔
        .decoded 0 ∈ (within .llvmFuzzerTestOneInput
          (cJSONParse intLibc (inputBlock [34, 34]))).log) := by
  have hdecoded : .decoded 0 ∈ (within .llvmFuzzerTestOneInput
      (cJSONParse intLibc (inputBlock [34, 34]))).log := by
    decide +kernel
  have hnone : fault? (llvmFuzzerTestOneInput intLibc [34, 34]).log = none := by
    decide +kernel
  intro h
  obtain ⟨a, ha, -⟩ := h.2 hdecoded
  rw [hnone] at ha
  cases ha

end FourFuzzers.CJson
