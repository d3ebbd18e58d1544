import FourFuzzers.CJson.Harness

/-!
# Traces of the cJSON target

`Event.Safe len`: the event stays in bounds, reads nothing indeterminate, reads the text below index
`len`, keeps the parse offset at most `len`, and is none of the marks `decoded`, `printing` and
`outOfFuel`. `ParseLog len` describes what a run of the parser may do besides: the end of a
decoding, directly followed by the store of the terminator, which is one byte past the output block
exactly when no u-escape was consumed (BUG_C1). Both survive the frames callers add.
-/

namespace FourFuzzers.CJson

open FourFuzzers.Lib FourFuzzers.Lib.Traced

/-- What a run may record anywhere: in bounds, initialised, and of the text what is before `len`. -/
def Event.Safe (len : Nat) : Event → Prop
  | .access a => ¬ a.Oob ∧ a.defined = true ∧
      (a.region = .input → a.write = false → a.index < len)
  | .offset n => n ≤ len
  | .alloc .. => True
  | .decoded _ => False
  | .printing .. => False
  | .outOfFuel => False

/-- The store of the terminator by `parse_string` after a decoding that consumed `u` u-escapes. -/
structure Access.IsTerminator (u : Nat) (a : Access) : Prop where
  stack : a.stack.head? = some .parseString
  region : a.region = .output
  write : a.write = true
  defined : a.defined = true
  oob : u = 0 → a.index = a.size
  inb : 0 < u → a.index < a.size

/-- What a run of the parser on a text of length `len` may record. -/
inductive ParseLog (len : Nat) : List Event → Prop
  | nil : ParseLog len []
  | safe {e : Event} {l : List Event} (he : e.Safe len) (hl : ParseLog len l) :
      ParseLog len (e :: l)
  | terminator {u : Nat} {a : Access} {l : List Event} (ha : a.IsTerminator u)
      (hl : ParseLog len l) : ParseLog len (.decoded u :: .access a :: l)

namespace ParseLog

variable {len : Nat}

/-- Two runs of the parser, one behind the other. -/
theorem append {l₁ l₂ : List Event} (h₁ : ParseLog len l₁) (h₂ : ParseLog len l₂) :
    ParseLog len (l₁ ++ l₂) := by
  induction h₁ with
  | nil => exact h₂
  | safe he _ ih => exact .safe he ih
  | terminator ha _ ih => exact .terminator ha ih

/-- A run that records safe events only is a run of the parser. -/
theorem of_safe {l : List Event} (h : ∀ e ∈ l, e.Safe len) : ParseLog len l := by
  induction l with
  | nil => exact .nil
  | cons e l ih =>
    refine .safe (h e List.mem_cons_self) ?_
    exact ih fun e he => h e (List.mem_cons_of_mem _ he)

end ParseLog

/-- Only safe events. -/
abbrev safeLog (len : Nat) : LogProp Event := .every (Event.Safe len)

/-- `ParseLog` as a trace property. -/
def parseLog (len : Nat) : LogProp Event := ⟨ParseLog len, .nil, ParseLog.append⟩

variable {len : Nat} {α β : Type} {Q : α → Prop}

/-- What meets the stronger property meets the weaker one. -/
theorem Meets.parseLog {x : Run α} (h : Meets (safeLog len) Q x) :
    Meets (CJson.parseLog len) Q x :=
  h.weaken fun _ hl => ParseLog.of_safe hl

/-- A safe computation followed by a run of the parser. -/
theorem Meets.bind_parse {x : Run α} {f : α → Run β} {S : β → Prop} (hx : Meets (safeLog len) Q x)
    (hf : ∀ a, Q a → Meets (CJson.parseLog len) S (f a)) :
    Meets (CJson.parseLog len) S (x >>= f) :=
  (Meets.parseLog hx).bind hf

/-! ## Frames -/

@[simp] theorem val_within (f : Func) (x : Run α) : (within f x).val = x.val := rfl

@[simp] theorem log_within (f : Func) (x : Run α) :
    (within f x).log = x.log.map (Event.push f) := rfl

@[simp] theorem safe_push {f : Func} {e : Event} : (e.push f).Safe len ↔ e.Safe len := by
  cases e <;> rfl

/-- An access is out of bounds as the sanitizer sees it: its index is past the block. -/
theorem isOob_access {a : Access} : (Event.access a).isOob = true ↔ a.size ≤ a.index :=
  decide_eq_true_iff

theorem isOob_push (f : Func) (e : Event) : (e.push f).isOob = e.isOob := by
  cases e <;> rfl

/-- A frame goes behind those of an access: `parse_string` stays the innermost one of a terminator
store. -/
theorem ParseLog.map_push {l : List Event} (h : ParseLog len l) (f : Func) :
    ParseLog len (l.map (Event.push f)) := by
  induction h with
  | nil => exact .nil
  | safe he _ ih => exact .safe (safe_push.2 he) ih
  | terminator ha _ ih =>
    refine .terminator ⟨?_, ha.region, ha.write, ha.defined, ha.oob, ha.inb⟩ ih
    simp [List.head?_append, ha.stack]

/-- A longer text allows what a shorter one does. -/
theorem Event.Safe.mono {e : Event} {len' : Nat} (h : e.Safe len) (hlen : len ≤ len') :
    e.Safe len' := by
  cases e with
  | access a => exact ⟨h.1, h.2.1, fun hr hw => Nat.lt_of_lt_of_le (h.2.2 hr hw) hlen⟩
  | offset n => exact Nat.le_trans h hlen
  | alloc => trivial
  | printing => exact h
  | decoded => exact h
  | outOfFuel => exact h

theorem ParseLog.mono {l : List Event} {len' : Nat} (h : ParseLog len l) (hlen : len ≤ len') :
    ParseLog len' l := by
  induction h with
  | nil => exact .nil
  | safe he _ ih => exact .safe (he.mono hlen) ih
  | terminator ha _ ih => exact .terminator ha ih

/-- A safe computation under a caller's frame. -/
theorem Meets.within {x : Run α} (h : Meets (safeLog len) Q x) (f : Func) :
    Meets (safeLog len) Q (within f x) := by
  refine h.mapLog fun l hl e he => ?_
  obtain ⟨e', he', rfl⟩ := List.mem_map.1 he
  exact safe_push.2 (hl e' he')

theorem Meets.within_parse {x : Run α} (h : Meets (CJson.parseLog len) Q x) (f : Func) :
    Meets (CJson.parseLog len) Q (CJson.within f x) :=
  h.mapLog fun _ hl => ParseLog.map_push hl f

/-- An access outside the C library is made where its innermost frame is. -/
theorem Access.site_eq {a : Access} {f : Func} (h : a.stack.head? = some f)
    (hf : f.isLibc = false) : a.site = some f := by
  unfold site
  cases hs : a.stack with
  | nil => simp [hs] at h
  | cons g st =>
    simp only [hs, List.head?_cons, Option.some.injEq] at h
    subst h
    simp [hf]

/-! ## Elementary accesses -/

@[simp] theorem val_peek (st : List Func) (content : List UInt8) (i : Nat) :
    (peek st content i).val = content.getD i 0 := rfl

/-- A byte of the text is read inside it. -/
theorem meets_peek {st : List Func} {content : List UInt8} {i : Nat} (h : i < content.length) :
    Meets (safeLog content.length) (· = content.getD i 0) (peek st content i) := by
  refine ⟨?_, rfl⟩
  simp [LogProp.every, peek, Event.Safe, Access.Oob, h]

theorem meets_emit_safe {e : Event} (h : e.Safe len) :
    Meets (safeLog len) (fun _ => True) (emit e) :=
  meets_emit (by simpa [LogProp.every] using h) trivial

theorem meets_alloc (r : Region) (n : Nat) (st : List Func) :
    Meets (safeLog len) (fun _ => True) (emit (.alloc r n st)) :=
  meets_emit_safe trivial

@[simp] theorem val_seek (b : ParseBuffer) (n : Nat) : (b.seek n).val = { b with offset := n } :=
  rfl

/-- The offset may be set up to the length. -/
theorem meets_seek {b : ParseBuffer} {n : Nat} (h : n ≤ len) :
    Meets (safeLog len) (· = { b with offset := n }) (b.seek n) := by
  refine ⟨?_, rfl⟩
  simp [LogProp.every, ParseBuffer.seek, Event.Safe, h]

@[simp] theorem val_put (st : List Func) (r : Region) (b : Block) (i : Nat) (v : UInt8) :
    (put st r b i v).val = b.set i v := rfl

/-- A store inside the block. -/
theorem meets_put {st : List Func} {r : Region} {b : Block} {i : Nat} {v : UInt8}
    (h : i < b.size) : Meets (safeLog len) (· = b.set i v) (put st r b i v) := by
  refine ⟨?_, rfl⟩
  simp [LogProp.every, put, Event.Safe, Access.Oob, h]

@[simp] theorem val_putAll (st : List Func) (r : Region) (b : Block) (i : Nat)
    (vs : List UInt8) : (putAll st r b i vs).val = b.store i vs := by
  induction vs generalizing b i with
  | nil => rfl
  | cons v vs ih => simp [putAll, Block.store, ih]

/-- Stores one behind the other, all inside the block. -/
theorem meets_putAll {st : List Func} {r : Region} {b : Block} {i : Nat} {vs : List UInt8}
    (h : i + vs.length ≤ b.size) :
    Meets (safeLog len) (· = b.store i vs) (putAll st r b i vs) := by
  induction vs generalizing b i with
  | nil => exact .pure rfl
  | cons v vs ih =>
    simp only [List.length_cons] at h
    refine (meets_put (by omega)).bind fun b' hb' => ?_
    subst hb'
    exact ih (by rw [Block.size_set]; omega)

@[simp] theorem val_readCstr (st : List Func) (r : Region) (b : Block) (i : Nat) :
    (readCstr st r b i).val = b.cstrFrom i := rfl

/-- A scan is safe when the string and its terminator stand inside the block. -/
theorem meets_readCstr {st : List Func} {r : Region} {b : Block} {i : Nat} {s : List UInt8}
    (hs : ∀ c ∈ s, c ≠ 0) (h : b.HoldsAt i (s ++ [0])) (hsz : i + s.length < b.size)
    (hr : r = .input → i + s.length < len) : Meets (safeLog len) (· = s) (readCstr st r b i) := by
  have hstr : b.cstrFrom i = s := Block.cstrFrom_eq hs h (by omega)
  refine ⟨fun e he => ?_, hstr⟩
  simp only [readCstr, List.mem_map, List.mem_range, hstr] at he
  obtain ⟨k, hk, rfl⟩ := he
  have hget : ∃ c, (s ++ [0])[k]? = some c :=
    ⟨_, List.getElem?_eq_getElem (by simpa using hk)⟩
  obtain ⟨c, hc⟩ := hget
  simp only [Event.Safe, Access.Oob, h k c hc, Option.isSome_some]
  exact ⟨by omega, trivial, fun h _ => by have := hr h; omega⟩

/-! ## Runs of the parser -/

namespace ParseLog

/-- No run of the parser uses up the budget. -/
theorem outOfFuel_not_mem {l : List Event} (h : ParseLog len l) : .outOfFuel ∉ l := by
  induction h with
  | nil => simp
  | safe he _ ih =>
    intro hm
    rcases List.mem_cons.1 hm with rfl | hm
    · exact he
    · exact ih hm
  | terminator _ _ ih => simpa using ih

/-- The parse offset never exceeds the length. -/
theorem offset_le {l : List Event} (h : ParseLog len l) {n : Nat} (hm : .offset n ∈ l) :
    n ≤ len := by
  induction h with
  | nil => simp at hm
  | safe he _ ih =>
    rcases List.mem_cons.1 hm with rfl | hm
    · exact he
    · exact ih hm
  | terminator _ _ ih => exact ih (by simpa using hm)

/-- An access is safe or a terminator store of `parse_string`. -/
theorem access_cases {l : List Event} (h : ParseLog len l) {a : Access} (hm : .access a ∈ l) :
    (Event.access a).Safe len ∨ ∃ u, a.IsTerminator u ∧ .decoded u ∈ l := by
  induction h with
  | nil => simp at hm
  | safe he _ ih =>
    rcases List.mem_cons.1 hm with rfl | hm
    · exact .inl he
    · exact (ih hm).imp_right fun ⟨u, ha, hu⟩ => ⟨u, ha, List.mem_cons_of_mem _ hu⟩
  | @terminator u _ _ ha _ ih =>
    simp only [List.mem_cons, reduceCtorEq, Event.access.injEq, false_or] at hm
    rcases hm with rfl | hm
    · exact .inr ⟨u, ha, List.mem_cons_self⟩
    · exact (ih hm).imp_right fun ⟨u, ha, hu⟩ =>
        ⟨u, ha, List.mem_cons_of_mem _ (List.mem_cons_of_mem _ hu)⟩

end ParseLog

end FourFuzzers.CJson
