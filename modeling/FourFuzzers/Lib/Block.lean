import Mathlib

/-!
# Memory blocks

A block is an allocation of `size` bytes. Its cells are a total function, so that a store past the
end still has a meaning: bounds are a question about the index, asked by whoever records the
access, not about the contents. A cell that was never stored to is `none`.

`HoldsAt b i s` says that the bytes `s` stand at `i`; `cstrFrom b i` is the C string that starts
there.
-/

namespace FourFuzzers.Lib

/-- A statement about every byte is checked on the 256 numbers. -/
theorem forall_byte {P : UInt8 → Prop} (h : ∀ n : Fin 256, P (UInt8.ofFin n)) (c : UInt8) : P c :=
  h c.toFin

/-- An allocated block: its size and its cells (`none` = indeterminate). -/
structure Block where
  size : Nat
  mem : Nat → Option UInt8

namespace Block

/-- `malloc(n)`: nothing is stored yet. -/
def fresh (n : Nat) : Block := ⟨n, fun _ => none⟩

/-- Store one byte. -/
def set (b : Block) (i : Nat) (v : UInt8) : Block :=
  { b with mem := Function.update b.mem i (some v) }

/-- Store consecutive bytes from index `i`. -/
def store (b : Block) (i : Nat) : List UInt8 → Block
  | [] => b
  | v :: vs => (b.set i v).store (i + 1) vs

/-- `realloc(b, n)`: the common prefix is kept, the rest is indeterminate. -/
def realloc (b : Block) (n : Nat) : Block :=
  ⟨n, fun i => if i < b.size ∧ i < n then b.mem i else none⟩

/-- The C string at `i`, looked for in the next `fuel` cells. -/
def cstrAux (b : Block) : Nat → Nat → List UInt8
  | 0, _ => []
  | fuel + 1, i =>
    match b.mem i with
    | some c => if c = 0 then [] else c :: b.cstrAux fuel (i + 1)
    | none => []

/-- The C string at `i`: the bytes before the first NUL, up to the byte after the block. -/
def cstrFrom (b : Block) (i : Nat) : List UInt8 := b.cstrAux (b.size + 1 - i) i

/-- The C string a pointer to the block denotes. -/
def cstr (b : Block) : List UInt8 := b.cstrFrom 0

/-! ## Stores -/

@[simp] theorem size_fresh (n : Nat) : (fresh n).size = n := rfl

@[simp] theorem size_set (b : Block) (i : Nat) (v : UInt8) : (b.set i v).size = b.size := rfl

@[simp] theorem size_realloc (b : Block) (n : Nat) : (b.realloc n).size = n := rfl

@[simp] theorem size_store (b : Block) (i : Nat) (vs : List UInt8) :
    (b.store i vs).size = b.size := by
  induction vs generalizing b i with
  | nil => rfl
  | cons v vs ih => simp [store, ih]

@[simp] theorem mem_set_self (b : Block) (i : Nat) (v : UInt8) : (b.set i v).mem i = some v := by
  simp [set]

theorem mem_set_of_ne (b : Block) {i j : Nat} (v : UInt8) (h : j ≠ i) :
    (b.set i v).mem j = b.mem j := by
  simp [set, Function.update_of_ne h]

theorem mem_store_of_lt (b : Block) {i j : Nat} (vs : List UInt8) (h : j < i) :
    (b.store i vs).mem j = b.mem j := by
  induction vs generalizing b i with
  | nil => rfl
  | cons v vs ih =>
    rw [store, ih _ (Nat.lt_succ_of_lt h), mem_set_of_ne _ _ (Nat.ne_of_lt h)]

theorem store_append (b : Block) (i : Nat) (us vs : List UInt8) :
    b.store i (us ++ vs) = (b.store i us).store (i + us.length) vs := by
  induction us generalizing b i with
  | nil => simp [store]
  | cons u us ih =>
    simp only [List.cons_append, store, ih, List.length_cons]
    rw [show i + 1 + us.length = i + (us.length + 1) by omega]

theorem set_comm (b : Block) {i j : Nat} (v w : UInt8) (h : i ≠ j) :
    (b.set i v).set j w = (b.set j w).set i v := by
  simp only [set]
  rw [Function.update_comm h]

/-- A store of one byte below the others may come last. -/
theorem set_store_comm (b : Block) {i j : Nat} (v : UInt8) (vs : List UInt8) (h : i < j) :
    (b.set i v).store j vs = (b.store j vs).set i v := by
  induction vs generalizing b j with
  | nil => rfl
  | cons w vs ih =>
    rw [store, store, set_comm _ _ _ (Nat.ne_of_lt h), ih _ (Nat.lt_succ_of_lt h)]

/-- A store of one byte above the others may come last. -/
theorem store_set_comm (b : Block) {i j : Nat} (v : UInt8) (vs : List UInt8)
    (h : j + vs.length ≤ i) : (b.set i v).store j vs = (b.store j vs).set i v := by
  induction vs generalizing b j with
  | nil => rfl
  | cons w vs ih =>
    simp only [List.length_cons] at h
    rw [store, store, set_comm _ _ _ (by omega), ih _ (by omega)]

/-! ## What stands at an index -/

/-- The bytes `s` stand at `i`. -/
def HoldsAt (b : Block) (i : Nat) (s : List UInt8) : Prop :=
  ∀ k c, s[k]? = some c → b.mem (i + k) = some c

variable {b : Block} {i j n : Nat} {s t : List UInt8} {c : UInt8}

@[simp] theorem holdsAt_nil : b.HoldsAt i [] := by
  simp [HoldsAt]

theorem holdsAt_cons : b.HoldsAt i (c :: s) ↔ b.mem i = some c ∧ b.HoldsAt (i + 1) s := by
  constructor
  · intro h
    refine ⟨h 0 c rfl, fun k d hk => ?_⟩
    rw [show i + 1 + k = i + (k + 1) by omega]
    exact h (k + 1) d hk
  · rintro ⟨h0, h⟩ k d hk
    cases k with
    | zero =>
      simp only [List.getElem?_cons_zero, Option.some.injEq] at hk
      rw [← hk]
      exact h0
    | succ k =>
      rw [show i + (k + 1) = i + 1 + k by omega]
      exact h k d hk

theorem holdsAt_append : b.HoldsAt i (s ++ t) ↔ b.HoldsAt i s ∧ b.HoldsAt (i + s.length) t := by
  induction s generalizing i with
  | nil => simp
  | cons c s ih =>
    rw [List.cons_append, holdsAt_cons, holdsAt_cons, ih, and_assoc, List.length_cons,
      show i + 1 + s.length = i + (s.length + 1) by omega]

theorem HoldsAt.congr {b' : Block} (h : b.HoldsAt i s)
    (heq : ∀ k, i ≤ k → k < i + s.length → b'.mem k = b.mem k) : b'.HoldsAt i s := by
  intro k c hk
  have hlt : k < s.length := (List.getElem?_eq_some_iff.1 hk).1
  rw [heq (i + k) (by omega) (by omega)]
  exact h k c hk

theorem holdsAt_store (b : Block) (i : Nat) (vs : List UInt8) : (b.store i vs).HoldsAt i vs := by
  induction vs generalizing b i with
  | nil => exact holdsAt_nil
  | cons v vs ih =>
    rw [store, holdsAt_cons]
    refine ⟨?_, ih _ _⟩
    rw [mem_store_of_lt _ _ (Nat.lt_succ_self i), mem_set_self]

theorem HoldsAt.realloc (h : b.HoldsAt i s) (hb : i + s.length ≤ b.size)
    (hn : i + s.length ≤ n) : (b.realloc n).HoldsAt i s := by
  refine h.congr fun k _ hk => ?_
  simp only [Block.realloc]
  rw [if_pos ⟨by omega, by omega⟩]

/-! ## C strings -/

theorem cstrAux_eq (hs : ∀ c ∈ s, c ≠ 0) (h : b.HoldsAt i (s ++ [0])) :
    ∀ fuel, s.length < fuel → b.cstrAux fuel i = s := by
  intro fuel hf
  induction s generalizing i fuel with
  | nil =>
    obtain ⟨fuel, rfl⟩ : ∃ m, fuel = m + 1 := ⟨fuel - 1, by simp at hf; omega⟩
    rw [List.nil_append, holdsAt_cons] at h
    simp [cstrAux, h.1]
  | cons c s ih =>
    obtain ⟨fuel, rfl⟩ : ∃ m, fuel = m + 1 := ⟨fuel - 1, by simp at hf; omega⟩
    rw [List.cons_append, holdsAt_cons] at h
    have hc : c ≠ 0 := hs c List.mem_cons_self
    simp only [cstrAux, h.1, hc, if_false]
    rw [ih (fun d hd => hs d (List.mem_cons_of_mem _ hd)) h.2 fuel (by simpa using hf)]

/-- The C string at `i` is `s` when `s` and a NUL stand there and `s` has no NUL. -/
theorem cstrFrom_eq (hs : ∀ c ∈ s, c ≠ 0) (h : b.HoldsAt i (s ++ [0]))
    (hsz : i + s.length ≤ b.size) : b.cstrFrom i = s :=
  cstrAux_eq hs h _ (by omega)

theorem cstrAux_ne_zero : ∀ fuel i, ∀ c ∈ b.cstrAux fuel i, c ≠ 0
  | 0, _, c, hc => by simp [cstrAux] at hc
  | fuel + 1, i, c, hc => by
    rw [cstrAux] at hc
    split at hc
    · split at hc
      · simp at hc
      · next d _ hd =>
        rcases List.mem_cons.1 hc with rfl | hc
        · exact hd
        · exact cstrAux_ne_zero fuel (i + 1) c hc
    · simp at hc

theorem cstrAux_length_le : ∀ fuel i, (b.cstrAux fuel i).length ≤ fuel
  | 0, _ => Nat.le_refl _
  | fuel + 1, i => by
    rw [cstrAux]
    split
    · split
      · simp
      · simpa using cstrAux_length_le fuel (i + 1)
    · simp

/-- A C string has no NUL. -/
theorem cstrFrom_ne_zero (b : Block) (i : Nat) : ∀ c ∈ b.cstrFrom i, c ≠ 0 :=
  cstrAux_ne_zero _ _

theorem cstrAux_holds : ∀ fuel i, b.HoldsAt i (b.cstrAux fuel i)
  | 0, _ => holdsAt_nil
  | fuel + 1, i => by
    rw [cstrAux]
    split
    · next c hc =>
      split
      · exact holdsAt_nil
      · exact holdsAt_cons.2 ⟨hc, cstrAux_holds fuel (i + 1)⟩
    · exact holdsAt_nil

/-- Cells stored to up to a NUL make up a C string. -/
theorem exists_cstr (n : Nat) (hd : ∀ k, k < n → (b.mem (i + k)).isSome)
    (hz : b.mem (i + n) = some 0) :
    ∃ s : List UInt8, (∀ c ∈ s, c ≠ 0) ∧ s.length ≤ n ∧ b.HoldsAt i (s ++ [0]) := by
  induction n generalizing i with
  | zero => exact ⟨[], by simp, Nat.le_refl _, holdsAt_cons.2 ⟨hz, holdsAt_nil⟩⟩
  | succ n ih =>
    obtain ⟨c, hc⟩ := Option.isSome_iff_exists.1 (hd 0 (Nat.succ_pos n))
    by_cases h0 : c = 0
    · subst h0
      exact ⟨[], by simp, Nat.zero_le _, holdsAt_cons.2 ⟨hc, holdsAt_nil⟩⟩
    · obtain ⟨s, hs, hlen, hh⟩ := ih (i := i + 1)
        (fun k hk => by rw [show i + 1 + k = i + (k + 1) by omega]; exact hd _ (by omega))
        (by rw [show i + 1 + n = i + (n + 1) by omega]; exact hz)
      refine ⟨c :: s, ?_, by simpa using hlen, holdsAt_cons.2 ⟨hc, hh⟩⟩
      intro d hd'
      rcases List.mem_cons.1 hd' with rfl | hd'
      · exact h0
      · exact hs d hd'

end Block

end FourFuzzers.Lib
