import FourFuzzers.Lib.Traced

/-!
# Arrays of plain data

An allocated array is the list of its elements. `memmove` and `memset` go through it element by
element and record each access with the size of the array it is made to; what a read past the end
yields is a parameter. `doubleUntil` is the loop that looks for the next capacity.
-/

namespace FourFuzzers.Lib

universe u

open Traced

inductive ArrayEvent
  /-- Element `i` of an array of `size` elements is read. -/
  | read (i size : Nat)
  /-- Element `i` of an array of `size` elements is written. -/
  | write (i size : Nat)
  /-- An expression of type `int` has the value `x`, before any wrap around. -/
  | int (x : Int)
  /-- A loop budget of the model ran out. -/
  | outOfFuel
  deriving DecidableEq, Repr

namespace ArrayEvent

/-- A read past the end. -/
def isOverread : ArrayEvent → Bool
  | read i size => size ≤ i
  | _ => false

/-- An event that is allowed: a write inside its array, a value of `int`. -/
def Fine : ArrayEvent → Prop
  | read _ _ => True
  | write i size => i < size
  | int x => -2 ^ 31 ≤ x ∧ x < 2 ^ 31
  | outOfFuel => False

end ArrayEvent

variable {α : Type u}

/-- `a[i]`, which is `past i` behind the end -/
def readAt (past : Nat → α) (a : List α) (i : Nat) : Traced ArrayEvent α :=
  ⟨a.getD i (past i), [.read i a.length]⟩

/-- `a[i] = x` -/
def writeAt (a : List α) (i : Nat) (x : α) : Traced ArrayEvent (List α) :=
  ⟨a.set i x, [.write i a.length]⟩

/-- The first `n` elements of `src` go to `dst`. -/
def memmove (past : Nat → α) (dst src : List α) : Nat → Traced ArrayEvent (List α)
  | 0 => pure dst
  | n + 1 => do
    let dst ← memmove past dst src n
    let x ← readAt past src n
    writeAt dst n x

/-- `n` elements from `start` on become `x`. -/
def memset (a : List α) (x : α) (start : Nat) : Nat → Traced ArrayEvent (List α)
  | 0 => pure a
  | n + 1 => do
    let a ← memset a x start n
    writeAt a (start + n) x

/-- `while (need > cap) cap *= 2;` -/
def doubleUntil (need : Nat) : Nat → Nat → Traced ArrayEvent Nat
  | 0, cap => do
    emit .outOfFuel
    pure cap
  | fuel + 1, cap =>
    if cap < need then do
      emit (.int (cap * 2 : Nat))
      doubleUntil need fuel (cap * 2)
    else pure cap

/-! ## Copying -/

section

variable {past : Nat → α} {dst src : List α} {a : List α} {x : α} {start n : Nat}

@[simp] theorem length_memmove : (memmove past dst src n).val.length = dst.length := by
  induction n with
  | zero => rfl
  | succ n ih =>
    unfold memmove
    change ((memmove past dst src n).val.set n _).length = dst.length
    rw [List.length_set, ih]

theorem getElem?_memmove (i : Nat) :
    (memmove past dst src n).val[i]? =
      if i < n ∧ i < dst.length then some (src.getD i (past i)) else dst[i]? := by
  induction n with
  | zero =>
    rw [if_neg (by omega)]
    rfl
  | succ n ih =>
    unfold memmove
    change ((memmove past dst src n).val.set n (src.getD n (past n)))[i]? = _
    rw [List.getElem?_set, ih, length_memmove]
    by_cases hi : n = i
    · subst hi
      by_cases hn : n < dst.length
      · rw [if_pos rfl, if_pos hn, if_pos ⟨Nat.lt_succ_self n, hn⟩]
      · rw [if_pos rfl, if_neg hn, if_neg (by omega), List.getElem?_eq_none (by omega)]
    · rw [if_neg hi]
      by_cases hlt : i < n ∧ i < dst.length
      · rw [if_pos hlt, if_pos ⟨by omega, hlt.2⟩]
      · rw [if_neg hlt, if_neg (by omega)]

theorem log_memmove :
    (memmove past dst src n).log =
      (List.range n).flatMap fun i => [.read i src.length, .write i dst.length] := by
  induction n with
  | zero => rfl
  | succ n ih =>
    unfold memmove
    rw [List.range_succ, List.flatMap_append, List.flatMap_singleton, log_bind, log_bind, ih]
    change _ ++ ([ArrayEvent.read n src.length] ++
      [ArrayEvent.write n (memmove past dst src n).val.length]) = _
    rw [length_memmove]
    rfl

/-- The reads past the end of a copy. -/
theorem overreads_memmove :
    (memmove past dst src n).log.filter ArrayEvent.isOverread =
      (List.range n).flatMap fun i => if src.length ≤ i then [.read i src.length] else [] := by
  rw [log_memmove, List.filter_flatMap]
  congr 1
  funext i
  by_cases hi : src.length ≤ i
  · simp [ArrayEvent.isOverread, hi]
  · simp [ArrayEvent.isOverread, hi]

/-- A copy that is not longer than its source stays inside. -/
theorem overreads_memmove_of_le (hn : n ≤ src.length) :
    (memmove past dst src n).log.filter ArrayEvent.isOverread = [] := by
  rw [overreads_memmove, List.flatMap_eq_nil_iff]
  intro i hi
  have := List.mem_range.1 hi
  rw [if_neg (by omega)]

/-- A copy that is one element longer than its source reads that element. -/
theorem overreads_memmove_succ :
    (memmove past dst src (src.length + 1)).log.filter ArrayEvent.isOverread =
      [.read src.length src.length] := by
  have hle := @overreads_memmove_of_le _ past dst src _ (Nat.le_refl src.length)
  rw [overreads_memmove] at hle ⊢
  rw [List.range_succ, List.flatMap_append, hle, List.flatMap_singleton, if_pos (Nat.le_refl _),
    List.nil_append]

@[simp] theorem length_memset : (memset a x start n).val.length = a.length := by
  induction n with
  | zero => rfl
  | succ n ih =>
    unfold memset
    change ((memset a x start n).val.set (start + n) x).length = a.length
    rw [List.length_set, ih]

theorem getElem?_memset (i : Nat) :
    (memset a x start n).val[i]? =
      if start ≤ i ∧ i < start + n ∧ i < a.length then some x else a[i]? := by
  induction n with
  | zero =>
    rw [if_neg (by omega)]
    rfl
  | succ n ih =>
    unfold memset
    change ((memset a x start n).val.set (start + n) x)[i]? = _
    rw [List.getElem?_set, ih, length_memset]
    by_cases hi : start + n = i
    · subst hi
      by_cases hn : start + n < a.length
      · rw [if_pos rfl, if_pos hn, if_pos (by omega)]
      · rw [if_pos rfl, if_neg hn, if_neg (by omega), List.getElem?_eq_none (by omega)]
    · rw [if_neg hi]
      by_cases hlt : start ≤ i ∧ i < start + n ∧ i < a.length
      · rw [if_pos hlt, if_pos (by omega)]
      · rw [if_neg hlt, if_neg (by omega)]

theorem log_memset :
    (memset a x start n).log = (List.range n).map fun i => .write (start + i) a.length := by
  induction n with
  | zero => rfl
  | succ n ih =>
    unfold memset
    rw [List.range_succ, List.map_append, log_bind, ih]
    change _ ++ [ArrayEvent.write (start + n) (memset a x start n).val.length] = _
    rw [length_memset]
    rfl

/-- A copy of at least `start` elements that is cleared from `start` on keeps nothing of what was
copied behind `start`, nor of what the new array held. -/
theorem memset_memmove (hn : start ≤ n) (hsrc : start ≤ src.length) (hdst : start ≤ dst.length) :
    (memset (memmove past dst src n).val x start (dst.length - start)).val =
      src.take start ++ List.replicate (dst.length - start) x := by
  apply List.ext_getElem?
  intro i
  rw [getElem?_memset, length_memmove, getElem?_memmove, List.getElem?_append, List.length_take,
    Nat.min_eq_left hsrc]
  by_cases hi : i < start
  · rw [if_neg (by omega), if_pos ⟨by omega, by omega⟩, if_pos hi, List.getElem?_take_of_lt hi,
      List.getD_eq_getElem?_getD, List.getElem?_eq_getElem (by omega), Option.getD_some]
  · rw [if_neg (c := i < start) hi]
    by_cases hlt : i < dst.length
    · rw [if_pos (by omega), List.getElem?_replicate, if_pos (by omega)]
    · rw [if_neg (by omega), if_neg (by omega), List.getElem?_eq_none (by omega),
        List.getElem?_replicate, if_neg (by omega)]

end

/-! ## Capacities -/

/-- The loop ends at the first capacity that is large enough, within `m` doublings. -/
theorem doubleUntil_meets (need fuel cap m : Nat) (h : need ≤ cap * 2 ^ m) (hm : m < fuel) :
    Meets (.every fun e => ∃ x : Nat, e = .int x ∧ x ≤ cap * 2 ^ m)
      (fun r => need ≤ r ∧ ∃ k, k ≤ m ∧ r = cap * 2 ^ k) (doubleUntil need fuel cap) := by
  induction fuel generalizing cap m with
  | zero => omega
  | succ fuel ih =>
    unfold doubleUntil
    by_cases hlt : cap < need
    · rw [if_pos hlt]
      cases m with
      | zero =>
        rw [Nat.pow_zero, Nat.mul_one] at h
        omega
      | succ m =>
        have hpow : cap * 2 ^ (m + 1) = cap * 2 * 2 ^ m := by
          rw [Nat.pow_succ', Nat.mul_assoc]
        have hle : cap * 2 ≤ cap * 2 * 2 ^ m := Nat.le_mul_of_pos_right _ (Nat.two_pow_pos m)
        rw [hpow] at h ⊢
        have hemit : Meets (.every fun e => ∃ x : Nat, e = ArrayEvent.int x ∧ x ≤ cap * 2 * 2 ^ m)
            (fun _ => True) (emit (.int (cap * 2 : Nat))) := by
          refine meets_emit (fun e he => ?_) trivial
          exact ⟨cap * 2, List.mem_singleton.1 he, hle⟩
        apply hemit.bind
        intro _ _
        apply (ih _ _ h (by omega)).mono
        rintro r ⟨hneed, k, hk, hr⟩
        refine ⟨hneed, k + 1, by omega, ?_⟩
        rw [hr, Nat.pow_succ', Nat.mul_assoc]
    · rw [if_neg hlt]
      exact .pure ⟨by omega, 0, Nat.zero_le _, by rw [Nat.pow_zero, Nat.mul_one]⟩

end FourFuzzers.Lib
