import FourFuzzers.Re2.Alloc

/-!
# When BUG_RE1 reads past the old array

A growing array is copied with one instruction too many from the 16th on, but the memory behind the
old array is read only when the array is full. The instruction that was read is overwritten with
zeros at once, so the compiler goes on as if `AllocInst` had copied `ninst_` instructions.
-/

namespace FourFuzzers.Re2

open FourFuzzers.Lib FourFuzzers.Lib.Traced

/-! ## The invariant -/

/-- A capacity of the instruction array: 8 times a power of two. -/
def IsCapacity (size : Nat) : Prop := ∃ k, size = 8 * 2 ^ k

/-- What holds of the instruction array between two operations. -/
structure Inv (c : Compiler) : Prop where
  capacity : c.inst.length = 0 ∨ IsCapacity c.inst.length
  used : c.ninst ≤ c.inst.length
  clear : ∀ i, c.ninst ≤ i → i < c.inst.length → c.inst[i]? = some Inst.zero
  ninst_le : c.ninst ≤ 2 ^ 24
  maxNinst_le : c.maxNinst ≤ 2 ^ 24

/-- A call of `AllocInst(n)` that is not refused. -/
def Accepts (c : Compiler) (n : Nat) : Prop := c.failed = false ∧ (c.ninst + n : Int) ≤ c.maxNinst

instance (c : Compiler) (n : Nat) : Decidable (Accepts c n) := inferInstanceAs (Decidable (_ ∧ _))

/-- A call of `AllocInst(n)` for which the array is too small. -/
def Grows (c : Compiler) (n : Nat) : Prop := c.inst.length < c.ninst + n

instance (c : Compiler) (n : Nat) : Decidable (Grows c n) := inferInstanceAs (Decidable (_ < _))

section

variable {c : Compiler} {g : Garbage} {n : Nat} {count : Nat → Nat}

theorem allocInstWith_refused (h : ¬ Accepts c n) :
    (allocInstWith count g n c).val = (-1, { c with failed := true }) ∧
      ∀ e ∈ (allocInstWith count g n c).log, e = .int (c.ninst + n) := by
  unfold allocInstWith
  by_cases hf : c.failed = true
  · rw [if_pos hf]
    exact ⟨rfl, by simp⟩
  · have hlt : c.maxNinst < c.ninst + n := by
      by_contra hle
      exact h ⟨eq_false_of_ne_true hf, by omega⟩
    rw [if_neg hf, if_pos hlt]
    exact ⟨rfl, by simp⟩

theorem allocInstWith_accepted (h : Accepts c n) :
    allocInstWith count g n c = (do
      emit (.int (c.ninst + n))
      let inst ← growInst count g n c
      pure (c.ninst, { c with inst := inst, ninst := c.ninst + n })) := by
  have hle := h.2
  unfold allocInstWith
  rw [h.1, if_neg Bool.false_ne_true, if_neg (by omega)]

theorem growInst_grows (h : Grows c n) :
    growInst count g n c = (do
      emit (.int (c.ninst + n))
      let cap ← doubleUntil (c.ninst + n) 32 (if c.inst.length = 0 then 8 else c.inst.length)
      let inst ← copyInst count g cap c
      memset inst Inst.zero c.ninst (cap - c.ninst)) := by
  have hlt : c.inst.length < c.ninst + n := h
  unfold growInst
  rw [if_pos hlt]

theorem growInst_fits (h : ¬ Grows c n) :
    growInst count g n c = (do
      emit (.int (c.ninst + n))
      pure c.inst) := by
  have hle : ¬ c.inst.length < c.ninst + n := h
  unfold growInst
  rw [if_neg hle]

/-! ## Growing -/

/-- The capacity the array grows to. -/
def newCap (c : Compiler) (n : Nat) : Nat :=
  (doubleUntil (c.ninst + n) 32 (if c.inst.length = 0 then 8 else c.inst.length)).val

/-- Every capacity on the way is at most 2^24. -/
theorem doubleUntil_grows (hinv : Inv c) (hacc : Accepts c n) (hgrow : Grows c n) :
    Meets (.every fun e => ∃ x : Nat, e = .int x ∧ x ≤ 2 ^ 24)
      (fun cap => c.ninst + n ≤ cap ∧ IsCapacity cap)
      (doubleUntil (c.ninst + n) 32 (if c.inst.length = 0 then 8 else c.inst.length)) := by
  have hle : c.ninst + n ≤ 2 ^ 24 := by
    have := hacc.2
    have := hinv.maxNinst_le
    omega
  have hstart : ∃ k, k ≤ 21 ∧ (if c.inst.length = 0 then 8 else c.inst.length) = 8 * 2 ^ k := by
    by_cases h0 : c.inst.length = 0
    · exact ⟨0, by omega, if_pos h0⟩
    · obtain ⟨k, hk⟩ := hinv.capacity.resolve_left h0
      refine ⟨k, ?_, by rw [if_neg h0, hk]⟩
      by_contra hlarge
      have hpow : 2 ^ 22 ≤ 2 ^ k := Nat.pow_le_pow_right (by omega) (by omega)
      unfold Grows at hgrow
      omega
  obtain ⟨k, hk, hcap⟩ := hstart
  rw [hcap]
  have hmax : 8 * 2 ^ k * 2 ^ (21 - k) = 2 ^ 24 := by
    have hexp : 2 ^ k * 2 ^ (21 - k) = 2 ^ 21 := by
      rw [← Nat.pow_add, Nat.add_sub_of_le hk]
    have hassoc := Nat.mul_assoc 8 (2 ^ k) (2 ^ (21 - k))
    omega
  have hloop := doubleUntil_meets (c.ninst + n) 32 (8 * 2 ^ k) (21 - k) (by rw [hmax]; exact hle)
    (by omega)
  rw [hmax] at hloop
  apply hloop.mono
  rintro cap ⟨hneed, j, -, rfl⟩
  exact ⟨hneed, k + j, by rw [Nat.mul_assoc, ← Nat.pow_add]⟩

theorem newCap_spec (hinv : Inv c) (hacc : Accepts c n) (hgrow : Grows c n) :
    c.ninst + n ≤ newCap c n ∧ IsCapacity (newCap c n) :=
  (doubleUntil_grows hinv hacc hgrow).val

/-- How many instructions an allocator may copy: all that are used, and no more than fit. -/
def Copies (count : Nat → Nat) : Prop := ∀ k, k ≤ count k ∧ count k ≤ k + 1

theorem copies_copyN : Copies copyN := by
  intro k
  unfold copyN
  split <;> omega

theorem copies_self : Copies fun k => k := fun k => ⟨Nat.le_refl k, Nat.le_succ k⟩

/-- The array after growing does not depend on what indeterminate memory holds. -/
theorem growInst_val (hinv : Inv c) (hacc : Accepts c n) (hgrow : Grows c n)
    (hcount : Copies count) :
    (growInst count g n c).val =
      c.inst.take c.ninst ++ List.replicate (newCap c n - c.ninst) Inst.zero := by
  obtain ⟨hneed, -⟩ := newCap_spec hinv hacc hgrow
  have hlen : ((List.range (newCap c n)).map g.fresh).length = newCap c n := by simp
  rw [growInst_grows hgrow]
  change (memset (copyInst count g (newCap c n) c).val Inst.zero c.ninst (newCap c n - c.ninst)).val
    = _
  unfold copyInst
  by_cases hnull : c.inst = []
  · have h0 : c.ninst = 0 := by
      have := hinv.used
      rw [hnull, List.length_nil] at this
      omega
    have hcopy : memmove g.past ((List.range (newCap c n)).map g.fresh) c.inst 0 =
        pure ((List.range (newCap c n)).map g.fresh) := rfl
    have := @memset_memmove _ g.past ((List.range (newCap c n)).map g.fresh) c.inst Inst.zero c.ninst
      0 (by omega) hinv.used (by omega)
    rw [hcopy, hlen] at this
    rw [if_pos hnull]
    exact this
  · have := @memset_memmove _ g.past ((List.range (newCap c n)).map g.fresh) c.inst Inst.zero c.ninst
      (count c.ninst) (hcount _).1 hinv.used (by omega)
    rw [hlen] at this
    rw [if_neg hnull]
    exact this

/-- The array behind an accepted call. -/
def grown (c : Compiler) (n : Nat) : PODArray :=
  if Grows c n then c.inst.take c.ninst ++ List.replicate (newCap c n - c.ninst) Inst.zero
  else c.inst

/-- Every allocator that copies the used instructions leaves the same compiler. -/
theorem allocInstWith_val (hinv : Inv c) (hacc : Accepts c n) (hcount : Copies count) :
    (allocInstWith count g n c).val =
      ((c.ninst : Int), { c with inst := grown c n, ninst := c.ninst + n }) := by
  rw [allocInstWith_accepted hacc]
  change ((c.ninst : Int), { c with inst := (growInst count g n c).val, ninst := c.ninst + n }) = _
  unfold grown
  by_cases hgrow : Grows c n
  · rw [if_pos hgrow, growInst_val hinv hacc hgrow hcount]
  · rw [if_neg hgrow, growInst_fits hgrow]
    rfl

theorem length_grown (hinv : Inv c) (hacc : Accepts c n) (hgrow : Grows c n) :
    (grown c n).length = newCap c n := by
  have hneed := (newCap_spec hinv hacc hgrow).1
  have hused := hinv.used
  unfold grown
  rw [if_pos hgrow, List.length_append, List.length_take, List.length_replicate]
  omega

theorem grown_below (hinv : Inv c) {i : Nat} (hi : i < c.ninst) : (grown c n)[i]? = c.inst[i]? := by
  have hused := hinv.used
  unfold grown
  by_cases hgrow : Grows c n
  · rw [if_pos hgrow, List.getElem?_append_left (by rw [List.length_take]; omega),
      List.getElem?_take_of_lt hi]
  · rw [if_neg hgrow]

theorem grown_above (hinv : Inv c) {i : Nat} (hi : c.ninst ≤ i) (hlen : i < (grown c n).length) :
    (grown c n)[i]? = some Inst.zero := by
  have hused := hinv.used
  unfold grown at hlen ⊢
  by_cases hgrow : Grows c n
  · rw [if_pos hgrow, List.length_append, List.length_take, List.length_replicate] at hlen
    rw [if_pos hgrow, List.getElem?_append_right (by rw [List.length_take]; omega),
      List.getElem?_replicate, if_pos (by rw [List.length_take]; omega)]
  · rw [if_neg hgrow] at hlen ⊢
    exact hinv.clear i hi hlen

theorem grown_fits (hinv : Inv c) (hn : 1 ≤ n) (hacc : Accepts c n) :
    c.ninst + n ≤ (grown c n).length ∧ IsCapacity (grown c n).length := by
  by_cases hgrow : Grows c n
  · rw [length_grown hinv hacc hgrow]
    exact newCap_spec hinv hacc hgrow
  · unfold grown
    rw [if_neg hgrow]
    unfold Grows at hgrow
    exact ⟨by omega, hinv.capacity.resolve_left (by omega)⟩

/-! ## Accesses -/

/-- The calls in which BUG_RE1 shows: a full array of at least 16 instructions grows. -/
def Overreads (c : Compiler) (n : Nat) : Prop :=
  Accepts c n ∧ Grows c n ∧ c.ninst = c.inst.length ∧ 16 ≤ c.inst.length

instance (c : Compiler) (n : Nat) : Decidable (Overreads c n) :=
  inferInstanceAs (Decidable (_ ∧ _ ∧ _ ∧ _))

theorem overreads_copyInst {cap : Nat} (hinv : Inv c) :
    (copyInst copyN g cap c).log.filter ArrayEvent.isOverread =
      if c.ninst = c.inst.length ∧ 16 ≤ c.inst.length then
        [.read c.inst.length c.inst.length] else [] := by
  have hused := hinv.used
  unfold copyInst
  dsimp only
  by_cases hnull : c.inst = []
  · rw [if_pos hnull, hnull, if_neg (by simp)]
    rfl
  rw [if_neg hnull]
  by_cases hfull : c.ninst = c.inst.length ∧ 16 ≤ c.inst.length
  · have hcopy : copyN c.ninst = c.inst.length + 1 := by
      unfold copyN
      rw [if_pos (by omega), hfull.1]
    rw [if_pos hfull, hcopy]
    exact overreads_memmove_succ
  · rw [if_neg hfull]
    apply overreads_memmove_of_le
    unfold copyN
    split <;> omega

/-- Neither the loop over the capacities nor the clearing reads the old array. -/
theorem filter_isOverread_eq_nil {l : List ArrayEvent} (h : ∀ e ∈ l, e.isOverread = false) :
    l.filter ArrayEvent.isOverread = [] := by
  rw [List.filter_eq_nil_iff]
  intro e he
  rw [h e he]
  exact Bool.false_ne_true

theorem overreads_allocInst (hinv : Inv c) :
    (allocInst g n c).log.filter ArrayEvent.isOverread =
      if Overreads c n then [.read c.inst.length c.inst.length] else [] := by
  unfold allocInst
  by_cases hacc : Accepts c n
  · rw [allocInstWith_accepted hacc]
    by_cases hgrow : Grows c n
    · have hcap : (doubleUntil (c.ninst + n) 32
          (if c.inst.length = 0 then 8 else c.inst.length)).log.filter ArrayEvent.isOverread = [] := by
        apply filter_isOverread_eq_nil
        intro e he
        obtain ⟨x, rfl, -⟩ := (doubleUntil_grows hinv hacc hgrow).log e he
        rfl
      have hclear : ∀ inst : PODArray, ∀ start k,
          (memset inst Inst.zero start k).log.filter ArrayEvent.isOverread = [] := by
        intro inst start k
        apply filter_isOverread_eq_nil
        intro e he
        rw [log_memset] at he
        obtain ⟨i, -, rfl⟩ := List.mem_map.1 he
        rfl
      have hiff : Overreads c n ↔ c.ninst = c.inst.length ∧ 16 ≤ c.inst.length :=
        ⟨fun h => h.2.2, fun h => ⟨hacc, hgrow, h⟩⟩
      rw [growInst_grows hgrow, if_congr hiff rfl rfl, ← overreads_copyInst (g := g) hinv]
      simp only [log_bind, log_emit, log_pure, List.filter_append, hcap, hclear, List.append_nil,
        List.nil_append]
      rfl
    · rw [growInst_fits hgrow, if_neg fun h => hgrow h.2.1]
      rfl
  · rw [if_neg fun h => hacc h.1]
    apply filter_isOverread_eq_nil
    intro e he
    rw [(allocInstWith_refused hacc).2 e he]
    rfl

theorem copyInst_fine {cap : Nat} (hcap : c.ninst + 1 ≤ cap) :
    Meets (.every ArrayEvent.Fine) (fun inst => inst.length = cap) (copyInst copyN g cap c) := by
  have hcopy := (copies_copyN c.ninst).2
  unfold copyInst
  dsimp only
  by_cases hnull : c.inst = []
  · rw [if_pos hnull]
    exact .pure (by simp)
  · rw [if_neg hnull]
    refine ⟨fun e he => ?_, by simp⟩
    rw [log_memmove] at he
    obtain ⟨i, hi, he⟩ := List.mem_flatMap.1 he
    have hlt := List.mem_range.1 hi
    rcases List.mem_cons.1 he with rfl | he
    · exact trivial
    · rw [List.mem_singleton.1 he]
      change i < ((List.range cap).map g.fresh).length
      rw [List.length_map, List.length_range]
      omega

theorem memset_fine {inst : PODArray} {start : Nat} (hstart : start ≤ inst.length) :
    Meets (.every ArrayEvent.Fine) (fun _ => True)
      (memset inst Inst.zero start (inst.length - start)) := by
  refine ⟨fun e he => ?_, trivial⟩
  rw [log_memset] at he
  obtain ⟨i, hi, rfl⟩ := List.mem_map.1 he
  have hlt := List.mem_range.1 hi
  change start + i < inst.length
  omega

/-- Every write is inside the new array, every `int` in range, and the loop ends. -/
theorem allocInst_fine (hinv : Inv c) (hn : 1 ≤ n) (hn' : n ≤ 2 ^ 24) :
    ∀ e ∈ (allocInst g n c).log, e.Fine := by
  have hninst := hinv.ninst_le
  have hint : ArrayEvent.Fine (.int (c.ninst + n)) := by
    constructor
    · omega
    · omega
  have hemit : Meets (.every ArrayEvent.Fine) (fun _ => True) (emit (.int (c.ninst + n))) := by
    refine meets_emit (fun e he => ?_) trivial
    rw [List.mem_singleton.1 he]
    exact hint
  unfold allocInst
  by_cases hacc : Accepts c n
  · have hgrowInst : Meets (.every ArrayEvent.Fine) (fun _ => True) (growInst copyN g n c) := by
      by_cases hgrow : Grows c n
      · rw [growInst_grows hgrow]
        apply hemit.bind
        intro _ _
        have hsmall : ∀ l, (LogProp.every fun e => ∃ x : Nat, e = .int x ∧ x ≤ 2 ^ 24).Holds l →
            (LogProp.every ArrayEvent.Fine).Holds l := by
          intro l hl e he
          obtain ⟨x, rfl, hx⟩ := hl e he
          exact ⟨by omega, by omega⟩
        apply ((doubleUntil_grows hinv hacc hgrow).weaken hsmall).bind
        rintro cap ⟨hneed, -⟩
        apply (copyInst_fine (by omega)).bind
        rintro inst rfl
        exact memset_fine (by omega)
      · rw [growInst_fits hgrow]
        apply hemit.bind
        intro _ _
        exact .pure trivial
    have hcall : Meets (.every ArrayEvent.Fine) (fun _ => True) (allocInstWith copyN g n c) := by
      rw [allocInstWith_accepted hacc]
      apply hemit.bind
      intro _ _
      apply hgrowInst.bind
      intro _ _
      exact .pure trivial
    exact hcall.log
  · intro e he
    rw [(allocInstWith_refused hacc).2 e he]
    exact hint

/-! ## Runs -/

theorem Inv.allocInst (hinv : Inv c) (hn : 1 ≤ n) : Inv (Re2.allocInst g n c).val.2 := by
  unfold Re2.allocInst
  by_cases hacc : Accepts c n
  · obtain ⟨hfits, hcap⟩ := grown_fits hinv hn hacc
    have hle := hacc.2
    have hmax := hinv.maxNinst_le
    rw [allocInstWith_val hinv hacc copies_copyN]
    exact {
      capacity := .inr hcap
      used := hfits
      clear := fun i hi hlen => grown_above hinv (Nat.le_trans (Nat.le_add_right _ _) hi) hlen
      ninst_le := by dsimp only; omega
      maxNinst_le := hmax }
  · rw [(allocInstWith_refused hacc).1]
    exact ⟨hinv.capacity, hinv.used, hinv.clear, hinv.ninst_le, hinv.maxNinst_le⟩

end

theorem Inv.step {c : Compiler} {op : Op} (hinv : Inv c) (hop : op.Allowed c) :
    Inv (Re2.step c op) := by
  cases op with
  | allocInst g n => exact hinv.allocInst hop.1
  | release =>
    have hpos : 0 < c.ninst := hop
    have hused := hinv.used
    have hle := hinv.ninst_le
    refine ⟨?_, ?_, ?_, ?_, hinv.maxNinst_le⟩
    · simpa [Re2.step] using hinv.capacity
    · change c.ninst - 1 ≤ (c.inst.set (c.ninst - 1) Inst.zero).length
      rw [List.length_set]
      omega
    · intro i hi hlen
      change c.ninst - 1 ≤ i at hi
      change (c.inst.set (c.ninst - 1) Inst.zero)[i]? = some Inst.zero
      change i < (c.inst.set (c.ninst - 1) Inst.zero).length at hlen
      rw [List.length_set] at hlen
      rw [List.getElem?_set]
      by_cases htop : c.ninst - 1 = i
      · rw [if_pos htop, if_pos (by omega)]
      · rw [if_neg htop]
        exact hinv.clear i (by omega) hlen
    · change c.ninst - 1 ≤ 2 ^ 24
      omega
  | write i ip =>
    have hi : i < c.ninst := hop
    refine ⟨?_, ?_, ?_, hinv.ninst_le, hinv.maxNinst_le⟩
    · simpa [Re2.step] using hinv.capacity
    · simpa [Re2.step] using hinv.used
    · intro j hj hlen
      change c.ninst ≤ j at hj
      change (c.inst.set i ip)[j]? = some Inst.zero
      change j < (c.inst.set i ip).length at hlen
      rw [List.length_set] at hlen
      rw [List.getElem?_set, if_neg (by omega)]
      exact hinv.clear j hj hlen
  | setMaxNinst m => exact ⟨hinv.capacity, hinv.used, hinv.clear, hinv.ninst_le, hop⟩

theorem inv_blank : Inv .blank := by
  refine ⟨.inl rfl, Nat.le_refl _, ?_, Nat.zero_le _, by decide⟩
  intro i _ hlen
  exact absurd hlen (Nat.not_lt_zero i)

/-- The constructor leaves the fail instruction in an array of 8. -/
theorem new_eq (g : Garbage) :
    Compiler.new g = ⟨false, Inst.zero.initFail :: List.replicate 7 Inst.zero, 1, 0⟩ := by
  have hacc : Accepts .blank 1 := by decide
  unfold Compiler.new allocInst
  rw [allocInstWith_val inv_blank hacc copies_copyN]
  rfl

theorem inv_new (g : Garbage) : Inv (.new g) := by
  rw [new_eq]
  refine ⟨.inr ⟨0, rfl⟩, by decide, ?_, by decide, by decide⟩
  intro i hi hlen
  cases i with
  | zero => exact absurd hi (by decide)
  | succ i =>
    change i + 1 < 8 at hlen
    change (List.replicate 7 Inst.zero)[i]? = some Inst.zero
    rw [List.getElem?_replicate, if_pos (by omega)]

theorem Inv.of_runs {c c' : Compiler} (hinv : Inv c) (h : Runs c c') : Inv c' := by
  induction h with
  | refl => exact hinv
  | step _ hop ih => exact ih.step hop

theorem Inv.of_reachable {c : Compiler} (h : Reachable c) : Inv c := by
  rcases h with rfl | ⟨g, h⟩
  · exact inv_blank
  · exact (inv_new g).of_runs h

/-- A compiler that has failed stays failed. -/
theorem failed_of_runs {c c' : Compiler} (hf : c.failed = true) (h : Runs c c') :
    c'.failed = true := by
  induction h with
  | refl => exact hf
  | @step c' op _ _ ih =>
    cases op with
    | allocInst g n =>
      have hno : ¬ Accepts c' n := fun h => by simp [h.1] at ih
      change (allocInstWith copyN g n c').val.2.failed = true
      rw [(allocInstWith_refused hno).1]
    | release => exact ih
    | write i ip => exact ih
    | setMaxNinst m => exact ih

/-! ## One call in a run -/

/-- What `AllocInst(n)` does to a compiler `c`. -/
structure AllocReport (c : Compiler) (n : Nat) (g : Garbage) : Prop where
  /-- One instruction past the end is read when a full array of at least 16 grows, else none. -/
  overreads : (allocInst g n c).log.filter ArrayEvent.isOverread =
    if Overreads c n then [.read c.inst.length c.inst.length] else []
  /-- Two instructions at the last slot: the array grows, and nothing is read past its end. -/
  twoAtLast : n = 2 → c.ninst + 1 = c.inst.length → Accepts c n →
    c.inst.length < (allocInst g n c).val.2.inst.length ∧
      (allocInst g n c).log.filter ArrayEvent.isOverread = []
  /-- Writes stay inside the new array, no `int` overflows, and the loop ends. -/
  fine : ∀ e ∈ (allocInst g n c).log, e.Fine
  /-- Whatever indeterminate memory holds, the result is that of the correct allocator. -/
  correct : ∀ g', (allocInst g n c).val = (allocInstCorrect g' n c).val
  /-- An accepted call returns the old `ninst_`, keeps the slots below it and clears all others. -/
  accepted : Accepts c n → ∃ inst : PODArray,
    (allocInst g n c).val = ((c.ninst : Int), { c with inst := inst, ninst := c.ninst + n }) ∧
      (∀ i, i < c.ninst → inst[i]? = c.inst[i]?) ∧
      (∀ i, c.ninst ≤ i → i < inst.length → inst[i]? = some Inst.zero) ∧
      IsCapacity inst.length ∧ c.ninst + n ≤ inst.length
  /-- A refused call changes `failed_` only. -/
  refused : ¬ Accepts c n → (allocInst g n c).val = (-1, { c with failed := true })
  /-- Every call after a refused one is refused. -/
  afterRefused : ¬ Accepts c n → ∀ c', Runs (allocInst g n c).val.2 c' → ∀ n' g',
    (allocInst g' n' c').val = (-1, c')

theorem allocInst_report {c : Compiler} (hc : Reachable c) (g : Garbage) {n : Nat} (hn : 1 ≤ n)
    (hn' : n ≤ 2 ^ 24) : AllocReport c n g := by
  have hinv := Inv.of_reachable hc
  have hoverreads := overreads_allocInst (g := g) (n := n) hinv
  have haccepted : ∀ hacc : Accepts c n, (allocInst g n c).val = _ :=
    fun hacc => allocInstWith_val hinv hacc copies_copyN
  have hrefused : ∀ hno : ¬ Accepts c n, (allocInst g n c).val = _ :=
    fun hno => (allocInstWith_refused hno).1
  refine ⟨hoverreads, ?_, allocInst_fine hinv hn hn', ?_, ?_, hrefused, ?_⟩
  · rintro rfl hlast hacc
    have hgrow : Grows c 2 := by
      unfold Grows
      omega
    have hfits := (newCap_spec hinv hacc hgrow).1
    constructor
    · rw [haccepted hacc]
      change c.inst.length < (grown c 2).length
      rw [length_grown hinv hacc hgrow]
      omega
    · have hfull : ¬ Overreads c 2 := by
        rintro ⟨-, -, hfull, -⟩
        omega
      rw [hoverreads, if_neg hfull]
  · intro g'
    by_cases hacc : Accepts c n
    · rw [haccepted hacc]
      exact (allocInstWith_val hinv hacc copies_self).symm
    · rw [hrefused hacc]
      exact (allocInstWith_refused hacc).1.symm
  · intro hacc
    obtain ⟨hfits, hcap⟩ := grown_fits hinv hn hacc
    exact ⟨grown c n, haccepted hacc, fun i hi => grown_below hinv hi,
      fun i hi hlen => grown_above hinv hi hlen, hcap, hfits⟩
  · intro hno c' hruns n' g'
    have hfailed : c'.failed = true := by
      apply failed_of_runs _ hruns
      rw [hrefused hno]
    have hno' : ¬ Accepts c' n' := fun h => by simp [h.1] at hfailed
    have hsame : { c' with failed := true } = c' := by
      cases c'
      cases hfailed
      rfl
    change (allocInstWith copyN g' n' c').val = (-1, c')
    rw [(allocInstWith_refused hno').1, hsame]

/-- Indeterminate memory that holds no zeros. -/
def sampleGarbage : Garbage := ⟨fun i => ⟨i + 1, 0⟩, fun i => ⟨i + 1, 1⟩⟩

/-- A compiler whose array of 16 instructions is full. -/
def fullCompiler : Compiler :=
  step (step (.new sampleGarbage) (.setMaxNinst 100)) (.allocInst sampleGarbage 15)

theorem allocInst_report_full :
    Reachable fullCompiler ∧ Overreads fullCompiler 1 ∧
      AllocReport fullCompiler 1 sampleGarbage := by
  have hc : Reachable fullCompiler := by
    refine .inr ⟨sampleGarbage, .step (.step .refl ?_) ⟨by decide, by decide⟩⟩
    change (100 : Int) ≤ 2 ^ 24
    decide
  exact ⟨hc, by decide +kernel, allocInst_report hc sampleGarbage (by decide) (by decide)⟩

end FourFuzzers.Re2
