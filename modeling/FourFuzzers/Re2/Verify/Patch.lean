import FourFuzzers.Re2.Compile
import FourFuzzers.Re2.Verify.Graph

/-!
# Patch lists

A patch list threads the holes of a fragment through the slots that are to be filled in, so patching
and appending change the targets of these slots only: what the instructions do stays the same, and
so do all other targets.
-/

namespace FourFuzzers.Re2

open FourFuzzers.Lib FourFuzzers.Lib.Traced FourFuzzers.Lib.Stateful

/-! ## Slots -/

/-- The slots of instruction `x`. -/
def Inst.slots (x : Nat) (ip : Inst) : List Nat :=
  if ip.opcode = opAlt ∨ ip.opcode = opAltMatch then [x * 2, x * 2 + 1]
  else if ip.opcode = opMatch ∨ ip.opcode = opFail then []
  else [x * 2]

namespace Inst

variable {ip ip' : Inst} {text : List Nat} {x p p' q : Nat}

theorem slot_of_next (h : (Port.slot q, p') ∈ ip.next text x p) : q ∈ ip.slots x := by
  simp only [next, slots, opAlt, opAltMatch, opByteRange, opCapture, opNop, opEmptyWidth, opMatch,
    opFail] at h ⊢
  have hop := @opcode_lt ip
  generalize ip.opcode = op at h hop ⊢
  cases htext : text[p]? with
  | none =>
    rw [htext] at h
    interval_cases op <;> simp_all
    all_goals omega
  | some c =>
    rw [htext] at h
    interval_cases op <;> simp_all
    all_goals omega

theorem div_of_slot (h : q ∈ ip.slots x) : q / 2 = x := by
  unfold slots at h
  split at h
  next =>
    simp only [List.mem_cons, List.not_mem_nil, or_false] at h
    omega
  next =>
    split at h
    next => simp at h
    next =>
      rw [List.mem_singleton.1 h]
      omega

theorem slots_congr (h : ip'.opcode = ip.opcode) : ip'.slots x = ip.slots x := by
  unfold slots
  rw [h]

/-- The target of an alternative is no part of what it does. -/
theorem next_congr (hop : ip'.opcode = ip.opcode) (harg : ip.opcode ≠ opAlt → ip'.arg = ip.arg) :
    ip'.next text x p = ip.next text x p := by
  by_cases halt : ip.opcode = opAlt
  · simp [next, hop, halt]
  · obtain ⟨out, arg⟩ := ip
    obtain ⟨out', arg'⟩ := ip'
    obtain rfl : arg' = arg := harg halt
    unfold next
    rw [hop]
    rfl

/-- The instruction `ip` with slot `q` set to `p`. -/
def setSlot (ip : Inst) (q p : Nat) : Inst := if q % 2 = 1 then ip.setOut1 p else ip.setOut p

theorem opcode_setSlot (h : p < 2 ^ 28) : (ip.setSlot q p).opcode = ip.opcode := by
  unfold setSlot
  split
  · rfl
  · exact opcode_setOut h

theorem next_setSlot (h : p < 2 ^ 28) (hodd : q % 2 = 1 → ip.opcode = opAlt) :
    (ip.setSlot q p).next text x p' = ip.next text x p' := by
  apply next_congr (opcode_setSlot h)
  intro hne
  unfold setSlot
  rw [if_neg fun hq => hne (hodd hq)]
  rfl

end Inst

/-- Setting slot `q` changes the target of `q` only. -/
theorem target_setSlot {cell cell' : Nat → Inst} {q p r : Nat} (hp : p < 2 ^ 28)
    (hcell : cell' = Function.update cell (q / 2) ((cell (q / 2)).setSlot q p)) :
    target cell' r = if r = q then p else target cell r := by
  subst hcell
  by_cases hdiv : r / 2 = q / 2
  · unfold target
    rw [hdiv, Function.update_self]
    unfold Inst.setSlot
    by_cases hq : q % 2 = 1
    · by_cases hr : r % 2 = 1
      · have : r = q := by omega
        simp [hq, this, Inst.out1_setOut1 hp]
      · have : r ≠ q := by omega
        simp [hq, hr, this, Inst.setOut1, Inst.out]
    · by_cases hr : r % 2 = 1
      · have : r ≠ q := by omega
        simp [hq, hr, this, Inst.setOut, Inst.out1]
      · have : r = q := by omega
        simp [hq, this, Inst.out_setOut hp]
  · have : r ≠ q := by
      rintro rfl
      exact hdiv rfl
    unfold target
    rw [Function.update_of_ne hdiv, if_neg this]

/-! ## Lists -/

/-- The entries of the patch list that starts with `q`. -/
def Entries (cell : Nat → Inst) : Nat → List Nat → Prop
  | q, [] => q = 0
  | q, h :: hs => q = h ∧ Entries cell (target cell h) hs

theorem Entries.congr {cell cell' : Nat → Inst} {q : Nat} {hs : List Nat} (h : Entries cell q hs)
    (htarget : ∀ r ∈ hs, target cell' r = target cell r) : Entries cell' q hs := by
  induction hs generalizing q with
  | nil => exact h
  | cons r hs ih =>
    refine ⟨h.1, ?_⟩
    rw [htarget r List.mem_cons_self]
    exact ih h.2 fun r' hr' => htarget r' (List.mem_cons_of_mem _ hr')

/-- `hs` are slots of instructions in use. -/
def Slots (s : RangeCompiler) (hs : List Nat) : Prop :=
  ∀ h ∈ hs, 0 < h ∧ h / 2 < s.ninst ∧ (h % 2 = 1 → (s.cell (h / 2)).opcode = Inst.opAlt)

/-- `s'` is `s` up to the targets of the slots `hs`. -/
structure Rewired (hs : List Nat) (s s' : RangeCompiler) : Prop where
  inv : Inv s'.toCompiler
  failed : s'.failed = s.failed
  ninst : s'.ninst = s.ninst
  reversed : s'.reversed = s.reversed
  range : s'.runeRange = s.runeRange
  cell : ∀ x, (∀ h ∈ hs, h / 2 ≠ x) → s'.cell x = s.cell x
  next : ∀ x text p, (s'.cell x).next text x p = (s.cell x).next text x p
  opcode : ∀ x, (s'.cell x).opcode = (s.cell x).opcode
  target : ∀ h, h ∉ hs → target s'.cell h = target s.cell h

section

variable {s s' s'' : RangeCompiler} {hs hs' : List Nat} {p q h : Nat}

theorem Rewired.refl (hinv : Inv s.toCompiler) : Rewired hs s s :=
  ⟨hinv, rfl, rfl, rfl, rfl, fun _ _ => rfl, fun _ _ _ => rfl, fun _ => rfl, fun _ _ => rfl⟩

theorem Rewired.trans (h : Rewired hs s s') (h' : Rewired hs' s' s'') :
    Rewired (hs ++ hs') s s'' where
  inv := h'.inv
  failed := h'.failed.trans h.failed
  ninst := h'.ninst.trans h.ninst
  reversed := h'.reversed.trans h.reversed
  range := h'.range.trans h.range
  cell x hx := (h'.cell x fun r hr => hx r (List.mem_append_right _ hr)).trans
    (h.cell x fun r hr => hx r (List.mem_append_left _ hr))
  next x text p := (h'.next x text p).trans (h.next x text p)
  opcode x := (h'.opcode x).trans (h.opcode x)
  target r hr := (h'.target r fun hmem => hr (List.mem_append_right _ hmem)).trans
    (h.target r fun hmem => hr (List.mem_append_left _ hmem))

theorem Slots.rewired (h : Slots s hs) (h' : Rewired hs' s s') : Slots s' hs := by
  intro r hr
  rw [h'.ninst, h'.opcode]
  exact h r hr

/-- One slot is set. -/
theorem rewired_modify (hinv : Inv s.toCompiler) (hp : p < 2 ^ 28) (hslots : Slots s [h]) :
    Rewired [h] s (s.modify (h / 2) (·.setSlot h p)) ∧
      target (s.modify (h / 2) (·.setSlot h p)).cell h = p := by
  obtain ⟨-, hlt, hodd⟩ := hslots h List.mem_cons_self
  have hcell := @RangeCompiler.cell_modify s (h / 2) (·.setSlot h p)
    (Nat.lt_of_lt_of_le hlt hinv.used)
  have htarget := fun r => @target_setSlot s.cell _ h p r hp hcell
  refine ⟨⟨hinv.modify hlt, rfl, rfl, rfl, rfl, ?_, ?_, ?_, ?_⟩, ?_⟩
  · intro x hx
    rw [hcell, Function.update_of_ne (Ne.symm (hx h List.mem_cons_self))]
  · intro x text p'
    by_cases hx : x = h / 2
    · subst hx
      rw [hcell, Function.update_self, Inst.next_setSlot hp hodd]
    · rw [hcell, Function.update_of_ne hx]
  · intro x
    by_cases hx : x = h / 2
    · subst hx
      rw [hcell, Function.update_self, Inst.opcode_setSlot hp]
    · rw [hcell, Function.update_of_ne hx]
  · intro r hr
    rw [htarget, if_neg (by simpa using hr)]
  · rw [htarget, if_pos rfl]

/-- `PatchList::Patch` sets the entries of the list to `p`. -/
theorem patch_silent {fuel : Nat} (hinv : Inv s.toCompiler) (hp : p < 2 ^ 28) (hnd : hs.Nodup)
    (hslots : Slots s hs) (hq : Entries s.cell q hs) (hfuel : hs.length < fuel) :
    ∃ s', Silent (patch p fuel q) s ⟨⟩ s' ∧ Rewired hs s s' ∧
      ∀ h ∈ hs, target s'.cell h = p := by
  induction hs generalizing s q fuel with
  | nil =>
    obtain ⟨fuel, rfl⟩ : ∃ n, fuel = n + 1 := ⟨fuel - 1, by simp at hfuel; omega⟩
    obtain rfl : q = 0 := hq
    refine ⟨s, ?_, .refl hinv, by simp⟩
    unfold patch
    rw [if_neg (by simp)]
    exact .pure
  | cons h hs ih =>
    obtain ⟨fuel, rfl⟩ : ∃ n, fuel = n + 1 := ⟨fuel - 1, by simp at hfuel; omega⟩
    obtain ⟨rfl, hrest⟩ := hq
    obtain ⟨hmem, hnd⟩ := List.nodup_cons.1 hnd
    have hone : Slots s [q] := fun r hr => hslots r (by simp_all)
    obtain ⟨hset, hval⟩ := rewired_modify hinv hp hone
    have hslots' : Slots s hs := fun r hr => hslots r (List.mem_cons_of_mem _ hr)
    have hrest' := hrest.congr fun r hr => hset.target r (by rintro hrq; simp_all)
    obtain ⟨s', hrun, hrew, hall⟩ := ih hset.inv hnd (hslots'.rewired hset) hrest'
      (by simpa using hfuel)
    refine ⟨s', ?_, hset.trans hrew, ?_⟩
    · have hpos := (hone q List.mem_cons_self).1
      unfold patch
      rw [if_pos (Nat.ne_of_gt hpos)]
      apply Silent.load.bind
      unfold Inst.setSlot at hrun
      unfold target at hrun
      by_cases hodd : q % 2 = 1
      · rw [if_pos hodd]
        simp only [if_pos hodd] at hrun
        exact Silent.update.bind hrun
      · rw [if_neg hodd]
        simp only [if_neg hodd] at hrun
        exact Silent.update.bind hrun
    · intro r hr
      rcases List.mem_cons.1 hr with rfl | hr
      · rw [hrew.target r hmem, hval]
      · exact hall r hr

/-- Distinct slots of instructions in use are few. -/
theorem Slots.length_le (h : Slots s hs) (hnd : hs.Nodup) : hs.length ≤ 2 * s.ninst := by
  have hsub : hs ⊆ List.range (2 * s.ninst) := fun r hr => by
    have := (h r hr).2.1
    rw [List.mem_range]
    omega
  simpa using (List.subperm_of_subset hnd hsub).length_le

theorem patchList_silent {l : PatchList} (hinv : Inv s.toCompiler) (hp : p < 2 ^ 28)
    (hnd : hs.Nodup) (hslots : Slots s hs) (hq : Entries s.cell l.head hs) :
    ∃ s', Silent (patchList l p) s ⟨⟩ s' ∧ Rewired hs s s' ∧ ∀ h ∈ hs, target s'.cell h = p := by
  have hfuel : hs.length < 2 * s.ninst + 1 := Nat.lt_succ_of_le (hslots.length_le hnd)
  obtain ⟨s', hrun, hrest⟩ := patch_silent hinv hp hnd hslots hq hfuel
  exact ⟨s', Silent.read.bind hrun, hrest⟩

/-- A list that is extended at its last entry. -/
theorem Entries.append {cell cell' : Nat → Inst} {last : Nat} (h : Entries cell q (hs ++ [last]))
    (hnd : (hs ++ [last]).Nodup) (h' : Entries cell' p hs')
    (htarget : ∀ r, r ≠ last → target cell' r = target cell r) (hlast : target cell' last = p) :
    Entries cell' q (hs ++ [last] ++ hs') := by
  induction hs generalizing q with
  | nil =>
    refine ⟨h.1, ?_⟩
    rw [hlast]
    exact h'
  | cons r hs ih =>
    obtain ⟨hmem, hnd⟩ := List.nodup_cons.1 hnd
    refine ⟨h.1, ?_⟩
    rw [htarget r fun hr => hmem (by simp [hr])]
    exact ih h.2 hnd

/-- `PatchList::Append` concatenates the lists. -/
theorem append_silent {l l' : PatchList} (hinv : Inv s.toCompiler) (hnd : hs.Nodup)
    (hslots : Slots s hs) (hslots' : Slots s hs') (hdisj : hs.Disjoint hs')
    (hq : Entries s.cell l.head hs) (hq' : Entries s.cell l'.head hs')
    (htail : ∀ h ∈ hs.getLast?, l.tail = h) (htail' : ∀ h ∈ hs'.getLast?, l'.tail = h) :
    ∃ l'' s', Silent (Re2.append l l') s l'' s' ∧ Rewired hs s s' ∧
      Entries s'.cell l''.head (hs ++ hs') ∧ ∀ h ∈ (hs ++ hs').getLast?, l''.tail = h := by
  unfold Re2.append
  rcases List.eq_nil_or_concat' hs with rfl | ⟨hs, last, rfl⟩
  · have hnull : l.head = 0 := hq
    rw [if_pos hnull]
    exact ⟨l', s, .pure, .refl hinv, hq', htail'⟩
  · have hmem : last ∈ hs ++ [last] := by simp
    have hpos : l.head ≠ 0 := by
      obtain ⟨r, hr⟩ : ∃ r, (hs ++ [last]).head? = some r := by
        cases hs <;> simp
      obtain ⟨hs₁, hcons⟩ := List.head?_eq_some_iff.1 hr
      rw [hcons] at hq hslots
      rw [hq.1]
      exact Nat.ne_of_gt (hslots r List.mem_cons_self).1
    rw [if_neg hpos]
    cases hs' with
    | nil =>
      have hnull' : l'.head = 0 := hq'
      rw [if_pos hnull', List.append_nil]
      exact ⟨l, s, .pure, .refl hinv, hq, htail⟩
    | cons h' hs' =>
      have hpos' : l'.head ≠ 0 := by
        rw [hq'.1]
        exact Nat.ne_of_gt (hslots' h' List.mem_cons_self).1
      have hlt : l'.head < 2 ^ 28 := by
        have := (hslots' h' List.mem_cons_self).2.1
        have := hinv.ninst_le
        rw [hq'.1]
        omega
      have hone : Slots s [last] := fun r hr => hslots r (by simp_all)
      obtain ⟨hset, hval⟩ := rewired_modify hinv hlt hone
      have hnot : last ∉ h' :: hs' := fun hl => hdisj hmem hl
      rw [if_neg hpos', htail last (by simp)]
      refine ⟨⟨l.head, l'.tail⟩, s.modify (last / 2) (·.setSlot last l'.head), ?_, ?_, ?_, ?_⟩
      · unfold Inst.setSlot
        by_cases hodd : last % 2 = 1
        · simp only [if_pos hodd]
          exact Silent.update.bind .pure
        · simp only [if_neg hodd]
          exact Silent.update.bind .pure
      · exact { hset with
          cell := fun x hx => hset.cell x fun r hr => hx r (by simp_all)
          target := fun r hr => hset.target r (by simp_all) }
      · apply hq.append hnd _ (fun r hr => hset.target r (by simpa using hr)) hval
        exact hq'.congr fun r hr => hset.target r (by rintro hrl; simp_all)
      · intro r hr
        rw [List.getLast?_append_cons] at hr
        exact htail' r hr

end

end FourFuzzers.Re2
