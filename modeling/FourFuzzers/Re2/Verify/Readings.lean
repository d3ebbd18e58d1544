import FourFuzzers.Re2.Verify.AddSuffix

/-!
# What a trie reads

The words that are read on the way from an instruction of a trie to one of its exits. By the
invariant these are words of the trie; that each of them is read is what every change has to keep.
A change `Refines` a trie if the instructions with a role read what they did, and those of older
fragments stay as they are.
-/

namespace FourFuzzers.Re2

open FourFuzzers.Lib FourFuzzers.Lib.Traced FourFuzzers.Lib.Stateful

/-- From instruction `x` the byte range `b` is reached through alternatives. -/
inductive Heads (cell : Nat → Inst) : Nat → Nat → Prop
  | self {x : Nat} : (cell x).opcode = Inst.opByteRange → Heads cell x x
  | out {x b : Nat} : (cell x).opcode = Inst.opAlt → Heads cell (cell x).out b → Heads cell x b
  | out1 {x b : Nat} : (cell x).opcode = Inst.opAlt → Heads cell (cell x).out1 b → Heads cell x b

/-- On the way from instruction `x` through one of the exits `ends`, the word `w` is read. -/
inductive Reads (cell : Nat → Inst) (ends : List Nat) : Nat → Word → Prop
  | last {x b : Nat} : Heads cell x b → b ∈ ends → Reads cell ends x [(cell b).sym]
  | step {x b : Nat} {v : Word} : Heads cell x b → b ∉ ends → Reads cell ends (cell b).out v →
      Reads cell ends x ((cell b).sym :: v)

section

variable {cell cell' : Nat → Inst} {ends ends' : List Nat} {x y b : Nat} {v w : Word}

namespace Heads

theorem opcode (h : Heads cell x b) : (cell b).opcode = Inst.opByteRange := by
  induction h with
  | self hop => exact hop
  | out _ _ ih => exact ih
  | out1 _ _ ih => exact ih

theorem eq_self (h : Heads cell x b) (hop : (cell x).opcode = Inst.opByteRange) : b = x := by
  cases h with
  | self => rfl
  | out halt => exact absurd (halt.symm.trans hop) (by decide)
  | out1 halt => exact absurd (halt.symm.trans hop) (by decide)

end Heads

namespace Reads

theorem ne_nil (h : Reads cell ends x w) : w ≠ [] := by
  cases h <;> exact List.cons_ne_nil _ _

/-- What reaches more byte ranges reads more. -/
theorem heads (h : Reads cell ends x w) (hsub : ∀ b, Heads cell x b → Heads cell y b) :
    Reads cell ends y w := by
  cases h with
  | last hb hend => exact .last (hsub _ hb) hend
  | step hb hend hv => exact .step (hsub _ hb) hend hv

theorem out (hop : (cell x).opcode = Inst.opAlt) (h : Reads cell ends (cell x).out w) :
    Reads cell ends x w :=
  h.heads fun _ => .out hop

theorem out1 (hop : (cell x).opcode = Inst.opAlt) (h : Reads cell ends (cell x).out1 w) :
    Reads cell ends x w :=
  h.heads fun _ => .out1 hop

/-- Instructions that simulate others read what these do. -/
theorem sim {R : Nat → Nat → Prop} (hR : ∀ {x y b}, R x y → Heads cell x b → ∃ c, Heads cell' y c ∧
      (cell' c).sym = (cell b).sym ∧ (c ∈ ends' ↔ b ∈ ends) ∧
      (b ∉ ends → R (cell b).out (cell' c).out))
    (hxy : R x y) (h : Reads cell ends x w) : Reads cell' ends' y w := by
  induction h generalizing y with
  | last hb hend =>
    obtain ⟨c, hc, hsym, hends, -⟩ := hR hxy hb
    rw [← hsym]
    exact .last hc (hends.2 hend)
  | step hb hend _ ih =>
    obtain ⟨c, hc, hsym, hends, hout⟩ := hR hxy hb
    rw [← hsym]
    exact .step hc (fun hmem => hend (hends.1 hmem)) (ih (hout hend))

end Reads

end

/-! ## The words of the trie -/

/-- Every instruction with a role is at `base` or behind it. -/
def Ghost.Above (G : Ghost) (base : Nat) : Prop := ∀ {x r}, G.role x = some r → base ≤ x

namespace Fits

variable {P : Plan} {G : Ghost} {B : Nat} {s : RangeCompiler} {p v w : Word} {x b : Nat} {r : Role}

/-- The byte ranges behind a place are at this place. -/
theorem heads_branch (h : Fits P G B s) (hx : G.Child p x) (hb : Heads s.cell x b) :
    G.Branch p b := by
  induction hb with
  | self hop =>
    rcases hx with hx | hx
    · exact absurd ((h.role hx).1.symm.trans hop) (by decide)
    · exact hx
  | out hop _ ih =>
    rcases hx with hx | hx
    · exact ih ((h.role hx).2.2.elim .inr fun hout => .inl hout.1)
    · exact absurd (hop.symm.trans (h.opcode_branch hx)) (by decide)
  | out1 hop _ ih =>
    rcases hx with hx | hx
    · exact ih (.inr (h.role hx).2.1)
    · exact absurd (hop.symm.trans (h.opcode_branch hx)) (by decide)

/-- An instruction with a role is at a place, or starts a shared suffix. -/
theorem heads_role (h : Fits P G B s) (hx : G.role x = some r) (hb : Heads s.cell x b) :
    ∃ r', G.role b = some r' := by
  cases r with
  | alt p => exact Ghost.Child.role (.inr (h.heads_branch (.inl hx) hb))
  | step p a => exact Ghost.Child.role (.inr (h.heads_branch (.inr (.inl ⟨a, hx⟩)) hb))
  | shared v =>
    rw [hb.eq_self (h.role hx).1]
    exact ⟨_, hx⟩

/-- Behind a byte range that is no exit there is an instruction with a role. -/
theorem out_role (h : Fits P G B s) (hb : G.role b = some r)
    (hop : (s.cell b).opcode = Inst.opByteRange) (hend : b ∉ G.ends) :
    ∃ r', G.role (s.cell b).out = some r' := by
  have hfits := h.role hb
  cases r with
  | alt p => exact absurd (hfits.1.symm.trans hop) (by decide)
  | step p a => exact hfits.2.2.1.role
  | shared w =>
    obtain ⟨-, v, rfl, hv⟩ := hfits
    have hne : v ≠ [] := by
      rintro rfl
      exact hend (h.mem_ends.2 ⟨_, hb⟩)
    exact ⟨_, (hv hne).1⟩

/-- A shared suffix has one word. -/
theorem shared_reads (h : Fits P G B s) (hx : G.role x = some (.shared v)) :
    Reads s.cell G.ends x w ↔ w = v := by
  induction v generalizing x w with
  | nil =>
    obtain ⟨-, _, heq, -⟩ := h.role hx
    cases heq
  | cons a v ih =>
    obtain ⟨hop, v', heq, hnext⟩ := h.role hx
    obtain ⟨rfl, rfl⟩ := List.cons.inj heq
    constructor
    · intro hw
      cases hw with
      | last hb hend =>
        obtain rfl := hb.eq_self hop
        obtain ⟨c, hc⟩ := h.mem_ends.1 hend
        rw [hx] at hc
        cases hc
        rfl
      | step hb hend hv =>
        obtain rfl := hb.eq_self hop
        have hne : v ≠ [] := by
          rintro rfl
          exact hend (h.mem_ends.2 ⟨_, hx⟩)
        rw [(ih (hnext hne).1).1 hv]
    · rintro rfl
      by_cases hv : v = []
      · subst hv
        exact .last (.self hop) (h.mem_ends.2 ⟨_, hx⟩)
      · refine .step (.self hop) (fun hend => ?_) ((ih (hnext hv).1).2 rfl)
        obtain ⟨c, hc⟩ := h.mem_ends.1 hend
        rw [hx] at hc
        cases hc
        exact hv rfl

/-- Only words of the trie are read. -/
theorem sound (h : Fits P G B s) (hx : G.Child p x) (hw : Reads s.cell G.ends x w) :
    p ++ w ∈ G.words := by
  induction hw generalizing p with
  | @last x b hb hend =>
    rcases h.heads_branch hx hb with ⟨a, hr⟩ | ⟨v, hr, hv⟩
    · obtain ⟨c, hc⟩ := h.mem_ends.1 hend
      rw [hr] at hc
      cases hc
    · rwa [(h.shared_reads hr).1 (.last (.self hb.opcode) hend)]
  | @step x b v hb hend hv ih =>
    rcases h.heads_branch hx hb with ⟨a, hr⟩ | ⟨v', hr, hv'⟩
    · obtain ⟨-, rfl, hchild, -⟩ := h.role hr
      have hmem := ih hchild
      rwa [List.append_assoc] at hmem
    · rwa [(h.shared_reads hr).1 (.step (.self hb.opcode) hend hv)]

/-- Behind an alternative there are instructions with roles. -/
theorem alt_role (h : Fits P G B s) (hx : G.role x = some r) (hop : (s.cell x).opcode = Inst.opAlt) :
    (∃ r', G.role (s.cell x).out = some r') ∧ ∃ r', G.role (s.cell x).out1 = some r' := by
  have hfits := h.role hx
  cases r with
  | alt p =>
    refine ⟨?_, Ghost.Child.role (.inr hfits.2.1)⟩
    rcases hfits.2.2 with hout | ⟨hout, -⟩
    · exact Ghost.Child.role (.inr hout)
    · exact ⟨_, hout⟩
  | step p a => exact absurd (hop.symm.trans hfits.1) (by decide)
  | shared v => exact absurd (hop.symm.trans hfits.1) (by decide)

/-- An alternative is no exit. -/
theorem alt_not_mem (h : Fits P G B s) (hop : (s.cell x).opcode = Inst.opAlt) : x ∉ G.ends := by
  intro hend
  obtain ⟨a, ha⟩ := h.mem_ends.1 hend
  exact absurd (hop.symm.trans (h.role ha).1) (by decide)

/-- What is read depends on the instructions with roles only, and not on the links between exits. -/
theorem reads_congr (h : Fits P G B s) {cell' : Nat → Inst} {ends' : List Nat}
    (hcell : ∀ {y r}, G.role y = some r → y ∉ G.ends → cell' y = s.cell y)
    (hexit : ∀ y ∈ G.ends, (cell' y).opcode = (s.cell y).opcode ∧ (cell' y).sym = (s.cell y).sym)
    (hends : ∀ {y r}, G.role y = some r → (y ∈ ends' ↔ y ∈ G.ends)) (hx : G.role x = some r)
    (hw : Reads s.cell G.ends x w) : Reads cell' ends' x w := by
  have hheads : ∀ {x r b}, G.role x = some r → Heads s.cell x b → Heads cell' x b := by
    intro x r b hx hb
    induction hb generalizing r with
    | @self y hop =>
      apply Heads.self
      by_cases hy : y ∈ G.ends
      · rw [(hexit y hy).1, hop]
      · rw [hcell hx hy, hop]
    | @out y b hop _ ih =>
      obtain ⟨r', hr'⟩ := (h.alt_role hx hop).1
      have hsame := hcell hx (h.alt_not_mem hop)
      rw [← hsame] at hop hr' ih
      exact .out hop (ih hr')
    | @out1 y b hop _ ih =>
      obtain ⟨r', hr'⟩ := (h.alt_role hx hop).2
      have hsame := hcell hx (h.alt_not_mem hop)
      rw [← hsame] at hop hr' ih
      exact .out1 hop (ih hr')
  refine Reads.sim (R := fun x y => x = y ∧ ∃ r, G.role x = some r) ?_ ⟨rfl, r, hx⟩ hw
  rintro x _ b ⟨rfl, r, hx⟩ hb
  obtain ⟨r', hr'⟩ := h.heads_role hx hb
  refine ⟨b, hheads hx hb, ?_, hends hr', fun hend => ?_⟩
  · by_cases hb' : b ∈ G.ends
    · exact (hexit b hb').2
    · rw [hcell hr' hb']
  · rw [hcell hr' hend]
    exact ⟨rfl, h.out_role hr' hb.opcode hend⟩

end Fits

/-! ## Changes -/

/-- What `G` knows is kept, new roles are at `P.base` or behind it, older instructions stay the
same, and each instruction with a role reads what it did. -/
structure Refines (P : Plan) (G G' : Ghost) (s s' : RangeCompiler) : Prop extends G.Extends G' where
  above : G.Above P.base → G'.Above P.base
  below : G.Above P.base → ∀ x, x < P.base → s'.cell x = s.cell x
  reads : ∀ {x r w}, G.role x = some r → Reads s.cell G.ends x w → Reads s'.cell G'.ends x w

namespace Refines

variable {P : Plan} {G G' G'' : Ghost} {B B' : Nat} {s s' s'' : RangeCompiler} {w : Word} {x : Nat}

theorem refl : Refines P G G s s := ⟨.refl, fun h => h, fun _ _ _ => rfl, fun _ h => h⟩

theorem trans (h : Refines P G G' s s') (h' : Refines P G' G'' s' s'') : Refines P G G'' s s'' where
  toExtends := h.toExtends.trans h'.toExtends
  above hG := h'.above (h.above hG)
  below hG x hx := (h'.below (h.above hG) x hx).trans (h.below hG x hx)
  reads hx hw := h'.reads (h.role hx) (h.reads hx hw)

/-- Only the links between exits change, apart from instructions that have no role yet. -/
theorem of_cells (hG : G.Extends G') (hfits : Fits P G B s) (hfits' : Fits P G' B' s')
    (habove : G.Above P.base → G'.Above P.base)
    (hbelow : ∀ x, x < P.base → x ∉ G.ends → s'.cell x = s.cell x)
    (hcell : ∀ {x r}, G.role x = some r → x ∉ G.ends → s'.cell x = s.cell x)
    (hexit : ∀ x ∈ G.ends, (s'.cell x).opcode = (s.cell x).opcode ∧
      (s'.cell x).sym = (s.cell x).sym) : Refines P G G' s s' where
  toExtends := hG
  above := habove
  below habove x hx := by
    apply hbelow x hx
    intro hend
    obtain ⟨a, ha⟩ := hfits.mem_ends.1 hend
    exact absurd (habove ha) (Nat.not_le.2 hx)
  reads hx hw := by
    refine hfits.reads_congr hcell hexit ?_ hx hw
    intro y r hy
    rw [hfits'.mem_ends, hfits.mem_ends, hG.role hy, hy]

end Refines

end FourFuzzers.Re2
