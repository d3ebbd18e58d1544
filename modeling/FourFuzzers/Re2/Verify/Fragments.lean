import FourFuzzers.Re2.Verify.Wired

/-!
# Fragments from fragments

What the constructions of the compiler do to languages, as facts about the instructions: one new
instruction, the holes of a fragment connected to another one or to a choice, and two fragments
under an alternative.
-/

namespace FourFuzzers.Re2

open FourFuzzers.Lib FourFuzzers.Lib.Traced FourFuzzers.Lib.Stateful

/-! ## Languages -/

/-- No match is signalled. -/
def Lang.Plain (L : Lang) : Prop := ∀ text p id p', ¬ L text p (some id) p'

namespace Lang

theorem ext {A B : Lang} (h : ∀ text p e p', A text p e p' ↔ B text p e p') : A = B := by
  funext text p e p'
  exact propext (h text p e p')

theorem empty_seq (A : Lang) : empty.seq A = A := by
  apply ext
  intro text p e p'
  constructor
  · rintro (⟨he, rfl, -⟩ | ⟨p₁, ⟨-, rfl⟩, hA⟩)
    · exact absurd rfl he
    · exact hA
  · exact fun hA => .inr ⟨p, ⟨rfl, rfl⟩, hA⟩

theorem seq_empty (A : Lang) : A.seq empty = A := by
  apply ext
  intro text p e p'
  constructor
  · rintro (⟨-, hA⟩ | ⟨p₁, hA, rfl, rfl⟩)
    · exact hA
    · exact hA
  · intro hA
    by_cases he : e = .none
    · subst he
      exact .inr ⟨p', hA, rfl, rfl⟩
    · exact .inl ⟨he, hA⟩

theorem none_seq (A : Lang) : none.seq A = none := by
  apply ext
  intro text p e p'
  constructor
  · rintro (⟨-, h⟩ | ⟨_, h, -⟩)
    · exact h
    · exact h
  · exact False.elim

theorem seq_none {A : Lang} (h : A.Plain) : A.seq none = none := by
  apply ext
  intro text p e p'
  constructor
  · rintro (⟨he, hA⟩ | ⟨_, -, hnone⟩)
    · cases e with
      | none => exact he rfl
      | some id => exact h text p id p' hA
    · exact hnone
  · exact False.elim

theorem alt_none (A : Lang) : A.alt none = A := by
  apply ext
  intro text p e p'
  exact ⟨fun h => h.resolve_right id, .inl⟩

theorem none_alt (A : Lang) : none.alt A = A := by
  apply ext
  intro text p e p'
  exact ⟨fun h => h.resolve_left id, .inr⟩

/-- (a+)? is a*. -/
theorem quest_plus (A : Lang) : A.plus.quest = A.star := by
  apply ext
  intro text p e p'
  constructor
  · rintro (⟨rfl, rfl⟩ | ⟨he, hA⟩ | ⟨p₁, hA, p₂, hstar, hend⟩)
    · exact ⟨_, .refl, .inl ⟨rfl, rfl⟩⟩
    · exact ⟨p, .refl, .inr ⟨he, hA⟩⟩
    · exact ⟨p₂, .head hA hstar, hend⟩
  · rintro ⟨p₂, hstar, hend⟩
    rcases Relation.ReflTransGen.cases_head hstar with rfl | ⟨p₁, hA, hstar⟩
    · rcases hend with ⟨rfl, rfl⟩ | ⟨he, hA⟩
      · exact .inl ⟨rfl, rfl⟩
      · exact .inr (.inl ⟨he, hA⟩)
    · exact .inr (.inr ⟨p₁, hA, p₂, hstar, hend⟩)

end Lang

/-! ## Runs from one instruction -/

section

variable {cell cell' : Nat → Inst} {own own' : Set Nat} {holes holes' : List Nat}
  {a b : Frag} {A B L : Lang} {x y l : Nat}

/-- The fail instruction matches nothing. -/
theorem denotes_fail (h : (cell 0).opcode = Inst.opFail) : Denotes cell holes 0 .none := by
  intro text p e p'
  refine iff_of_false (Network.not_exits fun port p₁ hact => ?_) id
  have hnil : (cell 0).next text 0 p = [] := by
    simp [Inst.next, h, Inst.opFail, Inst.opAlt, Inst.opAltMatch, Inst.opByteRange, Inst.opCapture,
      Inst.opNop, Inst.opEmptyWidth, Inst.opMatch]
  change _ ∈ (cell 0).next text 0 p at hact
  rw [hnil] at hact
  cases hact

theorem Denotes.unique (h : Denotes cell holes x A) (h' : Denotes cell holes x B) : A = B :=
  Lang.ext fun text p e p' => (h text p e p').symm.trans (h' text p e p')

/-- An instruction whose only slot is a hole. -/
theorem denotes_leaf (hnext : ∀ text p port p', (port, p') ∈ (cell x).next text x p ↔
      port = .slot (x * 2) ∧ L text p none p')
    (hL : L.Plain) (hhole : x * 2 ∈ holes) : Denotes cell holes x L := by
  intro text p e p'
  rw [Network.exits_iff]
  constructor
  · rintro ⟨port, p₁, hact, ⟨hwire, rfl⟩ | ⟨y, hwire, -⟩⟩
    · obtain ⟨rfl, hmatch⟩ := (hnext text p port p₁).1 hact
      rw [wire_hole hhole] at hwire
      cases hwire
      exact hmatch
    · obtain ⟨rfl, -⟩ := (hnext text p port p₁).1 hact
      rw [wire_hole hhole] at hwire
      cases hwire
  · intro hmatch
    cases e with
    | some id => exact absurd hmatch (hL text p id p')
    | none => exact ⟨_, p', (hnext text p _ p').2 ⟨rfl, hmatch⟩, .inl ⟨wire_hole hhole, rfl⟩⟩

/-- An instruction that does nothing and leads to `y`. -/
theorem denotes_pass (hnext : ∀ text p, (cell x).next text x p = [(.slot (x * 2), p)])
    (hhole : x * 2 ∉ holes) (htarget : target cell (x * 2) = y) (hy : Denotes cell holes y L) :
    Denotes cell holes x L := by
  intro text p e p'
  rw [← hy text p e p', Network.exits_iff]
  have hwire : (net cell holes text).wire (.slot (x * 2)) = .inl y := by
    rw [wire_slot hhole, htarget]
  constructor
  · rintro ⟨port, p₁, hact, hway⟩
    change _ ∈ (cell x).next text x p at hact
    rw [hnext] at hact
    obtain ⟨rfl, rfl⟩ := Prod.mk.inj (List.mem_singleton.1 hact)
    rcases hway with ⟨hexit, -⟩ | ⟨z, hz, hrun⟩
    · rw [hwire] at hexit
      cases hexit
    · rw [hwire] at hz
      cases hz
      exact hrun
  · intro hrun
    refine ⟨.slot (x * 2), p, ?_, .inr ⟨y, hwire, hrun⟩⟩
    change _ ∈ (cell x).next text x p
    rw [hnext]
    exact List.mem_singleton_self _

theorem mem_next_alt {text : List Nat} {p : Nat} {port : Port} {p' : Nat}
    (hop : (cell x).opcode = Inst.opAlt) :
    (port, p') ∈ (cell x).next text x p ↔
      p' = p ∧ (port = .slot (x * 2) ∨ port = .slot (x * 2 + 1)) := by
  simp only [Inst.next, hop, true_or, if_true, List.mem_cons, Prod.mk.injEq, List.not_mem_nil,
    or_false]
  tauto

/-- Runs from an alternative. -/
theorem exits_alt {text : List Nat} {p p' : Nat} {e : Option Nat}
    (hop : (cell x).opcode = Inst.opAlt) :
    (net cell holes text).Exits x p e p' ↔ ∃ h, (h = x * 2 ∨ h = x * 2 + 1) ∧
      ((h ∈ holes ∧ e = none ∧ p' = p) ∨
        h ∉ holes ∧ (net cell holes text).Exits (target cell h) p e p') := by
  rw [Network.exits_iff]
  constructor
  · rintro ⟨port, p₁, hact, hway⟩
    obtain ⟨rfl, hport⟩ := (mem_next_alt hop).1 hact
    obtain ⟨h, rfl, hh⟩ : ∃ h, port = .slot h ∧ (h = x * 2 ∨ h = x * 2 + 1) := by
      rcases hport with rfl | rfl
      · exact ⟨_, rfl, .inl rfl⟩
      · exact ⟨_, rfl, .inr rfl⟩
    refine ⟨h, hh, ?_⟩
    by_cases hmem : h ∈ holes
    · rw [wire_hole hmem] at hway
      simp only [Sum.inr.injEq, reduceCtorEq, false_and, exists_false, or_false] at hway
      exact .inl ⟨hmem, hway.1.symm, hway.2.symm⟩
    · rw [wire_slot hmem] at hway
      simp only [reduceCtorEq, Sum.inl.injEq, false_and, false_or, exists_eq_left'] at hway
      exact .inr ⟨hmem, hway⟩
  · rintro ⟨h, hh, hway⟩
    refine ⟨.slot h, p, (mem_next_alt hop).2 ⟨rfl, by simpa using hh⟩, ?_⟩
    rcases hway with ⟨hmem, rfl, rfl⟩ | ⟨hmem, hrun⟩
    · exact .inl ⟨wire_hole hmem, rfl⟩
    · exact .inr ⟨_, wire_slot hmem, hrun⟩

theorem denotes_alt (hop : (cell x).opcode = Inst.opAlt) (hl : x * 2 ∉ holes)
    (hr : x * 2 + 1 ∉ holes) (hA : Denotes cell holes (target cell (x * 2)) A)
    (hB : Denotes cell holes (target cell (x * 2 + 1)) B) : Denotes cell holes x (A.alt B) := by
  intro text p e p'
  rw [exits_alt hop]
  constructor
  · rintro ⟨h, rfl | rfl, ⟨hmem, -⟩ | ⟨-, hrun⟩⟩
    · exact absurd hmem hl
    · exact .inl ((hA text p e p').1 hrun)
    · exact absurd hmem hr
    · exact .inr ((hB text p e p').1 hrun)
  · rintro (hmatch | hmatch)
    · exact ⟨_, .inl rfl, .inr ⟨hl, (hA text p e p').2 hmatch⟩⟩
    · exact ⟨_, .inr rfl, .inr ⟨hr, (hB text p e p').2 hmatch⟩⟩

/-- Instruction `l` is an alternative with the hole `hole`, and otherwise leads to `x`. -/
structure Choice (cell : Nat → Inst) (l hole x : Nat) : Prop where
  opcode : (cell l).opcode = Inst.opAlt
  slot : hole = l * 2 ∨ hole = l * 2 + 1
  other : ∀ h, h = l * 2 ∨ h = l * 2 + 1 → h ≠ hole → target cell h = x

namespace Choice

variable {hole : Nat}

theorem exists_other (h : Choice cell l hole x) :
    ∃ r, (r = l * 2 ∨ r = l * 2 + 1) ∧ r ≠ hole ∧ target cell r = x := by
  rcases h.slot with rfl | rfl
  · exact ⟨_, .inr rfl, by omega, h.other _ (.inr rfl) (by omega)⟩
  · exact ⟨_, .inl rfl, by omega, h.other _ (.inl rfl) (by omega)⟩

/-- Only the hole itself is among the holes. -/
theorem not_mem (hl : ∀ r ∈ holes, r / 2 = l → r = hole) {r : Nat}
    (hr : r = l * 2 ∨ r = l * 2 + 1) (hne : r ≠ hole) : r ∉ holes := fun hmem =>
  hne (hl r hmem (by omega))

theorem denotes_quest (h : Choice cell l hole x) (hl : ∀ r ∈ holes, r / 2 = l → r = hole)
    (hmem : hole ∈ holes) (hA : Denotes cell holes x A) : Denotes cell holes l A.quest := by
  intro text p e p'
  rw [exits_alt h.opcode]
  constructor
  · rintro ⟨r, hr, ⟨-, rfl, rfl⟩ | ⟨hr', hrun⟩⟩
    · exact .inl ⟨rfl, rfl⟩
    · rw [h.other r hr (by rintro rfl; exact hr' hmem)] at hrun
      exact .inr ((hA text p e p').1 hrun)
  · rintro (⟨rfl, rfl⟩ | hmatch)
    · exact ⟨hole, h.slot, .inl ⟨hmem, rfl, rfl⟩⟩
    · obtain ⟨r, hr, hne, htarget⟩ := h.exists_other
      refine ⟨r, hr, .inr ⟨not_mem hl hr hne, ?_⟩⟩
      rw [htarget]
      exact (hA text p e p').2 hmatch

theorem offers (h : Choice cell l hole x) (hl : ∀ r ∈ holes, r / 2 = l → r = hole)
    (hmem : hole ∈ holes) (text : List Nat) : (net cell holes text).Offers l x none where
  acts hact := by
    obtain ⟨rfl, hport⟩ := (mem_next_alt h.opcode).1 hact
    refine ⟨rfl, ?_⟩
    obtain ⟨r, rfl, hr⟩ : ∃ r, _ = Port.slot r ∧ (r = l * 2 ∨ r = l * 2 + 1) := by
      rcases hport with hport | hport
      · exact ⟨_, hport, .inl rfl⟩
      · exact ⟨_, hport, .inr rfl⟩
    by_cases hhole : r = hole
    · exact .inr (wire_hole (hhole ▸ hmem))
    · rw [wire_slot (not_mem hl hr hhole), h.other r hr hhole]
      exact .inl rfl
  enter p := by
    obtain ⟨r, hr, hne, htarget⟩ := h.exists_other
    refine ⟨.slot r, (mem_next_alt h.opcode).2 ⟨rfl, by simpa using hr⟩, ?_⟩
    rw [wire_slot (not_mem hl hr hne), htarget]
  leave p := ⟨.slot hole, (mem_next_alt h.opcode).2 ⟨rfl, by simpa using h.slot⟩, wire_hole hmem⟩

end Choice

/-! ## Connecting -/

variable {hs : List Nat} (hfail : (cell 0).opcode = Inst.opFail)

/-- What leads out of an instruction when the holes are connected. -/
theorem Part.target_cases (h : Part cell own holes) (hsame : SameOn (insert 0 own) hs cell cell')
    (hhs : ∀ h ∈ hs, h / 2 ∈ own → h ∈ holes) (hx : x ∈ own) {r : Nat}
    (hr : r ∈ (cell' x).slots x) : r ∈ holes ∨ target cell' r ∈ insert 0 own := by
  rw [Inst.slots_congr (hsame.opcode x (.inr hx))] at hr
  by_cases hmem : r ∈ holes
  · exact .inl hmem
  · have hdiv : r / 2 ∈ own := by rwa [Inst.div_of_slot hr]
    rw [hsame.target r (.inr hdiv) fun hrs => hmem (hhs r hrs hdiv)]
    exact .inr (h.closed x hx r hr hmem)

include hfail in
/-- The runs of `a`, and behind its holes those of `y`. -/
theorem Wired.denotes_seq (ha : Wired cell own holes a) (hA : Denotes cell holes a.begin A)
    (hsame : SameOn (insert 0 own) holes cell cell') (hset : ∀ h ∈ holes, target cell' h = y)
    (hholes : ∀ h, h / 2 ∈ own → h ∉ holes') (hB : Denotes cell' holes' y B) :
    Denotes cell' holes' a.begin (A.seq B) := by
  intro text p e p'
  have hset' : ∀ h ∈ holes, h ∉ holes' ∧ target cell' h = y := fun h hh =>
    ⟨hholes h (ha.hole h hh).1, hset h hh⟩
  have hconn := ha.connects hfail hsame (fun _ hh _ => hh) hset' hholes text
  rw [Network.exits_connect hconn ha.begin]
  exact or_congr (and_congr_right fun _ => hA text p e p')
    (exists_congr fun p₁ => and_congr (hA text p none p₁) (hB text p₁ e p'))

include hfail in
/-- The runs from a choice to which the holes of its body lead back. -/
theorem Wired.denotes_star (ha : Wired cell own holes a) (hA : Denotes cell holes a.begin A)
    (hsame : SameOn (insert 0 own) holes cell cell') {hole : Nat} (hl : Choice cell' l hole a.begin)
    (hnot : l ∉ own) (hset : ∀ h ∈ holes, target cell' h = l) :
    Denotes cell' [hole] l A.star := by
  intro text p e p'
  have hslot := hl.slot
  have hhole : hole / 2 = l := by omega
  have hholes : ∀ h, h / 2 ∈ own → h ∉ [hole] := by
    intro h hh hmem
    rw [List.mem_singleton.1 hmem, hhole] at hh
    exact hnot hh
  have hset' : ∀ h ∈ holes, h ∉ [hole] ∧ target cell' h = l := fun h hh =>
    ⟨hholes h (ha.hole h hh).1, hset h hh⟩
  have hconn := ha.connects hfail hsame (fun _ hh _ => hh) hset' hholes text
  have hoffers := @Choice.offers cell' [hole] a.begin l hole hl (by simp) (by simp) text
  rw [Network.exits_loop hconn hoffers ha.begin]
  unfold Network.Repeats Lang.star
  simp only [hA text _ _ _]

end

end FourFuzzers.Re2
