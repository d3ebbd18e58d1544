import FourFuzzers.Re2.Verify.Construct

/-!
# Alternation, repetition and capture

The constructions around a choice: the alternative of two fragments, and one that either goes
through a fragment or goes on. In a loop the holes of the fragment lead back to the choice.
-/

namespace FourFuzzers.Re2

open FourFuzzers.Lib FourFuzzers.Lib.Traced FourFuzzers.Lib.Stateful

section

variable {s s' s₁ : RangeCompiler} {W A B own : Set Nat} {L LA LB : Lang} {a b f : Fragment}
  {holes hs hsa hsb holes' : List Nat} {x l hole : Nat} {g : Compiler → Garbage} {nongreedy : Bool}

/-! ## Alternation -/

theorem slots_alt {ip : Inst} (hop : ip.opcode = Inst.opAlt) : ip.slots x = [x * 2, x * 2 + 1] :=
  if_pos (.inl hop)

theorem mem_slots_alt {ip : Inst} {r : Nat} (hop : ip.opcode = Inst.opAlt) :
    r ∈ ip.slots x ↔ r = x * 2 ∨ r = x * 2 + 1 := by
  simp [slots_alt hop]

theorem target_of_fields {cell : Nat → Inst} :
    target cell (x * 2) = (cell x).out ∧ target cell (x * 2 + 1) = (cell x).out1 := by
  constructor
  · unfold target
    rw [if_neg (by omega), Nat.mul_div_cancel _ (by omega)]
  · have hdiv : (x * 2 + 1) / 2 = x := by omega
    unfold target
    rw [if_pos (by omega), hdiv]

/-- What is known of a new alternative. -/
theorem Fresh.alternative {y : Nat} (h : Fresh (Inst.zero.initAlt x y) s s') (hx : x < 2 ^ 28)
    (hy : y < 2 ^ 28) : (s'.cell s.ninst).opcode = Inst.opAlt ∧
      target s'.cell (s.ninst * 2) = x ∧ target s'.cell (s.ninst * 2 + 1) = y := by
  obtain ⟨hop, hout, hout1⟩ := @Inst.initAlt_fields Inst.zero x y hx hy
  obtain ⟨hl, hr⟩ := @target_of_fields s.ninst s'.cell
  rw [hl, hr, h.cell_self]
  exact ⟨hop, hout, hout1⟩

/-- A fragment under a new instruction. -/
theorem Fresh.realizes {ip : Inst} (h : Fresh ip s s') (hs : Good s) (hf : Realizes s.cell own f L)
    (hlt : ∀ x ∈ own, x < s.ninst) : Realizes s'.cell own f L :=
  (h.step (W := ∅)).realizes hs hf hlt (Set.empty_disjoint own) (Set.notMem_empty 0)

/-- What follows when the holes of a part are links of another list. -/
theorem Wired.denotes_rewired (h : Wired s.cell own holes f.toFrag)
    (hden : Denotes s.cell holes f.begin L) (hfail : (s.cell 0).opcode = Inst.opFail)
    (hrew : Rewired hs s s') (hhs : ∀ r ∈ hs, r / 2 ∈ own → r ∈ holes)
    (hholes : ∀ r, r / 2 ∈ own → (r ∈ holes' ↔ r ∈ holes)) :
    Denotes s'.cell holes' f.begin L := fun text p e p' =>
  (h.exits_same hfail hrew.sameOn hhs hholes h.begin).trans (hden text p e p')

/-- Two fragments under one patch list. -/
theorem append_parts (hs : Good s) (wa : Wired s.cell A hsa a.toFrag)
    (da : Denotes s.cell hsa a.begin LA) (wb : Wired s.cell B hsb b.toFrag)
    (db : Denotes s.cell hsb b.begin LB) (hA : ∀ x ∈ A, x < s.ninst) (hB : ∀ x ∈ B, x < s.ninst)
    (hdisj : Disjoint A B) :
    ∃ ends s', Silent (append a.ends b.ends) s ends s' ∧ Rewired hsa s s' ∧
      Wired s'.cell (A ∪ B) (hsa ++ hsb) ⟨a.begin, ends⟩ ∧
      Wired s'.cell (A ∪ B) (hsa ++ hsb) ⟨b.begin, ends⟩ ∧
      Denotes s'.cell (hsa ++ hsb) a.begin LA ∧ Denotes s'.cell (hsa ++ hsb) b.begin LB := by
  have hnotB : ∀ {x}, x ∈ A → x ∉ B := fun hx hx' => Set.disjoint_left.1 hdisj hx hx'
  have hab : ∀ r ∈ hsa, r / 2 ∈ B → r ∈ hsb := fun r hr hrB =>
    absurd hrB (hnotB (wa.hole r hr).1)
  obtain ⟨ends, s', hrun, hrew, hentries, htail⟩ := append_silent hs.inv wa.nodup (wa.slots hA)
    (wb.slots hB) (fun r hr hr' => hnotB (wa.hole r hr).1 (wb.hole r hr').1) wa.entries wb.entries
    wa.tail wb.tail
  have hpart : Part s'.cell (A ∪ B) (hsa ++ hsb) := by
    refine ⟨?_, ?_, ?_⟩
    · rintro (h0 | h0)
      · exact wa.pos h0
      · exact wb.pos h0
    · intro r hr
      rw [hrew.opcode]
      rcases List.mem_append.1 hr with hr | hr
      · exact ⟨.inl (wa.hole r hr).1, (wa.hole r hr).2⟩
      · exact ⟨.inr (wb.hole r hr).1, (wb.hole r hr).2⟩
    · rintro x (hx | hx) r hr hmem
      · rcases wa.target_cases hrew.sameOn (fun _ h _ => h) hx hr with hra | htarget
        · exact absurd (List.mem_append_left _ hra) hmem
        · exact Set.insert_subset_insert Set.subset_union_left htarget
      · rcases wb.target_cases hrew.sameOn hab hx hr with hrb | htarget
        · exact absurd (List.mem_append_right _ hrb) hmem
        · exact Set.insert_subset_insert Set.subset_union_right htarget
  have hnodup : (hsa ++ hsb).Nodup := List.nodup_append.2 ⟨wa.nodup, wb.nodup,
    fun r hr r' hr' heq => hnotB (wa.hole r hr).1 (heq ▸ (wb.hole r' hr').1)⟩
  refine ⟨ends, s', hrun, hrew, ⟨hpart, ?_, hentries, htail, hnodup⟩,
    ⟨hpart, ?_, hentries, htail, hnodup⟩, ?_, ?_⟩
  · exact Set.insert_subset_insert Set.subset_union_left wa.begin
  · exact Set.insert_subset_insert Set.subset_union_right wb.begin
  · apply wa.denotes_rewired da hs.fail hrew fun _ h _ => h
    intro r hr
    rw [List.mem_append, or_iff_left fun hrb => hnotB hr (wb.hole r hrb).1]
  · apply wb.denotes_rewired db hs.fail hrew hab
    intro r hr
    rw [List.mem_append, or_iff_right fun hra => hnotB (wa.hole r hra).1 hr]

/-- An alternative of two begins. -/
theorem Wired.alternative {cell : Nat → Inst} {ends : PatchList} {y : Nat}
    (wa : Wired cell own holes ⟨x, ends⟩) (wb : Wired cell own holes ⟨y, ends⟩)
    (da : Denotes cell holes x LA) (db : Denotes cell holes y LB) (hl : l ∉ own) (h0 : l ≠ 0)
    (hop : (cell l).opcode = Inst.opAlt) (hout : target cell (l * 2) = x)
    (hout1 : target cell (l * 2 + 1) = y) :
    Wired cell (insert l own) holes ⟨l, ends⟩ ∧ Denotes cell holes l (LA.alt LB) := by
  have hnew : ∀ {r}, r / 2 = l → r ∉ holes := fun hdiv hmem => hl (hdiv ▸ (wa.hole _ hmem).1)
  refine ⟨⟨⟨?_, ?_, ?_⟩, .inr (.inl rfl), wa.entries, wa.tail, wa.nodup⟩, ?_⟩
  · rintro (h | h)
    · exact h0 h.symm
    · exact wa.pos h
  · exact fun r hr => ⟨.inr (wa.hole r hr).1, (wa.hole r hr).2⟩
  · rintro z (rfl | hz) r hr hmem
    · rcases (mem_slots_alt hop).1 hr with rfl | rfl
      · rw [hout]
        exact Set.insert_subset_insert (Set.subset_insert _ _) wa.begin
      · rw [hout1]
        exact Set.insert_subset_insert (Set.subset_insert _ _) wb.begin
    · exact Set.insert_subset_insert (Set.subset_insert _ _) (wa.closed z hz r hr hmem)
  · rw [← hout] at da
    rw [← hout1] at db
    exact denotes_alt hop (hnew (by omega)) (hnew (by omega)) da db

theorem alt_builds (hs : Good s) (ha : Realizes s.cell A a LA) (hb : Realizes s.cell B b LB)
    (hA : ∀ x ∈ A, x < s.ninst) (hB : ∀ x ∈ B, x < s.ninst) (hdisj : Disjoint A B) :
    Ensures Event.Fueled (alt g a b) s (Builds (A ∪ B) (LA.alt LB) s) := by
  unfold alt
  by_cases hna : a.isNoMatch = true
  · rw [if_pos hna, ha.eq_none hs.fail hna, Lang.none_alt]
    exact .pure (.inr (hb.yields hs hB Set.subset_union_right))
  rw [if_neg hna]
  by_cases hnb : b.isNoMatch = true
  · rw [if_pos hnb, hb.eq_none hs.fail hnb, Lang.alt_none]
    exact .pure (.inr (ha.yields hs hA Set.subset_union_left))
  rw [if_neg hnb]
  apply (alloc_fueled hs).bind
  rintro id s₁ (⟨hneg, hfail⟩ | ⟨rfl, hg⟩)
  · rw [if_pos hneg]
    exact .pure (.inl ⟨rfl, hfail.failed⟩)
  rw [if_neg (by omega), Int.toNat_natCast]
  apply Ensures.after Silent.update
  have hfresh := hs.fresh hg (F := (·.initAlt a.begin b.begin))
  generalize s₁.modify s.ninst (·.initAlt a.begin b.begin) = s₂ at hfresh ⊢
  obtain ⟨hsa, wa, da, na⟩ := hfresh.realizes hs ha hA
  obtain ⟨hsb, wb, db, nb⟩ := hfresh.realizes hs hb hB
  have hs₂ := hfresh.good
  have hlt : s.ninst < s₂.ninst := by
    rw [hfresh.ninst]
    exact Nat.lt_succ_self _
  have hA₂ : ∀ x ∈ A, x < s₂.ninst := fun x hx => Nat.lt_trans (hA x hx) hlt
  have hB₂ : ∀ x ∈ B, x < s₂.ninst := fun x hx => Nat.lt_trans (hB x hx) hlt
  have hxa := wa.begin_lt hs₂ hA₂
  have hxb := wb.begin_lt hs₂ hB₂
  obtain ⟨hop, hout, hout1⟩ := hfresh.alternative (hs₂.lt_pow (by omega)) (hs₂.lt_pow (by omega))
  obtain ⟨ends, s₃, hrun, hrew, wa', wb', da', db'⟩ := append_parts hs₂ wa da wb db hA₂ hB₂ hdisj
  apply Ensures.after hrun
  have hnot : ∀ r ∈ hsa, r / 2 ≠ s.ninst := fun r hr =>
    Nat.ne_of_lt (hA _ (wa.hole r hr).1)
  have hl : s.ninst ∉ A ∪ B := by
    rintro (hmem | hmem)
    · exact Nat.lt_irrefl _ (hA _ hmem)
    · exact Nat.lt_irrefl _ (hB _ hmem)
  obtain ⟨hwired, hden⟩ := wa'.alternative wb' da' db' hl (Nat.ne_of_gt hs.pos)
    ((hrew.opcode _).trans hop) ((hrew.target _ fun h => hnot _ h (by omega)).trans hout)
    ((hrew.target _ fun h => hnot _ h (by omega)).trans hout1)
  have hstep := hrew.step hs₂ fun r hr => (wa.hole r hr).1
  refine .pure (.inr ⟨insert s.ninst (A ∪ B), ?_, hfresh.step.trans hstep fun x hx _ => .inl hx,
    hsa ++ hsb, hwired, hden, ?_⟩)
  · rw [hrew.ninst]
    rintro x (rfl | hx)
    · exact ⟨hlt, fun h => absurd h (Nat.lt_irrefl _)⟩
    · exact ⟨hx.elim (hA₂ x) (hB₂ x), fun _ => hx⟩
  · rintro hnull text p (hLA | hLB)
    · exact na (Bool.or_eq_false_iff.1 hnull).1 text p hLA
    · exact nb (Bool.or_eq_false_iff.1 hnull).2 text p hLB

/-! ## Choices -/

/-- A new choice between `x` and what follows. -/
theorem choice_silent (hs : Good s) (hg : Grown s s₁) (hx : x < 2 ^ 28) :
    ∃ hole s', Silent (choice nongreedy s.ninst x) s₁ (.mk1 hole) s' ∧ (∃ ip, Fresh ip s s') ∧
      Choice s'.cell s.ninst hole x ∧ target s'.cell hole = 0 := by
  unfold choice
  cases nongreedy with
  | true =>
    have hfresh := hs.fresh hg (F := (·.initAlt 0 x))
    obtain ⟨hop, hl, hr⟩ := hfresh.alternative (by omega) hx
    refine ⟨s.ninst * 2, _, Silent.update.bind .pure, ⟨_, hfresh⟩, ⟨hop, .inl rfl, ?_⟩, hl⟩
    rintro h (rfl | rfl) hne
    · exact absurd rfl hne
    · exact hr
  | false =>
    have hfresh := hs.fresh hg (F := (·.initAlt x 0))
    obtain ⟨hop, hl, hr⟩ := hfresh.alternative hx (by omega)
    refine ⟨s.ninst * 2 + 1, _, Silent.update.bind .pure, ⟨_, hfresh⟩, ⟨hop, .inr rfl, ?_⟩, hr⟩
    rintro h (rfl | rfl) hne
    · exact hl
    · exact absurd rfl hne

theorem Choice.div {cell : Nat → Inst} (h : Choice cell l hole x) : hole / 2 = l := by
  have := h.slot
  omega

/-- A choice whose hole keeps its place. -/
theorem Choice.rewired (h : Choice s.cell l hole x) (hrew : Rewired hs s s')
    (hhs : ∀ r ∈ hs, r / 2 = l → r = hole) : Choice s'.cell l hole x where
  opcode := (hrew.opcode l).trans h.opcode
  slot := h.slot
  other r hr hne := by
    rw [hrew.target r fun hmem => hne (hhs r hmem (by omega))]
    exact h.other r hr hne

/-- A choice and the instructions it leads to. -/
theorem Choice.part {cell : Nat → Inst} (h : Choice cell l hole x) (hx : x ∈ insert 0 own)
    (hl : l ≠ 0) (hpos : 0 ∉ own) (hmem : hole ∈ holes)
    (hhole : ∀ r ∈ holes, r ≠ hole → r / 2 ∈ own ∧ (r % 2 = 1 → (cell (r / 2)).opcode = Inst.opAlt))
    (hclosed : ∀ y ∈ own, ∀ r ∈ (cell y).slots y, r ∉ holes →
      target cell r ∈ insert 0 (insert l own)) : Part cell (insert l own) holes where
  pos := by
    rintro (h0 | h0)
    · exact hl h0.symm
    · exact hpos h0
  hole r hr := by
    by_cases hne : r = hole
    · subst hne
      rw [h.div]
      exact ⟨.inl rfl, fun _ => h.opcode⟩
    · exact ⟨.inr (hhole r hr hne).1, (hhole r hr hne).2⟩
  closed := by
    rintro y (rfl | hy) r hr hnot
    · rw [h.other r ((mem_slots_alt h.opcode).1 hr) (by rintro rfl; exact hnot hmem)]
      exact Set.insert_subset_insert (Set.subset_insert _ _) hx
    · exact hclosed y hy r hr hnot

/-! ## Loops -/

/-- The holes of `a` lead back to a choice in front of it. -/
theorem loop_silent (hs : Good s) (ha : Realizes s.cell A a LA) (hA : ∀ x ∈ A, x < s.ninst)
    (hg : Grown s s₁) :
    ∃ hole s₂ s', Silent (choice nongreedy s.ninst a.begin) s₁ (.mk1 hole) s₂ ∧
      Silent (patchList a.ends s.ninst) s₂ ⟨⟩ s' ∧ Step A s s' ∧ s.ninst < s'.ninst ∧
      a.begin ∈ insert 0 A ∧ Wired s'.cell (insert s.ninst A) [hole] ⟨s.ninst, .mk1 hole⟩ ∧
      Denotes s'.cell [hole] s.ninst LA.star ∧ Denotes s'.cell [hole] a.begin LA.plus := by
  have hbegin : a.begin < s.ninst := ha.elim fun _ h => h.1.begin_lt hs hA
  obtain ⟨hole, s₂, hrun, ⟨ip, hfresh⟩, hchoice, hzero⟩ := @choice_silent s s₁ a.begin nongreedy hs
    hg (hs.lt_pow (by omega))
  obtain ⟨hsa, wa, da, -⟩ := hfresh.realizes hs ha hA
  have hs₂ := hfresh.good
  have hlt : s.ninst < s₂.ninst := by
    rw [hfresh.ninst]
    exact Nat.lt_succ_self _
  have hA₂ : ∀ x ∈ A, x < s₂.ninst := fun x hx => Nat.lt_trans (hA x hx) hlt
  have hnot : s.ninst ∉ A := fun hmem => Nat.lt_irrefl _ (hA _ hmem)
  have hhole : ∀ r ∈ hsa, r / 2 = s.ninst → r = hole := fun r hr hdiv =>
    absurd (hdiv ▸ (wa.hole r hr).1) hnot
  obtain ⟨s', hrun', hrew, hset⟩ := patchList_silent hs₂.inv (@Good.lt_pow s₂ s.ninst hs₂ (by omega))
    wa.nodup (wa.slots hA₂) wa.entries
  have hchoice' := hchoice.rewired hrew hhole
  have hstar := wa.denotes_star hs₂.fail da hrew.sameOn hchoice' hnot hset
  have hzero' : target s'.cell hole = 0 := by
    rw [hrew.target hole fun hmem => hnot (hchoice.div ▸ (wa.hole hole hmem).1)]
    exact hzero
  refine ⟨hole, s₂, s', hrun, hrun', ?_, ?_, wa.begin, ?_, hstar, ?_⟩
  · exact hfresh.step.trans (hrew.step hs₂ fun r hr => (wa.hole r hr).1) fun x hx _ => hx
  · rw [hrew.ninst]
    exact hlt
  · refine ⟨?_, .inr (.inl rfl), ⟨rfl, hzero'⟩, ?_, List.nodup_singleton _⟩
    · apply hchoice'.part wa.begin (Nat.ne_of_gt hs.pos) wa.pos (List.mem_singleton_self _)
      · exact fun r hr hne => absurd (List.mem_singleton.1 hr) hne
      · intro y hy r hr _
        rcases wa.target_cases hrew.sameOn (fun _ h _ => h) hy hr with hra | htarget
        · rw [hset r hra]
          exact .inr (.inl rfl)
        · exact Set.insert_subset_insert (Set.subset_insert _ _) htarget
    · intro r hr
      exact Option.some.inj hr
  · apply wa.denotes_seq hs₂.fail da hrew.sameOn hset _ hstar
    intro r hr hmem
    rw [List.mem_singleton.1 hmem, hchoice.div] at hr
    exact hnot hr

theorem plus_builds (hs : Good s) (ha : Realizes s.cell A a LA) (hA : ∀ x ∈ A, x < s.ninst) :
    Ensures Event.Fueled (plus g a nongreedy) s (Builds A LA.plus s) := by
  unfold plus
  apply (alloc_fueled hs).bind
  rintro id s₁ (⟨hneg, hfail⟩ | ⟨rfl, hg⟩)
  · rw [if_pos hneg]
    exact .pure (.inl ⟨rfl, hfail.failed⟩)
  rw [if_neg (by omega), Int.toNat_natCast]
  obtain ⟨hole, s₂, s', hrun, hrun', hstep, hlt, hbegin, hwired, -, hplus⟩ :=
    @loop_silent s s₁ A LA a nongreedy hs ha hA hg
  apply Ensures.after hrun
  apply Ensures.after hrun'
  refine .pure (.inr ⟨insert s.ninst A, ?_, hstep, [hole], ⟨hwired.toPart, ?_, hwired.entries,
    hwired.tail, hwired.nodup⟩, hplus, ?_⟩)
  · rintro x (rfl | hx)
    · exact ⟨hlt, fun h => absurd h (Nat.lt_irrefl _)⟩
    · exact ⟨Nat.lt_trans (hA x hx) hlt, fun _ => hx⟩
  · exact Set.insert_subset_insert (Set.subset_insert _ _) hbegin
  · rintro hnull text p (⟨hne, -⟩ | ⟨p₁, hLA, p₂, hstar, ⟨-, rfl⟩ | ⟨hne, -⟩⟩)
    · exact hne rfl
    · obtain ⟨hsa, -, da, na⟩ := ha
      have hle : p₁ ≤ p := by
        clear hLA
        induction hstar with
        | refl => exact Nat.le_refl _
        | tail _ h ih => exact Nat.le_trans ih (da.le h)
      obtain rfl : p₁ = p := Nat.le_antisymm hle (da.le hLA)
      exact na hnull text _ hLA
    · exact hne rfl

theorem quest_builds (hs : Good s) (ha : Realizes s.cell A a LA) (hA : ∀ x ∈ A, x < s.ninst) :
    Ensures Event.Fueled (quest g a nongreedy) s (Builds A LA.quest s) := by
  unfold quest
  by_cases hno : a.isNoMatch = true
  · have hempty : LA.quest = .empty := by
      rw [ha.eq_none hs.fail hno]
      exact Lang.alt_none _
    rw [if_pos hno, hempty]
    exact nop_builds hs
  rw [if_neg hno]
  apply (alloc_fueled hs).bind
  rintro id s₁ (⟨hneg, hfail⟩ | ⟨rfl, hg⟩)
  · rw [if_pos hneg]
    exact .pure (.inl ⟨rfl, hfail.failed⟩)
  rw [if_neg (by omega), Int.toNat_natCast]
  have hbegin : a.begin < s.ninst := ha.elim fun _ h => h.1.begin_lt hs hA
  obtain ⟨hole, s₂, hrun, ⟨ip, hfresh⟩, hchoice, hzero⟩ := @choice_silent s s₁ a.begin nongreedy hs
    hg (hs.lt_pow (by omega))
  apply Ensures.after hrun
  obtain ⟨hsa, wa, da, -⟩ := hfresh.realizes hs ha hA
  have hs₂ := hfresh.good
  have hlt : s.ninst < s₂.ninst := by
    rw [hfresh.ninst]
    exact Nat.lt_succ_self _
  have hA₂ : ∀ x ∈ A, x < s₂.ninst := fun x hx => Nat.lt_trans (hA x hx) hlt
  have hnot : s.ninst ∉ A := fun hmem => Nat.lt_irrefl _ (hA _ hmem)
  have hholeA : hole / 2 ∉ A := by
    rw [hchoice.div]
    exact hnot
  have hone : Slots s₂ [hole] := by
    intro r hr
    obtain rfl := List.mem_singleton.1 hr
    rw [hchoice.div]
    refine ⟨?_, hlt, fun _ => hchoice.opcode⟩
    have := hchoice.div
    have := hs.pos
    omega
  obtain ⟨ends, s', hrun', hrew, hentries, htail⟩ := @append_silent s₂ [hole] hsa (.mk1 hole) a.ends
    hs₂.inv (List.nodup_singleton _) hone (wa.slots hA₂)
    (by simpa using fun hmem => hholeA (wa.hole hole hmem).1) ⟨rfl, hzero⟩ wa.entries
    (fun r hr => Option.some.inj hr) wa.tail
  apply Ensures.after hrun'
  have hchoice' : Choice s'.cell s.ninst hole a.begin := hchoice.rewired hrew (by simp)
  have hhs : ∀ r ∈ [hole], r / 2 ∈ A → r ∈ hsa := by simpa using fun h => absurd h hholeA
  have hstep : Step A s s' := hfresh.step.trans (hrew.step (W := {s.ninst}) hs₂ (by
    simp [hchoice.div])) fun x hx hlt' => absurd hlt' (by rw [hx]; exact Nat.lt_irrefl _)
  refine .pure (.inr ⟨insert s.ninst A, ?_, hstep, hole :: hsa, ?_, ?_, by simp⟩)
  · rw [hrew.ninst]
    rintro x (rfl | hx)
    · exact ⟨hlt, fun h => absurd h (Nat.lt_irrefl _)⟩
    · exact ⟨hA₂ x hx, fun _ => hx⟩
  · refine ⟨?_, .inr (.inl rfl), hentries, htail, ?_⟩
    · apply hchoice'.part wa.begin (Nat.ne_of_gt hs.pos) wa.pos List.mem_cons_self
      · intro r hr hne
        have hra := (List.mem_cons.1 hr).resolve_left hne
        rw [hrew.opcode]
        exact wa.hole r hra
      · intro y hy r hr hmem
        rcases wa.target_cases hrew.sameOn hhs hy hr with hra | htarget
        · exact absurd (List.mem_cons_of_mem _ hra) hmem
        · exact Set.insert_subset_insert (Set.subset_insert _ _) htarget
    · exact List.nodup_cons.2 ⟨fun hmem => hholeA (wa.hole hole hmem).1, wa.nodup⟩
  · apply hchoice'.denotes_quest _ List.mem_cons_self
    · apply wa.denotes_rewired da hs₂.fail hrew hhs
      intro r hr
      rw [List.mem_cons, or_iff_right]
      rintro rfl
      exact hholeA hr
    · intro r hr hdiv
      refine (List.mem_cons.1 hr).resolve_right fun hra => hnot ?_
      rw [← hdiv]
      exact (wa.hole r hra).1

theorem Step.yields (h : Step W s s') (h' : Yields own L s' f s₁)
    (hsub : ∀ x ∈ own, x < s.ninst → x ∈ W) : Yields W L s f s₁ := by
  obtain ⟨own', hown, hstep, hf⟩ := h'
  refine ⟨own', fun x hx => ⟨(hown x hx).1, fun hlt => ?_⟩, h.trans hstep hsub, hf⟩
  exact hsub x ((hown x hx).2 (Nat.lt_of_lt_of_le hlt h.ninst)) hlt

theorem Step.builds (h : Step W s s') (h' : Builds own L s' f s₁)
    (hsub : ∀ x ∈ own, x < s.ninst → x ∈ W) : Builds W L s f s₁ :=
  h'.imp_right fun h' => h.yields h' hsub

theorem Failed.nop (h : Failed s) : Silent (nop g) s .noMatch s :=
  h.alloc.bind .pure

theorem Failed.quest (h : Failed s) : Silent (quest g .noMatch nongreedy) s .noMatch s := by
  unfold Re2.quest
  rw [if_pos (by rfl)]
  exact h.nop

theorem star_builds (hs : Good s) (ha : Realizes s.cell A a LA) (hA : ∀ x ∈ A, x < s.ninst) :
    Ensures Event.Fueled (star g a nongreedy) s (Builds A LA.star s) := by
  unfold star
  by_cases hnull : a.nullable = true
  · rw [if_pos hnull]
    apply (plus_builds hs ha hA).bind
    rintro f s' (⟨rfl, hfail⟩ | ⟨own, hown, hstep, hf⟩)
    · exact .of_silent hfail.quest (.inl ⟨rfl, hfail⟩)
    · apply (quest_builds hstep.good hf fun x hx => (hown x hx).1).mono
      intro f' s'' h
      rw [← Lang.quest_plus]
      exact hstep.builds h fun x hx => (hown x hx).2
  rw [if_neg hnull]
  apply (alloc_fueled hs).bind
  rintro id s₁ (⟨hneg, hfail⟩ | ⟨rfl, hg⟩)
  · rw [if_pos hneg]
    exact .pure (.inl ⟨rfl, hfail.failed⟩)
  rw [if_neg (by omega), Int.toNat_natCast]
  obtain ⟨hole, s₂, s', hrun, hrun', hstep, hlt, -, hwired, hstar, -⟩ :=
    @loop_silent s s₁ A LA a nongreedy hs ha hA hg
  apply Ensures.after hrun
  apply Ensures.after hrun'
  refine .pure (.inr ⟨insert s.ninst A, ?_, hstep, [hole], hwired, hstar, by simp⟩)
  rintro x (rfl | hx)
  · exact ⟨hlt, fun h => absurd h (Nat.lt_irrefl _)⟩
  · exact ⟨Nat.lt_trans (hA x hx) hlt, fun _ => hx⟩

theorem Failed.star (h : Failed s) : Silent (star g .noMatch nongreedy) s .noMatch s := by
  unfold Re2.star
  rw [if_neg (by decide)]
  exact h.alloc.bind .pure

theorem byteTexts_any : byteTexts ⟨0x00, 0xFF, 0⟩ = {w | ∃ c, w = [c] ∧ c ≤ 0xFF} := by
  simp [byteTexts, Inst.foldByte]

/-- `DotStar` -/
theorem dotStar_builds (hs : Good s) : Ensures Event.Fueled (dotStar g) s
    (Builds W (Lang.spell {w | ∃ c, w = [c] ∧ c ≤ 0xFF}).star s) := by
  unfold dotStar
  apply (byteRangeFragment_builds (c := ⟨0x00, 0xFF, 0⟩) hs (by decide)).bind
  rintro f s' (⟨rfl, hfail⟩ | ⟨own, hown, hstep, hf⟩)
  · exact .of_silent hfail.star (.inl ⟨rfl, hfail⟩)
  · rw [byteTexts_any] at hf
    apply (star_builds hstep.good hf fun x hx => (hown x hx).1).mono
    intro f' s'' h
    exact hstep.builds h fun x hx => (hown x hx).2

/-! ## Captures -/

/-- `s'` is `s` with two more instructions. -/
structure Paired (s s' : RangeCompiler) : Prop where
  inv : Inv s'.toCompiler
  failed : s'.failed = false
  ninst : s'.ninst = s.ninst + 2
  reversed : s'.reversed = s.reversed
  cell : s'.cell = s.cell

theorem allocPair_silent (hs : Good s) : ∃ id s₁, Silent (allocPair g) s id s₁ ∧
    ((id < 0 ∧ Failed s₁) ∨ (id = s.ninst ∧ Paired s s₁)) := by
  unfold allocPair allocInst
  by_cases hacc : Accepts s.toCompiler 2
  · have hval := allocInstWith_val (g := g s.toCompiler) hs.inv hacc copies_copyN
    have hinv := hs.inv.allocInst (g := g s.toCompiler) (n := 2) (by omega)
    unfold allocInst at hinv
    rw [hval] at hinv
    refine ⟨s.ninst, { s with inst := grown s.toCompiler 2, ninst := s.ninst + 2 }, ?_,
      .inr ⟨rfl, hinv, hs.failed, rfl, rfl, cell_grown hs.inv⟩⟩
    apply Silent.read.bind
    rw [hval]
    rfl
  · refine ⟨-1, { s with failed := true }, ?_, .inl ⟨by omega, rfl⟩⟩
    apply Silent.read.bind
    rw [(allocInstWith_refused hacc).1]
    rfl

/-- Both are set for the first time. -/
theorem Paired.set (h : Paired s s₁) (hs : Good s) {F F' : Inst → Inst}
    (hset : s' = (s₁.modify s.ninst F).modify (s.ninst + 1) F') :
    Step W s s' ∧ s'.ninst = s.ninst + 2 ∧ s'.cell s.ninst = F Inst.zero ∧
      s'.cell (s.ninst + 1) = F' Inst.zero := by
  have hlt : s.ninst < s₁.ninst := by
    rw [h.ninst]
    omega
  have hinv := @Inv.modify s₁ s.ninst F h.inv hlt
  have hlt' : s.ninst + 1 < (s₁.modify s.ninst F).ninst := by
    change s.ninst + 1 < s₁.ninst
    rw [h.ninst]
    omega
  have hcell := @RangeCompiler.cell_modify (s₁.modify s.ninst F) (s.ninst + 1) F'
    (Nat.lt_of_lt_of_le hlt' hinv.used)
  rw [@RangeCompiler.cell_modify s₁ s.ninst F (Nat.lt_of_lt_of_le hlt h.inv.used), h.cell,
    RangeCompiler.cell_zero hs.inv (Nat.le_refl _), ← hset,
    Function.update_of_ne (show s.ninst + 1 ≠ s.ninst by omega),
    RangeCompiler.cell_zero hs.inv (by omega)] at hcell
  have hbelow : ∀ x, x < s.ninst → s'.cell x = s.cell x := by
    intro x hx
    rw [hcell, Function.update_of_ne (by omega), Function.update_of_ne (by omega)]
  have hninst : s'.ninst = s.ninst + 2 := by
    rw [hset]
    exact h.ninst
  refine ⟨⟨⟨?_, ?_, ?_, ?_⟩, ?_, ?_, fun x hx _ => hbelow x hx⟩, hninst, ?_, ?_⟩
  · rw [hset]
    exact hinv.modify hlt'
  · rw [hset]
    exact h.failed
  · omega
  · rw [hbelow 0 hs.pos]
    exact hs.fail
  · omega
  · rw [hset]
    exact h.reversed
  · rw [hcell, Function.update_of_ne (by omega), Function.update_self]
  · rw [hcell, Function.update_self]

theorem Inst.initCapture_fields {cap out : Nat} (h : out < 2 ^ 28) :
    (Inst.zero.initCapture cap out).opcode = opCapture ∧
      (Inst.zero.initCapture cap out).out = out := by
  simp only [initCapture, setOutOpcode, opcode, Inst.out, last, zero, opCapture]
  omega

/-- A capture does nothing. -/
theorem Inst.next_capture {ip : Inst} (hop : ip.opcode = opCapture) (text : List Nat) (p : Nat) :
    ip.next text x p = [(.slot (x * 2), p)] := by
  simp [next, hop, opCapture, opAlt, opAltMatch, opByteRange]

theorem Inst.slots_capture {ip : Inst} (hop : ip.opcode = opCapture) : ip.slots x = [x * 2] := by
  simp [slots, hop, opCapture, opAlt, opAltMatch, opMatch, opFail]

theorem capture_builds {n : Nat} (hs : Good s) (ha : Realizes s.cell A a LA)
    (hA : ∀ x ∈ A, x < s.ninst) : Ensures Event.Fueled (capture g a n) s (Builds A LA s) := by
  unfold capture
  by_cases hno : a.isNoMatch = true
  · rw [if_pos hno, ha.eq_none hs.fail hno]
    exact .pure (.inr (yields_noMatch hs))
  rw [if_neg hno]
  obtain ⟨id, s₁, hrun, ⟨hneg, hfail⟩ | ⟨rfl, hpair⟩⟩ := @allocPair_silent s g hs
  · apply Ensures.after hrun
    rw [if_pos hneg]
    exact .pure (.inl ⟨rfl, hfail⟩)
  apply Ensures.after hrun
  rw [if_neg (by omega), Int.toNat_natCast]
  apply Ensures.after Silent.update
  apply Ensures.after Silent.update
  generalize hset : (s₁.modify s.ninst (·.initCapture (2 * n) a.begin)).modify (s.ninst + 1)
    (·.initCapture (2 * n + 1) 0) = s₂
  obtain ⟨hstep, hninst, hfirst, hsecond⟩ := hpair.set (W := ∅) hs hset.symm
  have hs₂ := hstep.good
  obtain ⟨hsa, wa, da, na⟩ := hstep.realizes hs ha hA (Set.empty_disjoint A) (Set.notMem_empty 0)
  have hA₂ : ∀ x ∈ A, x < s₂.ninst := fun x hx => Nat.lt_of_lt_of_le (hA x hx) hstep.ninst
  have hbegin := wa.begin_lt hs₂ hA₂
  obtain ⟨hop, hout⟩ := @Inst.initCapture_fields (2 * n) a.begin (hs₂.lt_pow (by omega))
  obtain ⟨hop', hout'⟩ := @Inst.initCapture_fields (2 * n + 1) 0 (by omega)
  rw [← hfirst] at hop hout
  rw [← hsecond] at hop' hout'
  obtain ⟨s', hrun', hrew, hpatched⟩ := patchList_silent hs₂.inv
    (@Good.lt_pow s₂ (s.ninst + 1) hs₂ (by omega)) wa.nodup (wa.slots hA₂) wa.entries
  apply Ensures.after hrun'
  have hnot : s.ninst ∉ A := fun hmem => Nat.lt_irrefl _ (hA _ hmem)
  have hnot' : s.ninst + 1 ∉ A := fun hmem => absurd (hA _ hmem) (by omega)
  have htarget : target s'.cell (s.ninst * 2) = a.begin := by
    rw [hrew.target _ fun hr => hnot (by simpa using (wa.hole _ hr).1), target_of_fields.1, hout]
  have hend : target s'.cell ((s.ninst + 1) * 2) = 0 := by
    rw [hrew.target _ fun hr => hnot' (by simpa using (wa.hole _ hr).1), target_of_fields.1, hout']
  have hopen : ∀ r, r / 2 ∈ A → r ∉ [(s.ninst + 1) * 2] := by
    intro r hr hmem
    rw [List.mem_singleton.1 hmem, Nat.mul_div_cancel _ (by omega)] at hr
    exact hnot' hr
  have hwhole : Step A s s' := (hstep.mono (Set.empty_subset A)).trans
    (hrew.step hs₂ fun r hr => (wa.hole r hr).1) fun x hx _ => hx
  refine .pure (.inr ⟨insert s.ninst (insert (s.ninst + 1) A), ?_, hwhole, [(s.ninst + 1) * 2], ?_,
    ?_, na⟩)
  · rw [hrew.ninst]
    rintro x (rfl | rfl | hx)
    · exact ⟨by omega, fun h => absurd h (Nat.lt_irrefl _)⟩
    · exact ⟨by omega, fun h => absurd h (by omega)⟩
    · exact ⟨hA₂ x hx, fun _ => hx⟩
  · refine ⟨⟨?_, ?_, ?_⟩, .inr (.inl rfl), ⟨rfl, hend⟩, ?_, List.nodup_singleton _⟩
    · rintro (h0 | h0 | h0)
      · exact Nat.ne_of_gt hs.pos h0.symm
      · omega
      · exact wa.pos h0
    · intro r hr
      rw [List.mem_singleton.1 hr, Nat.mul_div_cancel _ (by omega)]
      exact ⟨.inr (.inl rfl), by omega⟩
    · rintro x (rfl | rfl | hx) r hr hmem
      · rw [Inst.slots_capture ((hrew.opcode _).trans hop)] at hr
        rw [List.mem_singleton.1 hr, htarget]
        exact Set.insert_subset_insert (fun y hy => .inr (.inr hy)) wa.begin
      · rw [Inst.slots_capture ((hrew.opcode _).trans hop')] at hr
        exact absurd hr hmem
      · rcases wa.target_cases hrew.sameOn (fun _ h _ => h) hx hr with hra | htarget
        · rw [hpatched r hra]
          exact .inr (.inr (.inl rfl))
        · exact Set.insert_subset_insert (fun y hy => .inr (.inr hy)) htarget
    · intro r hr
      exact Option.some.inj hr
  · have hlast : Denotes s'.cell [(s.ninst + 1) * 2] (s.ninst + 1) .empty := by
      apply denotes_leaf _ _ (List.mem_singleton_self _)
      · simp [Inst.next_capture ((hrew.opcode _).trans hop'), Lang.empty]
      · simp [Lang.Plain, Lang.empty]
    have hbody := wa.denotes_seq hs₂.fail da hrew.sameOn hpatched hopen hlast
    rw [Lang.seq_empty] at hbody
    exact denotes_pass (Inst.next_capture ((hrew.opcode _).trans hop)) (by simp) htarget hbody

end

end FourFuzzers.Re2
