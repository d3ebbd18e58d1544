import FourFuzzers.Re2.Verify.Choices
import FourFuzzers.Re2.Verify.Words

/-!
# Literals

A literal is the concatenation of its bytes, and a string that of its literals. Behind a failed
allocation every part is `NoMatch()`, which no concatenation changes.
-/

namespace FourFuzzers.Re2

open FourFuzzers.Lib FourFuzzers.Lib.Traced FourFuzzers.Lib.Stateful

/-! ## Languages -/

namespace Lang

variable {A B : Lang} {U V : Set (List Nat)} {reversed : Bool}

theorem plain_empty : empty.Plain := fun _ _ id _ h => Option.some_ne_none id h.1

theorem plain_spell : (spell U).Plain := fun _ _ id _ h => Option.some_ne_none id h.1

theorem plain_assert {flags : Nat} : (assert flags).Plain := fun _ _ id _ h =>
  Option.some_ne_none id h.1

theorem Plain.seq (hA : A.Plain) (hB : B.Plain) : (A.seq B).Plain := by
  rintro text p id p' (⟨-, h⟩ | ⟨p₁, -, h⟩)
  · exact hA text p id p' h
  · exact hB text p₁ id p' h

theorem Plain.cat (hA : A.Plain) (hB : B.Plain) : (A.cat reversed B).Plain := by
  unfold Lang.cat
  split
  · exact hB.seq hA
  · exact hA.seq hB

theorem Plain.catPlain (hA : A.Plain) (hB : B.Plain) : CatPlain reversed A B := by
  unfold CatPlain
  split
  · exact hB
  · exact hA

theorem empty_cat : empty.cat reversed A = A := by
  unfold Lang.cat
  split
  · exact seq_empty A
  · exact empty_seq A

/-- A word behind another one. -/
theorem append_prefix {u v text : List Nat} {p : Nat} :
    u ++ v <+: text.drop p ↔ u <+: text.drop p ∧ v <+: text.drop (p + u.length) := by
  rw [← List.drop_drop]
  constructor
  · rintro ⟨rest, hrest⟩
    rw [← hrest, List.append_assoc]
    exact ⟨⟨_, rfl⟩, by simp⟩
  · rintro ⟨⟨rest, hrest⟩, hv⟩
    rw [← hrest, List.drop_left] at hv
    rw [← hrest]
    exact (List.prefix_append_right_inj u).2 hv

theorem spell_seq : (spell U).seq (spell V) = spell (Set.image2 (· ++ ·) U V) := by
  apply ext
  intro text p e p'
  constructor
  · rintro (⟨he, he', -⟩ | ⟨_, ⟨-, u, hu, hpre, rfl⟩, rfl, v, hv, hpre', rfl⟩)
    · exact absurd he' he
    · exact ⟨rfl, u ++ v, ⟨u, hu, v, hv, rfl⟩, append_prefix.2 ⟨hpre, hpre'⟩, by
        rw [List.length_append, Nat.add_assoc]⟩
  · rintro ⟨rfl, _, ⟨u, hu, v, hv, rfl⟩, hpre, rfl⟩
    obtain ⟨hpre, hpre'⟩ := append_prefix.1 hpre
    exact .inr ⟨p + u.length, ⟨rfl, u, hu, hpre, rfl⟩, rfl, v, hv, hpre', by
      rw [List.length_append, Nat.add_assoc]⟩

end Lang

theorem turn_singleton {reversed : Bool} {w : List Nat} :
    turn reversed {w} = {if reversed then w.reverse else w} := by
  cases reversed with
  | false => rfl
  | true =>
    ext v
    exact List.reverse_eq_iff

/-- One byte reads the same in both directions. -/
theorem turn_bytes {reversed : Bool} {P : Nat → Prop} :
    turn reversed {w | ∃ c, w = [c] ∧ P c} = {w | ∃ c, w = [c] ∧ P c} := by
  cases reversed with
  | false => rfl
  | true =>
    ext w
    exact exists_congr fun c => and_congr_left fun _ => List.reverse_eq_iff

/-- Words one behind the other, in the direction in which they are read. -/
theorem spell_cat_turn {reversed : Bool} {u v : List Nat} :
    (Lang.spell (turn reversed {u})).cat reversed (.spell (turn reversed {v})) =
      .spell (turn reversed {u ++ v}) := by
  cases reversed with
  | false => simp [Lang.cat, turn, Lang.spell_seq]
  | true => simp [Lang.cat, turn_singleton, Lang.spell_seq]

section

variable {s s' s'' : RangeCompiler} {W own : Set Nat} {L L' : Lang} {f : Fragment}
  {g : Compiler → Garbage} {reversed : Bool} {x : RangeM Fragment}

/-! ## Concatenations of new fragments -/

/-- In the direction `reversed`, `x` makes a fragment for `L`. -/
structure Makes (reversed : Bool) (L : Lang) (x : RangeM Fragment) : Prop where
  failed : ∀ s, Failed s → Silent x s .noMatch s
  good : ∀ s, Good s → s.reversed = reversed → Ensures Event.Fueled x s (Builds ∅ L s)

/-- A fragment and a new one. -/
theorem Yields.pair {f' : Fragment} (h : Yields W L s f s') (h' : Yields ∅ L' s' f' s'') :
    ∃ A B, Realizes s''.cell A f L ∧ Realizes s''.cell B f' L' ∧ (∀ x ∈ A, x < s''.ninst) ∧
      (∀ x ∈ B, x < s''.ninst) ∧ Disjoint A B ∧ Step W s s'' ∧
      ∀ x ∈ A ∪ B, x < s.ninst → x ∈ W := by
  obtain ⟨A, hA, hstep, hf⟩ := h
  obtain ⟨B, hB, hstep', hf'⟩ := h'
  refine ⟨A, B, ?_, hf', ?_, fun x hx => (hB x hx).1, ?_, ?_, ?_⟩
  · exact hstep'.realizes hstep.good hf (fun x hx => (hA x hx).1) (Set.empty_disjoint A)
      (Set.notMem_empty 0)
  · exact fun x hx => Nat.lt_of_lt_of_le (hA x hx).1 hstep'.ninst
  · exact Set.disjoint_left.2 fun x hx hx' => (hB x hx').2 (hA x hx).1
  · exact hstep.trans hstep' fun x hx => absurd hx (Set.notMem_empty x)
  · rintro x (hx | hx) hlt
    · exact (hA x hx).2 hlt
    · exact absurd ((hB x hx).2 (Nat.lt_of_lt_of_le hlt hstep.ninst)) (Set.notMem_empty x)

/-- A fragment in front of a new one. -/
theorem Makes.cat (hx : Makes reversed L' x) (h : Builds W L s f s') (hrev : s.reversed = reversed)
    (hplain : CatPlain reversed L L') :
    Ensures Event.Fueled (do cat f (← x)) s' (Builds W (L.cat reversed L') s) := by
  rcases h with ⟨rfl, hfail⟩ | h
  · apply Ensures.after (hx.failed s' hfail)
    exact .of_silent (cat_noMatch (.inl rfl)) (.inl ⟨rfl, hfail⟩)
  have hstep := h.elim fun _ h => h.2.1
  apply (hx.good s' hstep.good (hstep.reversed.trans hrev)).bind
  rintro f' s'' (⟨rfl, hfail⟩ | h')
  · exact .of_silent (cat_noMatch (.inr rfl)) (.inl ⟨rfl, hfail⟩)
  obtain ⟨A, B, hf, hf', hA, hB, hdisj, hstep, hsub⟩ := h.pair h'
  rw [← hrev, ← hstep.reversed] at hplain ⊢
  obtain ⟨f'', s₃, hrun, hyields, -⟩ := cat_silent hstep.good hf hf' hA hB hdisj hplain
  exact .of_silent hrun (.inr (hstep.yields hyields hsub))

/-- A new fragment in front of the one before it, which forward stays what it is. -/
theorem Makes.cat_front (hx : Makes reversed L' x) (h : Builds W L s f s')
    (hrev : s.reversed = reversed) (hplain : CatPlain reversed L' L) :
    Ensures Event.Fueled (do Re2.cat (← x) f) s' fun f' s'' => (f' = .noMatch ∧ Failed s'') ∨
      Yields W (L'.cat reversed L) s f' s'' ∧
        (reversed = false → ∃ own, Realizes s''.cell own f L) := by
  rcases h with ⟨rfl, hfail⟩ | h
  · apply Ensures.after (hx.failed s' hfail)
    exact .of_silent (cat_noMatch (.inl rfl)) (.inl ⟨rfl, hfail⟩)
  have hstep := h.elim fun _ h => h.2.1
  apply (hx.good s' hstep.good (hstep.reversed.trans hrev)).bind
  rintro f' s'' (⟨rfl, hfail⟩ | h')
  · exact .of_silent (cat_noMatch (.inl rfl)) (.inl ⟨rfl, hfail⟩)
  obtain ⟨A, B, hf, hf', hA, hB, hdisj, hstep, hsub⟩ := h.pair h'
  rw [← hrev, ← hstep.reversed] at hplain ⊢
  obtain ⟨f'', s₃, hrun, hyields, hkeep⟩ := cat_silent hstep.good hf' hf hB hA hdisj.symm hplain
  rw [Set.union_comm] at hyields
  exact .of_silent hrun (.inr ⟨hstep.yields hyields hsub, fun h => ⟨A, hkeep h⟩⟩)

/-- A fragment in front of any number of new ones. -/
theorem Makes.foldlM {α : Type} {build : α → RangeM Fragment} {M : α → Lang} {l : List α}
    (hbuild : ∀ a ∈ l, Makes reversed (M a) (build a)) (hplain : ∀ a ∈ l, (M a).Plain)
    (hL : L.Plain) (h : Builds W L s f s') (hrev : s.reversed = reversed) :
    Ensures Event.Fueled (l.foldlM (fun f a => do Re2.cat f (← build a)) f) s'
      (Builds W ((l.map M).foldl (.cat reversed) L) s) := by
  induction l generalizing L f s' with
  | nil => exact .pure h
  | cons a l ih =>
    have ha := hplain a List.mem_cons_self
    rw [List.foldlM_cons]
    apply ((hbuild a List.mem_cons_self).cat h hrev (hL.catPlain ha)).bind
    intro f' s'' h'
    exact ih (fun b hb => hbuild b (List.mem_cons_of_mem _ hb))
      (fun b hb => hplain b (List.mem_cons_of_mem _ hb)) (hL.cat ha) h'

/-- Once the compiler has failed, a fold stays what it is. -/
theorem foldlM_failed {α : Type} {build : α → RangeM Fragment} {l : List α}
    (hbuild : ∀ a ∈ l, Silent (build a) s .noMatch s) :
    Silent (l.foldlM (fun f a => do cat f (← build a)) .noMatch) s .noMatch s := by
  induction l with
  | nil => exact .pure
  | cons a l ih =>
    rw [List.foldlM_cons]
    apply ((hbuild a List.mem_cons_self).bind (cat_noMatch (.inl rfl))).bind
    exact ih fun b hb => hbuild b (List.mem_cons_of_mem _ hb)

/-! ## Bytes and runes -/

theorem byte_makes {c : Sym} (hc : c.Valid) :
    Makes reversed (.spell (byteTexts c)) (byteRangeFragment g c.lo c.hi c.fold) where
  failed s hs := by
    unfold byteRangeFragment
    exact (Failed.byteRange hs).bind .pure
  good s hs _ := byteRangeFragment_builds hs hc

theorem literal_byte {b : Nat} (hb : b < 256) {fold : Bool} :
    Makes reversed (.spell {w | ∃ c, w = [c] ∧ Inst.foldByte fold.toNat c = b})
      (byteRangeFragment g b b fold.toNat) := by
  have hset : {w | ∃ c, w = [c] ∧ Inst.foldByte fold.toNat c = b} =
      byteTexts ⟨b, b, fold.toNat⟩ := by
    ext w
    refine exists_congr fun c => and_congr_right fun _ => ?_
    exact ⟨fun h => ⟨h.ge, h.le⟩, fun h => Nat.le_antisymm h.2 h.1⟩
  rw [hset]
  exact byte_makes (c := ⟨b, b, fold.toNat⟩) ⟨hb, hb, fold.toNat_lt⟩

/-- A byte of a sequence. -/
theorem sequence_byte {b : Nat} (hb : b < 256) :
    Makes reversed (.spell (turn reversed {[b]})) (byteRangeFragment g b b 0) := by
  have h := @literal_byte g reversed b hb false
  have hset : {w | ∃ c, w = [c] ∧ Inst.foldByte false.toNat c = b} = turn reversed {[b]} := by
    ext w
    simp [turn_singleton, Inst.foldByte]
  rwa [hset] at h

/-- The bytes of a word one behind the other. -/
theorem foldl_cat_words {u : List Nat} {rest : List Nat} :
    (rest.map fun b => Lang.spell (turn reversed {[b]})).foldl (Lang.cat reversed)
      (.spell (turn reversed {u})) = Lang.spell (turn reversed {u ++ rest}) := by
  induction rest generalizing u with
  | nil => simp
  | cons b rest ih =>
    rw [List.map_cons, List.foldl_cons, spell_cat_turn, ih, List.append_assoc]
    rfl

theorem literal_makes {enc : Encoding} {r : Nat} {fold : Bool} (hr : r ≤ enc.maxRune) :
    Makes reversed (literalLang enc reversed fold r) (literal g enc r fold) := by
  unfold literalLang literalTexts literal
  cases enc with
  | latin1 =>
    rw [if_pos (.inl rfl), turn_bytes]
    exact literal_byte (Nat.lt_succ_of_le hr)
  | utf8 =>
    dsimp only
    by_cases hlt : r < 0x80
    · rw [if_pos (.inr hlt), if_pos hlt, turn_bytes]
      exact literal_byte (by omega)
    rw [if_neg (by simpa using hlt), if_neg hlt]
    have hbytes := runetochar_lt (show r ≤ 0x10FFFF from hr)
    obtain ⟨lead, rest, hsplit, -⟩ := runetochar_shape (show r ≤ 0x10FFFF from hr)
    rw [hsplit] at hbytes ⊢
    have hlead := @sequence_byte g reversed lead (hbytes lead List.mem_cons_self)
    have hrest : ∀ b ∈ rest, Makes reversed (Lang.spell (turn reversed {[b]}))
        (byteRangeFragment g b b 0) := fun b hb =>
      sequence_byte (hbytes b (List.mem_cons_of_mem _ hb))
    refine ⟨fun s hs => ?_, fun s hs hrev => ?_⟩
    · exact (hlead.failed s hs).bind (foldlM_failed fun b hb => (hrest b hb).failed s hs)
    · apply (hlead.good s hs hrev).bind
      intro f s' h
      have hfold := Makes.foldlM hrest (fun _ _ => Lang.plain_spell) Lang.plain_spell h hrev
      rw [foldl_cat_words] at hfold
      exact hfold

theorem literalLang_plain {enc : Encoding} {r : Nat} {fold : Bool} :
    (literalLang enc reversed fold r).Plain := Lang.plain_spell

/-- A string is the concatenation of its literals. -/
theorem literalString_builds {enc : Encoding} {rune : Nat} {runes : List Nat} {fold : Bool}
    (hs : Good s) (hrunes : ∀ r ∈ rune :: runes, r ≤ enc.maxRune) :
    Ensures Event.Fueled (do
      let f ← literal g enc rune fold
      runes.foldlM (fun f r => do cat f (← literal g enc r fold)) f) s
      (Builds ∅ (((rune :: runes).map (literalLang enc s.reversed fold)).foldl (.cat s.reversed)
        .empty) s) := by
  rw [List.map_cons, List.foldl_cons, Lang.empty_cat]
  apply ((literal_makes (hrunes rune List.mem_cons_self)).good s hs rfl).bind
  intro f s' h
  exact Makes.foldlM (fun r hr => literal_makes (hrunes r (List.mem_cons_of_mem _ hr)))
    (fun _ _ => literalLang_plain) literalLang_plain h rfl

end

end FourFuzzers.Re2
