import FourFuzzers.Re2.Verify.Utf8

/-!
# The language of a class

The runs of a trie read its words: from an instruction with a role they leave through an end of the
patch list, and behind the texts of the words that are read from there. So between `BeginRange` and
`EndRange` the trie is a fragment for the texts of the ranges.
-/

namespace FourFuzzers.Re2

open FourFuzzers.Lib FourFuzzers.Lib.Traced FourFuzzers.Lib.Stateful

/-- The holes of a trie: the `out` fields of its ends. -/
def Ghost.holes (G : Ghost) : List Nat := G.ends.map (· * 2)

/-- The texts of the words of a trie. -/
def Ghost.texts (G : Ghost) : Set (List Nat) := {t | ∃ w ∈ G.words, t ∈ wordTexts w}

section

variable {P : Plan} {G : Ghost} {B x b : Nat} {s₀ s : RangeCompiler} {w : Word} {a : Sym} {r : Role}
  {text l : List Nat} {p p' : Nat} {e : Option Nat} {g : Compiler → Garbage}

theorem Ghost.mem_holes : x * 2 ∈ G.holes ↔ x ∈ G.ends := by
  unfold holes
  rw [List.mem_map]
  constructor
  · rintro ⟨y, hy, heq⟩
    rwa [show y = x by omega] at hy
  · exact fun hx => ⟨x, hx, rfl⟩

theorem Ghost.not_mem_holes : x * 2 + 1 ∉ G.holes := by
  intro hx
  obtain ⟨y, -, heq⟩ := List.mem_map.1 hx
  omega

theorem wordTexts_cons :
    wordTexts (a :: w) = Set.image2 (· ++ ·) (byteTexts a) (wordTexts w) := by
  ext t
  rw [mem_wordTexts_cons]
  constructor
  · rintro ⟨c, u, rfl, hc, hu⟩
    exact ⟨[c], ⟨c, rfl, hc⟩, u, hu, rfl⟩
  · rintro ⟨_, ⟨c, rfl, hc⟩, u, hu, rfl⟩
    exact ⟨c, u, rfl, hc, hu⟩

theorem wordTexts_nonempty (h : w ≠ []) : [] ∉ wordTexts w := by
  intro hnil
  exact h (List.forall₂_nil_right_iff.1 hnil)

/-- A word is read label by label. -/
theorem spell_cons : Lang.spell (wordTexts (a :: w)) text p e p' ↔
    ∃ p₁, Lang.spell (byteTexts a) text p none p₁ ∧ Lang.spell (wordTexts w) text p₁ e p' := by
  rw [wordTexts_cons, ← Lang.spell_seq]
  constructor
  · rintro (⟨hne, he, -⟩ | h)
    · exact absurd he hne
    · exact h
  · exact .inr

/-! ## The runs -/

theorem wire_out {cell : Nat → Inst} (hx : x ∉ G.ends) :
    (net cell G.holes text).wire (.slot (x * 2)) = .inl (cell x).out := by
  rw [wire_slot fun hmem => hx (Ghost.mem_holes.1 hmem), target_of_fields.1]

theorem wire_out1 {cell : Nat → Inst} :
    (net cell G.holes text).wire (.slot (x * 2 + 1)) = .inl (cell x).out1 := by
  rw [wire_slot Ghost.not_mem_holes, target_of_fields.2]

theorem wire_end {cell : Nat → Inst} (hx : x ∈ G.ends) :
    (net cell G.holes text).wire (.slot (x * 2)) = .inr none :=
  wire_hole (Ghost.mem_holes.2 hx)

namespace Fits

theorem opcode_cases (h : Fits P G B s) (hx : G.role x = some r) :
    (s.cell x).opcode = Inst.opAlt ∨ (s.cell x).opcode = Inst.opByteRange := by
  cases r with
  | alt p => exact .inl (h.role hx).1
  | step p a => exact .inr (h.role hx).1
  | shared v => exact .inr (h.role hx).1

/-- A run reads a word. -/
theorem reads_of_exits (h : Fits P G B s) (hx : G.role x = some r)
    (hrun : (net s.cell G.holes text).Exits x p e p') :
    ∃ w, Reads s.cell G.ends x w ∧ Lang.spell (wordTexts w) text p e p' := by
  induction hrun generalizing r with
  | @leave x p p' port e hact hwire =>
    rcases h.opcode_cases hx with hop | hop
    · obtain ⟨-, rfl | rfl⟩ := (mem_next_alt hop).1 hact
      · cases (wire_out (h.alt_not_mem hop)).symm.trans hwire
      · cases wire_out1.symm.trans hwire
    · obtain ⟨rfl, hbyte⟩ := (Inst.mem_next_byteRange hop).1 hact
      by_cases hend : x ∈ G.ends
      · cases (wire_end hend).symm.trans hwire
        refine ⟨_, .last (.self hop) hend, ?_⟩
        rw [wordTexts_single]
        exact hbyte
      · cases (wire_out hend).symm.trans hwire
  | @follow x y p p₁ p' port e hact hwire _ ih =>
    rcases h.opcode_cases hx with hop | hop
    · obtain ⟨⟨_, hout⟩, _, hout1⟩ := h.alt_role hx hop
      obtain ⟨rfl, rfl | rfl⟩ := (mem_next_alt hop).1 hact
      · cases (wire_out (h.alt_not_mem hop)).symm.trans hwire
        obtain ⟨w, hw, hspell⟩ := ih hout
        exact ⟨w, hw.out hop, hspell⟩
      · cases wire_out1.symm.trans hwire
        obtain ⟨w, hw, hspell⟩ := ih hout1
        exact ⟨w, hw.out1 hop, hspell⟩
    · obtain ⟨rfl, hbyte⟩ := (Inst.mem_next_byteRange hop).1 hact
      by_cases hend : x ∈ G.ends
      · cases (wire_end hend).symm.trans hwire
      · cases (wire_out hend).symm.trans hwire
        obtain ⟨_, hout⟩ := h.out_role hx hop hend
        obtain ⟨w, hw, hspell⟩ := ih hout
        exact ⟨_, .step (.self hop) hend hw, spell_cons.2 ⟨p₁, hbyte, hspell⟩⟩

/-- The runs from a byte range that is reached through alternatives. -/
theorem exits_of_heads (h : Fits P G B s) (hb : Heads s.cell x b)
    (hrun : (net s.cell G.holes text).Exits b p e p') :
    (net s.cell G.holes text).Exits x p e p' := by
  induction hb with
  | self => exact hrun
  | out hop _ ih =>
    exact .follow ((mem_next_alt hop).2 ⟨rfl, .inl rfl⟩) (wire_out (h.alt_not_mem hop)) (ih hrun)
  | out1 hop _ ih => exact .follow ((mem_next_alt hop).2 ⟨rfl, .inr rfl⟩) wire_out1 (ih hrun)

/-- A word that is read has its runs. -/
theorem exits_of_reads (h : Fits P G B s) (hw : Reads s.cell G.ends x w)
    (hspell : Lang.spell (wordTexts w) text p e p') :
    (net s.cell G.holes text).Exits x p e p' := by
  induction hw generalizing p with
  | @last x b hb hend =>
    rw [wordTexts_single] at hspell
    obtain rfl : e = none := hspell.1
    apply h.exits_of_heads hb
    exact .leave ((Inst.mem_next_byteRange hb.opcode).2 ⟨rfl, hspell⟩) (wire_end hend)
  | @step x b v hb hend _ ih =>
    obtain ⟨p₁, hbyte, hrest⟩ := spell_cons.1 hspell
    apply h.exits_of_heads hb
    exact .follow ((Inst.mem_next_byteRange hb.opcode).2 ⟨rfl, hbyte⟩) (wire_out hend) (ih hrest)

theorem denotes (h : Fits P G B s) (hs : Complete P G s₀ s)
    (hfail : (s.cell 0).opcode = Inst.opFail) :
    Denotes s.cell G.holes s.runeRange.begin (.spell G.texts) := by
  rcases h.begin with h0 | hchild
  · have hnone : G.texts = ∅ := by
      unfold Ghost.texts
      rw [hs.empty h0]
      simp
    rw [h0, hnone, Lang.spell_empty]
    exact denotes_fail hfail
  · obtain ⟨r, hr⟩ := hchild.role
    intro text p e p'
    constructor
    · intro hrun
      obtain ⟨w, hw, he, t, ht, hpre⟩ := h.reads_of_exits hr hrun
      exact ⟨he, t, ⟨w, h.sound (p := []) hchild hw, ht⟩, hpre⟩
    · rintro ⟨he, t, ⟨w, hw, ht⟩, hpre⟩
      exact h.exits_of_reads (hs.reads w hw) ⟨he, t, ht, hpre⟩

/-! ## The fragment -/

theorem entries (h : Links s.cell x l) : Entries s.cell x (l.map (· * 2)) := by
  induction l generalizing x with
  | nil => exact h
  | cons e l ih =>
    refine ⟨h.1, ?_⟩
    rw [target_of_fields.1]
    exact ih h.2

/-- The instructions with a role are a fragment. -/
theorem wired (h : Fits P G B s) :
    Wired s.cell {x | ∃ r, G.role x = some r} G.holes s.runeRange where
  pos := by
    rintro ⟨r, hr⟩
    exact Nat.lt_irrefl 0 (h.bound hr).1
  hole r hr := by
    obtain ⟨e, he, rfl⟩ := List.mem_map.1 hr
    obtain ⟨a, ha⟩ := h.mem_ends.1 he
    have hdiv : e * 2 / 2 = e := by omega
    refine ⟨⟨_, by rw [hdiv]; exact ha⟩, fun hodd => ?_⟩
    omega
  closed x hx q hq hmem := by
    obtain ⟨r, hr⟩ := hx
    unfold Inst.slots at hq
    rcases h.opcode_cases hr with hop | hop
    · rw [if_pos (.inl hop)] at hq
      rcases List.mem_pair.1 hq with rfl | rfl
      · rw [target_of_fields.1]
        exact .inr (h.alt_role hr hop).1
      · rw [target_of_fields.2]
        exact .inr (h.alt_role hr hop).2
    · rw [hop, if_neg (by decide), if_neg (by decide), List.mem_singleton] at hq
      subst hq
      rw [target_of_fields.1]
      exact .inr (h.out_role hr hop fun hend => hmem (Ghost.mem_holes.2 hend))
  begin := h.begin.imp_right Ghost.Child.role
  entries := entries h.links
  tail q hq := by
    unfold Ghost.holes at hq
    rw [List.getLast?_map] at hq
    obtain ⟨e, he, rfl⟩ := Option.mem_map.1 hq
    exact h.tail e he
  nodup := h.nodup.map fun _ _ heq => by simpa using heq

end Fits

/-- What `BeginRange` to `EndRange` have built from new instructions. -/
theorem Fits.yields (h : Fits P G s.ninst s) (hs : Complete P G s₀ s) (hgood : Good s₀)
    (hbase : P.base = s₀.ninst) (hrev : P.reversed = s₀.reversed) :
    Yields ∅ (.spell G.texts) s₀ ⟨s.runeRange, false⟩ s := by
  have hfail : (s.cell 0).opcode = Inst.opFail := by
    rw [hs.below 0 (hbase ▸ hgood.pos)]
    exact hgood.fail
  refine ⟨_, ?_, ⟨⟨h.inv, h.failed, h.pos, hfail⟩, hbase ▸ h.base, h.reversed.trans hrev, ?_⟩,
    G.holes, h.wired, h.denotes hs hfail, fun _ => ?_⟩
  · rintro x ⟨r, hr⟩
    refine ⟨(h.bound hr).2, fun hlt => ?_⟩
    have := hs.above hr
    omega
  · exact fun x hx _ => hs.below x (hbase ▸ hx)
  · apply Lang.not_spell
    rintro ⟨w, hw, hnil⟩
    exact wordTexts_nonempty (hs.reads w hw).ne_nil hnil

/-- The ranges of a class, one after the other: the fragment has the texts of all of them. -/
theorem addRanges_utf8 {ranges : List RuneRange} (hs : Good s) (hranges : ClassRanges ranges) :
    Ensures Event.Fueled (addRanges g .utf8 ranges) s fun f s' =>
      Refused True s' ∨
        Yields ∅ (.spell (turn s.reversed {w | ∃ r ∈ ranges, w ∈ r.texts .utf8})) s f s' := by
  obtain ⟨P, hbase, hrev, hP⟩ := exists_plan hranges s.ninst s.reversed
  have hstart : Refused True { s with runeCache := fun _ => none, runeRange := ⟨0, .null⟩ } ∨
      Gathered P s 0 ∅ { s with runeCache := fun _ => none, runeRange := ⟨0, .null⟩ } :=
    .inr (beginRange_gathered hs.inv hs.pos hs.failed hbase hrev)
  have hrun := ranges_gathered (g := g) hranges (fun r _ => Nat.zero_le r.lo) hP _ hstart
  unfold addRanges addClass
  dsimp only
  rw [bind_assoc]
  apply Ensures.after Silent.write
  rw [bind_assoc]
  apply (hrun.weaken fun _ => Event.Ok.fueled).bind
  rintro _ s' (hfail | ⟨c, words, hrest, -, htexts⟩)
  · exact .of_silent ((Silent.read.bind .pure).bind .pure) (.inl hfail)
  · obtain ⟨G, rfl, hfits, hcomplete⟩ := hrest.fits
    have heq : G.texts = turn s.reversed {w | ∃ r ∈ ranges, w ∈ r.texts .utf8} := by
      ext t
      rw [← hrev]
      refine (htexts t).trans ?_
      rw [Set.empty_union]
    refine .of_silent ((Silent.read.bind .pure).bind .pure) (.inr ?_)
    rw [← heq]
    exact hfits.yields hcomplete hs hbase hrev

end

end FourFuzzers.Re2
