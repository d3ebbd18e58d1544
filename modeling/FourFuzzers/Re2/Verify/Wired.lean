import FourFuzzers.Re2.Verify.Patch

/-!
# Fragments

A fragment owns a set of instructions. Apart from its holes, nothing leads from them out of the set,
so the runs of the fragment depend on its own instructions only, and its language stays the same
while others are built. Instruction 0 is the fail instruction: where a slot leads to it, a run ends.
-/

namespace FourFuzzers.Re2

open FourFuzzers.Lib FourFuzzers.Lib.Traced FourFuzzers.Lib.Stateful

/-- The instructions `own` with the holes `holes`. -/
structure Part (cell : Nat → Inst) (own : Set Nat) (holes : List Nat) : Prop where
  pos : 0 ∉ own
  hole : ∀ h ∈ holes, h / 2 ∈ own ∧ (h % 2 = 1 → (cell (h / 2)).opcode = Inst.opAlt)
  closed : ∀ x ∈ own, ∀ h ∈ (cell x).slots x, h ∉ holes → target cell h ∈ insert 0 own

/-- A fragment of these instructions. -/
structure Wired (cell : Nat → Inst) (own : Set Nat) (holes : List Nat) (f : Frag) : Prop
    extends Part cell own holes where
  begin : f.begin ∈ insert 0 own
  entries : Entries cell f.ends.head holes
  tail : ∀ h ∈ holes.getLast?, f.ends.tail = h
  nodup : holes.Nodup

/-- From instruction `x` the runs are those of `L`. -/
def Denotes (cell : Nat → Inst) (holes : List Nat) (x : Nat) (L : Lang) : Prop :=
  ∀ text p e p', (net cell holes text).Exits x p e p' ↔ L text p e p'

/-- The fragment `f` owns the instructions `own` and has the language `L`. It is `nullable` if it
may match nothing. -/
def Realizes (cell : Nat → Inst) (own : Set Nat) (f : Fragment) (L : Lang) : Prop :=
  ∃ holes, Wired cell own holes f.toFrag ∧ Denotes cell holes f.begin L ∧
    (f.nullable = false → ∀ text p, ¬ L text p none p)

/-- On the instructions `own`, `cell'` is `cell` up to the targets of the slots `hs`. -/
structure SameOn (own : Set Nat) (hs : List Nat) (cell cell' : Nat → Inst) : Prop where
  next : ∀ x ∈ own, ∀ text p, (cell' x).next text x p = (cell x).next text x p
  opcode : ∀ x ∈ own, (cell' x).opcode = (cell x).opcode
  target : ∀ h, h / 2 ∈ own → h ∉ hs → target cell' h = target cell h

section

variable {cell cell' cell'' : Nat → Inst} {own own' : Set Nat} {holes holes' hs hs' : List Nat}
  {f : Frag} {L A B : Lang} {x y h : Nat}

theorem SameOn.of_eq (h : ∀ x ∈ own, cell' x = cell x) : SameOn own hs cell cell' where
  next x hx _ _ := by rw [h x hx]
  opcode x hx := by rw [h x hx]
  target r hr _ := by
    unfold Re2.target
    rw [h _ hr]

theorem Rewired.sameOn {s s' : RangeCompiler} (h : Rewired hs s s') :
    SameOn own hs s.cell s'.cell :=
  ⟨fun x _ => h.next x, fun x _ => h.opcode x, fun r _ => h.target r⟩

theorem SameOn.trans (h : SameOn own hs cell cell') (h' : SameOn own hs' cell' cell'') :
    SameOn own (hs ++ hs') cell cell'' where
  next x hx text p := (h'.next x hx text p).trans (h.next x hx text p)
  opcode x hx := (h'.opcode x hx).trans (h.opcode x hx)
  target r hr hmem := by
    rw [List.mem_append, not_or] at hmem
    exact (h'.target r hr hmem.2).trans (h.target r hr hmem.1)

theorem SameOn.mono (h : SameOn own hs cell cell') (hsub : own' ⊆ own) :
    SameOn own' hs cell cell' :=
  ⟨fun x hx => h.next x (hsub hx), fun x hx => h.opcode x (hsub hx), fun r hr => h.target r (hsub hr)⟩

/-! ## As networks -/

theorem uses_slot {text : List Nat} (hu : (net cell holes text).Uses own (.slot h)) :
    h / 2 ∈ own ∧ h ∈ (cell (h / 2)).slots (h / 2) := by
  obtain ⟨x, hx, p, p', hact⟩ := hu
  have hslot := Inst.slot_of_next hact
  have hdiv := Inst.div_of_slot hslot
  rw [hdiv]
  exact ⟨hx, hslot⟩

theorem SameOn.actsAlike {text : List Nat} (h : SameOn own hs cell cell') :
    (net cell holes text).ActsAlike (net cell' holes' text) own := by
  intro x hx p port p'
  change _ ∈ (cell' x).next text x p ↔ _ ∈ (cell x).next text x p
  rw [h.next x hx]

theorem wire_slot {text : List Nat} (hh : h ∉ holes) :
    (net cell holes text).wire (.slot h) = .inl (target cell h) :=
  if_neg hh

theorem wire_hole {text : List Nat} (hh : h ∈ holes) :
    (net cell holes text).wire (.slot h) = .inr none :=
  if_pos hh

/-- The fail instruction has no slots. -/
theorem mem_of_uses (hfail : (cell 0).opcode = Inst.opFail) {text : List Nat}
    (hu : (net cell holes text).Uses (insert 0 own) (.slot h)) :
    h / 2 ∈ own ∧ h ∈ (cell (h / 2)).slots (h / 2) := by
  obtain ⟨hmem, hslot⟩ := uses_slot hu
  refine ⟨hmem.resolve_left ?_, hslot⟩
  intro h0
  rw [h0] at hslot
  simp [Inst.slots, hfail, Inst.opFail, Inst.opAlt, Inst.opAltMatch] at hslot

namespace Part

variable (hpart : Part cell own holes) (hfail : (cell 0).opcode = Inst.opFail)

include hpart hfail in
theorem net_closed (text : List Nat) : (net cell holes text).Closed (insert 0 own) := by
  intro port hu y hwire
  cases port with
  | matched id => cases hwire
  | slot r =>
    obtain ⟨hmem, hslot⟩ := mem_of_uses hfail hu
    by_cases hr : r ∈ holes
    · rw [wire_hole hr] at hwire
      cases hwire
    · rw [wire_slot hr] at hwire
      cases hwire
      exact hpart.closed _ hmem _ hslot hr

include hpart hfail in
/-- The runs stay the same while its own instructions do, up to its holes. -/
theorem exits_same (hsame : SameOn (insert 0 own) hs cell cell')
    (hhs : ∀ h ∈ hs, h / 2 ∈ own → h ∈ holes) (hholes : ∀ h, h / 2 ∈ own → (h ∈ holes' ↔ h ∈ holes))
    (hx : x ∈ insert 0 own) {text : List Nat} {p p' : Nat} {e : Option Nat} :
    (net cell' holes' text).Exits x p e p' ↔ (net cell holes text).Exits x p e p' := by
  apply Network.exits_congr hsame.actsAlike (hpart.net_closed hfail text) _ hx
  intro port hu
  cases port with
  | matched id => rfl
  | slot r =>
    obtain ⟨hmem, -⟩ := mem_of_uses hfail hu
    by_cases hr : r ∈ holes
    · rw [wire_hole hr, wire_hole ((hholes r hmem).2 hr)]
    · rw [wire_slot hr, wire_slot fun hr' => hr ((hholes r hmem).1 hr'),
        hsame.target r (.inr hmem) fun hrs => hr (hhs r hrs hmem)]

include hpart hfail in
/-- The holes are connected to `y`. -/
theorem connects (hsame : SameOn (insert 0 own) hs cell cell')
    (hhs : ∀ h ∈ hs, h / 2 ∈ own → h ∈ holes)
    (hset : ∀ h ∈ holes, h ∉ holes' ∧ target cell' h = y)
    (hholes : ∀ h, h / 2 ∈ own → h ∉ holes') (text : List Nat) :
    (net cell holes text).Connects (net cell' holes' text) (insert 0 own) none y where
  acts := hsame.actsAlike
  closed := hpart.net_closed hfail text
  exit port hu hwire := by
    cases port with
    | matched id => cases hwire
    | slot r =>
      by_cases hr : r ∈ holes
      · rw [wire_slot (hset r hr).1, (hset r hr).2]
      · rw [wire_slot hr] at hwire
        cases hwire
  keep port hu hwire := by
    cases port with
    | matched id => rfl
    | slot r =>
      obtain ⟨hmem, -⟩ := mem_of_uses hfail hu
      by_cases hr : r ∈ holes
      · exact absurd (wire_hole hr) hwire
      · rw [wire_slot hr, wire_slot (hholes r hmem),
          hsame.target r (.inr hmem) fun hrs => hr (hhs r hrs hmem)]

end Part

/-! ## What is left alone stays the same -/

theorem Part.same (h : Part cell own holes) (hsame : SameOn own [] cell cell') :
    Part cell' own holes where
  pos := h.pos
  hole r hr := by
    rw [hsame.opcode _ (h.hole r hr).1]
    exact h.hole r hr
  closed x hx r hr hmem := by
    rw [Inst.slots_congr (hsame.opcode x hx)] at hr
    rw [hsame.target r (by rwa [Inst.div_of_slot hr]) List.not_mem_nil]
    exact h.closed x hx r hr hmem

theorem Wired.same (h : Wired cell own holes f) (hsame : SameOn own [] cell cell') :
    Wired cell' own holes f where
  toPart := h.toPart.same hsame
  begin := h.begin
  entries := h.entries.congr fun r hr => hsame.target r (h.hole r hr).1 List.not_mem_nil
  tail := h.tail
  nodup := h.nodup

theorem Wired.frame (h : Wired cell own holes f) (hden : Denotes cell holes f.begin L)
    (hfail : (cell 0).opcode = Inst.opFail) (hcell : ∀ x ∈ insert 0 own, cell' x = cell x) :
    Wired cell' own holes f ∧ Denotes cell' holes f.begin L := by
  have hsame : SameOn (insert 0 own) [] cell cell' := .of_eq hcell
  refine ⟨h.same (hsame.mono (Set.subset_insert 0 own)), ?_⟩
  intro text p e p'
  rw [← hden text p e p']
  exact h.exits_same hfail hsame (by simp) (fun _ _ => Iff.rfl) h.begin

theorem Realizes.pos {f : Fragment} (h : Realizes cell own f L) : 0 ∉ own :=
  h.elim fun _ h => h.1.pos

/-- A fragment whose instructions are left alone. -/
theorem Realizes.frame {f : Fragment} (h : Realizes cell own f L)
    (hfail : (cell 0).opcode = Inst.opFail) (hcell : ∀ x ∈ insert 0 own, cell' x = cell x) :
    Realizes cell' own f L := by
  obtain ⟨holes, hwired, hden, hnull⟩ := h
  obtain ⟨hwired', hden'⟩ := hwired.frame hden hfail hcell
  exact ⟨holes, hwired', hden', hnull⟩

end

end FourFuzzers.Re2
