import Mathlib

/-!
# Networks

A node acts on a state and is left through one of its ports, and a wire leads from the port to the
next node or out of the network, under a label. `Exits x s e s'` is a run from node `x` in state `s`
that leaves under the label `e` in state `s'`.

A set of nodes no wire leads out of may be looked at on its own (`exits_congr`). What its runs do
when the exits with one label are wired to a node is known from the runs before (`exits_connect`),
also when that node leads back into the set (`exits_loop`).
-/

namespace FourFuzzers.Lib

universe u v w z

structure Network (N : Type u) (P : Type v) (E : Type w) (S : Type z) where
  acts : N → S → P → S → Prop
  wire : P → N ⊕ E

namespace Network

variable {N : Type u} {P : Type v} {E : Type w} {S : Type z} {M M' : Network N P E S}
  {own : Set N} {x y : N} {e e₀ : E} {s s' : S}

inductive Exits (M : Network N P E S) : N → S → E → S → Prop
  | leave {x : N} {s s' : S} {p : P} {e : E} : M.acts x s p s' → M.wire p = .inr e →
      Exits M x s e s'
  | follow {x y : N} {s s' s'' : S} {p : P} {e : E} : M.acts x s p s' → M.wire p = .inl y →
      Exits M y s' e s'' → Exits M x s e s''

/-- A run takes one port first. -/
theorem exits_iff : M.Exits x s e s' ↔ ∃ p s₁, M.acts x s p s₁ ∧
    ((M.wire p = .inr e ∧ s₁ = s') ∨ ∃ y, M.wire p = .inl y ∧ M.Exits y s₁ e s') := by
  constructor
  · intro h
    cases h with
    | leave hact hwire => exact ⟨_, _, hact, .inl ⟨hwire, rfl⟩⟩
    | follow hact hwire hrest => exact ⟨_, _, hact, .inr ⟨_, hwire, hrest⟩⟩
  · rintro ⟨p, s₁, hact, ⟨hwire, rfl⟩ | ⟨y, hwire, hrest⟩⟩
    · exact .leave hact hwire
    · exact .follow hact hwire hrest

/-- A node that never acts has no runs. -/
theorem not_exits (h : ∀ p s₁, ¬ M.acts x s p s₁) : ¬ M.Exits x s e s' := by
  intro hx
  obtain ⟨p, s₁, hact, -⟩ := exits_iff.1 hx
  exact h p s₁ hact

/-- A port some node of `own` is left through. -/
def Uses (M : Network N P E S) (own : Set N) (p : P) : Prop :=
  ∃ x ∈ own, ∃ s s', M.acts x s p s'

/-- No wire leads out of `own`. -/
def Closed (M : Network N P E S) (own : Set N) : Prop :=
  ∀ p, M.Uses own p → ∀ y, M.wire p = .inl y → y ∈ own

/-- The nodes of `own` act alike. -/
def ActsAlike (M M' : Network N P E S) (own : Set N) : Prop :=
  ∀ x ∈ own, ∀ s p s', M'.acts x s p s' ↔ M.acts x s p s'

theorem ActsAlike.uses (h : M.ActsAlike M' own) {p : P} : M'.Uses own p ↔ M.Uses own p :=
  exists_congr fun x => and_congr_right fun hx => exists_congr fun s => exists_congr fun s' =>
    h x hx s p s'

theorem exits_mono (hacts : M.ActsAlike M' own) (hclosed : M.Closed own)
    (hwire : ∀ p, M.Uses own p → M'.wire p = M.wire p) (hx : x ∈ own) (h : M.Exits x s e s') :
    M'.Exits x s e s' := by
  induction h with
  | @leave x s s' p e hact hexit =>
    exact .leave ((hacts x hx s p s').2 hact) ((hwire p ⟨x, hx, s, s', hact⟩).trans hexit)
  | @follow x y s s' s'' p e hact hnext _ ih =>
    have huses : M.Uses own p := ⟨x, hx, s, s', hact⟩
    exact .follow ((hacts x hx s p s').2 hact) ((hwire p huses).trans hnext)
      (ih (hclosed p huses y hnext))

/-- The runs from a closed set depend on its nodes and their wires only. -/
theorem exits_congr (hacts : M.ActsAlike M' own) (hclosed : M.Closed own)
    (hwire : ∀ p, M.Uses own p → M'.wire p = M.wire p) (hx : x ∈ own) :
    M'.Exits x s e s' ↔ M.Exits x s e s' := by
  refine ⟨?_, exits_mono hacts hclosed hwire hx⟩
  apply exits_mono (fun x hx s p s' => (hacts x hx s p s').symm) _ _ hx
  · intro p huses y hnext
    have huses := hacts.uses.1 huses
    exact hclosed p huses y ((hwire p huses).symm.trans hnext)
  · exact fun p huses => (hwire p (hacts.uses.1 huses)).symm

/-- Where no run leaves under the label `e₀`, the ports that would may be wired anywhere. -/
theorem exits_unused (hacts : ∀ x s p s', M'.acts x s p s' ↔ M.acts x s p s')
    (hwire : ∀ p, M.wire p ≠ .inr e₀ → M'.wire p = M.wire p) (h : ∀ s', ¬ M.Exits x s e₀ s') :
    M'.Exits x s e s' ↔ M.Exits x s e s' := by
  have hport : ∀ {x s p s₁}, (∀ s', ¬ M.Exits x s e₀ s') → M.acts x s p s₁ →
      M'.wire p = M.wire p := fun h hact => hwire _ fun hexit => h _ (.leave hact hexit)
  constructor
  · intro hrun
    induction hrun with
    | leave hact hexit =>
      have hact := (hacts _ _ _ _).1 hact
      exact .leave hact ((hport h hact).symm.trans hexit)
    | follow hact hnext _ ih =>
      have hact := (hacts _ _ _ _).1 hact
      have hnext := (hport h hact).symm.trans hnext
      exact .follow hact hnext (ih fun s' hrun => h s' (.follow hact hnext hrun))
  · intro hrun
    induction hrun with
    | leave hact hexit => exact .leave ((hacts _ _ _ _).2 hact) ((hport h hact).trans hexit)
    | follow hact hnext _ ih =>
      exact .follow ((hacts _ _ _ _).2 hact) ((hport h hact).trans hnext)
        (ih fun s' hrun => h s' (.follow hact hnext hrun))

/-! ## Connecting exits -/

/-- In `M'`, the exits of `own` with the label `e₀` lead to `y`, and nothing else changes. -/
structure Connects (M M' : Network N P E S) (own : Set N) (e₀ : E) (y : N) : Prop where
  acts : M.ActsAlike M' own
  closed : M.Closed own
  exit : ∀ p, M.Uses own p → M.wire p = .inr e₀ → M'.wire p = .inl y
  keep : ∀ p, M.Uses own p → M.wire p ≠ .inr e₀ → M'.wire p = M.wire p

namespace Connects

theorem of_exits (h : M.Connects M' own e₀ y) (hx : x ∈ own) {s₁ : S}
    (hrun : M.Exits x s e₀ s₁) (hrest : M'.Exits y s₁ e s') : M'.Exits x s e s' := by
  generalize he : e₀ = e₁ at hrun
  induction hrun with
  | @leave x s s₁ p _ hact hexit =>
    subst he
    exact .follow ((h.acts x hx s p s₁).2 hact) (h.exit p ⟨x, hx, s, s₁, hact⟩ hexit) hrest
  | @follow x z s s₂ s₁ p _ hact hnext _ ih =>
    have huses : M.Uses own p := ⟨x, hx, s, s₂, hact⟩
    have hkeep := h.keep p huses (by simp [hnext])
    exact .follow ((h.acts x hx s p s₂).2 hact) (hkeep.trans hnext)
      (ih (h.closed p huses z hnext) hrest he)

theorem of_exits_ne (h : M.Connects M' own e₀ y) (hx : x ∈ own) (he : e ≠ e₀)
    (hrun : M.Exits x s e s') : M'.Exits x s e s' := by
  induction hrun with
  | @leave x s s' p e hact hexit =>
    have hkeep := h.keep p ⟨x, hx, s, s', hact⟩ (by simpa [hexit] using he)
    exact .leave ((h.acts x hx s p s').2 hact) (hkeep.trans hexit)
  | @follow x z s s₂ s' p e hact hnext _ ih =>
    have huses : M.Uses own p := ⟨x, hx, s, s₂, hact⟩
    have hkeep := h.keep p huses (by simp [hnext])
    exact .follow ((h.acts x hx s p s₂).2 hact) (hkeep.trans hnext)
      (ih (h.closed p huses z hnext) he)

/-- The ways on from a port: it is connected, or nothing changes. -/
theorem wire_cases (h : M.Connects M' own e₀ y) {p : P} (huses : M.Uses own p) :
    (M.wire p = .inr e₀ ∧ M'.wire p = .inl y) ∨
      M.wire p ≠ .inr e₀ ∧ M'.wire p = M.wire p := by
  by_cases hexit : M.wire p = .inr e₀
  · exact .inl ⟨hexit, h.exit p huses hexit⟩
  · exact .inr ⟨hexit, h.keep p huses hexit⟩

/-- A run that leaves at once does so under another label. -/
theorem leave_ne (h : M.Connects M' own e₀ y) (hx : x ∈ own) {p : P} (hact : M'.acts x s p s')
    (hexit : M'.wire p = .inr e) : e ≠ e₀ ∧ M.Exits x s e s' := by
  have hact := (h.acts x hx s p s').1 hact
  rcases h.wire_cases ⟨x, hx, s, s', hact⟩ with ⟨-, hwire⟩ | ⟨hne, hwire⟩
  · rw [hwire] at hexit
    cases hexit
  · rw [hwire] at hexit
    refine ⟨?_, .leave hact hexit⟩
    rintro rfl
    exact hne hexit

/-- A run that goes on does so within the set or through the connection. -/
theorem follow_cases (h : M.Connects M' own e₀ y) (hx : x ∈ own) {z : N} {p : P}
    (hact : M'.acts x s p s') (hnext : M'.wire p = .inl z) :
    M.acts x s p s' ∧ ((M.wire p = .inr e₀ ∧ z = y) ∨ M.wire p = .inl z ∧ z ∈ own) := by
  have hact := (h.acts x hx s p s').1 hact
  have huses : M.Uses own p := ⟨x, hx, s, s', hact⟩
  rcases h.wire_cases huses with ⟨hexit, hwire⟩ | ⟨-, hwire⟩
  · rw [hwire] at hnext
    exact ⟨hact, .inl ⟨hexit, (Sum.inl.inj hnext).symm⟩⟩
  · rw [hwire] at hnext
    exact ⟨hact, .inr ⟨hnext, h.closed p huses z hnext⟩⟩

end Connects

/-- A run behind the connection is one before it, up to its first exit through `e₀`. -/
theorem exits_connect (h : M.Connects M' own e₀ y) (hx : x ∈ own) :
    M'.Exits x s e s' ↔
      (e ≠ e₀ ∧ M.Exits x s e s') ∨ ∃ s₁, M.Exits x s e₀ s₁ ∧ M'.Exits y s₁ e s' := by
  constructor
  · intro hrun
    induction hrun with
    | leave hact hexit => exact .inl (h.leave_ne hx hact hexit)
    | @follow x z s s₂ s' p e hact hnext hrest ih =>
      obtain ⟨hact, ⟨hexit, rfl⟩ | ⟨hnext, hz⟩⟩ := h.follow_cases hx hact hnext
      · exact .inr ⟨s₂, .leave hact hexit, hrest⟩
      · rcases ih hz with ⟨he, hrun⟩ | ⟨s₁, hrun, hrest⟩
        · exact .inl ⟨he, .follow hact hnext hrun⟩
        · exact .inr ⟨s₁, .follow hact hnext hrun, hrest⟩
  · rintro (⟨he, hrun⟩ | ⟨s₁, hrun, hrest⟩)
    · exact h.of_exits_ne hx he hrun
    · exact h.of_exits hx hrun hrest

/-! ## Loops -/

/-- Node `l` offers `x` or the exit `e₀`, and does not change the state. -/
structure Offers (M : Network N P E S) (l x : N) (e₀ : E) : Prop where
  acts : ∀ {s p s'}, M.acts l s p s' → s' = s ∧ (M.wire p = .inl x ∨ M.wire p = .inr e₀)
  enter : ∀ s, ∃ p, M.acts l s p s ∧ M.wire p = .inl x
  leave : ∀ s, ∃ p, M.acts l s p s ∧ M.wire p = .inr e₀

/-- Runs from `x` to `e₀` any number of times, and then an exit: through `e₀`, or from within. -/
def Repeats (M : Network N P E S) (x : N) (e₀ : E) (s : S) (e : E) (s' : S) : Prop :=
  ∃ s₁, Relation.ReflTransGen (fun s s' => M.Exits x s e₀ s') s s₁ ∧
    ((e = e₀ ∧ s' = s₁) ∨ e ≠ e₀ ∧ M.Exits x s₁ e s')

theorem Repeats.head {s₁ : S} (hrun : M.Exits x s e₀ s₁) (h : M.Repeats x e₀ s₁ e s') :
    M.Repeats x e₀ s e s' := by
  obtain ⟨s₂, hstar, hend⟩ := h
  exact ⟨s₂, .head hrun hstar, hend⟩

/-- From `l` itself, and from within the set up to where it comes back to `l`. -/
theorem repeats_of_exits {l z : N} (h : M.Connects M' own e₀ l) (hl : M'.Offers l x e₀)
    (hx : x ∈ own) (hrun : M'.Exits z s e s') :
    (z = l → M.Repeats x e₀ s e s') ∧
      (z ∈ own → (e ≠ e₀ ∧ M.Exits z s e s') ∨
        ∃ s₁, M.Exits z s e₀ s₁ ∧ M.Repeats x e₀ s₁ e s') := by
  induction hrun with
  | @leave z s s' p e hact hexit =>
    constructor
    · rintro rfl
      obtain ⟨rfl, hwire | hwire⟩ := hl.acts hact
      · rw [hwire] at hexit
        cases hexit
      · rw [hwire] at hexit
        exact ⟨s', .refl, .inl ⟨(Sum.inr.inj hexit).symm, rfl⟩⟩
    · exact fun hz => .inl (h.leave_ne hz hact hexit)
  | @follow z y s s₂ s' p e hact hnext _ ih =>
    constructor
    · rintro rfl
      obtain ⟨rfl, hwire | hwire⟩ := hl.acts hact
      · rw [hwire] at hnext
        cases hnext
        rcases ih.2 hx with ⟨he, hrun⟩ | ⟨s₁, hrun, hrest⟩
        · exact ⟨s₂, .refl, .inr ⟨he, hrun⟩⟩
        · exact hrest.head hrun
      · rw [hwire] at hnext
        cases hnext
    · intro hz
      obtain ⟨hact, ⟨hexit, rfl⟩ | ⟨hnext, hy⟩⟩ := h.follow_cases hz hact hnext
      · exact .inr ⟨s₂, .leave hact hexit, ih.1 rfl⟩
      · rcases ih.2 hy with ⟨he, hrun⟩ | ⟨s₁, hrun, hrest⟩
        · exact .inl ⟨he, .follow hact hnext hrun⟩
        · exact .inr ⟨s₁, .follow hact hnext hrun, hrest⟩

theorem exits_loop {l : N} (h : M.Connects M' own e₀ l) (hl : M'.Offers l x e₀) (hx : x ∈ own) :
    M'.Exits l s e s' ↔ M.Repeats x e₀ s e s' := by
  refine ⟨fun hrun => (repeats_of_exits h hl hx hrun).1 rfl, ?_⟩
  rintro ⟨s₁, hstar, hend⟩
  induction hstar using Relation.ReflTransGen.head_induction_on with
  | refl =>
    rcases hend with ⟨rfl, rfl⟩ | ⟨he, hrun⟩
    · obtain ⟨p, hact, hwire⟩ := hl.leave s'
      exact .leave hact hwire
    · obtain ⟨p, hact, hwire⟩ := hl.enter s₁
      exact .follow hact hwire (h.of_exits_ne hx he hrun)
  | @head s s₂ hrun _ ih =>
    obtain ⟨p, hact, hwire⟩ := hl.enter s
    exact .follow hact hwire (h.of_exits hx hrun ih)

end Network

end FourFuzzers.Lib
