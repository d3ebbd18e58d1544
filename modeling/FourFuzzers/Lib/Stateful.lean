import FourFuzzers.Lib.Traced

/-!
# Traced computations over a state

`Ensures P x s Q` is the specification of a computation that is started in `s`: every event has `P`,
and the result and the final state have `Q`. A computation that performs no event and whose outcome
is known is `Silent`; one that keeps a property of the state, whatever it returns, is a `Keeps`.
-/

namespace FourFuzzers.Lib

universe u v

open Traced

namespace Stateful

variable {ε : Type u} {σ α β : Type v} {P : ε → Prop} {x : StateT σ (Traced ε) α}
  {f : α → StateT σ (Traced ε) β} {s s' s'' : σ}

/-- From `s`, every event of `x` has `P`, and the result and the final state have `Q`. -/
def Ensures (P : ε → Prop) (x : StateT σ (Traced ε) α) (s : σ) (Q : α → σ → Prop) : Prop :=
  Meets (.every P) (fun r => Q r.1 r.2) (x.run s)

/-- From `s`, `x` returns `a` in `s'` and performs no event. -/
def Silent (x : StateT σ (Traced ε) α) (s : σ) (a : α) (s' : σ) : Prop := x.run s = pure (a, s')

namespace Silent

theorem pure {a : α} : Silent (Pure.pure a : StateT σ (Traced ε) α) s a s := rfl

theorem bind {a : α} {b : β} (hx : Silent x s a s') (hf : Silent (f a) s' b s'') :
    Silent (x >>= f) s b s'' := by
  unfold Silent
  rw [StateT.run_bind, hx, pure_bind]
  exact hf

/-- There is one outcome. -/
theorem unique {a b : α} (h : Silent x s a s') (h' : Silent x s b s'') : a = b ∧ s' = s'' :=
  Prod.mk.inj (congrArg Traced.val (h.symm.trans h'))

theorem bind_exists {a : α} {R : β → Prop} (hx : Silent x s a s')
    (h : ∃ b, Silent (f a) s' b s'' ∧ R b) : ∃ b, Silent (x >>= f) s b s'' ∧ R b :=
  h.imp fun _ hb => ⟨hx.bind hb.1, hb.2⟩

theorem read : Silent (get : StateT σ (Traced ε) σ) s s s := rfl

theorem write {g : σ → σ} : Silent (modify g : StateT σ (Traced ε) PUnit) s ⟨⟩ (g s) := rfl

end Silent

namespace Ensures

variable {Q R : α → σ → Prop} {S : β → σ → Prop}

theorem pure {a : α} (h : Q a s) : Ensures P (Pure.pure a) s Q := Meets.pure h

theorem bind (hx : Ensures P x s Q) (hf : ∀ a s', Q a s' → Ensures P (f a) s' S) :
    Ensures P (x >>= f) s S := by
  unfold Ensures
  rw [StateT.run_bind]
  exact Meets.bind hx fun r hr => hf r.1 r.2 hr

theorem mono (h : Ensures P x s Q) (hQ : ∀ a s', Q a s' → R a s') : Ensures P x s R :=
  Meets.mono h fun r hr => hQ r.1 r.2 hr

theorem weaken {P' : ε → Prop} (h : Ensures P x s Q) (hP : ∀ e, P e → P' e) :
    Ensures P' x s Q :=
  Meets.weaken h fun _ hl e he => hP e (hl e he)

/-- A computation has one outcome, so what is known of it may be put together. -/
theorem and {P' : ε → Prop} (h : Ensures P x s Q) (h' : Ensures P' x s R) :
    Ensures P x s fun a s' => Q a s' ∧ R a s' :=
  Meets.and_val h h'.val

/-- A silent computation is replaced by its result. -/
theorem after {a : α} (hx : Silent x s a s') (hf : Ensures P (f a) s' S) :
    Ensures P (x >>= f) s S := by
  unfold Ensures
  rw [StateT.run_bind, hx, pure_bind]
  exact hf

/-- What follows a silent computation is specified by the whole. -/
theorem of_after {a : α} (hx : Silent x s a s') (h : Ensures P (x >>= f) s S) :
    Ensures P (f a) s' S := by
  unfold Ensures at h
  rw [StateT.run_bind, hx, pure_bind] at h
  exact h

theorem of_silent {a : α} (hx : Silent x s a s') (h : Q a s') : Ensures P x s Q := by
  unfold Ensures
  rw [hx]
  exact Meets.pure h

end Ensures

/-- From every state with `F`, the events of `x` have `P` and the final state has `F`. -/
def Keeps (P : ε → Prop) (F : σ → Prop) (x : StateT σ (Traced ε) α) : Prop :=
  ∀ s, F s → Ensures P x s fun _ s' => F s'

namespace Keeps

variable {F : σ → Prop}

theorem pure {a : α} : Keeps P F (Pure.pure a : StateT σ (Traced ε) α) := fun _ hs => .pure hs

theorem bind (hx : Keeps P F x) (hf : ∀ a, Keeps P F (f a)) : Keeps P F (x >>= f) :=
  fun s hs => (hx s hs).bind fun a s' hs' => hf a s' hs'

theorem foldlM {γ : Type v} {h : α → γ → StateT σ (Traced ε) α} (hh : ∀ a c, Keeps P F (h a c))
    (l : List γ) (a : α) : Keeps P F (l.foldlM h a) := by
  induction l generalizing a with
  | nil => exact pure
  | cons c l ih => exact (hh a c).bind fun b => ih b

end Keeps

/-- A computation that may give up, after which the state has `F`. From a state with `F` it does
nothing that matters; from one with `R`, unless it gives up, it leaves `Q`. -/
def Tries (P : ε → Prop) (F R : σ → Prop) (x : StateT σ (Traced ε) α) (Q : α → σ → Prop) : Prop :=
  ∀ s, F s ∨ R s → Ensures P x s fun a s' => F s' ∨ Q a s'

namespace Tries

variable {F R : σ → Prop} {Q : α → σ → Prop} {S : β → σ → Prop}

theorem of_keeps (hF : Keeps P F x)
    (hR : ∀ s, R s → Ensures P x s fun a s' => F s' ∨ Q a s') : Tries P F R x Q := by
  rintro s (hs | hs)
  · exact (hF s hs).mono fun _ _ => .inl
  · exact hR s hs

theorem pure {a : α} (h : ∀ s, R s → Q a s) : Tries P F R (Pure.pure a) Q :=
  fun s hs => .pure (hs.imp_right (h s))

theorem bind (hx : Tries P F R x Q) (hf : ∀ a, Tries P F (Q a) (f a) S) :
    Tries P F R (x >>= f) S :=
  fun s hs => (hx s hs).bind fun a s' hs' => hf a s' hs'

theorem weaken {R' : σ → Prop} (hx : Tries P F R x Q) (h : ∀ s, R' s → R s) : Tries P F R' x Q :=
  fun s hs => hx s (hs.imp_right (h s))

theorem mono {Q' : α → σ → Prop} (hx : Tries P F R x Q) (h : ∀ a s, Q a s → Q' a s) :
    Tries P F R x Q' :=
  fun s hs => (hx s hs).mono fun a s' => Or.imp_right (h a s')

end Tries

end Stateful

end FourFuzzers.Lib
