import Mathlib

/-!
# Traced computations

A `Traced ε α` is a result together with the list of events performed on the way to it, in order.
The trace never influences the result, so a program written in this monad has one meaning for its
values (`val`) and one for what it did (`log`): a monitor that stops a run at its first bad event
is a question about the first bad event of the trace.

`Meets Λ Q x` is the specification of a computation: its trace has `Λ`, a property closed under
concatenation, and its result has `Q`. It has one rule for each operation of the monad.
-/

namespace FourFuzzers.Lib

universe u v

/-- A result with the events performed while computing it. -/
structure Traced (ε : Type u) (α : Type v) where
  val : α
  log : List ε

namespace Traced

variable {ε : Type u} {α β : Type v}

instance : Monad (Traced ε) where
  pure a := ⟨a, []⟩
  bind x f := ⟨(f x.val).val, x.log ++ (f x.val).log⟩

/-- Perform one event. -/
def emit (e : ε) : Traced ε PUnit := ⟨⟨⟩, [e]⟩

/-- The same result, with every event of the trace sent through `g`. -/
def mapLog (g : ε → ε) (x : Traced ε α) : Traced ε α := ⟨x.val, x.log.map g⟩

/-- `a && b`, where `b` is evaluated when `a` holds. -/
def both (a b : Traced ε Bool) : Traced ε Bool := do
  if ← a then b else pure false

/-- `a || b`, where `b` is evaluated when `a` fails. -/
def either (a b : Traced ε Bool) : Traced ε Bool := do
  if ← a then pure true else b

@[simp] theorem val_pure (a : α) : (pure a : Traced ε α).val = a := rfl

@[simp] theorem log_pure (a : α) : (pure a : Traced ε α).log = [] := rfl

@[simp] theorem val_bind (x : Traced ε α) (f : α → Traced ε β) :
    (x >>= f).val = (f x.val).val := rfl

@[simp] theorem log_bind (x : Traced ε α) (f : α → Traced ε β) :
    (x >>= f).log = x.log ++ (f x.val).log := rfl

@[ext] theorem ext {x y : Traced ε α} (hv : x.val = y.val) (hl : x.log = y.log) : x = y := by
  cases x
  cases y
  subst hv hl
  rfl

instance : LawfulMonad (Traced ε) :=
  .mk' (Traced ε) (fun x => ext rfl (List.append_nil x.log)) (fun _ _ => rfl)
    (fun x _ _ => ext rfl (List.append_assoc x.log _ _))

@[simp] theorem val_map (f : α → β) (x : Traced ε α) : (f <$> x).val = f x.val := rfl

@[simp] theorem log_map (f : α → β) (x : Traced ε α) : (f <$> x).log = x.log :=
  List.append_nil x.log

@[simp] theorem log_emit (e : ε) : (emit e).log = [e] := rfl

@[simp] theorem val_mapLog (g : ε → ε) (x : Traced ε α) : (mapLog g x).val = x.val := rfl

@[simp] theorem log_mapLog (g : ε → ε) (x : Traced ε α) :
    (mapLog g x).log = x.log.map g := rfl

end Traced

/-! ## Properties of traces -/

/-- A property of traces that holds of the empty trace and of concatenations. -/
structure LogProp (ε : Type u) where
  Holds : List ε → Prop
  nil : Holds []
  append {l₁ l₂ : List ε} : Holds l₁ → Holds l₂ → Holds (l₁ ++ l₂)

/-- Every event of the trace has property `P`. -/
def LogProp.every {ε : Type u} (P : ε → Prop) : LogProp ε where
  Holds l := ∀ e ∈ l, P e
  nil := by simp
  append h₁ h₂ := by
    intro e he
    rcases List.mem_append.1 he with he | he
    · exact h₁ e he
    · exact h₂ e he

namespace Traced

variable {ε : Type u} {α β : Type v} {Λ Λ' : LogProp ε} {Q R : α → Prop}

/-- The trace of `x` has `Λ` and its result has `Q`. -/
def Meets (Λ : LogProp ε) (Q : α → Prop) (x : Traced ε α) : Prop := Λ.Holds x.log ∧ Q x.val

namespace Meets

theorem log {x : Traced ε α} (h : Meets Λ Q x) : Λ.Holds x.log := h.1

theorem val {x : Traced ε α} (h : Meets Λ Q x) : Q x.val := h.2

theorem pure {a : α} (h : Q a) : Meets Λ Q (Pure.pure a : Traced ε α) := ⟨Λ.nil, h⟩

theorem bind {x : Traced ε α} {f : α → Traced ε β} {S : β → Prop} (hx : Meets Λ Q x)
    (hf : ∀ a, Q a → Meets Λ S (f a)) : Meets Λ S (x >>= f) :=
  ⟨Λ.append hx.log (hf _ hx.val).log, (hf _ hx.val).val⟩

theorem mono {x : Traced ε α} (h : Meets Λ Q x) (hQ : ∀ a, Q a → R a) : Meets Λ R x :=
  ⟨h.log, hQ _ h.val⟩

theorem weaken {x : Traced ε α} (h : Meets Λ Q x) (hΛ : ∀ l, Λ.Holds l → Λ'.Holds l) :
    Meets Λ' Q x :=
  ⟨hΛ _ h.log, h.val⟩

theorem both {a b : Traced ε Bool} {x y : Bool} (ha : Meets Λ (· = x) a)
    (hb : x = true → Meets Λ (· = y) b) : Meets Λ (· = (x && y)) (Traced.both a b) := by
  unfold Traced.both
  apply ha.bind
  rintro c rfl
  cases c with
  | true => exact hb rfl
  | false => exact pure rfl

theorem either {a b : Traced ε Bool} {x y : Bool} (ha : Meets Λ (· = x) a)
    (hb : x = false → Meets Λ (· = y) b) : Meets Λ (· = (x || y)) (Traced.either a b) := by
  unfold Traced.either
  apply ha.bind
  rintro c rfl
  cases c with
  | true => exact pure rfl
  | false => exact hb rfl

theorem mapLog {g : ε → ε} {x : Traced ε α} (h : Meets Λ Q x)
    (hg : ∀ l, Λ.Holds l → Λ.Holds (l.map g)) : Meets Λ Q (Traced.mapLog g x) :=
  ⟨hg _ h.log, h.val⟩

/-- What is known of the result for other reasons may be added to its specification. -/
theorem and_val {x : Traced ε α} (h : Meets Λ Q x) (hR : R x.val) :
    Meets Λ (fun a => Q a ∧ R a) x :=
  ⟨h.log, h.val, hR⟩

end Meets

/-- The result has `Q`, provided every event of the trace has `H`. -/
def Yields (H : ε → Prop) (Q : α → Prop) (x : Traced ε α) : Prop := (∀ e ∈ x.log, H e) → Q x.val

namespace Yields

variable {H : ε → Prop}

theorem pure {a : α} (h : Q a) : Yields H Q (Pure.pure a : Traced ε α) := fun _ => h

theorem trivial (x : Traced ε α) : Yields H (fun _ => True) x := fun _ => True.intro

theorem bind {x : Traced ε α} {f : α → Traced ε β} {S : β → Prop} (hx : Yields H Q x)
    (hf : ∀ a, Q a → Yields H S (f a)) : Yields H S (x >>= f) := fun hlog =>
  hf _ (hx fun e he => hlog e (List.mem_append_left _ he))
    fun e he => hlog e (List.mem_append_right _ he)

/-- A computation whose result does not matter. -/
theorem skip {x : Traced ε α} {f : α → Traced ε β} {S : β → Prop}
    (hf : ∀ a, Yields H S (f a)) : Yields H S (x >>= f) :=
  (trivial x).bind fun a _ => hf a

theorem mono {x : Traced ε α} (h : Yields H Q x) (hQ : ∀ a, Q a → R a) : Yields H R x :=
  fun hlog => hQ _ (h hlog)

theorem mapLog {g : ε → ε} {x : Traced ε α} (h : Yields H Q x) (hg : ∀ e, H (g e) → H e) :
    Yields H Q (Traced.mapLog g x) := fun hlog =>
  h fun e he => hg e (hlog (g e) (List.mem_map.2 ⟨e, he, rfl⟩))

end Yields

theorem meets_emit {e : ε} {Q : PUnit → Prop} (he : Λ.Holds [e]) (hQ : Q ⟨⟩) :
    Meets Λ Q (emit e) :=
  ⟨he, hQ⟩

end Traced

/-! ## The first bad event -/

/-- A run of rounds with traces `f x`. The rounds with `W` start their bad events with one that is
not `Blue`, all bad events of the others are `Blue`. Then the first bad event of the run is `Blue`
exactly when some round has a bad event and neither it nor a round before it has `W`. -/
theorem find?_flatMap_iff {ε : Type u} {α : Type v} {f : α → List ε} {bad : ε → Bool}
    {Blue : ε → Prop} {W : α → Prop} {xs : List α}
    (hW : ∀ x ∈ xs, W x → ∃ e, (f x).find? bad = some e ∧ ¬ Blue e)
    (hB : ∀ x ∈ xs, ¬ W x → ∀ e ∈ f x, bad e = true → Blue e) :
    (∃ e, (xs.flatMap f).find? bad = some e ∧ Blue e) ↔
      ∃ pre x post, xs = pre ++ x :: post ∧ (∀ y ∈ pre, ¬ W y) ∧ ¬ W x ∧
        ∃ e ∈ f x, bad e = true := by
  induction xs with
  | nil => simp
  | cons x xs ih =>
    have ih := ih (fun y hy => hW y (List.mem_cons_of_mem _ hy))
      fun y hy => hB y (List.mem_cons_of_mem _ hy)
    have hsplit : (∃ pre x' post, x :: xs = pre ++ x' :: post ∧ (∀ y ∈ pre, ¬ W y) ∧ ¬ W x' ∧
        ∃ e ∈ f x', bad e = true) ↔ ¬ W x ∧ ((∃ e ∈ f x, bad e = true) ∨
          ∃ pre x' post, xs = pre ++ x' :: post ∧ (∀ y ∈ pre, ¬ W y) ∧ ¬ W x' ∧
            ∃ e ∈ f x', bad e = true) := by
      constructor
      · rintro ⟨_ | ⟨y, pre⟩, x', post, heq, hpre, hx', hbad⟩
        · obtain ⟨rfl, rfl⟩ := List.cons.inj heq
          exact ⟨hx', .inl hbad⟩
        · obtain ⟨rfl, rfl⟩ := List.cons.inj heq
          exact ⟨hpre x List.mem_cons_self, .inr ⟨pre, x', post, rfl,
            fun y hy => hpre y (List.mem_cons_of_mem _ hy), hx', hbad⟩⟩
      · rintro ⟨hx, hbad | ⟨pre, x', post, rfl, hpre, hx', hbad⟩⟩
        · exact ⟨[], x, xs, rfl, by simp, hx, hbad⟩
        · exact ⟨x :: pre, x', post, rfl, List.forall_mem_cons.2 ⟨hx, hpre⟩, hx', hbad⟩
    rw [hsplit, List.flatMap_cons, List.find?_append]
    by_cases hx : W x
    · obtain ⟨e, he, hred⟩ := hW x List.mem_cons_self hx
      rw [he]
      simp [hx, hred]
    · have hblue := hB x List.mem_cons_self hx
      cases hfind : (f x).find? bad with
      | some e =>
        have hmem := List.mem_of_find?_eq_some hfind
        have hbad := List.find?_some hfind
        have hex : ∃ e ∈ f x, bad e = true := ⟨e, hmem, hbad⟩
        simp [hx, hex, hblue e hmem hbad]
      | none =>
        have hno : ¬ ∃ e ∈ f x, bad e = true := by
          rintro ⟨e, he, hbad⟩
          exact List.find?_eq_none.1 hfind e he hbad
        rw [Option.none_or, ih]
        simp only [hx, hno, not_false_eq_true, true_and, false_or]

end FourFuzzers.Lib
