import Mathlib

/-!
# Searching for two adjacent words

A line of words joined by a separator contains `a`, the separator, `b` exactly where some word ends
in `a` and the word after it starts with `b`. This is what a `grep` for two words separated by a
blank looks for.
-/

namespace FourFuzzers.Lib

variable {α : Type} {sep : α} {a b : List α}

/-- A prefix without separator of a joined line is a prefix of its first word. -/
theorem prefix_of_prefix_intercalate (hb : sep ∉ b) {w : List α} {ws : List (List α)}
    (h : b <+: [sep].intercalate (w :: ws)) : b <+: w := by
  cases ws with
  | nil => simpa using h
  | cons v ws =>
    rw [List.intercalate_cons_cons, List.append_assoc, List.singleton_append] at h
    rcases List.prefix_or_prefix_of_prefix h (List.prefix_append w _) with hbw | ⟨b', rfl⟩
    · exact hbw
    · rw [List.prefix_append_right_inj] at h
      cases b' with
      | nil => simp
      | cons c b' =>
        rw [List.cons_prefix_cons] at h
        exact absurd (by simp [h.1]) hb

/-- A line is cut at its first separator in one way. -/
theorem append_sep_inj {x w r s : List α} (hx : sep ∉ x) (hw : sep ∉ w)
    (h : x ++ sep :: r = w ++ sep :: s) : x = w ∧ r = s := by
  induction x generalizing w with
  | nil =>
    cases w with
    | nil => exact ⟨rfl, (List.cons.inj h).2⟩
    | cons c w => exact absurd ((List.cons.inj h).1 ▸ List.mem_cons_self) hw
  | cons d x ih =>
    cases w with
    | nil => exact absurd ((List.cons.inj h).1 ▸ List.mem_cons_self) hx
    | cons c w =>
      obtain ⟨rfl, htail⟩ := List.cons.inj h
      obtain ⟨rfl, rfl⟩ := ih (fun hm => hx (List.mem_cons_of_mem _ hm))
        (fun hm => hw (List.mem_cons_of_mem _ hm)) htail
      exact ⟨rfl, rfl⟩

/-- Words `a` and `b` found next to each other come from neighbouring words. -/
theorem exists_adjacent_of_infix (ha : sep ∉ a) (hb : sep ∉ b) :
    ∀ {ws : List (List α)}, (∀ w ∈ ws, sep ∉ w) →
      a ++ sep :: b <:+: [sep].intercalate ws →
      ∃ l t u r, ws = l ++ t :: u :: r ∧ a <:+ t ∧ b <+: u
  | [], _, h => by simp at h
  | [w], hws, h => by
    rw [List.intercalate_singleton] at h
    exact absurd (h.subset (by simp)) (hws w List.mem_cons_self)
  | w :: v :: ws, hws, h => by
    rw [List.intercalate_cons_cons, List.append_assoc, List.singleton_append] at h
    have hw : sep ∉ w := hws w List.mem_cons_self
    obtain ⟨x, y, hxy⟩ := h
    by_cases hx : sep ∈ x
    · obtain ⟨x₁, x₂, rfl, hx₁⟩ := List.eq_append_cons_of_mem hx
      have heq : x₁ ++ sep :: (x₂ ++ (a ++ sep :: b) ++ y) =
          w ++ sep :: [sep].intercalate (v :: ws) := by
        rw [← hxy]
        simp
      obtain ⟨-, hrest⟩ := append_sep_inj hx₁ hw heq
      obtain ⟨l, t, u, r, hl, hat, hbu⟩ := exists_adjacent_of_infix ha hb
        (fun w' hw' => hws w' (List.mem_cons_of_mem _ hw')) ⟨x₂, y, hrest⟩
      exact ⟨w :: l, t, u, r, by rw [hl, List.cons_append], hat, hbu⟩
    · have hxa : sep ∉ x ++ a := by simp [hx, ha]
      have heq : (x ++ a) ++ sep :: (b ++ y) = w ++ sep :: [sep].intercalate (v :: ws) := by
        rw [← hxy]
        simp
      obtain ⟨hxw, hrest⟩ := append_sep_inj hxa hw heq
      exact ⟨[], w, v, ws, rfl, ⟨x, hxw⟩, prefix_of_prefix_intercalate hb ⟨y, hrest⟩⟩

/-- Neighbouring words are found next to each other. -/
theorem infix_of_adjacent {l r : List (List α)} {t u : List α} (ha : a <:+ t) (hb : b <+: u) :
    a ++ sep :: b <:+: [sep].intercalate (l ++ t :: u :: r) := by
  induction l with
  | nil =>
    obtain ⟨x, rfl⟩ := ha
    obtain ⟨y, rfl⟩ := hb
    rw [List.nil_append, List.intercalate_cons_cons]
    cases r with
    | nil => exact ⟨x, y, by simp⟩
    | cons v r => exact ⟨x, y ++ sep :: [sep].intercalate (v :: r), by
        rw [List.intercalate_cons_cons]; simp⟩
  | cons w l ih =>
    obtain ⟨x, y, hxy⟩ := ih
    have hcons : [sep].intercalate (w :: (l ++ t :: u :: r)) =
        w ++ sep :: [sep].intercalate (l ++ t :: u :: r) := by
      obtain ⟨v, vs, hv⟩ := List.exists_cons_of_ne_nil (l := l ++ t :: u :: r) (by simp)
      rw [hv, List.intercalate_cons_cons, List.append_assoc, List.singleton_append]
    exact ⟨w ++ sep :: x, y, by rw [List.cons_append, hcons, ← hxy]; simp⟩

/-- Neighbours in a list, as pairs. -/
theorem mem_zip_tail_of_adjacent {l r : List α} {t u : α} :
    (t, u) ∈ (l ++ t :: u :: r).zip (l ++ t :: u :: r).tail := by
  induction l with
  | nil => simp
  | cons w l ih =>
    obtain ⟨v, vs, hv⟩ := List.exists_cons_of_ne_nil (l := l ++ t :: u :: r) (by simp)
    rw [List.cons_append, List.tail_cons]
    rw [hv] at ih ⊢
    rw [List.zip_cons_cons]
    exact List.mem_cons_of_mem _ ih

end FourFuzzers.Lib
