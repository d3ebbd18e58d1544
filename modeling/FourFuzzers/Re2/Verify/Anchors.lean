import FourFuzzers.Re2.Verify.Walk

/-!
# Anchors

The anchors that `Compile` takes off an expression become members of the program. What they ask of
the begin and the end of a match is what is lost from the language.
-/

namespace FourFuzzers.Re2

/-! ## The ends of the text -/

section

variable {text : List Nat} {p : Nat}

/-- The flag of the begin of the text is set at its begin only. -/
theorem beginText_iff : emptyBeginText &&& emptyFlags text p = emptyBeginText ↔ p = 0 := by
  unfold emptyFlags emptyBeginText
  by_cases hp : p = 0
  · refine iff_of_true ?_ hp
    simp only [hp]
    split_ifs <;> rfl
  · refine iff_of_false ?_ hp
    simp only [hp, if_false]
    split_ifs <;> decide

/-- The flag of the end of the text is set at its end only. -/
theorem endText_iff : emptyEndText &&& emptyFlags text p = emptyEndText ↔ p = text.length := by
  unfold emptyFlags emptyEndText
  by_cases hp : p = text.length
  · refine iff_of_true ?_ hp
    simp only [hp]
    split_ifs <;> rfl
  · refine iff_of_false ?_ hp
    simp only [hp, if_false]
    split_ifs <;> decide

end

/-! ## An anchor at one end -/

/-- `L` is `L'` with an anchor at the begin (`front`) or at the end of what is read. -/
def Guarded (front : Bool) (L L' : Lang) : Prop := ∀ text p q,
  L text p none q ↔ (if front then p = 0 else q = text.length) ∧ L' text p none q

section

variable {A A' B B' : Lang} {Ls : List Lang} {front reversed : Bool}

/-- A match of a sequence that goes on is one of each part. -/
theorem Lang.seq_none_iff {text : List Nat} {p q : Nat} :
    A.seq B text p .none q ↔ ∃ p₁, A text p .none p₁ ∧ B text p₁ .none q :=
  or_iff_right fun h => h.1 rfl

/-- What the first part asks of the begin of a match is asked of the whole. -/
theorem Guarded.seq_left (h : Guarded true A A') : Guarded true (A.seq B) (A'.seq B) := by
  intro text p q
  rw [Lang.seq_none_iff, Lang.seq_none_iff]
  constructor
  · rintro ⟨p₁, hA, hB⟩
    obtain ⟨hp, hA⟩ := (h text p p₁).1 hA
    exact ⟨hp, p₁, hA, hB⟩
  · rintro ⟨hp, p₁, hA, hB⟩
    exact ⟨p₁, (h text p p₁).2 ⟨hp, hA⟩, hB⟩

/-- What the last part asks of the end of a match is asked of the whole. -/
theorem Guarded.seq_right (h : Guarded false B B') : Guarded false (A.seq B) (A.seq B') := by
  intro text p q
  rw [Lang.seq_none_iff, Lang.seq_none_iff]
  constructor
  · rintro ⟨p₁, hA, hB⟩
    obtain ⟨hq, hB⟩ := (h text p₁ q).1 hB
    exact ⟨hq, p₁, hA, hB⟩
  · rintro ⟨hq, p₁, hA, hB⟩
    exact ⟨p₁, hA, (h text p₁ q).2 ⟨hq, hB⟩⟩

/-- The first part of a concatenation is read first, or last in reverse. -/
theorem Guarded.cat_left (h : Guarded (!reversed) A A') :
    Guarded (!reversed) (A.cat reversed B) (A'.cat reversed B) := by
  cases reversed with
  | false => exact h.seq_left
  | true => exact h.seq_right

/-- The last part of a concatenation is read last, or first in reverse. -/
theorem Guarded.cat_right (h : Guarded reversed B B') :
    Guarded reversed (A.cat reversed B) (A.cat reversed B') := by
  cases reversed with
  | false => exact h.seq_right
  | true => exact h.seq_left

/-- An anchor of the first part is one of the whole concatenation, whatever follows. -/
theorem Guarded.foldl (h : Guarded (!reversed) A A') :
    Guarded (!reversed) (Ls.foldl (.cat reversed) A) (Ls.foldl (.cat reversed) A') := by
  induction Ls generalizing A A' with
  | nil => exact h
  | cons L Ls ih => exact ih h.cat_left

variable {enc : Encoding} {anchor : Anchor}

theorem langs_append (res res' : List Regexp) : langs enc anchor reversed (res ++ res') =
    langs enc anchor reversed res ++ langs enc anchor reversed res' := by
  induction res with
  | nil => rfl
  | cons re res ih =>
    change _ :: langs enc anchor reversed (res ++ res') = _
    rw [ih]
    rfl

/-- A concatenation of one part is that part. -/
theorem lang_mkConcat {sub : Regexp} {subs : List Regexp} :
    (Regexp.mkConcat sub subs).lang enc anchor reversed =
      (langs enc anchor reversed subs).foldl (.cat reversed) (sub.lang enc anchor reversed) := by
  unfold Regexp.mkConcat
  split
  next hnil =>
    rw [hnil]
    rfl
  next => rfl

theorem guarded_assert_begin : Guarded true (.assert emptyBeginText) .empty := by
  intro text p q
  change (_ ∧ q = p ∧ _) ↔ p = 0 ∧ _ ∧ q = p
  rw [beginText_iff]
  tauto

theorem guarded_assert_end : Guarded false (.assert emptyEndText) .empty := by
  intro text p q
  change (_ ∧ q = p ∧ _) ↔ q = text.length ∧ _ ∧ q = p
  rw [endText_iff]
  constructor
  · rintro ⟨h, rfl, hq⟩
    exact ⟨hq, h, rfl⟩
  · rintro ⟨hq, h, rfl⟩
    exact ⟨h, rfl, hq⟩

/-- The begin of an expression is the end of the text that is read in reverse. -/
theorem guarded_beginText : Guarded (!reversed) (Regexp.beginText.lang enc anchor reversed) .empty := by
  cases reversed with
  | false => exact guarded_assert_begin
  | true => exact guarded_assert_end

theorem guarded_endText : Guarded reversed (Regexp.endText.lang enc anchor reversed) .empty := by
  cases reversed with
  | false => exact guarded_assert_end
  | true => exact guarded_assert_begin

/-- What `IsAnchorStart` takes off an expression is an anchor at its begin, inside captures and at
the head of concatenations. -/
theorem isAnchorStart_guarded {n : Nat} {re re' : Regexp} (h : isAnchorStart n re = some re') :
    Guarded (!reversed) (re.lang enc anchor reversed) (re'.lang enc anchor reversed) := by
  induction n generalizing re re' with
  | zero => cases h
  | succ n ih =>
    cases re with
    | concat sub subs =>
      obtain ⟨sub', hsub, rfl⟩ := Option.map_eq_some_iff.1 h
      rw [lang_mkConcat]
      exact (ih hsub).foldl
    | capture sub cap =>
      obtain ⟨sub', hsub, rfl⟩ := Option.map_eq_some_iff.1 h
      unfold Regexp.lang
      exact ih hsub
    | beginText =>
      cases h
      exact guarded_beginText
    | _ => cases h

/-- What `IsAnchorEnd` takes off is an anchor at its end, at the last part of concatenations. -/
theorem isAnchorEnd_guarded {n : Nat} {re re' : Regexp} (h : isAnchorEnd n re = some re') :
    Guarded reversed (re.lang enc anchor reversed) (re'.lang enc anchor reversed) := by
  induction n generalizing re re' with
  | zero => cases h
  | succ n ih =>
    cases re with
    | concat sub subs =>
      rcases List.eq_nil_or_concat' subs with rfl | ⟨subs, last, rfl⟩
      · exact @ih sub re' h
      · unfold isAnchorEnd at h
        rw [List.getLast?_concat] at h
        obtain ⟨last', hlast, rfl⟩ := Option.map_eq_some_iff.1 h
        rw [List.dropLast_concat]
        unfold Regexp.lang
        rw [langs_append, langs_append, List.foldl_append, List.foldl_append]
        exact (ih hlast).cat_right
    | capture sub cap =>
      obtain ⟨sub', hsub, rfl⟩ := Option.map_eq_some_iff.1 h
      unfold Regexp.lang
      exact ih hsub
    | endText =>
      cases h
      exact guarded_endText
    | _ => cases h

/-! ## What is left of an expression -/

theorem plainAll_iff {res : List Regexp} : PlainAll res ↔ ∀ re ∈ res, re.Plain := by
  induction res with
  | nil => exact iff_of_true trivial (by simp)
  | cons re res ih => simp [PlainAll, ih]

theorem validAll_iff {res : List Regexp} :
    ValidAll enc reversed res ↔ ∀ re ∈ res, re.Valid enc reversed := by
  induction res with
  | nil => exact iff_of_true trivial (by simp)
  | cons re res ih => simp [ValidAll, ih]

/-- An expression without matches of a set. -/
def Regexp.Ordinary (enc : Encoding) (reversed : Bool) (re : Regexp) : Prop :=
  re.Valid enc reversed ∧ re.Plain

/-- A concatenation is ordinary where its parts are: none of them holds a match of a set. -/
theorem ordinary_concat {sub : Regexp} {subs : List Regexp} :
    (Regexp.concat sub subs).Ordinary enc reversed ↔
      sub.Ordinary enc reversed ∧ ∀ re ∈ subs, re.Ordinary enc reversed := by
  have hdrop : (sub.Plain ∧ ∀ re ∈ subs, re.Plain) → ∀ re ∈ (sub :: subs).dropLast, re.Plain := by
    intro h re hre
    rcases List.mem_cons.1 (List.dropLast_subset _ hre) with rfl | hmem
    · exact h.1
    · exact h.2 re hmem
  unfold Regexp.Ordinary
  simp only [Regexp.Valid, Regexp.Plain, validAll_iff, plainAll_iff]
  constructor
  · rintro ⟨⟨hv, hvs, -⟩, hp, hps⟩
    exact ⟨⟨hv, hp⟩, fun re hre => ⟨hvs re hre, hps re hre⟩⟩
  · rintro ⟨⟨hv, hp⟩, hall⟩
    exact ⟨⟨hv, fun re hre => (hall re hre).1, hdrop ⟨hp, fun re hre => (hall re hre).2⟩⟩, hp,
      fun re hre => (hall re hre).2⟩

theorem ordinary_mkConcat {sub : Regexp} {subs : List Regexp} (h : sub.Ordinary enc reversed)
    (hs : ∀ re ∈ subs, re.Ordinary enc reversed) :
    (Regexp.mkConcat sub subs).Ordinary enc reversed := by
  unfold Regexp.mkConcat
  split
  · exact h
  · exact ordinary_concat.2 ⟨h, hs⟩

/-- Without its anchors an ordinary expression is ordinary. -/
theorem isAnchorStart_ordinary {n : Nat} {re re' : Regexp} (h : isAnchorStart n re = some re')
    (hre : re.Ordinary enc reversed) : re'.Ordinary enc reversed := by
  induction n generalizing re re' with
  | zero => cases h
  | succ n ih =>
    cases re with
    | concat sub subs =>
      obtain ⟨sub', hsub, rfl⟩ := Option.map_eq_some_iff.1 h
      obtain ⟨hre, hres⟩ := ordinary_concat.1 hre
      exact ordinary_mkConcat (ih hsub hre) hres
    | capture sub cap =>
      obtain ⟨sub', hsub, rfl⟩ := Option.map_eq_some_iff.1 h
      exact @ih sub sub' hsub hre
    | beginText =>
      cases h
      exact ⟨trivial, trivial⟩
    | _ => cases h

theorem isAnchorEnd_ordinary {n : Nat} {re re' : Regexp} (h : isAnchorEnd n re = some re')
    (hre : re.Ordinary enc reversed) : re'.Ordinary enc reversed := by
  induction n generalizing re re' with
  | zero => cases h
  | succ n ih =>
    cases re with
    | concat sub subs =>
      obtain ⟨hsub, hsubs⟩ := ordinary_concat.1 hre
      rcases List.eq_nil_or_concat' subs with rfl | ⟨subs, last, rfl⟩
      · exact @ih sub re' h hsub
      · unfold isAnchorEnd at h
        rw [List.getLast?_concat] at h
        obtain ⟨last', hlast, rfl⟩ := Option.map_eq_some_iff.1 h
        rw [List.dropLast_concat]
        refine ordinary_concat.2 ⟨hsub, fun re hmem => ?_⟩
        rcases List.mem_append.1 hmem with hmem | hmem
        · exact hsubs re (List.mem_append_left _ hmem)
        · rw [List.mem_singleton.1 hmem]
          exact ih hlast (hsubs last (by simp))
    | capture sub cap =>
      obtain ⟨sub', hsub, rfl⟩ := Option.map_eq_some_iff.1 h
      exact @ih sub sub' hsub hre
    | endText =>
      cases h
      exact ⟨trivial, trivial⟩
    | _ => cases h

end

end FourFuzzers.Re2
