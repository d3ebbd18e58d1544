import FourFuzzers.Re2.Verify.Insertion
import FourFuzzers.Re2.Verify.Suffix

/-!
# Complete tries

From `BeginRange` to `EndRange` every word that has been added is read from `rune_range_.begin`, and
no instruction that is older than the class changes. A suffix in the making is not part of the trie,
so building it only extends the patch list, through links that are not read.
-/

namespace FourFuzzers.Re2

open FourFuzzers.Lib FourFuzzers.Lib.Traced FourFuzzers.Lib.Stateful

/-- Every word of the trie is read, and what is older than the class is what it was in `s₀`. -/
structure Complete (P : Plan) (G : Ghost) (s₀ s : RangeCompiler) : Prop where
  above : G.Above P.base
  below : ∀ x, x < P.base → s.cell x = s₀.cell x
  empty : s.runeRange.begin = 0 → G.words = ∅
  reads : ∀ w ∈ G.words, Reads s.cell G.ends s.runeRange.begin w

section

variable {P : Plan} {G G' : Ghost} {B id next : Nat} {s₀ s s' : RangeCompiler} {v w : Word} {a : Sym}
  {g : Compiler → Garbage} {sound : Prop}

/-- A change that adds no word. -/
theorem Complete.step (h : Complete P G s₀ s) (hfits : Fits P G B s) (hs : Refines P G G' s s')
    (hwords : G'.words = G.words) (hbegin : s'.runeRange.begin = s.runeRange.begin) :
    Complete P G' s₀ s' where
  above := hs.above h.above
  below x hx := (hs.below h.above x hx).trans (h.below x hx)
  empty h0 := by
    rw [hwords]
    exact h.empty (hbegin ▸ h0)
  reads w hw := by
    rw [hwords] at hw
    rw [hbegin]
    have h0 : s.runeRange.begin ≠ 0 := fun h0 => by
      rw [h.empty h0] at hw
      exact hw
    obtain ⟨r, hr⟩ := (hfits.begin.resolve_left h0).role
    exact hs.reads hr (h.reads w hw)

/-! ## One label -/

theorem Ghost.Above.set {base x : Nat} {r : Role} (h : G.Above base) (hx : base ≤ x) :
    (G.set x r).Above base := by
  intro y r' hy
  by_cases hyx : y = x
  · rw [hyx]
    exact hx
  · rw [Ghost.role_set_of_ne hyx] at hy
    exact h hy

/-- `UncachedRuneByteSuffix` at the end of a suffix only extends the patch list. -/
theorem uncached_end (h : Fits P G s.ninst s) (ha : a.Valid) :
    Ensures (Event.Ok P.base) (uncachedRuneByteSuffix g a.lo a.hi a.fold 0) s fun id s' =>
      Refused sound s' ∨ (id = s.ninst ∧ s'.ninst = s.ninst + 1 ∧ s'.runeCache = s.runeCache ∧
        s'.runeRange.begin = s.runeRange.begin ∧ Fits P (G.addEnd s.ninst a) (s.ninst + 1) s' ∧
        Refines P G (G.addEnd s.ninst a) s s') := by
  unfold uncachedRuneByteSuffix
  apply (byteRange_ensures h ha).bind
  rintro f s₁ (⟨rfl, hfail⟩ | ⟨rfl, h₁, hp⟩)
  · have hkeeps := @keeps_uncachedRuneByteSuffix g P.base sound a.lo a.hi a.fold 0 s₁ hfail
    unfold uncachedRuneByteSuffix at hkeeps
    exact (hkeeps.of_after (Failed.byteRange hfail.failed)).mono fun _ _ => .inl
  have hzero : ¬ (0 : Nat) ≠ 0 := fun hne => hne rfl
  obtain ⟨l, s₂, happend, hs, hlinks, htail⟩ := h₁.append_silent hp.lt hp.out
  rw [if_neg hzero]
  apply Ensures.after Silent.read
  apply Ensures.after happend
  apply Ensures.after Silent.write
  have hs' : Relinked G s₁ { s₂ with runeRange := ⟨s₂.runeRange.begin, l⟩ } := { hs with }
  have hbegin : s₂.runeRange.begin = s.runeRange.begin := by rw [hs.begin, hp.range]
  have hfits := h₁.add_end hp.lt hp.opcode hp.sym hs' hlinks htail
  have hlt : ∀ {x r}, G.role x = some r → x ≠ s.ninst := fun hx => Nat.ne_of_lt (h.bound hx).2
  refine .pure (.inr ⟨rfl, hs.ninst.trans hp.ninst, hs.cache.trans hp.cache, hbegin, hfits, ?_⟩)
  refine .of_cells (Ghost.extends_addEnd (h.role_none (Nat.le_refl _))) h hfits
    (fun habove => habove.set h.base) (fun x hx hend => ?_) (fun {x r} hx hend => ?_) fun x hx => ?_
  · exact (hs.cell x hend).trans (hp.cell x (Nat.ne_of_lt (Nat.lt_of_lt_of_le hx h.base)))
  · exact (hs.cell x hend).trans (hp.cell x (hlt hx))
  · obtain ⟨c, hc⟩ := h.mem_ends.1 hx
    have hcell := hp.cell x (hlt hc)
    exact ⟨(hs.opcode x).trans (by rw [hcell]), (hs.sym x).trans (by rw [hcell])⟩

/-- The suffix `v` has been built from `id` on, and the trie has no more words than before. -/
def Prepends (P : Plan) (G : Ghost) (s : RangeCompiler) (v : Word) (id : Nat) (s' : RangeCompiler) :
    Prop :=
  ∃ G' B, G'.words = G.words ∧ Built P G' B s' id v ∧ Refines P G G' s s' ∧
    s'.runeRange.begin = s.runeRange.begin

theorem uncached_ensures (h : Built P G B s id v) (ha : a.Valid)
    (hflag : v ≠ [] → P.strict → ¬ P.flag (a :: v)) :
    Ensures (Event.Ok P.base) (uncachedRuneByteSuffix g a.lo a.hi a.fold id) s fun id' s' =>
      Refused sound s' ∨ Prepends P G s (a :: v) id' s' := by
  obtain ⟨hfits, ⟨rfl, rfl, rfl⟩ | hchain⟩ := h
  · apply (uncached_end hfits ha).mono
    rintro id' s' (hfail | ⟨rfl, hninst, -, hbegin, hfits', hrefines⟩)
    · exact .inl hfail
    · refine .inr ⟨G.addEnd s.ninst a, s.ninst + 1, rfl, ⟨hfits', .inr ?_⟩, hrefines, hbegin⟩
      rw [hninst]
      exact .shared Ghost.role_set_self
  · obtain ⟨hpos, hlt⟩ := hchain.bound hfits (Nat.le_refl _)
    apply (uncached_push hfits ha hpos hlt).mono
    rintro id' s' (hfail | ⟨rfl, hfits', hp⟩)
    · exact .inl hfail
    · have hchain' : Chain P G B s'.cell s.ninst (s'.cell s.ninst).out v := by
        rw [hp.out]
        exact hchain.congr fun y _ hy => hp.cell y (Nat.ne_of_lt hy)
      have hrefines : Refines P G G s s' := .of_below hfits hfits' .refl (fun habove => habove)
        fun y hy => hp.cell y (Nat.ne_of_lt (Nat.lt_of_lt_of_le hy hfits.top))
      refine .inr ⟨G, B, rfl, ⟨hfits', .inr ?_⟩, hrefines, by rw [hp.range]⟩
      rw [hp.ninst, ← hp.sym]
      apply Chain.own hchain' hp.opcode
      rw [hp.sym]
      exact hflag (Chain.ne_nil hfits hchain)

/-- A new entry of the cache changes no instruction. -/
theorem Refines.set_cache {cache : Nat → Option Nat} (h : Refines P G G' s s') :
    Refines P G G' s { s' with runeCache := cache } :=
  ⟨h.toExtends, h.above, h.below, h.reads⟩

/-- A new byte range becomes the start of a shared suffix. -/
theorem Pushed.shared_refines (hp : Pushed a id s s') (hfits : Fits P G s.ninst s)
    {cache : Nat → Option Nat}
    (h : Fits P (G.set s.ninst (.shared (a :: v))) (s.ninst + 1) { s' with runeCache := cache }) :
    Refines P G (G.set s.ninst (.shared (a :: v))) s { s' with runeCache := cache } :=
  .of_below hfits h (Ghost.extends_set (hfits.role_none (Nat.le_refl _)))
    (fun habove => habove.set hfits.base) fun y hy => hp.cell y (Nat.ne_of_lt hy)

theorem cached_ensures (h : Built P G B s id v) (ha : a.Valid) (hstrict : P.strict)
    (hflag : v ≠ [] → P.flag (a :: v)) (hmono : 2 ≤ v.length → P.flag v) :
    Ensures (Event.Ok P.base) (cachedRuneByteSuffix g a.lo a.hi a.fold id) s fun id' s' =>
      Refused sound s' ∨ Prepends P G s (a :: v) id' s' := by
  unfold cachedRuneByteSuffix
  apply Ensures.after Silent.read
  cases hkey : s.runeCache (makeRuneCacheKey a.lo a.hi a.fold id) with
  | some x =>
    obtain ⟨hx, hninst⟩ := h.of_hit ha hstrict hmono hkey
    refine .pure (.inr ⟨G, B, rfl, ⟨h.1, .inr ?_⟩, .refl, rfl⟩)
    rw [hninst]
    exact .shared hx
  | none =>
    obtain ⟨hfits, ⟨rfl, rfl, rfl⟩ | hchain⟩ := h
    · apply (uncached_end hfits ha).bind
      rintro id' s' (hfail | ⟨rfl, hninst, hcache, hbegin, hfits', hrefines⟩)
      · exact .of_silent (Silent.write.bind .pure) (.inl (hfail.congr rfl))
      have hrole : (G.addEnd s.ninst a).role s.ninst = some (.shared [a]) := Ghost.role_set_self
      refine .of_silent (Silent.write.bind .pure) (.inr ?_)
      refine ⟨G.addEnd s.ninst a, s.ninst + 1, rfl,
        ⟨hfits'.add_cache ⟨a, [], 0, hrole, ha, rfl, .inl ⟨rfl, rfl⟩⟩, .inr ?_⟩,
        hrefines.set_cache, hbegin⟩
      change Chain _ _ _ s'.cell s'.ninst _ _
      rw [hninst]
      exact .shared hrole
    · obtain ⟨hrole, hninst⟩ := Chain.role_of_flag hfits hchain hstrict hmono
      have hne := Chain.ne_nil hfits hchain
      obtain ⟨hpos, hlt⟩ := hchain.bound hfits (Nat.le_refl _)
      apply (uncached_push hfits ha hpos hlt).bind
      rintro id' s' (hfail | ⟨rfl, hfits', hp⟩)
      · exact .of_silent (Silent.write.bind .pure) (.inl (hfail.congr rfl))
      refine .of_silent (Silent.write.bind .pure) (.inr ?_)
      subst hninst
      have hself : a.key (s'.cell s.ninst).out = a.key id := by rw [hp.out]
      have hshared := hfits'.add_shared hp.lt hp.opcode hp.sym hne (by rw [hp.out]; exact hrole)
        (fun k => @isSome_update _ k (a.key id) s.ninst) (fun k y hk => by
          by_cases hk' : k = a.key id
          · rw [hk', Function.update_self] at hk
            cases hk
            exact .inr ⟨rfl, hk'.trans hself.symm, hflag hne⟩
          · rw [Function.update_of_ne hk'] at hk
            exact .inl hk)
        fun _ => ⟨hflag hne, by
          rw [hself, Function.update_self]
          rfl⟩
      refine ⟨G.set s.ninst (.shared (a :: v)), s.ninst + 1, rfl, ⟨hshared, .inr ?_⟩,
        hp.shared_refines hfits hshared, by rw [← hp.range]⟩
      change Chain _ _ _ s'.cell s'.ninst _ _
      rw [hp.ninst]
      exact .shared Ghost.role_set_self

/-- Without `strict`, any new instruction may be taken as shared. -/
theorem uncached_shared (h : Fits P G s.ninst s) (ha : a.Valid) (hloose : ¬ P.strict)
    (hid : G.role id = some (.shared v)) :
    Ensures (Event.Ok P.base) (uncachedRuneByteSuffix g a.lo a.hi a.fold id) s fun id' s' =>
      Refused sound s' ∨ ∃ G', G'.words = G.words ∧ Fits P G' s'.ninst s' ∧
        G'.role id' = some (.shared (a :: v)) ∧ Refines P G G' s s' ∧
        s'.runeRange.begin = s.runeRange.begin := by
  have hbound := h.bound hid
  have hne : v ≠ [] := by
    obtain ⟨-, w, rfl, -⟩ := h.role hid
    exact List.cons_ne_nil _ _
  apply (uncached_push h ha hbound.1 (h.lt_pow (Nat.le_of_lt hbound.2))).mono
  rintro id' s' (hfail | ⟨rfl, hfits', hp⟩)
  · exact .inl hfail
  have hshared := hfits'.add_shared hp.lt hp.opcode hp.sym hne (by rw [hp.out]; exact hid)
    (fun _ hk => hk) (fun _ _ hk => .inl hk) fun hstrict => absurd hstrict hloose
  refine .inr ⟨G.set s.ninst (.shared (a :: v)), rfl, ?_, Ghost.role_set_self,
    hp.shared_refines h hshared, by rw [hp.range]⟩
  rw [hp.ninst]
  exact hshared

/-! ## A whole suffix -/

theorem addSuffix_ensures (h : Fits P G B s) (hchain : Chain P G B s.cell s.ninst id v)
    (hlen : v.length ≤ 4) (hcompat : ∀ y ∈ G.words, P.Compat y v) (hs : Complete P G s₀ s) :
    Ensures (Event.Ok P.base) (addSuffix g id) s fun _ s' => Refused sound s' ∨
      ∃ G', G.Extends G' ∧ G'.words = insert v G.words ∧ Fits P G' s'.ninst s' ∧
        Complete P G' s₀ s' := by
  have hf : ¬ s.failed = true := by
    rw [h.failed]
    exact Bool.false_ne_true
  unfold addSuffix
  apply Ensures.after Silent.read
  rw [if_neg hf]
  rcases h.begin with hbegin | hbegin
  · obtain ⟨G', hG, hwords, hfits, hid, hends, habove⟩ := hchain.attach h (Nat.le_refl _) []
    rw [if_pos hbegin]
    refine .of_silent Silent.write (.inr ⟨G', hG, hwords, hfits.set_begin (.inr hid), ?_⟩)
    rw [List.nil_append, hs.empty hbegin] at hwords
    exact {
      above := habove hs.above
      below := hs.below
      empty := fun h0 => absurd h0 (Nat.ne_of_gt (hfits.bound_child (.inr hid)).1)
      reads := fun w hw => by
        rw [hwords, insert_empty_eq, Set.mem_singleton_iff] at hw
        subst hw
        rw [hends]
        exact hchain.reads h }
  · rw [if_neg (Nat.ne_of_gt (h.bound_child hbegin).1)]
    have hfuel : v.length ≤ utfMax + 1 := Nat.le_succ_of_le hlen
    apply (addSuffixRecursive_ensures (utfMax + 1) h hbegin hchain hcompat hfuel).bind
    rintro root s' (⟨-, hfail⟩ | ⟨G', hin, hwords, hfits, hroot, hv⟩)
    · exact .of_silent Silent.write (.inl (hfail.congr rfl))
    refine .of_silent Silent.write (.inr ⟨G', hin.toExtends, hwords, hfits.set_begin hroot, ?_⟩)
    exact {
      above := hin.above hs.above
      below := fun x hx => (hin.below hs.above x hx).trans (hs.below x hx)
      empty := fun h0 => absurd h0 (Nat.ne_of_gt (hfits.bound_child hroot).1)
      reads := fun w hw => by
        rw [hwords] at hw
        rcases hw with rfl | hw
        · exact hv
        · obtain ⟨r, hr⟩ := hbegin.role
          exact hin.covers (hin.reads hr (hs.reads w hw)) }

/-! ## Between two suffixes -/

variable {words : Set Word} {kept : Nat}

/-- The trie is complete and has the words `words`, and `v` has been built from `id` on. -/
def Holding (P : Plan) (s₀ : RangeCompiler) (words : Set Word) (id : Nat) (v : Word)
    (s : RangeCompiler) : Prop :=
  ∃ G B, G.words = words ∧ Built P G B s id v ∧ Complete P G s₀ s

/-- The trie is complete and has the words `words`, and nothing else is new. -/
def Resting (P : Plan) (s₀ : RangeCompiler) (words : Set Word) : RangeCompiler → Prop :=
  Holding P s₀ words 0 []

theorem Resting.fits (h : Resting P s₀ words s) :
    ∃ G, G.words = words ∧ Fits P G s.ninst s ∧ Complete P G s₀ s := by
  obtain ⟨G, B, hwords, ⟨hfits, ⟨-, -, rfl⟩ | hchain⟩, hs⟩ := h
  · exact ⟨G, hwords, hfits, hs⟩
  · exact absurd rfl (Chain.ne_nil hfits hchain)

theorem Resting.of_fits (h : Fits P G s.ninst s) (hs : Complete P G s₀ s) :
    Resting P s₀ G.words s :=
  ⟨G, s.ninst, rfl, ⟨h, .inl ⟨rfl, rfl, rfl⟩⟩, hs⟩

theorem Prepends.holding (h : Prepends P G s v id s') (hfits : Fits P G B s)
    (hs : Complete P G s₀ s) : Holding P s₀ G.words id v s' := by
  obtain ⟨G', B', hwords, hbuilt, hrefines, hbegin⟩ := h
  exact ⟨G', B', hwords, hbuilt, hs.step hfits hrefines hwords hbegin⟩

theorem uncached_holding (ha : a.Valid) (hflag : v ≠ [] → P.strict → ¬ P.flag (a :: v)) :
    Tries (Event.Ok P.base) (Refused sound) (Holding P s₀ words id v)
      (uncachedRuneByteSuffix g a.lo a.hi a.fold id) fun id' => Holding P s₀ words id' (a :: v) := by
  refine .of_keeps keeps_uncachedRuneByteSuffix ?_
  rintro s ⟨G, B, rfl, hbuilt, hs⟩
  exact (uncached_ensures hbuilt ha hflag).mono fun _ _ => .imp_right (·.holding hbuilt.1 hs)

theorem cached_holding (ha : a.Valid) (hstrict : P.strict) (hflag : v ≠ [] → P.flag (a :: v))
    (hmono : 2 ≤ v.length → P.flag v) :
    Tries (Event.Ok P.base) (Refused sound) (Holding P s₀ words id v)
      (cachedRuneByteSuffix g a.lo a.hi a.fold id) fun id' => Holding P s₀ words id' (a :: v) := by
  refine .of_keeps keeps_cachedRuneByteSuffix ?_
  rintro s ⟨G, B, rfl, hbuilt, hs⟩
  exact (cached_ensures hbuilt ha hstrict hflag hmono).mono fun _ _ =>
    .imp_right (·.holding hbuilt.1 hs)

theorem addSuffix_resting (hv : v ≠ []) (hlen : v.length ≤ 4)
    (hcompat : ∀ y ∈ words, P.Compat y v) :
    Tries (Event.Ok P.base) (Refused sound) (Holding P s₀ words id v) (addSuffix g id)
      fun _ => Resting P s₀ (insert v words) := by
  refine .of_keeps keeps_addSuffix ?_
  rintro s ⟨G, B, rfl, ⟨hfits, ⟨hnil, -⟩ | hchain⟩, hs⟩
  · exact absurd hnil hv
  apply (addSuffix_ensures hfits hchain hlen hcompat hs).mono
  rintro _ s' (hfail | ⟨G', -, hwords', hfits', hs'⟩)
  · exact .inl hfail
  · exact .inr (hwords' ▸ Resting.of_fits hfits' hs')

theorem foldlM_holding {c : Nat → Prop} [DecidablePred c] {sym : Nat → Sym} (is : List Nat)
    (hall : P.AllowsAll c sym is v) :
    Tries (Event.Ok P.base) (Refused sound) (Holding P s₀ words id v) (is.foldlM (fun id i =>
        if c i then cachedRuneByteSuffix g (sym i).lo (sym i).hi (sym i).fold id
        else uncachedRuneByteSuffix g (sym i).lo (sym i).hi (sym i).fold id) id)
      fun id' => Holding P s₀ words id' ((is.map sym).reverse ++ v) := by
  induction is generalizing id v with
  | nil => exact .pure fun _ h => h
  | cons i is ih =>
    obtain ⟨⟨hvalid, hcached, huncached⟩, hall⟩ := hall
    have hstep : Tries (Event.Ok P.base) (Refused sound) (Holding P s₀ words id v) (if c i then
          cachedRuneByteSuffix g (sym i).lo (sym i).hi (sym i).fold id
        else uncachedRuneByteSuffix g (sym i).lo (sym i).hi (sym i).fold id)
        fun id' => Holding P s₀ words id' (sym i :: v) := by
      by_cases hi : c i
      · obtain ⟨hstrict, hflag, hmono⟩ := hcached hi
        rw [if_pos hi]
        exact cached_holding hvalid hstrict hflag hmono
      · rw [if_neg hi]
        exact uncached_holding hvalid (huncached hi)
    rw [List.foldlM_cons, List.map_cons, List.reverse_cons, List.append_assoc]
    exact hstep.bind fun id' => ih hall

end

end FourFuzzers.Re2
