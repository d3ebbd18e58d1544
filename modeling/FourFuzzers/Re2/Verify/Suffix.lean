import FourFuzzers.Re2.Verify.AddSuffix

/-!
# The suffixes of a rune range

What `UncachedRuneByteSuffix` and `CachedRuneByteSuffix` do to the array, the patch list and the
cache: a new byte range goes on top of the array, in front of another or at the end of the patch
list, and possibly into the cache. Behind a refused allocation nothing happens any more.
-/

namespace FourFuzzers.Re2

open FourFuzzers.Lib FourFuzzers.Lib.Traced FourFuzzers.Lib.Stateful

/-! ## After a failed allocation -/

section

variable {s : RangeCompiler} {g : Compiler → Garbage} {base : Nat} {sound : Prop}

theorem Failed.not_accepts (h : Failed s) : ¬ Accepts s.toCompiler 1 := fun hacc => by
  rw [Failed, hacc.1] at h
  cases h

theorem Failed.byteRange (h : Failed s) {lo hi fold : Nat} :
    Silent (byteRange g lo hi fold) s .noMatch s := by
  have hf : s.failed = true := h
  have hsame : { s with failed := true } = s := by rw [← hf]
  have halloc := @Silent.alloc s g h.not_accepts
  rw [hsame] at halloc
  unfold Re2.byteRange
  exact halloc.bind .pure

/-- Whatever is left of the cache and of the fragment, a refusal stands. -/
theorem Refused.congr {s' : RangeCompiler} (h : Refused sound s)
    (hs : s'.toCompiler = s.toCompiler) : Refused sound s' := by
  refine ⟨?_, fun hsound => ?_⟩
  · rw [hs]
    exact h.failed
  · rw [hs]
    exact h.full hsound

theorem Silent.patch_null {p fuel : Nat} : Silent (patch p (fuel + 1) 0) s ⟨⟩ s := by
  unfold patch
  rw [if_neg fun h => h rfl]
  exact .pure

theorem Silent.append_null {l : PatchList} :
    Silent (append l .null) s (if l.head = 0 then .null else l) s := by
  have hnull : PatchList.null.head = 0 := rfl
  unfold append
  by_cases hl : l.head = 0
  · rw [if_pos hl, if_pos hl]
    exact .pure
  · rw [if_neg hl, if_neg hl, if_pos hnull]
    exact .pure

theorem keeps_uncachedRuneByteSuffix {lo hi fold next : Nat} :
    Keeps (Event.Ok base) (Refused sound) (uncachedRuneByteSuffix g lo hi fold next) := by
  intro s hs
  unfold uncachedRuneByteSuffix
  apply Ensures.after (Failed.byteRange hs.failed)
  by_cases hnext : next ≠ 0
  · rw [if_pos hnext]
    apply Ensures.after Silent.read
    apply Ensures.after Silent.patch_null
    exact .pure hs
  · rw [if_neg hnext]
    apply Ensures.after Silent.read
    apply Ensures.after Silent.append_null
    apply Ensures.after Silent.write
    exact .pure (hs.congr rfl)

theorem keeps_cachedRuneByteSuffix {lo hi fold next : Nat} :
    Keeps (Event.Ok base) (Refused sound) (cachedRuneByteSuffix g lo hi fold next) := by
  intro s hs
  unfold cachedRuneByteSuffix
  apply Ensures.after Silent.read
  cases s.runeCache (makeRuneCacheKey lo hi fold next) with
  | some id => exact .pure hs
  | none =>
    apply (keeps_uncachedRuneByteSuffix s hs).bind
    intro id s' hs'
    exact .of_silent (Silent.write.bind .pure) (hs'.congr rfl)

theorem keeps_addSuffix {id : Nat} : Keeps (Event.Ok base) (Refused sound) (addSuffix g id) := by
  intro s hs
  unfold addSuffix
  apply Ensures.after Silent.read
  rw [if_pos hs.failed]
  exact .pure hs

theorem keeps_sequenceSuffix {ulo uhi : List Nat} :
    Keeps (Event.Ok base) (Refused sound) (sequenceSuffix g ulo uhi) := by
  intro s hs
  unfold sequenceSuffix
  apply Ensures.after Silent.read
  split
  · refine Keeps.foldlM (fun id i => ?_) _ _ s hs
    split
    · exact keeps_cachedRuneByteSuffix
    · exact keeps_uncachedRuneByteSuffix
  · refine Keeps.foldlM (fun id i => ?_) _ _ s hs
    split
    · exact keeps_cachedRuneByteSuffix
    · exact keeps_uncachedRuneByteSuffix

theorem keeps_add_80_10ffff : Keeps (Event.Ok base) (Refused sound) (add_80_10ffff g) := by
  intro s hs
  unfold add_80_10ffff
  apply Ensures.after Silent.read
  split
  · refine Keeps.bind keeps_uncachedRuneByteSuffix (fun _ => ?_) s hs
    refine .bind keeps_uncachedRuneByteSuffix fun _ => ?_
    refine .bind keeps_addSuffix fun _ => ?_
    refine .bind keeps_uncachedRuneByteSuffix fun _ => ?_
    refine .bind keeps_uncachedRuneByteSuffix fun _ => ?_
    refine .bind keeps_uncachedRuneByteSuffix fun _ => ?_
    refine .bind keeps_addSuffix fun _ => ?_
    refine .bind keeps_uncachedRuneByteSuffix fun _ => ?_
    refine .bind keeps_uncachedRuneByteSuffix fun _ => ?_
    refine .bind keeps_uncachedRuneByteSuffix fun _ => ?_
    refine .bind keeps_uncachedRuneByteSuffix fun _ => ?_
    exact keeps_addSuffix
  · refine Keeps.bind keeps_uncachedRuneByteSuffix (fun _ => ?_) s hs
    refine .bind keeps_uncachedRuneByteSuffix fun _ => ?_
    refine .bind keeps_addSuffix fun _ => ?_
    refine .bind keeps_uncachedRuneByteSuffix fun _ => ?_
    refine .bind keeps_uncachedRuneByteSuffix fun _ => ?_
    refine .bind keeps_addSuffix fun _ => ?_
    refine .bind keeps_uncachedRuneByteSuffix fun _ => ?_
    refine .bind keeps_uncachedRuneByteSuffix fun _ => ?_
    exact keeps_addSuffix

end

/-! ## One instruction -/

section

variable {P : Plan} {G : Ghost} {B id next : Nat} {s s' : RangeCompiler} {v : Word} {a : Sym}
  {g : Compiler → Garbage} {sound : Prop}

/-- `s'` is `s` with the byte range `a` on top, which leads to `out`. -/
structure Pushed (a : Sym) (out : Nat) (s s' : RangeCompiler) : Prop where
  ninst : s'.ninst = s.ninst + 1
  cell : ∀ x, x ≠ s.ninst → s'.cell x = s.cell x
  opcode : (s'.cell s.ninst).opcode = Inst.opByteRange
  sym : (s'.cell s.ninst).sym = a
  out : (s'.cell s.ninst).out = out
  cache : s'.runeCache = s.runeCache
  range : s'.runeRange = s.runeRange

theorem Pushed.lt (h : Pushed a next s s') : s.ninst < s'.ninst := by
  rw [h.ninst]
  exact Nat.lt_succ_self s.ninst

theorem byteRange_ensures (h : Fits P G B s) (ha : a.Valid) :
    Ensures (Event.Ok P.base) (byteRange g a.lo a.hi a.fold) s fun f s' =>
      (f = .noMatch ∧ Refused sound s') ∨
        (f = ⟨s.ninst, .mk1 (s.ninst * 2)⟩ ∧ Fits P G B s' ∧ Pushed a 0 s s') := by
  unfold byteRange
  apply h.alloc.bind
  rintro id s₁ (⟨hneg, hfail⟩ | ⟨rfl, hs⟩)
  · rw [if_pos hneg]
    exact .pure (.inl ⟨rfl, hfail⟩)
  · have hcell := @RangeCompiler.cell_modify s₁ s.ninst (·.initByteRange a.lo a.hi a.fold 0)
      (Nat.lt_of_lt_of_le hs.lt hs.inv.used)
    obtain ⟨hop, hsym, hout⟩ := @Inst.initByteRange_fields (s₁.cell s.ninst) 0 a ha (by omega)
    rw [if_neg (by omega), Int.toNat_natCast]
    apply Ensures.after Silent.update
    refine .pure (.inr ⟨rfl, (h.grow hs).modify_new h.top hs.lt, hs.ninst, ?_, ?_, ?_, ?_, hs.cache,
      hs.range⟩)
    · intro x hx
      rw [hcell, Function.update_of_ne hx, hs.cell]
    · rw [hcell, Function.update_self]
      exact hop
    · rw [hcell, Function.update_self]
      exact hsym
    · rw [hcell, Function.update_self]
      exact hout

/-- A patch list of one `out` field. -/
theorem Silent.patch_single {x p fuel : Nat} (hx : x ≠ 0) (hout : (s.cell x).out = 0) :
    Silent (patch p (fuel + 2) (x * 2)) s ⟨⟩ (s.modify x (·.setOut p)) := by
  unfold patch
  rw [if_pos (by omega)]
  apply Silent.load.bind
  rw [if_neg (by omega), Nat.mul_div_cancel x (by omega), hout]
  apply Silent.update.bind
  exact Silent.patch_null

/-- `UncachedRuneByteSuffix` in front of another suffix. -/
theorem uncached_push (h : Fits P G B s) (ha : a.Valid) (hnext : 0 < next) (hlt : next < 2 ^ 27) :
    Ensures (Event.Ok P.base) (uncachedRuneByteSuffix g a.lo a.hi a.fold next) s fun id s' =>
      Refused sound s' ∨ (id = s.ninst ∧ Fits P G B s' ∧ Pushed a next s s') := by
  unfold uncachedRuneByteSuffix
  apply (byteRange_ensures h ha).bind
  rintro f s₁ (⟨rfl, hfail⟩ | ⟨rfl, h₁, hp⟩)
  · have hkeeps := @keeps_uncachedRuneByteSuffix g P.base sound a.lo a.hi a.fold next s₁ hfail
    unfold uncachedRuneByteSuffix at hkeeps
    exact (hkeeps.of_after (Failed.byteRange hfail.failed)).mono fun _ _ => .inl
  · have hpos : s.ninst ≠ 0 := Nat.ne_of_gt (Nat.lt_of_lt_of_le h.pos h.top)
    have hcell := @RangeCompiler.cell_modify s₁ s.ninst (·.setOut next)
      (Nat.lt_of_lt_of_le hp.lt h₁.inv.used)
    rw [if_pos (Nat.ne_of_gt hnext)]
    apply Ensures.after Silent.read
    rw [hp.ninst]
    apply Ensures.after (Silent.patch_single hpos hp.out)
    refine .pure (.inr ⟨rfl, h₁.modify_new h.top hp.lt, hp.ninst, ?_, ?_, ?_, ?_, hp.cache,
      hp.range⟩)
    · intro x hx
      rw [hcell, Function.update_of_ne hx, hp.cell x hx]
    · rw [hcell, Function.update_self, Inst.opcode_setOut (by omega), hp.opcode]
    · rw [hcell, Function.update_self, Inst.sym_setOut, hp.sym]
    · rw [hcell, Function.update_self, Inst.out_setOut (by omega)]

/-! ## Exits -/

/-- `G` with the exit `x`, labelled `a`. -/
def Ghost.addEnd (G : Ghost) (x : Nat) (a : Sym) : Ghost :=
  { G.set x (.shared [a]) with ends := G.ends ++ [x] }

theorem Ghost.extends_addEnd {x : Nat} (h : G.role x = none) : G.Extends (G.addEnd x a) :=
  ⟨(@Ghost.extends_set G x (.shared [a]) h).role, subset_rfl⟩

/-- A patch list that is extended through the `out` of its last entry `e`. -/
theorem links_append {cell cell' : Nat → Inst} {q e x : Nat} {es : List Nat}
    (h : Links cell q (es ++ [e])) (hnd : (es ++ [e]).Nodup)
    (hcell : ∀ y, y ≠ e → cell' y = cell y) (he : (cell' e).out = x * 2)
    (hx : (cell' x).out = 0) : Links cell' q (es ++ [e] ++ [x]) := by
  induction es generalizing q with
  | nil =>
    refine ⟨h.1, ?_⟩
    rw [he]
    exact ⟨rfl, hx⟩
  | cons y es ih =>
    obtain ⟨hq, hlinks⟩ := h
    obtain ⟨hmem, hnd⟩ := List.nodup_cons.1 hnd
    refine ⟨hq, ?_⟩
    rw [hcell y fun hy => hmem (by simp [hy])]
    exact ih hlinks hnd

/-- `s'` is `s` up to the links between the exits and the patch list of the fragment. -/
structure Relinked (G : Ghost) (s s' : RangeCompiler) : Prop where
  inv : Inv s'.toCompiler
  failed : s'.failed = s.failed
  reversed : s'.reversed = s.reversed
  ninst : s'.ninst = s.ninst
  cache : s'.runeCache = s.runeCache
  begin : s'.runeRange.begin = s.runeRange.begin
  cell : ∀ x, x ∉ G.ends → s'.cell x = s.cell x
  opcode : ∀ x, (s'.cell x).opcode = (s.cell x).opcode
  sym : ∀ x, (s'.cell x).sym = (s.cell x).sym

/-- The exit `B` goes on the patch list, behind the others. -/
theorem Fits.add_end (h : Fits P G B s) (hlt : B < s.ninst)
    (hop : (s.cell B).opcode = Inst.opByteRange) (hsym : (s.cell B).sym = a)
    (hs : Relinked G s s') (hlinks : Links s'.cell s'.runeRange.ends.head (G.ends ++ [B]))
    (htail : s'.runeRange.ends.tail = B * 2) : Fits P (G.addEnd B a) (B + 1) s' := by
  have hnone : G.role B = none := h.role_none (Nat.le_refl B)
  have hG : G.Extends (G.addEnd B a) := Ghost.extends_addEnd hnone
  have hmem : B ∉ G.ends := fun hB => by
    obtain ⟨b, hb⟩ := h.mem_ends.1 hB
    rw [hnone] at hb
    cases hb
  have hexit : ∀ {x w}, (s.cell x).opcode = Inst.opByteRange → w = [(s.cell x).sym] →
      (Role.shared w).Fits P (G.addEnd B a) s.runeCache x (s'.cell x) := by
    rintro x w hx rfl
    refine ⟨(hs.opcode x).trans hx, [], ?_, fun hne => absurd rfl hne⟩
    rw [hs.sym]
  exact {
    inv := hs.inv
    failed := hs.failed.trans h.failed
    reversed := hs.reversed.trans h.reversed
    top := by
      rw [hs.ninst]
      exact hlt
    pos := Nat.succ_pos B
    base := Nat.le_succ_of_le h.base
    bound := h.bound_set
    role := by
      intro x r hx
      rw [hs.cache]
      by_cases hxB : x = B
      · subst hxB
        obtain rfl : Role.shared [a] = r := Option.some.inj (Ghost.role_set_self.symm.trans hx)
        exact hexit hop (by rw [hsym])
      · have hx' : G.role x = some r := (Ghost.role_set_of_ne hxB).symm.trans hx
        by_cases hend : x ∈ G.ends
        · obtain ⟨b, hb⟩ := h.mem_ends.1 hend
          obtain rfl : Role.shared [b] = r := Option.some.inj (hb.symm.trans hx')
          obtain ⟨hop', v, hw, -⟩ := h.role hb
          obtain rfl : [] = v := (List.cons.inj hw).2
          exact hexit hop' hw
        · rw [hs.cell x hend]
          exact (h.role hx').extend hG
    cache := by
      rw [hs.cache]
      exact fun hk => (h.cache hk).extend hG
    begin := by
      rw [hs.begin]
      exact h.begin.imp_right (·.extend hG)
    mem_ends := by
      intro x
      change x ∈ G.ends ++ [B] ↔ _
      rw [List.mem_append, List.mem_singleton, h.mem_ends]
      by_cases hxB : x = B
      · subst hxB
        exact ⟨fun _ => ⟨a, Ghost.role_set_self⟩, fun _ => .inr rfl⟩
      · rw [or_iff_left hxB, ← @Ghost.role_set_of_ne G B x (.shared [a]) hxB]
        rfl
    nodup := by
      apply List.nodup_append.2 ⟨h.nodup, List.nodup_singleton B, ?_⟩
      intro x hx y hy
      rw [List.mem_singleton.1 hy]
      rintro rfl
      exact hmem hx
    links := hlinks
    tail := by
      intro e he
      change e ∈ (G.ends ++ [B]).getLast? at he
      rw [List.getLast?_concat, Option.mem_some_iff] at he
      rw [htail, he] }

/-- The first exit is the whole list, a further one is linked to the last. -/
theorem Fits.append_silent (h : Fits P G B s) (hlt : B < s.ninst) (hout : (s.cell B).out = 0) :
    ∃ l s', Silent (append s.runeRange.ends (.mk1 (B * 2))) s l s' ∧ Relinked G s s' ∧
      Links s'.cell l.head (G.ends ++ [B]) ∧ l.tail = B * 2 := by
  have hlinks := h.links
  rcases List.eq_nil_or_concat' G.ends with hnil | ⟨es, e, hconcat⟩
  · rw [hnil] at hlinks ⊢
    have hhead : s.runeRange.ends.head = 0 := hlinks
    refine ⟨.mk1 (B * 2), s, ?_, ?_, ⟨rfl, hout⟩, rfl⟩
    · unfold append
      rw [if_pos hhead]
      exact .pure
    · exact ⟨h.inv, rfl, rfl, rfl, rfl, rfl, fun _ _ => rfl, fun _ => rfl, fun _ => rfl⟩
  · have hsmall := h.lt_pow (Nat.le_of_lt hlt)
    have hpos : ∀ y ∈ G.ends, 0 < y := fun y hy => by
      obtain ⟨b, hb⟩ := h.mem_ends.1 hy
      exact (h.bound hb).1
    have he : e ∈ G.ends := by
      rw [hconcat]
      exact List.mem_append_right _ (List.mem_singleton_self e)
    obtain ⟨b, hb⟩ := h.mem_ends.1 he
    have hlte : e < s.ninst := Nat.lt_trans (h.bound hb).2 hlt
    have htail := h.tail e (by rw [hconcat]; exact List.getLast?_concat)
    have hhead : s.runeRange.ends.head ≠ 0 := by
      cases hends : G.ends with
      | nil =>
        rw [hends] at he
        cases he
      | cons y ys =>
        rw [hends] at hlinks
        have := hpos y (by rw [hends]; exact List.mem_cons_self)
        have := hlinks.1
        omega
    have hcell := @RangeCompiler.cell_modify s e (·.setOut (B * 2))
      (Nat.lt_of_lt_of_le hlte h.inv.used)
    have hother : ∀ y, y ≠ e → (s.modify e (·.setOut (B * 2))).cell y = s.cell y := fun y hy => by
      rw [hcell, Function.update_of_ne hy]
    have hself : (s.modify e (·.setOut (B * 2))).cell e = (s.cell e).setOut (B * 2) := by
      rw [hcell, Function.update_self]
    refine ⟨⟨s.runeRange.ends.head, B * 2⟩, s.modify e (·.setOut (B * 2)), ?_, ?_, ?_, rfl⟩
    · have hmk : ¬ (PatchList.mk1 (B * 2)).head = 0 := by
        have := h.pos
        change ¬ B * 2 = 0
        omega
      unfold append
      rw [if_neg hhead, if_neg hmk, htail, if_neg (by omega), Nat.mul_div_cancel e (by omega)]
      exact Silent.update.bind .pure
    · refine ⟨h.inv.modify hlte, rfl, rfl, rfl, rfl, rfl, ?_, ?_, ?_⟩
      · intro y hy
        exact hother y fun hye => hy (hye ▸ he)
      · intro y
        by_cases hy : y = e
        · rw [hy, hself, Inst.opcode_setOut (by omega)]
        · rw [hother y hy]
      · intro y
        by_cases hy : y = e
        · rw [hy, hself, Inst.sym_setOut]
        · rw [hother y hy]
    · have hnd := h.nodup
      rw [hconcat] at hlinks hnd ⊢
      apply links_append hlinks hnd hother
      · rw [hself, Inst.out_setOut (by omega)]
      · rw [hother B (Nat.ne_of_gt (h.bound hb).2), hout]

/-! ## The cache -/

/-- The suffix `v` has been built from instruction `id` on, and nothing else is new. -/
def Built (P : Plan) (G : Ghost) (B : Nat) (s : RangeCompiler) (id : Nat) (v : Word) : Prop :=
  Fits P G B s ∧ (v = [] ∧ id = 0 ∧ s.ninst = B ∨ Chain P G B s.cell s.ninst id v)

theorem Chain.ne_nil {t : Nat} (h : Fits P G B s) (hchain : Chain P G B s.cell t id v) :
    v ≠ [] := by
  obtain ⟨-, w, rfl⟩ := hchain.head h
  exact List.cons_ne_nil _ _

/-- A suffix that is cached, or has one label, is shared. -/
theorem Chain.role_of_flag (h : Fits P G B s) (hchain : Chain P G B s.cell s.ninst id v)
    (hstrict : P.strict) (hflag : 2 ≤ v.length → P.flag v) :
    G.role id = some (.shared v) ∧ s.ninst = B := by
  generalize s.ninst = t at hchain ⊢
  cases hchain with
  | shared hx => exact ⟨hx, rfl⟩
  | own hchain _ hno =>
    have := List.length_pos_of_ne_nil (Chain.ne_nil h hchain)
    exact absurd (hflag (by rw [List.length_cons]; omega)) (hno hstrict)

theorem Chain.bound {t : Nat} (h : Fits P G B s) (hchain : Chain P G B s.cell t id v)
    (ht : t ≤ s.ninst) : 0 < id ∧ id < 2 ^ 27 := by
  cases hchain with
  | shared hx => exact ⟨(h.bound hx).1, h.lt_pow (Nat.le_trans (Nat.le_of_lt (h.bound hx).2) ht)⟩
  | own hchain _ _ =>
    exact ⟨Nat.lt_of_lt_of_le h.pos hchain.le, h.lt_pow (Nat.le_of_succ_le ht)⟩

theorem isSome_update {cache : Nat → Option Nat} {k key x : Nat} (h : (cache k).isSome) :
    (Function.update cache key (some x) k).isSome := by
  by_cases hkey : k = key
  · rw [hkey, Function.update_self]
    rfl
  · rwa [Function.update_of_ne hkey]

/-- A new entry of the cache. -/
theorem Fits.add_cache {key x : Nat} (h : Fits P G B s) (hx : CacheFits P G key x) :
    Fits P G B { s with runeCache := Function.update s.runeCache key (some x) } := by
  refine { h with role := ?_, cache := ?_ }
  · intro y r hy
    have hfits := h.role hy
    cases r with
    | alt p => exact hfits
    | step p b => exact hfits
    | shared w =>
      obtain ⟨hop, v', hw, hv'⟩ := hfits
      exact ⟨hop, v', hw, fun hne => ⟨(hv' hne).1, fun hst =>
        ⟨((hv' hne).2 hst).1, isSome_update ((hv' hne).2 hst).2⟩⟩⟩
  · intro k y hk
    change Function.update s.runeCache key (some x) k = some y at hk
    by_cases hkey : k = key
    · subst hkey
      rw [Function.update_self] at hk
      cases hk
      exact hx
    · rw [Function.update_of_ne hkey] at hk
      exact h.cache hk

/-- A suffix found in the cache is the one that is wanted. -/
theorem Built.of_hit (h : Built P G B s id v) (ha : a.Valid) (hstrict : P.strict)
    (hmono : 2 ≤ v.length → P.flag v) {x : Nat} (hhit : s.runeCache (a.key id) = some x) :
    G.role x = some (.shared (a :: v)) ∧ s.ninst = B := by
  obtain ⟨hfits, hid⟩ := h
  obtain ⟨b, w, next, hx, hb, hkey, hw⟩ := hfits.cache hhit
  obtain ⟨rfl, rfl⟩ := Sym.key_inj ha hb hkey
  rcases hid with ⟨rfl, rfl, hninst⟩ | hchain
  · rcases hw with ⟨rfl, -⟩ | ⟨-, -, hnext⟩
    · exact ⟨hx, hninst⟩
    · exact absurd (hfits.bound hnext).1 (Nat.lt_irrefl 0)
  · obtain ⟨hrole, hninst⟩ := Chain.role_of_flag hfits hchain hstrict hmono
    rcases hw with ⟨-, rfl⟩ | ⟨-, -, hnext⟩
    · exact absurd (hfits.bound hrole).1 (Nat.lt_irrefl 0)
    · rw [hrole] at hnext
      cases hnext
      exact ⟨hx, hninst⟩

theorem Fits.set_begin {x : Nat} (h : Fits P G B s) (hx : G.Child [] x) :
    Fits P G B { s with runeRange := ⟨x, s.runeRange.ends⟩ } :=
  { h with begin := .inr hx }

/-! ## Which labels are cached -/

/-- The next label of a suffix may be compiled as the flag `c` says. -/
def Plan.Allows (P : Plan) (c : Prop) (a : Sym) (v : Word) : Prop :=
  a.Valid ∧ (c → P.strict ∧ (v ≠ [] → P.flag (a :: v)) ∧ (2 ≤ v.length → P.flag v)) ∧
    (¬ c → v ≠ [] → P.strict → ¬ P.flag (a :: v))

/-- The labels `sym i` may be compiled in front of `v`, one after the other. -/
def Plan.AllowsAll (P : Plan) (c : Nat → Prop) (sym : Nat → Sym) : List Nat → Word → Prop
  | [], _ => True
  | i :: is, v => P.Allows (c i) (sym i) v ∧ P.AllowsAll c sym is (sym i :: v)

end

end FourFuzzers.Re2
