import FourFuzzers.Re2.Verify.Graph

/-!
# The trie of a rune range

Each instruction in use has a role. `alt` and `step` instructions belong to the trie: their place is
the word of labels that leads to them from `rune_range_.begin`, and only they are changed. An
instruction that is `shared` starts a suffix with one word, which no change reaches; all exits are
of this kind. The words of the trie are those added so far, so the invariant `Fits` asks of each
instruction only what its own fields must be.

A suffix that is about to be added is a `Chain`: new instructions of its own on top of the array,
the first of them last, and behind them a shared suffix.
-/

namespace FourFuzzers.Re2

open FourFuzzers.Lib FourFuzzers.Lib.Traced FourFuzzers.Lib.Stateful

/-! ## Words -/

/-- The labels of a suffix, first instruction first. -/
abbrev Word := List Sym

/-- How the words of a character class are compiled. -/
structure Plan where
  /-- `ninst_` at `BeginRange` -/
  base : Nat
  reversed : Bool
  /-- Shared suffixes are cached, and suffixes that are not `flag` are not. -/
  strict : Prop
  /-- The suffixes of two and more labels that are cached. -/
  flag : Word → Prop

/-- Where `w` follows `y`, both go on, and if the suffix of `y` is cached, so is that of `w`. -/
def Plan.Compat (P : Plan) : Word → Word → Prop
  | a :: y, b :: w => a = b →
    P.strict ∧ y ≠ [] ∧ w ≠ [] ∧ (P.flag (a :: y) → P.flag (b :: w)) ∧ P.Compat y w
  | _, _ => True

/-! ## Roles -/

inductive Role
  | alt (place : Word)
  | step (place : Word) (a : Sym)
  | shared (suffix : Word)

structure Ghost where
  role : Nat → Option Role
  words : Set Word
  ends : List Nat

namespace Ghost

/-- Instruction `x` is a byte range at the place `p` of the trie. -/
def Branch (G : Ghost) (p : Word) (x : Nat) : Prop :=
  (∃ a, G.role x = some (.step p a)) ∨ ∃ v, G.role x = some (.shared v) ∧ p ++ v ∈ G.words

/-- Instruction `x` is at the place `p` of the trie. -/
def Child (G : Ghost) (p : Word) (x : Nat) : Prop := G.role x = some (.alt p) ∨ G.Branch p x

/-- `G'` keeps what `G` knows. -/
structure Extends (G G' : Ghost) : Prop where
  role : ∀ {x r}, G.role x = some r → G'.role x = some r
  words : G.words ⊆ G'.words

variable {G G' G'' : Ghost} {p : Word} {x : Nat}

theorem Extends.refl : G.Extends G := ⟨id, subset_rfl⟩

theorem Extends.trans (h : G.Extends G') (h' : G'.Extends G'') : G.Extends G'' :=
  ⟨fun hx => h'.role (h.role hx), h.words.trans h'.words⟩

theorem Branch.extend (h : G.Branch p x) (hG : G.Extends G') : G'.Branch p x := by
  rcases h with ⟨a, hx⟩ | ⟨v, hx, hv⟩
  · exact .inl ⟨a, hG.role hx⟩
  · exact .inr ⟨v, hG.role hx, hG.words hv⟩

theorem Child.extend (h : G.Child p x) (hG : G.Extends G') : G'.Child p x :=
  h.imp hG.role (·.extend hG)

theorem Child.role (h : G.Child p x) : ∃ r, G.role x = some r := by
  rcases h with hx | ⟨a, hx⟩ | ⟨v, hx, -⟩ <;> exact ⟨_, hx⟩

/-- `G` with a role for `x`. -/
def set (G : Ghost) (x : Nat) (r : Role) : Ghost :=
  { G with role := Function.update G.role x (some r) }

theorem role_set_self {r : Role} : (G.set x r).role x = some r := Function.update_self ..

theorem ends_set {r : Role} : (G.set x r).ends = G.ends := rfl

theorem role_set_of_ne {y : Nat} {r : Role} (h : y ≠ x) : (G.set x r).role y = G.role y :=
  Function.update_of_ne h ..

theorem extends_set {r : Role} (h : G.role x = none) : G.Extends (G.set x r) := by
  refine ⟨?_, subset_rfl⟩
  intro y r' hy
  rw [role_set_of_ne, hy]
  rintro rfl
  rw [h] at hy
  cases hy

end Ghost

/-- The fields an instruction has in its role. -/
def Role.Fits (P : Plan) (G : Ghost) (cache : Nat → Option Nat) (x : Nat) (ip : Inst) :
    Role → Prop
  | alt p => ip.opcode = Inst.opAlt ∧ G.Branch p ip.out1 ∧
      (G.Branch p ip.out ∨ G.role ip.out = some (.alt p) ∧ ip.out < x)
  | step p a => ip.opcode = Inst.opByteRange ∧ ip.sym = a ∧ G.Child (p ++ [a]) ip.out ∧
      ∃ y, p ++ a :: y ∈ G.words
  | shared w => ip.opcode = Inst.opByteRange ∧ ∃ v, w = ip.sym :: v ∧
      (v ≠ [] → G.role ip.out = some (.shared v) ∧
        (P.strict → P.flag w ∧ (cache (ip.sym.key ip.out)).isSome))

theorem Role.Fits.extend {P : Plan} {G G' : Ghost} {cache : Nat → Option Nat} {x : Nat} {ip : Inst}
    {r : Role} (h : r.Fits P G cache x ip) (hG : G.Extends G') : r.Fits P G' cache x ip := by
  cases r with
  | alt p => exact ⟨h.1, h.2.1.extend hG, h.2.2.imp (·.extend hG) (And.imp_left hG.role)⟩
  | step p a => exact ⟨h.1, h.2.1, h.2.2.1.extend hG, h.2.2.2.imp fun _ hy => hG.words hy⟩
  | shared w =>
    obtain ⟨hop, v, hw, hv⟩ := h
    exact ⟨hop, v, hw, fun hne => ⟨hG.role (hv hne).1, (hv hne).2⟩⟩

/-- An entry of `rune_cache_`: a shared suffix under the key of its first instruction. -/
def CacheFits (P : Plan) (G : Ghost) (key x : Nat) : Prop :=
  ∃ a v next, G.role x = some (.shared (a :: v)) ∧ a.Valid ∧ key = a.key next ∧
    (v = [] ∧ next = 0 ∨ v ≠ [] ∧ P.flag (a :: v) ∧ G.role next = some (.shared v))

theorem CacheFits.extend {P : Plan} {G G' : Ghost} {key x : Nat} (h : CacheFits P G key x)
    (hG : G.Extends G') : CacheFits P G' key x := by
  obtain ⟨a, v, next, hx, ha, hkey, hv⟩ := h
  exact ⟨a, v, next, hG.role hx, ha, hkey, hv.imp_right (And.imp_right (And.imp_right hG.role))⟩

/-- The entries of a patch list of `out` fields. -/
def Links (cell : Nat → Inst) : Nat → List Nat → Prop
  | p, [] => p = 0
  | p, e :: es => p = e * 2 ∧ Links cell (cell e).out es

/-! ## The invariant -/

/-- The instructions from 1 to `B` are what their roles say; those from `B` on have none yet. -/
structure Fits (P : Plan) (G : Ghost) (B : Nat) (s : RangeCompiler) : Prop where
  inv : Inv s.toCompiler
  failed : s.failed = false
  reversed : s.reversed = P.reversed
  top : B ≤ s.ninst
  pos : 0 < B
  base : P.base ≤ B
  bound : ∀ {x r}, G.role x = some r → 0 < x ∧ x < B
  role : ∀ {x r}, G.role x = some r → r.Fits P G s.runeCache x (s.cell x)
  cache : ∀ {key x}, s.runeCache key = some x → CacheFits P G key x
  begin : s.runeRange.begin = 0 ∨ G.Child [] s.runeRange.begin
  mem_ends : ∀ {x}, x ∈ G.ends ↔ ∃ a, G.role x = some (.shared [a])
  nodup : G.ends.Nodup
  links : Links s.cell s.runeRange.ends.head G.ends
  tail : ∀ e ∈ G.ends.getLast?, s.runeRange.ends.tail = e * 2

namespace Fits

variable {P : Plan} {G G' : Ghost} {B : Nat} {s s' : RangeCompiler} {p : Word} {x : Nat}

theorem bound_child (h : Fits P G B s) (hx : G.Child p x) : 0 < x ∧ x < B :=
  hx.role.elim fun _ => h.bound

theorem role_none (h : Fits P G B s) (hx : B ≤ x) : G.role x = none := by
  cases hr : G.role x with
  | none => rfl
  | some r => exact absurd (h.bound hr).2 (Nat.not_lt.2 hx)

theorem lt_pow (h : Fits P G B s) (hx : x ≤ s.ninst) : x < 2 ^ 27 := by
  have := h.inv.ninst_le
  omega

/-- A child fits the 28 bits of `out`. -/
theorem child_lt_pow (h : Fits P G B s) (hx : G.Child p x) : x < 2 ^ 28 := by
  have := h.lt_pow (Nat.le_of_lt (Nat.lt_of_lt_of_le (h.bound_child hx).2 h.top))
  omega

/-- The patch list of the fragment has the ends as its entries. -/
theorem holds_iff (h : Fits P G B s) :
    PatchList.Holds s.cell s.runeRange.ends.head x ↔ x ∈ G.ends := by
  have hpos : ∀ e ∈ G.ends, 0 < e := fun e he => by
    obtain ⟨a, hr⟩ := h.mem_ends.1 he
    exact (h.bound hr).1
  have hlinks := h.links
  generalize s.runeRange.ends.head = q at hlinks ⊢
  generalize G.ends = es at hlinks hpos ⊢
  induction es generalizing q with
  | nil =>
    obtain rfl : q = 0 := hlinks
    constructor
    · rintro (hne | ⟨hne, -, -⟩ | ⟨hne, -, -⟩) <;> exact absurd rfl hne
    · exact fun hx => absurd hx List.not_mem_nil
  | cons e es ih =>
    obtain ⟨rfl, hlinks⟩ := hlinks
    have he := hpos e List.mem_cons_self
    have hdiv : e * 2 / 2 = e := by omega
    have htail : PatchList.Holds s.cell (s.cell e).out x ↔ x ∈ es :=
      ih _ hlinks fun e' he' => hpos e' (List.mem_cons_of_mem _ he')
    rw [List.mem_cons, ← htail]
    constructor
    · intro hx
      cases hx with
      | head => exact .inl hdiv
      | out _ _ hx => exact .inr (by rwa [hdiv] at hx)
      | out1 _ hodd => omega
    · rintro (rfl | hx)
      · have := @PatchList.Holds.head s.cell (x * 2) (by omega)
        rwa [hdiv] at this
      · exact .out (by omega) (by omega) (by rwa [hdiv])

/-- The children of an instruction that is reached have roles. -/
theorem reaches_role (h : Fits P G B s) (hx : s.runeRange.Reaches s.cell x) :
    ∃ r, G.role x = some r := by
  induction hx with
  | begin hne => exact (h.begin.resolve_left hne).role
  | @out x _ hop ih =>
    obtain ⟨r, hr⟩ := ih
    have hfits := h.role hr
    cases r with
    | alt p =>
      rcases hfits.2.2 with hout | ⟨hout, -⟩
      · exact Ghost.Child.role (.inr hout)
      · exact ⟨_, hout⟩
    | step p a => exact absurd (hop.symm.trans hfits.1) (by decide)
    | shared w => exact absurd (hop.symm.trans hfits.1) (by decide)
  | @out1 x _ hop ih =>
    obtain ⟨r, hr⟩ := ih
    have hfits := h.role hr
    cases r with
    | alt p => exact Ghost.Child.role (.inr hfits.2.1)
    | step p a => exact absurd (hop.symm.trans hfits.1) (by decide)
    | shared w => exact absurd (hop.symm.trans hfits.1) (by decide)
  | @next x _ hop hend ih =>
    obtain ⟨r, hr⟩ := ih
    have hfits := h.role hr
    cases r with
    | alt p => exact absurd (hfits.1.symm.trans hop) (by decide)
    | step p a => exact hfits.2.2.1.role
    | shared w =>
      obtain ⟨-, v, rfl, hv⟩ := hfits
      have hne : v ≠ [] := by
        rintro rfl
        exact hend (h.holds_iff.2 (h.mem_ends.2 ⟨_, hr⟩))
      exact ⟨_, (hv hne).1⟩

/-- Every instruction in use is below `B`. -/
theorem live_lt (h : Fits P G B s) (hx : s.Live x) : x < B := by
  have hrole : ∃ r, G.role x = some r := by
    rcases hx with hx | ⟨key, hx⟩ | hx
    · exact h.reaches_role hx
    · obtain ⟨a, v, -, hr, -⟩ := h.cache hx
      exact ⟨_, hr⟩
    · obtain ⟨a, hr⟩ := h.mem_ends.1 (h.holds_iff.1 hx)
      exact ⟨_, hr⟩
  exact hrole.elim fun _ hr => (h.bound hr).2

theorem links_congr {cell cell' : Nat → Inst} {q : Nat} {es : List Nat}
    (h : Links cell q es) (hcell : ∀ e ∈ es, (cell' e).out = (cell e).out) : Links cell' q es := by
  induction es generalizing q with
  | nil => exact h
  | cons e es ih =>
    refine ⟨h.1, ?_⟩
    rw [hcell e List.mem_cons_self]
    exact ih h.2 fun e' he' => hcell e' (List.mem_cons_of_mem _ he')

/-- Only the instructions below `B`, the cache and the fragment matter. -/
theorem congr (h : Fits P G B s) (hinv : Inv s'.toCompiler) (hf : s'.failed = false)
    (hrev : s'.reversed = s.reversed) (htop : B ≤ s'.ninst)
    (hcell : ∀ x, x < B → s'.cell x = s.cell x) (hcache : s'.runeCache = s.runeCache)
    (hrange : s'.runeRange = s.runeRange) : Fits P G B s' where
  inv := hinv
  failed := hf
  reversed := hrev.trans h.reversed
  top := htop
  pos := h.pos
  base := h.base
  bound := h.bound
  role hr := by
    rw [hcell _ (h.bound hr).2, hcache]
    exact h.role hr
  cache := by
    rw [hcache]
    exact h.cache
  begin := by
    rw [hrange]
    exact h.begin
  mem_ends := h.mem_ends
  nodup := h.nodup
  links := by
    rw [hrange]
    apply links_congr h.links
    intro e he
    obtain ⟨a, hr⟩ := h.mem_ends.1 he
    rw [hcell e (h.bound hr).2]
  tail := by
    rw [hrange]
    exact h.tail

theorem grow (h : Fits P G B s) (hs : Grown s s') : Fits P G B s' :=
  h.congr hs.inv hs.failed hs.reversed (by rw [hs.ninst]; exact Nat.le_succ_of_le h.top)
    (fun _ _ => by rw [hs.cell]) hs.cache hs.range

theorem insert_word (h : Fits P G B s) (w : Word) :
    Fits P { G with words := insert w G.words } B s := by
  have hG : G.Extends { G with words := insert w G.words } := ⟨id, Set.subset_insert w _⟩
  exact { h with
    role := fun hr => (h.role hr).extend hG
    cache := fun hk => (h.cache hk).extend hG
    begin := h.begin.imp_right (·.extend hG) }

/-- A change of an instruction that has no role yet. -/
theorem modify_new (h : Fits P G B s) {f : Inst → Inst} (hx : B ≤ x) (hlt : x < s.ninst) :
    Fits P G B (s.modify x f) := by
  have hlen : x < s.inst.length := Nat.lt_of_lt_of_le hlt h.inv.used
  refine h.congr (h.inv.modify hlt) h.failed rfl h.top ?_ rfl rfl
  intro y hy
  rw [RangeCompiler.cell_modify hlen, Function.update_of_ne (by omega)]

/-- A change of an instruction of the trie. -/
theorem modify_own (h : Fits P G B s) {r : Role} {f : Inst → Inst} (hr : G.role x = some r)
    (hown : ∀ w, r ≠ .shared w) (hfits : r.Fits P G s.runeCache x (f (s.cell x))) :
    Fits P G B (s.modify x f) := by
  have hlt : x < s.ninst := Nat.lt_of_lt_of_le (h.bound hr).2 h.top
  have hcell := @RangeCompiler.cell_modify s x f (Nat.lt_of_lt_of_le hlt h.inv.used)
  refine { h with
    inv := h.inv.modify hlt
    role := ?_
    links := ?_ }
  · intro y r' hy
    rw [hcell]
    by_cases hxy : y = x
    · subst hxy
      rw [hr] at hy
      cases hy
      rw [Function.update_self]
      exact hfits
    · rw [Function.update_of_ne hxy]
      exact h.role hy
  · apply links_congr h.links
    intro e he
    have hne : e ≠ x := by
      rintro rfl
      obtain ⟨a, ha⟩ := h.mem_ends.1 he
      rw [hr] at ha
      cases ha
      exact hown _ rfl
    rw [hcell, Function.update_of_ne hne]

theorem bound_set (h : Fits P G B s) {r r' : Role} (hx : (G.set B r).role x = some r') :
    0 < x ∧ x < B + 1 := by
  by_cases hxB : x = B
  · subst hxB
    exact ⟨h.pos, Nat.lt_succ_self x⟩
  · rw [Ghost.role_set_of_ne hxB] at hx
    exact ⟨(h.bound hx).1, Nat.lt_succ_of_lt (h.bound hx).2⟩

/-- The instruction `B` gets a place in the trie. -/
theorem add_own (h : Fits P G B s) {r : Role} (hlt : B < s.ninst) (hown : ∀ w, r ≠ .shared w)
    (hfits : r.Fits P (G.set B r) s.runeCache B (s.cell B)) : Fits P (G.set B r) (B + 1) s := by
  have hnone : G.role B = none := h.role_none (Nat.le_refl B)
  have hG : G.Extends (G.set B r) := Ghost.extends_set hnone
  refine { h with
    top := hlt
    pos := Nat.succ_pos B
    base := Nat.le_succ_of_le h.base
    bound := h.bound_set
    role := ?_
    cache := fun hk => (h.cache hk).extend hG
    begin := h.begin.imp_right (·.extend hG)
    mem_ends := ?_ }
  · intro y r' hy
    by_cases hyB : y = B
    · subst hyB
      rw [Ghost.role_set_self] at hy
      cases hy
      exact hfits
    · rw [Ghost.role_set_of_ne hyB] at hy
      exact (h.role hy).extend hG
  · intro y
    rw [Ghost.ends_set, h.mem_ends]
    by_cases hyB : y = B
    · subst hyB
      rw [Ghost.role_set_self, hnone]
      constructor
      · rintro ⟨a, ha⟩
        cases ha
      · rintro ⟨a, ha⟩
        cases ha
        exact absurd rfl (hown _)
    · rw [Ghost.role_set_of_ne hyB]

/-- The instruction `B` becomes the start of a shared suffix, and possibly an entry of the cache. -/
theorem add_shared (h : Fits P G B s) {a : Sym} {v : Word} {cache : Nat → Option Nat}
    (hlt : B < s.ninst) (hop : (s.cell B).opcode = Inst.opByteRange) (hsym : (s.cell B).sym = a) (hv : v ≠ [])
    (hnext : G.role (s.cell B).out = some (.shared v))
    (hmono : ∀ k, (s.runeCache k).isSome → (cache k).isSome)
    (hcache : ∀ k y, cache k = some y → s.runeCache k = some y ∨
      y = B ∧ k = a.key (s.cell B).out ∧ P.flag (a :: v))
    (hstrict : P.strict → P.flag (a :: v) ∧ (cache (a.key (s.cell B).out)).isSome) :
    Fits P (G.set B (.shared (a :: v))) (B + 1) { s with runeCache := cache } := by
  have hnone : G.role B = none := h.role_none (Nat.le_refl B)
  have hG : G.Extends (G.set B (.shared (a :: v))) := Ghost.extends_set hnone
  refine { h with
    top := hlt
    pos := Nat.succ_pos B
    base := Nat.le_succ_of_le h.base
    bound := h.bound_set
    role := ?_
    cache := ?_
    begin := h.begin.imp_right (·.extend hG)
    mem_ends := ?_ }
  · intro y r' hy
    by_cases hyB : y = B
    · subst hyB
      rw [Ghost.role_set_self] at hy
      cases hy
      refine ⟨hop, v, by rw [← hsym]; rfl, fun _ => ⟨hG.role hnext, fun hst => ?_⟩⟩
      refine ⟨(hstrict hst).1, ?_⟩
      have := (hstrict hst).2
      rw [← hsym] at this
      exact this
    · rw [Ghost.role_set_of_ne hyB] at hy
      have hold := (h.role hy).extend hG
      cases r' with
      | alt p => exact hold
      | step p b => exact hold
      | shared w =>
        obtain ⟨hop', v', hw, hv'⟩ := hold
        exact ⟨hop', v', hw, fun hne => ⟨(hv' hne).1, fun hst =>
          ⟨((hv' hne).2 hst).1, hmono _ ((hv' hne).2 hst).2⟩⟩⟩
  · intro key y hk
    rcases hcache key y hk with hk | ⟨rfl, rfl, hflag⟩
    · exact (h.cache hk).extend hG
    · refine ⟨a, v, (s.cell y).out, Ghost.role_set_self, ?_, rfl, .inr ⟨hv, hflag, hG.role hnext⟩⟩
      rw [← hsym]
      exact Inst.valid_sym
  · intro y
    rw [Ghost.ends_set, h.mem_ends]
    by_cases hyB : y = B
    · subst hyB
      rw [Ghost.role_set_self, hnone]
      constructor
      · rintro ⟨b, hb⟩
        cases hb
      · rintro ⟨b, hb⟩
        simp only [Option.some.injEq, Role.shared.injEq, List.cons.injEq] at hb
        exact absurd hb.2 hv
    · rw [Ghost.role_set_of_ne hyB]

end Fits

/-! ## Chains -/

/-- From instruction `x`, below `t`, the suffix `v` that is to be added: first the instructions from
`t` down to `B`, then a shared suffix. -/
inductive Chain (P : Plan) (G : Ghost) (B : Nat) (cell : Nat → Inst) : Nat → Nat → Word → Prop
  | shared {x : Nat} {v : Word} : G.role x = some (.shared v) → Chain P G B cell B x v
  | own {t : Nat} {v : Word} : Chain P G B cell t (cell t).out v →
      (cell t).opcode = Inst.opByteRange → (P.strict → ¬ P.flag ((cell t).sym :: v)) →
      Chain P G B cell (t + 1) t ((cell t).sym :: v)

namespace Chain

variable {P : Plan} {G G' : Ghost} {B t x : Nat} {v : Word} {s : RangeCompiler}
  {cell cell' : Nat → Inst}

theorem le (h : Chain P G B cell t x v) : B ≤ t := by
  induction h with
  | shared => exact Nat.le_refl B
  | own _ _ _ ih => exact Nat.le_succ_of_le ih

theorem congr (h : Chain P G B cell t x v) (hcell : ∀ y, B ≤ y → y < t → cell' y = cell y) :
    Chain P G B cell' t x v := by
  induction h with
  | shared hx => exact .shared hx
  | @own t v hchain hop hflag ih =>
    have ht := hcell t hchain.le (Nat.lt_succ_self t)
    have ih := ih fun y hy hlt => hcell y hy (Nat.lt_succ_of_lt hlt)
    rw [← ht] at ih hop hflag ⊢
    exact .own ih hop hflag

theorem head (h : Chain P G B s.cell t x v) (hfits : Fits P G B s) :
    (s.cell x).opcode = Inst.opByteRange ∧ ∃ w, v = (s.cell x).sym :: w := by
  cases h with
  | shared hx =>
    obtain ⟨hop, w, hw, -⟩ := hfits.role hx
    exact ⟨hop, w, hw⟩
  | own _ hop _ => exact ⟨hop, _, rfl⟩

end Chain

/-! ## Which suffixes are cached -/

namespace Fits

variable {P : Plan} {G : Ghost} {B t : Nat} {s : RangeCompiler} {x : Nat} {v : Word}

/-- A cached instruction that goes on leads to a shared suffix, and what it starts has `flag`. -/
theorem flag_of_cached (h : Fits P G B s) (hx : s.isCached x = true) (hout : (s.cell x).out ≠ 0) :
    ∃ y, G.role (s.cell x).out = some (.shared y) ∧ P.flag ((s.cell x).sym :: y) := by
  obtain ⟨id, hid⟩ := Option.isSome_iff_exists.1 hx
  obtain ⟨a, y, next, -, ha, hkey, hy⟩ := h.cache hid
  obtain ⟨rfl, rfl⟩ := Sym.key_inj Inst.valid_sym ha hkey
  rcases hy with ⟨-, h0⟩ | ⟨-, hflag, hnext⟩
  · exact absurd h0 hout
  · exact ⟨y, hnext, hflag⟩

/-- A shared suffix that goes on is cached. -/
theorem cached_of_shared (h : Fits P G B s) (hstrict : P.strict) {w : Word}
    (hx : G.role x = some (.shared w)) (hw : 2 ≤ w.length) : s.isCached x = true := by
  obtain ⟨-, y, rfl, hy⟩ := h.role hx
  have hne : y ≠ [] := by
    rintro rfl
    simp at hw
  exact ((hy hne).2 hstrict).2

end Fits

namespace Chain

variable {P : Plan} {G : Ghost} {B t : Nat} {s : RangeCompiler} {x : Nat} {v : Word}

/-- A new instruction of a chain is not cached. -/
theorem not_cached (h : Chain P G B s.cell t (s.cell x).out v) (hfits : Fits P G B s)
    (hstrict : P.strict) (hflag : P.strict → ¬ P.flag ((s.cell x).sym :: v)) :
    s.isCached x = false := by
  rw [← Bool.not_eq_true]
  intro hc
  have hpos : 0 < (s.cell x).out := by
    generalize (s.cell x).out = y at h
    cases h with
    | shared hy => exact (hfits.bound hy).1
    | own hchain => exact Nat.lt_of_lt_of_le hfits.pos hchain.le
  obtain ⟨y, hy, hyflag⟩ := hfits.flag_of_cached hc (Nat.ne_of_gt hpos)
  have hlt := (hfits.bound hy).2
  generalize (s.cell x).out = z at h hy hlt
  cases h with
  | shared hz =>
    rw [hy] at hz
    cases hz
    exact hflag hstrict hyflag
  | own hchain =>
    have := hchain.le
    omega

end Chain

end FourFuzzers.Re2
