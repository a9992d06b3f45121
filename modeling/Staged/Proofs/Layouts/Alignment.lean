/-
  Staged.Proofs.Layouts.Alignment — every size is a multiple of its alignment.

  The alignment of a type is a power of two up to 16, and its size a multiple of it
  (`Layout.Aligned`), for every way in which types are put together. Sizes are words, but
  that a sum or a product wraps does no harm: the alignments divide `2 ^ 64`. What must not
  wrap is a power of two that a scalar, the tag of a mix or a vector is rounded up to
  (`TypeTable.Rounds`), as there is nothing left of it then.

  Each rule is followed one definition deep, along the tree of a type (`aligned_layoutStep`),
  and then through the definitions.
-/

import Mathlib.Algebra.Order.Group.Nat
import Mathlib.Logic.Relation
import Staged.Proofs.Layouts.Evolve

namespace Staged

namespace Layout

/-- An alignment: a power of two up to 16. -/
def IsAlignment (align : Nat) : Prop := ∃ k ≤ 4, align = 2 ^ k

structure Aligned (l : Layout) : Prop where
  align : IsAlignment l.align
  size : l.align ∣ l.size

variable {a b n : Nat} {l : Layout} {ls : List Layout}

/-! ## Alignments -/

theorem isAlignment_one : IsAlignment 1 := ⟨0, by decide, rfl⟩

theorem isAlignment_iff : IsAlignment a ↔ a ∈ [1, 2, 4, 8, 16] := by
  constructor
  · rintro ⟨k, hk, rfl⟩
    interval_cases k <;> decide
  · intro ha
    fin_cases ha
    exacts [⟨0, by decide, rfl⟩, ⟨1, by decide, rfl⟩, ⟨2, by decide, rfl⟩, ⟨3, by decide, rfl⟩,
      ⟨4, by decide, rfl⟩]

theorem IsAlignment.max (ha : IsAlignment a) (hb : IsAlignment b) : IsAlignment (max a b) := by
  rcases max_choice a b with h | h <;> rwa [h]

theorem IsAlignment.dvd_word (ha : IsAlignment a) (h : a ∣ n) : a ∣ word n := by
  obtain ⟨k, hk, rfl⟩ := ha
  exact (Nat.dvd_mod_iff (pow_dvd_pow 2 (by omega : k ≤ 64))).mpr h

theorem IsAlignment.dvd_alignTo (ha : IsAlignment a) : a ∣ alignTo n a := by
  unfold alignTo
  split
  · rename_i hone
    obtain ⟨k, -, rfl⟩ := ha
    have : 2 ^ k = 1 := Nat.le_antisymm hone Nat.one_le_two_pow
    rw [this]
    exact one_dvd _
  · exact ha.dvd_word (Nat.dvd_mul_left _ _)

/-! ## Rules -/

/-- A power of two that is a word, as a size. -/
theorem aligned_nextPowerOfTwo (h : n ≤ 2 ^ 63) :
    Aligned ⟨nextPowerOfTwo n, min (nextPowerOfTwo n) 16⟩ := by
  obtain ⟨k, hk⟩ : ∃ k, nextPowerOfTwo n = 2 ^ k := by
    unfold nextPowerOfTwo
    split
    · exact ⟨0, rfl⟩
    · rename_i hn
      have hlog : (n - 1).log2 < 63 := (Nat.log2_lt (by omega)).mpr (by omega)
      exact ⟨(n - 1).log2 + 1, Nat.mod_eq_of_lt (Nat.pow_lt_pow_right (by decide) (by omega))⟩
  have hmin : min (2 ^ k) 16 = 2 ^ min k 4 := by
    rcases Nat.le_total k 4 with h | h
    · rw [Nat.min_eq_left h, Nat.min_eq_left (Nat.pow_le_pow_right (by decide) h)]
    · rw [Nat.min_eq_right h, Nat.min_eq_right (Nat.pow_le_pow_right (by decide) h)]
  rw [hk, hmin]
  exact ⟨⟨_, Nat.min_le_right _ _, rfl⟩, pow_dvd_pow 2 (Nat.min_le_left _ _)⟩

theorem aligned_scalar (h : (n + 7) / 8 ≤ 2 ^ 63) : (scalar n).Aligned := aligned_nextPowerOfTwo h

theorem Aligned.repeat (h : l.Aligned) (n : Nat) : Aligned ⟨word (l.size * n), l.align⟩ :=
  ⟨h.align, h.align.dvd_word (h.size.mul_right n)⟩

theorem aligned_aggregate (packed : Bool) (h : ∀ l ∈ ls, l.Aligned) :
    (aggregate packed ls).Aligned := by
  have halign : IsAlignment (ls.foldl (place packed) ⟨0, 1⟩).align := by
    refine List.foldlRecOn (motive := fun sofar : Layout => IsAlignment sofar.align) ls _
      isAlignment_one ?_
    intro sofar hsofar l hl
    unfold place
    split
    · exact hsofar
    · exact hsofar.max (h l hl).align
  exact ⟨halign, halign.dvd_alignTo⟩

theorem isAlignment_largest (h : ∀ l ∈ ls, l.Aligned) : IsAlignment (largest ls).align :=
  List.foldlRecOn (motive := fun sofar : Layout => IsAlignment sofar.align) ls _ isAlignment_one
    fun _ hsofar l hl => hsofar.max (h l hl).align

theorem aligned_tagged (packed : Bool) {tag payload : Layout} (htag : tag.Aligned)
    (hpayload : IsAlignment payload.align) : (tagged packed tag payload).Aligned := by
  unfold tagged
  split
  · exact htag
  split
  · exact ⟨isAlignment_one, one_dvd _⟩
  · exact ⟨htag.align.max hpayload, (htag.align.max hpayload).dvd_alignTo⟩

end Layout

namespace TypeTable

open Layout

variable {t : TypeTable} {ty p : Ty} {n : Nat} {l : Layout}

/-! ## Types -/

/-- A number of bytes that is rounded up to a power of two for the layout of a type, apart
from what is rounded up for the types it contains. -/
inductive Rounds (t : TypeTable) : Ty → Nat → Prop
  | int (bits : Nat) : Rounds t (.int bits) ((bits + 7) / 8)
  | uint (bits : Nat) : Rounds t (.uint bits) ((bits + 7) / 8)
  | vector {element : Ty} {e : Layout} (count : Nat) (scalable : Bool)
    (he : t.layout? element = some e) : Rounds t (.vector element count scalable) (e.size * count)
  | tag {id : Nat} {d : MixDef} (hd : t.mixes[id]? = some d) :
    Rounds t (.mix id) ((d.tagBits + 7) / 8)

/-- For the layout of a type and of all it contains, no power of two is too large for a
word. -/
def PowersFit (t : TypeTable) (ty : Ty) : Prop :=
  ∀ part, Relation.ReflTransGen t.Contains ty part → ∀ n, t.Rounds part n → n ≤ 2 ^ 63

theorem powersFit_iff : t.PowersFit ty ↔
    (∀ n, t.Rounds ty n → n ≤ 2 ^ 63) ∧ ∀ p, t.Contains ty p → t.PowersFit p := by
  constructor
  · exact fun h => ⟨h ty .refl, fun p hp part hpart => h part (.head hp hpart)⟩
  · rintro ⟨hself, hparts⟩ part hpart
    rcases Relation.ReflTransGen.cases_head hpart with rfl | ⟨p, hp, hpart⟩
    · exact hself
    · exact hparts p hp part hpart

theorem PowersFit.part (h : t.PowersFit ty) (hp : t.Contains ty p) : t.PowersFit p :=
  (powersFit_iff.mp h).2 p hp

theorem PowersFit.rounds (h : t.PowersFit ty) (hn : t.Rounds ty n) : n ≤ 2 ^ 63 :=
  (powersFit_iff.mp h).1 n hn

theorem word_le_of_le {m : Nat} (h : n ≤ m) : word n ≤ m := (Nat.mod_le _ _).trans h

theorem aligned_pointerLayout
    (hwidth : t.pointerWidth = 16 ∨ t.pointerWidth = 32 ∨ t.pointerWidth = 64) :
    t.pointerLayout.Aligned := by
  unfold pointerLayout
  rcases hwidth with h | h | h <;> rw [h]
  exacts [⟨⟨1, by decide, rfl⟩, dvd_rfl⟩, ⟨⟨2, by decide, rfl⟩, dvd_rfl⟩,
    ⟨⟨3, by decide, rfl⟩, dvd_rfl⟩]

theorem Native.bits_le (signed : Bool) (kind : Native) {width : Nat}
    (hwidth : width = 16 ∨ width = 32 ∨ width = 64) (bits : Nat)
    (h : kind.repr width = if signed then .signed bits else .unsigned bits) : bits ≤ 64 := by
  cases kind <;> cases signed <;> simp only [Native.repr, Bool.false_eq_true, if_true, if_false,
    NativeRepr.signed.injEq, NativeRepr.unsigned.injEq, reduceCtorEq] at h
  all_goals grind

/-- The size of a pointer and a length is that of two pointers. -/
theorem aligned_fatPointerLayout (h : t.pointerLayout.Aligned) : t.fatPointerLayout.Aligned :=
  ⟨h.align, Nat.dvd_mul_right _ _⟩

section

variable {parts : Ty → Option Layout}

mutual

/-- One definition deep: the layout of a type is aligned if those of the parts of definitions
are. -/
theorem aligned_layoutStep
    (hwidth : t.pointerWidth = 16 ∨ t.pointerWidth = 32 ∨ t.pointerWidth = 64)
    (hstep : ∀ ty l, t.layoutStep parts ty = some l → t.layout? ty = some l)
    (hparts : ∀ p l, t.PowersFit p → parts p = some l → l.Aligned) :
    ∀ ty l, t.PowersFit ty → t.layoutStep parts ty = some l → l.Aligned
  | .int _, _, hfit, rfl => aligned_scalar (hfit.rounds (.int _))
  | .uint _, _, hfit, rfl => aligned_scalar (hfit.rounds (.uint _))
  | .array _ _, _, hfit, hl => by
    rw [layoutStep] at hl
    obtain ⟨e, he, rfl⟩ := Option.map_eq_some_iff.mp hl
    exact (aligned_layoutStep hwidth hstep hparts _ e (hfit.part (.array _ _)) he).repeat _
  | .vector _ _ _, _, hfit, hl => by
    rw [layoutStep] at hl
    obtain ⟨e, he, rfl⟩ := Option.map_eq_some_iff.mp hl
    exact aligned_nextPowerOfTwo (word_le_of_le (hfit.rounds (.vector _ _ (hstep _ e he))))
  | .maybe _, _, hfit, hl => by
    rw [layoutStep] at hl
    obtain ⟨e, he, rfl⟩ := Option.map_eq_some_iff.mp hl
    have hsub := aligned_layoutStep hwidth hstep hparts _ e (hfit.part (.maybe _)) he
    exact aligned_aggregate false (by simpa using ⟨aligned_scalar (by decide), hsub⟩)
  | .tuple members packed, _, hfit, hl => by
    rw [layoutStep] at hl
    obtain ⟨ls, hls, rfl⟩ := Option.map_eq_some_iff.mp hl
    exact aligned_aggregate packed (aligned_layoutsStep hwidth hstep hparts members ls
      (fun m hm => hfit.part (.tuple packed hm)) hls)
  | .struct id, _, hfit, hl => by
    rw [layoutStep] at hl
    obtain ⟨d, hd, hl⟩ := Option.bind_eq_some_iff.mp hl
    obtain ⟨fields, hfields, hl⟩ := Option.bind_eq_some_iff.mp hl
    obtain ⟨ls, hls, hl⟩ := Option.bind_eq_some_iff.mp hl
    cases hl
    refine aligned_aggregate false fun l hl => ?_
    obtain ⟨f, hf, hfl⟩ := exists_of_mem_mapM hls hl
    refine hparts f.type l (hfit.part (.field hd ?_)) hfl
    simpa [StructDef.fields, hfields] using hf
  | .mix id, _, hfit, hl => by
    rw [layoutStep] at hl
    obtain ⟨d, hd, hl⟩ := Option.bind_eq_some_iff.mp hl
    obtain ⟨variants, hvariants, hl⟩ := Option.bind_eq_some_iff.mp hl
    obtain ⟨ls, hls, hl⟩ := Option.bind_eq_some_iff.mp hl
    cases hl
    refine aligned_tagged d.packed (aligned_scalar (hfit.rounds (.tag hd)))
      (isAlignment_largest fun l hl => ?_)
    obtain ⟨p, hp, hpl⟩ := exists_of_mem_mapM hls hl
    exact hparts p l (hfit.part (.payload hd hp)) hpl
  | .choice id, _, hfit, hl => by
    rw [layoutStep] at hl
    obtain ⟨d, hd, hl⟩ := Option.bind_eq_some_iff.mp hl
    exact hparts _ _ (hfit.part (.underlying hd)) hl
  | .float kind, _, _, hl => by
    cases kind <;> cases hl
    case f80 => exact ⟨⟨4, by decide, rfl⟩, dvd_rfl⟩
    all_goals exact aligned_scalar (by decide)
  | .char, _, _, rfl | .bool, _, _, rfl => aligned_scalar (by decide)
  | .str, _, _, rfl => aligned_fatPointerLayout (aligned_pointerLayout hwidth)
  | .ref .., _, _, rfl | .future .., _, _, rfl => aligned_pointerLayout hwidth
  | .mark _ _ _ slice _, _, _, rfl => by
    cases slice
    exacts [aligned_pointerLayout hwidth, aligned_fatPointerLayout (aligned_pointerLayout hwidth)]
  | .native kind, _, _, rfl => by
    have hbits (signed : Bool) := Native.bits_le signed kind hwidth
    cases hrepr : kind.repr t.pointerWidth with
    | signed bits => exact aligned_scalar (by have := hbits true bits hrepr; omega)
    | unsigned bits => exact aligned_scalar (by have := hbits false bits hrepr; omega)
    | float kind => exact aligned_scalar (by cases kind <;> decide)
    | pointer => exact aligned_pointerLayout hwidth

theorem aligned_layoutsStep
    (hwidth : t.pointerWidth = 16 ∨ t.pointerWidth = 32 ∨ t.pointerWidth = 64)
    (hstep : ∀ ty l, t.layoutStep parts ty = some l → t.layout? ty = some l)
    (hparts : ∀ p l, t.PowersFit p → parts p = some l → l.Aligned) :
    ∀ tys ls, (∀ ty ∈ tys, t.PowersFit ty) → t.layoutsStep parts tys = some ls →
      ∀ l ∈ ls, l.Aligned
  | [], _, _, rfl => nofun
  | ty :: tys, _, hfit, hls => by
    rw [layoutsStep] at hls
    obtain ⟨l, hl, hls⟩ := Option.bind_eq_some_iff.mp hls
    obtain ⟨ls, hls', hls⟩ := Option.bind_eq_some_iff.mp hls
    cases hls
    rw [List.forall_mem_cons] at hfit ⊢
    exact ⟨aligned_layoutStep hwidth hstep hparts ty l hfit.1 hl,
      aligned_layoutsStep hwidth hstep hparts tys ls hfit.2 hls'⟩

end

end

/-- For pointers of 16, 32 and 64 bits, the alignment of a type is 1, 2, 4, 8 or 16 and its size
is a multiple of it, whatever arrays, vectors, tuples, structs, mixes, choices and optional
values it is made of. Of all numbers on the way to the layout, only powers of two are asked to
stay below `2 ^ 64`. -/
theorem layout_aligned (t : TypeTable)
    (hwidth : t.pointerWidth = 16 ∨ t.pointerWidth = 32 ∨ t.pointerWidth = 64) (ty : Ty)
    (hfit : t.PowersFit ty) (l : Layout) (hl : t.layout? ty = some l) :
    l.align ∈ [1, 2, 4, 8, 16] ∧ l.align ∣ l.size := by
  -- by induction on how deep definitions nest; within one, `aligned_layoutStep` is by the type
  have hwithin (n : Nat) (hn : n ≤ t.depth) : ∀ ty l, t.PowersFit ty →
      t.layoutWithin? n ty = some l → l.Aligned := by
    induction n with
    | zero => exact fun _ _ _ hl => by cases hl
    | succ n ih =>
      have hstep (ty : Ty) (l : Layout) (hl : t.layoutStep (t.layoutWithin? n) ty = some l) :
          t.layout? ty = some l :=
        (Retains.refl t).layoutWithin? (n := n + 1) hn hl
      exact aligned_layoutStep hwidth hstep (ih (by omega))
  have haligned := hwithin t.depth (Nat.le_refl _) ty l hfit hl
  exact ⟨isAlignment_iff.mp haligned.align, haligned.size⟩

/-- An optional tuple of an odd integer, a vector of odd integers and a string. -/
def optionalTuple : Ty := .maybe (.tuple [.int 33, .vector (.uint 24) 3 false, .str] false)

theorem layout_aligned_optionalTuple :
    (ofPointerWidth 32).layout? optionalTuple = some ⟨64, 16⟩ ∧ 16 ∈ [1, 2, 4, 8, 16] ∧
      16 ∣ 64 := by
  have hlayout : (ofPointerWidth 32).layout? optionalTuple = some ⟨64, 16⟩ := by decide
  have helement (e : Layout) (he : (ofPointerWidth 32).layout? (.uint 24) = some e) :
      e.size = 4 := by
    cases he
    rfl
  have hfit : (ofPointerWidth 32).PowersFit optionalTuple := by
    unfold optionalTuple
    refine powersFit_iff.mpr ⟨nofun, fun p hp => ?_⟩
    cases hp
    refine powersFit_iff.mpr ⟨nofun, fun p hp => ?_⟩
    cases hp with
    | tuple _ hmember =>
      refine powersFit_iff.mpr ?_
      fin_cases hmember
      · exact ⟨fun n hn => by cases hn; decide, nofun⟩
      · refine ⟨fun n hn => ?_, fun p hp => ?_⟩
        · cases hn with
          | vector _ _ he => rw [helement _ he]; decide
        · cases hp
          exact powersFit_iff.mpr ⟨fun n hn => by cases hn; decide, nofun⟩
      · exact ⟨nofun, nofun⟩
  exact ⟨hlayout, layout_aligned _ (.inr (.inl rfl)) _ hfit _ hlayout⟩

end TypeTable

end Staged
