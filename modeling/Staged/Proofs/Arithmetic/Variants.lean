/-
  Staged.Proofs.Arithmetic.Variants — the numbers of the variants of a choice.

  A variant that is given no number counts on from the one before. Counting stays in the range
  of signed 128-bit words: it stops at the greatest one. A variant that comes after the greatest
  word would therefore get the same number as the one before it, and no two variants may have
  the same number (`nodup_of_firstDuplicate`). So in a choice that is accepted counting never
  stops: each number that is not given is exactly one more than the one before
  (`succ_of_nodup`). A number that fits a type by the comparisons of constants is in the
  mathematical range of the type (`IntInfo.inRange_of_fits`), unless the type is signed and has
  no bits, which every word fits (`IntInfo.fits_i0`). The type that is chosen when none is given
  has a bit and holds all numbers (`fits_smallestInt`).

  Main statement: `choiceType_numbered`, over all declarations and all states.
-/

import Mathlib.Data.List.Nodup
import Staged.Proofs.Arithmetic.Word
import Staged.Proofs.Compile.Enter

namespace Staged

variable {next a b v : Int} {written : List (Option Int)} {values : List Int} {i : Nat}

/-! ## Words -/

structure IsWord (v : Int) : Prop where
  least : wideMin ≤ v
  greatest : v ≤ wideMax

instance : Decidable (IsWord v) :=
  decidable_of_iff (wideMin ≤ v ∧ v ≤ wideMax) ⟨fun h => ⟨h.1, h.2⟩, fun h => ⟨h.least, h.greatest⟩⟩

theorem isWord_zero : IsWord 0 := by decide

theorem isWord_wide (v : Int) : IsWord (wide v) := by
  have hpos : 0 < Nat.pow 2 128 := by decide
  have hle := Int.le_bmod (x := v) hpos
  have hlt := Int.bmod_lt (x := v) hpos
  have hleast : -((Nat.pow 2 128 : Nat) / 2 : Int) = wideMin := by decide
  have hgreatest : (((Nat.pow 2 128 : Nat) : Int) + 1) / 2 = wideMax + 1 := by decide
  refine ⟨hleast ▸ hle, ?_⟩
  have hlt' : wide v < wideMax + 1 := hgreatest ▸ hlt
  omega

/-- Counting on from a word stays within the words. -/
theorem IsWord.succ (h : IsWord v) : IsWord (min (v + 1) wideMax) := by
  have hleast := h.least
  have hends : wideMin ≤ wideMax := by decide
  exact ⟨by omega, Int.min_le_right _ _⟩

/-! ## Counting -/

theorem length_numberFrom : (numberFrom next written).length = written.length := by
  induction written generalizing next with
  | nil => rfl
  | cons w rest ih => exact congrArg (· + 1) ih

theorem numberFrom_written (h : written[i]? = some (some v)) :
    (numberFrom next written)[i]? = some v := by
  induction written generalizing next i with
  | nil => cases h
  | cons w rest ih =>
    cases i with
    | zero =>
      cases h
      rfl
    | succ i => exact ih h

theorem numberFrom_first (h : written[0]? = some none) :
    (numberFrom next written)[0]? = some next := by
  cases written with
  | nil => cases h
  | cons w rest =>
    cases h
    rfl

/-- A number that is not written is counted on from the one before. -/
theorem numberFrom_next (h : written[i + 1]? = some none)
    (ha : (numberFrom next written)[i]? = some a) :
    (numberFrom next written)[i + 1]? = some (min (a + 1) wideMax) := by
  induction written generalizing next i with
  | nil => cases h
  | cons w rest ih =>
    cases i with
    | zero =>
      cases ha
      exact numberFrom_first h
    | succ i => exact ih h ha

theorem isWord_numberFrom (hnext : IsWord next) (hwritten : ∀ v, some v ∈ written → IsWord v) :
    ∀ v ∈ numberFrom next written, IsWord v := by
  induction written generalizing next with
  | nil => nofun
  | cons w rest ih =>
    have hvalue : IsWord (w.getD next) := by
      cases w with
      | none => exact hnext
      | some v => exact hwritten v List.mem_cons_self
    rintro v (_ | ⟨_, hv⟩)
    · exact hvalue
    · exact ih hvalue.succ (fun v hv => hwritten v (List.mem_cons_of_mem _ hv)) v hv

/-! ## Duplicates -/

theorem nodup_of_firstDuplicate {α : Type} {pairs : List (Int × α)}
    (h : firstDuplicate? pairs = none) : (pairs.map Prod.fst).Nodup := by
  rw [List.Nodup, List.pairwise_map, List.pairwise_iff_getElem]
  intro i j hi hj hlt heq
  cases pairs with
  | nil => cases hi
  | cons first rest =>
    rw [firstDuplicate?.eq_2 _ (List.cons_ne_nil first rest), List.findSome?_eq_none_iff] at h
    have hlater := h j (List.mem_range.mpr hj)
    rw [List.getElem?_eq_getElem hj, Option.bind_some, Option.map_eq_none_iff,
      List.find?_eq_none] at hlater
    have hmem : (first :: rest)[i] ∈ (first :: rest).take j :=
      List.mem_take_iff_getElem.mpr ⟨i, by omega, rfl⟩
    exact hlater _ hmem (beq_iff_eq.mpr heq)

/-- Where all numbers are different, counting has not stopped. -/
theorem succ_of_nodup (hnodup : values.Nodup) (ha : values[i]? = some a) (hword : IsWord a)
    (hb : values[i + 1]? = some (min (a + 1) wideMax)) :
    values[i + 1]? = some (a + 1) ∧ a < wideMax := by
  have hlt : a < wideMax := by
    refine Int.lt_iff_le_and_ne.mpr ⟨hword.greatest, fun hmax => ?_⟩
    have hsame : min (a + 1) wideMax = a := by omega
    rw [hsame, ← ha] at hb
    have hi : i + 1 < values.length := by
      rw [ha] at hb
      exact (List.getElem?_eq_some_iff.mp hb).1
    exact absurd (hnodup.getElem_inj_iff.mp
      (Option.some_inj.mp ((List.getElem?_eq_getElem hi).symm.trans
        (hb.trans (List.getElem?_eq_getElem (Nat.lt_of_succ_lt hi)))))) (Nat.succ_ne_self i)
  refine ⟨?_, hlt⟩
  rw [hb, Int.min_eq_left hlt]

/-! ## Types that hold all numbers -/

namespace IntInfo

variable {info : IntInfo}

/-- What fits by the comparisons of constants is in the range of the type, however many bits it
has, if it has any. -/
theorem inRange_of_fits (h : info.fits v = true) (hpos : 0 < info.bits) (hv : IsWord v) :
    info.InRange v := by
  rcases Nat.le_total info.bits 128 with hle | hge
  · exact Holds.inRange ⟨h, hv.least, hv.greatest⟩ hpos hle
  · unfold IntInfo.fits at h
    rw [if_pos hge] at h
    have hpow : (2 : Int) ^ 127 ≤ 2 ^ (info.bits - 1) := pow_le_pow_right₀ (by decide) (by omega)
    have hpow' : (2 : Int) ^ (info.bits - 1) ≤ 2 ^ info.bits :=
      pow_le_pow_right₀ (by decide) (by omega)
    have hleast : -(2 : Int) ^ 127 ≤ v := hv.least
    have hgreatest : v ≤ (2 : Int) ^ 127 - 1 := hv.greatest
    unfold InRange
    split
    · omega
    · rename_i hs
      rw [Bool.or_eq_true, decide_eq_true_eq] at h
      have hnonneg := h.resolve_left hs
      omega

/-- A signed type without bits lets every word pass: its bounds are those of 128 bits. -/
theorem fits_i0 (hv : IsWord v) : (⟨0, true⟩ : IntInfo).fits v = true := by
  have hleast : wide (-wide (wide (Int.pow 2 127) - 1) - 1) = wideMin := by decide
  have hgreatest : wide (wide (Int.pow 2 127) - 1) = wideMax := by decide
  show (decide (v ≥ wide (-wide (wide (Int.pow 2 127) - 1) - 1)) &&
    decide (v ≤ wide (wide (Int.pow 2 127) - 1))) = true
  rw [hleast, hgreatest, Bool.and_eq_true, decide_eq_true_eq, decide_eq_true_eq]
  exact ⟨hv.least, hv.greatest⟩

end IntInfo

theorem signed_widen (values : List Int) (fuel : Nat) (info : IntInfo) :
    (widen values fuel info).signed = info.signed := by
  induction fuel generalizing info with
  | zero => rfl
  | succ fuel ih =>
    unfold widen
    split
    · rfl
    · exact ih _

theorem le_bits_widen (values : List Int) (fuel : Nat) (info : IntInfo) :
    info.bits ≤ (widen values fuel info).bits := by
  induction fuel generalizing info with
  | zero => exact Nat.le_refl _
  | succ fuel ih =>
    unfold widen
    split
    · exact Nat.le_refl _
    · exact (Nat.le_succ _).trans (ih { info with bits := info.bits + 1 })

/-- Widening ends at a type that holds all numbers, as all do that have 128 bits. -/
theorem fits_widen {fuel : Nat} {info : IntInfo} (hbits : 128 ≤ info.bits + fuel)
    (hsign : info.signed = true ∨ ∀ v ∈ values, 0 ≤ v) :
    ∀ v ∈ values, (widen values fuel info).fits v = true := by
  induction fuel generalizing info with
  | zero =>
    intro v hv
    have hwide : info.bits ≥ 128 := hbits
    rw [widen, IntInfo.fits, if_pos hwide, Bool.or_eq_true, decide_eq_true_eq]
    exact hsign.imp id fun h => h v hv
  | succ fuel ih =>
    unfold widen
    split
    · exact List.all_eq_true.mp ‹_›
    · exact ih (by dsimp only; omega) hsign

theorem signed_smallestInt (values : List Int) :
    (smallestInt values).signed = true ↔ ∃ v ∈ values, v < 0 := by
  rw [smallestInt, signed_widen, List.any_eq_true]
  simp only [decide_eq_true_eq]

theorem bits_smallestInt_pos (values : List Int) : 0 < (smallestInt values).bits :=
  le_bits_widen values 127 ⟨1, _⟩

theorem fits_smallestInt : ∀ v ∈ values, (smallestInt values).fits v = true := by
  refine fits_widen (Nat.le_refl 128) ?_
  cases hsign : values.any (· < 0) with
  | true => exact .inl rfl
  | false =>
    refine .inr fun v hv => Int.not_lt.mp fun hneg => ?_
    rw [List.any_eq_false] at hsign
    exact hsign v hv (decide_eq_true hneg)

/-! ## Declarations -/

def ChoiceDef.numbers (c : ChoiceDef) : List Int := c.variants.map ChoiceVariant.value

/-- What an expression gives as a 128-bit word, if it is evaluated and gives an integer. -/
def Emit.GivesWord (view : Viewpoint) (o : Options) (e : Expr) (n : Int) : Prop :=
  ∃ expected s c s' m, Emit.evaluate view e expected o s = .ok c s' ∧ c.asInt? = some m ∧
    n = wide m

/-- How a declaration numbers the variants of a choice, the underlying type of which is an
integer type of the given width and sign. -/
structure ChoiceDecl.Numbers (d : ChoiceDecl) (view : Viewpoint) (o : Options) (c : ChoiceDef)
    (info : IntInfo) : Prop where
  names : c.variants.map ChoiceVariant.name = d.variants.map ChoiceVariantDecl.name
  written : ∀ (i : Nat) (v : ChoiceVariantDecl) (e : Expr), d.variants[i]? = some v →
    v.value = some e → ∃ n, c.numbers[i]? = some n ∧ Emit.GivesWord view o e n
  first : ∀ v : ChoiceVariantDecl, d.variants[0]? = some v → v.value = none → c.numbers[0]? = some 0
  next : ∀ (i : Nat) (v : ChoiceVariantDecl) (a : Int), d.variants[i + 1]? = some v → v.value = none → c.numbers[i]? = some a →
    c.numbers[i + 1]? = some (a + 1) ∧ a < wideMax
  distinct : c.numbers.Nodup
  range : 0 < info.bits → ∀ v ∈ c.numbers, info.InRange v
  inferred : d.underlying = none →
    0 < info.bits ∧ (info.signed = true ↔ ∃ v ∈ c.numbers, v < 0)

namespace Emit

variable {α β : Type} {o : Options} {s s' : Compiler} {view : Viewpoint} {expected : Option Ty}

/-- What one variant is given: nothing, or the word of what its expression gives. -/
def Given (view : Viewpoint) (o : Options) (v : ChoiceVariantDecl) (n : Option Int) : Prop :=
  match v.value with
  | none => n = none
  | some e => ∃ m, n = some m ∧ GivesWord view o e m

theorem given_writtenNumber {v : ChoiceVariantDecl} {n : Option Int}
    (h : writtenNumber view expected v o s = .ok n s') : Given view o v n := by
  unfold writtenNumber at h
  unfold Given
  cases hvalue : v.value with
  | none =>
    rw [hvalue] at h
    cases h
    rfl
  | some e =>
    rw [hvalue] at h
    obtain ⟨c, t, hc, h⟩ := bind_ok h
    obtain ⟨types, t', -, h⟩ := bind_ok h
    obtain ⟨m, t'', hm, h⟩ := bind_ok h
    cases h
    refine ⟨m, rfl, expected, s, c, t, ?_⟩
    obtain ⟨hnumber, -⟩ := Returns.require _ _ m _ hm
    split at hnumber
    · obtain ⟨k, hk, rfl⟩ := Option.map_eq_some_iff.mp hnumber
      exact ⟨k, hc, hk, rfl⟩
    · cases hnumber

/-- Items that are mapped one after another are each mapped in some state. -/
theorem forall₂_mapM {R : α → β → Prop} {f : α → Emit β}
    (hf : ∀ a b t t', f a o t = .ok b t' → R a b) :
    ∀ {as : List α} {bs : List β} {s s' : Compiler}, as.mapM f o s = .ok bs s' →
      List.Forall₂ R as bs
  | [], bs, s, s', h => by
    rw [List.mapM_nil] at h
    cases h
    exact .nil
  | a :: as, bs, s, s', h => by
    rw [List.mapM_cons] at h
    obtain ⟨b, t, hb, h⟩ := bind_ok h
    obtain ⟨bs', t', hbs, h⟩ := bind_ok h
    cases h
    exact .cons (hf a b s t hb) (forall₂_mapM hf hbs)

theorem Given.isWord {v : ChoiceVariantDecl} {n : Int} (h : Given view o v (some n)) :
    IsWord n := by
  unfold Given at h
  split at h
  · cases h
  · obtain ⟨m, hm, -, -, -, -, k, -, -, rfl⟩ := h
    cases hm
    exact isWord_wide k

structure Counted (view : Viewpoint) (o : Options) (variants : List ChoiceVariantDecl)
    (values : List Int) : Prop where
  length : values.length = variants.length
  isWord : ∀ v ∈ values, IsWord v
  written : ∀ (i : Nat) (v : ChoiceVariantDecl) (e : Expr), variants[i]? = some v →
    v.value = some e → ∃ n, values[i]? = some n ∧ GivesWord view o e n
  first : ∀ v : ChoiceVariantDecl, variants[0]? = some v → v.value = none → values[0]? = some 0
  next : ∀ (i : Nat) (v : ChoiceVariantDecl) (a : Int), variants[i + 1]? = some v → v.value = none → values[i]? = some a →
    values[i + 1]? = some (a + 1) ∧ a < wideMax

theorem counted_numberVariants {variants : List ChoiceVariantDecl} {given : List (Option Int)}
    (h : List.Forall₂ (Given view o) variants given) (hnodup : (numberVariants given).Nodup) :
    Counted view o variants (numberVariants given) := by
  have hget (i : Nat) (v : ChoiceVariantDecl) (hv : variants[i]? = some v) :
      ∃ n, given[i]? = some n ∧ Given view o v n := by
    obtain ⟨hi, rfl⟩ := List.getElem?_eq_some_iff.mp hv
    have hi' : i < given.length := h.length_eq ▸ hi
    exact ⟨given[i], List.getElem?_eq_getElem hi', h.get hi hi'⟩
  have hnone (i : Nat) (v : ChoiceVariantDecl) (hv : variants[i]? = some v)
      (hvalue : v.value = none) : given[i]? = some none := by
    obtain ⟨n, hn, hgiven⟩ := hget i v hv
    unfold Given at hgiven
    rw [hvalue] at hgiven
    rw [hn, hgiven]
  have hwords : ∀ v ∈ numberVariants given, IsWord v := by
    refine isWord_numberFrom isWord_zero fun v hv => ?_
    obtain ⟨i, hi, heq⟩ := List.getElem_of_mem hv
    have hgiven : Given view o _ given[i] := h.get (h.length_eq ▸ hi) hi
    rw [heq] at hgiven
    exact hgiven.isWord
  refine ⟨length_numberFrom.trans h.length_eq.symm, hwords, ?_, ?_, ?_⟩
  · intro i v e hv hvalue
    obtain ⟨n, hn, hgiven⟩ := hget i v hv
    unfold Given at hgiven
    rw [hvalue] at hgiven
    obtain ⟨m, rfl, hm⟩ := hgiven
    exact ⟨m, numberFrom_written hn, hm⟩
  · intro v hv hvalue
    exact numberFrom_first (hnone 0 v hv hvalue)
  · intro i v a hv hvalue ha
    exact succ_of_nodup hnodup ha (hwords a (List.mem_of_getElem? ha))
      (numberFrom_next (hnone _ v hv hvalue) ha)

/-! ## The underlying type -/

structure Underlying (t : TypeTable) (given : Bool) (values : List Int) (ty : Ty)
    (info : IntInfo) : Prop where
  isInt : t.intInfo? ty = some info
  fits : ∀ v ∈ values, info.fits v = true
  inferred : given = false → 0 < info.bits ∧ (info.signed = true ↔ ∃ v ∈ values, v < 0)

theorem choiceUnderlying_ok {ty : Option TypeExpr} {written : Option (Ty × IntInfo)}
    (h : choiceUnderlying view ty o s = .ok written s') :
    written.isSome = ty.isSome ∧
      ∀ ty' info, written = some (ty', info) → s'.types.intInfo? ty' = some info := by
  unfold choiceUnderlying at h
  cases ty with
  | none =>
    cases h
    exact ⟨rfl, nofun⟩
  | some e =>
    obtain ⟨ty', t, -, h⟩ := bind_ok h
    obtain ⟨types, t', htypes, hreq⟩ := bind_ok h
    obtain ⟨rfl, rfl⟩ := returns_types _ _ htypes
    obtain ⟨info, t'', hinfo, hpure⟩ := bind_ok hreq
    obtain ⟨hint, rfl⟩ := Returns.require _ _ _ _ hinfo
    cases hpure
    refine ⟨rfl, fun ty'' info' heq => ?_⟩
    cases heq
    exact hint

/-- Every item of one of two lists of the same length is paired with one of the other. -/
theorem exists_mem_zip {as : List α} {bs : List β} (hlength : as.length = bs.length) {a : α}
    (ha : a ∈ as) : ∃ b, (a, b) ∈ as.zip bs := by
  rw [← List.map_fst_zip (Nat.le_of_eq hlength)] at ha
  obtain ⟨⟨_, b⟩, hb, rfl⟩ := List.mem_map.mp ha
  exact ⟨b, hb⟩

theorem numberType_ok {written : Option (Ty × IntInfo)} {variants : List ChoiceVariantDecl}
    {ty : Ty} (hlength : values.length = variants.length)
    (hwritten : ∀ ty' info, written = some (ty', info) → s.types.intInfo? ty' = some info)
    (h : numberType written variants values o s = .ok ty s') :
    ∃ info, Underlying s'.types written.isSome values ty info := by
  unfold numberType at h
  cases written with
  | some given =>
    obtain ⟨ty', info⟩ := given
    dsimp only at h
    cases hfind : (values.zip variants).find? (!info.fits ·.1) with
    | some first =>
      rw [hfind] at h
      cases h
    | none =>
      rw [hfind] at h
      cases h
      refine ⟨info, hwritten _ _ rfl, fun v hv => ?_, nofun⟩
      obtain ⟨variant, hpair⟩ := exists_mem_zip hlength hv
      rw [List.find?_eq_none] at hfind
      by_contra hfits
      exact hfind _ hpair (by rw [Bool.eq_false_of_not_eq_true hfits]; rfl)
  | none =>
    refine ⟨smallestInt values, ?_, fits_smallestInt,
      fun _ => ⟨bits_smallestInt_pos values, signed_smallestInt values⟩⟩
    cases h
    cases hsign : (smallestInt values).signed with
    | true => exact congrArg some (by rw [← hsign])
    | false => exact congrArg some (by rw [← hsign])

/-! ## Every declaration -/

/-- What only emits code leaves the definitions alone. -/
theorem same_of_emits {a : Emit α} {Q : α → Prop} (ha : ∀ E, Emits E True a Q) {x : α}
    (h : a o s = .ok x s') : s.types.SameDefinitions s'.types :=
  (ha s.core.extent o s x s' h).2.1.types

theorem defineType_choice_ok {id : EntityId} {c : ChoiceDef} {u : Unit}
    (h : defineType id (·.addChoice c) o s = .ok u s') :
    ∃ k, s'.symbols.lookup id = some (.type (.choice k)) ∧ s'.types.choices[k]? = some c ∧
      ∀ ty, s'.types.intInfo? ty = s.types.intInfo? ty := by
  have hsame := TypeTable.same_intern { s.types with choices := s.types.choices.push c }
    (.choice s.types.choices.size)
  cases h
  refine ⟨s.types.choices.size, List.lookup_cons_self, ?_, fun ty => hsame.intInfo? ty⟩
  exact (congrArg (·[s.types.choices.size]?) hsame.choices).trans Array.getElem?_push_size

/-- The variants with their numbers, in a choice over a type that holds them. -/
theorem numbers_of_counted {d : ChoiceDecl} {values : List Int} {t : TypeTable} {ty : Ty}
    {info : IntInfo} {written : Option (Ty × IntInfo)} {c : ChoiceDef}
    (h : Counted view o d.variants values) (hnodup : values.Nodup)
    (hsome : written.isSome = d.underlying.isSome)
    (hinfo : Underlying t written.isSome values ty info)
    (hc : c.variants = ((d.variants.map ChoiceVariantDecl.name).zip values).map
      fun (name, value) => ⟨name, value⟩) : d.Numbers view o c info := by
  have hnumbers : c.numbers = values := by
    rw [ChoiceDef.numbers, hc, List.map_map]
    exact List.map_snd_zip (by rw [h.length, List.length_map])
  have hnames : c.variants.map ChoiceVariant.name = d.variants.map ChoiceVariantDecl.name := by
    rw [hc, List.map_map]
    exact List.map_fst_zip (by rw [h.length, List.length_map])
  refine ⟨hnames, ?_, ?_, ?_, ?_, ?_, ?_⟩ <;> rw [hnumbers]
  · exact h.written
  · exact h.first
  · exact h.next
  · exact hnodup
  · exact fun hpos v hv => IntInfo.inRange_of_fits (hinfo.fits v hv) hpos (h.isWord v hv)
  · intro hnone
    rw [hnone] at hsome
    exact hinfo.inferred hsome

/-- In whatever state a declaration of a choice is accepted, the entity becomes a choice the
variants of which are numbered as the declaration says: those that are given a number have it,
the others count on from the one before, no two have the same, and the underlying type, which
holds them all if it has a bit, is signed only for a negative one if it is not given. -/
theorem choiceType_numbered {id : EntityId} {d : ChoiceDecl} {u : Unit}
    (h : choiceType view id d o s = .ok u s') :
    ∃ k c info, s'.symbols.lookup id = some (.type (.choice k)) ∧
      s'.types.choices[k]? = some c ∧ s'.types.intInfo? c.underlying = some info ∧
      d.Numbers view o c info := by
  obtain ⟨written, s₁, hwritten, h₁⟩ := bind_ok h
  obtain ⟨given, s₂, hgiven, h₂⟩ := bind_ok h₁
  obtain ⟨_, s₃, hunique, h₃⟩ := bind_ok h₂
  dsimp only at h₃
  cases hdup : firstDuplicate? ((numberVariants given).zip
      (d.variants.map ChoiceVariantDecl.name)) with
  | some dup =>
    rw [hdup] at h₃
    cases h₃
  | none =>
    rw [hdup] at h₃
    obtain ⟨underlying, s₄, hnumber, h₄⟩ := bind_ok h₃
    obtain ⟨default, s₅, hdefault, h₅⟩ := bind_ok h₄
    obtain ⟨fullName, s₆, hname, h₆⟩ := bind_ok h₅
    obtain ⟨vis, s₇, hvis, h₇⟩ := bind_ok h₆
    have hgivens : List.Forall₂ (Given view o) d.variants given :=
      forall₂_mapM (fun _ _ _ _ => given_writtenNumber) hgiven
    have hlength : (numberVariants given).length = d.variants.length :=
      length_numberFrom.trans hgivens.length_eq.symm
    have hnodup : (numberVariants given).Nodup := by
      have hfirsts := nodup_of_firstDuplicate hdup
      rwa [List.map_fst_zip (by rw [hlength, List.length_map])] at hfirsts
    have hcounted := counted_numberVariants hgivens hnodup
    have hbefore : s₁.types.SameDefinitions s₃.types :=
      (same_of_emits (fun _ => emits_writtenNumbers view _ d.variants) hgiven).trans
        (same_of_emits (fun _ => emits_checkUnique _ _) hunique)
    obtain ⟨hsome, hint⟩ := choiceUnderlying_ok hwritten
    obtain ⟨info, hinfo⟩ := numberType_ok hlength
      (fun ty info heq => (hbefore.intInfo? ty).trans (hint ty info heq)) hnumber
    have hafter : s₄.types.SameDefinitions s₇.types :=
      ((same_of_emits (fun _ => emits_choiceDefault d) hdefault).trans
        (same_of_emits (fun _ => emits_fullNameOf _ _) hname)).trans
        (same_of_emits (fun _ => emits_visibilityOf _ _ _) hvis)
    obtain ⟨k, hlookup, hchoice, hinfos⟩ := defineType_choice_ok h₇
    refine ⟨k, _, info, hlookup, hchoice, ?_, ?_⟩
    · exact (hinfos underlying).trans ((hafter.intInfo? underlying).trans hinfo.isInt)
    · exact numbers_of_counted hcounted hnodup hsome hinfo rfl

/-- The numbers of the choices after an action, if it succeeds. -/
def numbersAfter (a : Emit Unit) (o : Options) (s : Compiler) : List (List Int × Ty) :=
  match a o s with
  | .ok _ s' => s'.types.choices.toList.map fun c => (c.numbers, c.underlying)
  | .error .. => []

/-- The choice `level` with the variants `pit = -2`, `floor`, `deck = 10` and `roof`. -/
def level : ChoiceDecl :=
  let range : Span := ⟨0, 0, 0⟩
  let number (value : Nat) : Expr := .int range value none
  { name := ⟨"level", range⟩, vis := .pub
    variants := [⟨⟨"pit", range⟩, some (.unary range .negate (number 2))⟩, ⟨⟨"floor", range⟩, none⟩,
      ⟨⟨"deck", range⟩, some (number 10)⟩, ⟨⟨"roof", range⟩, none⟩]
    underlying := none, default := none }

/-- The floor counts on from a negative number, the roof from the deck. -/
example : numbersAfter (choiceType { module := 0 } 0 level) {} (.ofOptions {}) =
    [([-2, -1, 10, 11], .int 5)] := by
  decide +kernel

/-- A type without bits is given all of the numbers, though it tells no two apart. -/
theorem numbersAfter_bitless :
    numbersAfter (choiceType { module := 0 } 0
      { level with underlying := some (.int ⟨0, 0, 0⟩ 0) }) {} (.ofOptions {}) =
        [([-2, -1, 10, 11], .int 0)] ∧ ¬(⟨0, true⟩ : IntInfo).InRange 10 := by
  decide +kernel

end Emit

end Staged
