/-
  Staged.Proofs.Values.Bounded — known integers stay in the range of their types.

  What an operator, a cast or a literal gives is wrapped or checked, so that it is in the range
  of its type (`IntInfo.inRange_wrap`, `IntInfo.inRange_of_fits_narrow`). This is not done for
  128 bits and more, nor for lengths and sizes, which are of type `usize` whatever they are, and
  the check of a literal lets everything pass where there are no bits. Of all other integer
  types no value out of range is ever known: evaluation that starts where every known integer
  is in range, at whatever depth of a value, gives values in which they are, and leaves a state
  in which they are (`Emit.bounded_evaluateWith`).
-/

import Staged.Proofs.Arithmetic.Word
import Staged.Proofs.Typing.Operator
import Staged.Proofs.Values.Default
import Staged.Proofs.Values.Solid
import Staged.Proofs.Values.Sound

namespace Staged

variable {t t' : TypeTable} {ty : Ty} {info : IntInfo} {v : Int} {c d : Constant}

/-! ## Ranges -/

namespace IntInfo

theorem inRange_zero (info : IntInfo) : info.InRange 0 := by
  have hpos (n : Nat) : (0 : Int) < 2 ^ n := by positivity
  unfold InRange
  split
  · exact ⟨Int.neg_nonpos_of_nonneg (Int.le_of_lt (hpos _)), hpos _⟩
  · exact ⟨Int.le_refl 0, hpos _⟩

/-- With a number, a type has all natural numbers below it. -/
theorem InRange.below {i : Int} (h : info.InRange v) (hi : 0 ≤ i) (hlt : i < v) :
    info.InRange i := by
  have hzero := inRange_zero info
  unfold InRange at h hzero ⊢
  split at h
  · rename_i hs
    rw [if_pos hs] at hzero ⊢
    exact ⟨Int.le_trans hzero.1 hi, Int.lt_trans hlt h.2⟩
  · rename_i hs
    rw [if_neg hs]
    exact ⟨hi, Int.lt_trans hlt h.2⟩

theorem inRange_wrap (hbits : 0 < info.bits ∧ info.bits < 128) : info.InRange (info.wrap v) := by
  have hpow (n : Nat) : Int.pow 2 n = 2 ^ n := rfl
  have hdouble : (2 : Int) ^ info.bits = 2 * 2 ^ (info.bits - 1) := by
    rw [← Int.pow_succ', Nat.sub_add_cancel hbits.1]
  have hpos : (0 : Int) < 2 ^ info.bits := by positivity
  have hlow := Int.emod_nonneg v (Int.ne_of_gt hpos)
  have hlt := Int.emod_lt_of_pos v hpos
  unfold wrap InRange
  rw [if_neg (Nat.not_le.mpr hbits.2), signBit_eq hbits.1 hbits.2]
  simp only [hpow]
  generalize v % 2 ^ info.bits = low at hlow hlt
  cases hs : info.signed with
  | false => exact ⟨hlow, hlt⟩
  | true =>
    simp only [Bool.true_and, decide_eq_true_eq, if_true]
    split <;> omega

/-- What fits a type of less than 128 bits is in its range. -/
theorem inRange_of_fits_narrow (h : info.fits v = true)
    (hbits : 0 < info.bits ∧ info.bits < 128) : info.InRange v := by
  unfold InRange
  split
  · exact (fits_signed_iff ‹_› hbits.1 hbits.2).mp h
  · rename_i hs
    have hwide := wide_le_self (v := 2 ^ info.bits) (by positivity)
    unfold fits at h
    rw [if_neg (Nat.not_le.mpr hbits.2), if_neg hs, Bool.and_eq_true, decide_eq_true_eq,
      decide_eq_true_eq] at h
    exact ⟨h.1, h.2.trans_le hwide⟩

end IntInfo

/-! ## Values -/

/-- Parts go by definitions alone. -/
theorem Data.Part.congr (h : t.SameDefinitions t') {part d : Data} {type : Ty}
    (hp : Part t' part type d ty) : Part t part type d ty := by
  induction hp with
  | self => exact .self
  | item hd _ ih => exact .item hd ih
  | member hd _ ih => exact .member hd ih
  | field hdef hd _ ih => exact .field (h.structOf? _ ▸ hdef) hd ih
  | payload hv hpayload _ ih => exact .payload (h.mixOf? _ ▸ hv) hpayload ih
  | inner hm _ ih => exact .inner hm ih

namespace Constant

/-- Every integer in a value is in the range of its type, unless that is `usize` or has no bits,
or 128 and more. -/
def Bounded (t : TypeTable) (c : Constant) : Prop :=
  ∀ v type info, Data.Part t (.int v) type c.data c.type → t.intInfo? type = some info →
    type ≠ .usize → 0 < info.bits ∧ info.bits < 128 → info.InRange v

theorem Bounded.congr (h : t.SameDefinitions t') (hc : c.Bounded t) : c.Bounded t' :=
  fun v type info hp hinfo => hc v type info (hp.congr h) (h.intInfo? type ▸ hinfo)

theorem bounded_int (h : ∀ info, t.intInfo? ty = some info → ty ≠ .usize →
    0 < info.bits ∧ info.bits < 128 → info.InRange v) : (int ty v).Bounded t := by
  intro v' type info hp
  cases hp
  exact h info

/-- A number that no integer type is asked about. -/
theorem bounded_of_not_integral (h : t.intInfo? ty = none) : (int ty v).Bounded t :=
  bounded_int fun info hinfo => by
    rw [h] at hinfo
    cases hinfo

theorem bounded_usize : (int .usize v).Bounded t := bounded_int fun _ _ hne => absurd rfl hne

theorem bounded_byte (b : UInt8) : (int .u8 b.toNat).Bounded t := by
  refine bounded_int fun info hinfo _ _ => ?_
  cases hinfo
  have hlt : b.toNat < 2 ^ 8 := b.toNat_lt
  exact ⟨Int.natCast_nonneg _, by exact_mod_cast hlt⟩

theorem bounded_bool (b : Bool) : (Constant.mk (.bool b) ty).Bounded t := nofun

theorem bounded_float (x : Binary64) : (Constant.mk (.float x) ty).Bounded t := nofun

end Constant

/-! ## Rules -/

namespace TypeTable

/-- The type of a result is the one that its number is wrapped to. -/
theorem intInfo?_computedType {info' : IntInfo} (h : t.ordinal? ty = some info)
    (h' : t.intInfo? (t.computedType ty) = some info') : info' = info := by
  cases ty with
  | choice id =>
    obtain ⟨d, hd, h⟩ := Option.bind_eq_some_iff.mp h
    rw [computedType, hd] at h'
    exact Option.some.inj (h'.symm.trans h)
  | char => cases h'
  | _ => exact Option.some.inj (h'.symm.trans h)

theorem bounded_foldInt {op : BinaryOp} {a b : Int} (h : t.foldInt op ty a b = .ok c) :
    c.Bounded t := by
  unfold foldInt at h
  split at h
  · cases h
    exact Constant.bounded_bool _
  · split at h
    · cases h
    · rename_i info hinfo
      obtain ⟨raw, -, h⟩ := ok_of_bind h
      cases h
      refine Constant.bounded_int fun info' hinfo' _ hbits => ?_
      cases intInfo?_computedType hinfo hinfo'
      exact IntInfo.inRange_wrap hbits

theorem bounded_foldFloat {op : BinaryOp} {a b : Binary64} (h : t.foldFloat op ty a b = .ok c) :
    c.Bounded t := by
  unfold foldFloat at h
  split at h
  · cases h
    exact Constant.bounded_bool _
  · split at h <;> cases h <;> exact Constant.bounded_float _

theorem bounded_foldBool {op : BinaryOp} {a b : Bool} (h : foldBool op ty a b = .ok c) :
    c.Bounded t := by
  cases op <;> cases h <;> exact Constant.bounded_bool _

theorem bounded_foldEquality {op : BinaryOp} {equal : Bool}
    (h : foldEquality op ty equal = .ok c) : c.Bounded t := by
  cases op <;> cases h <;> exact Constant.bounded_bool _

theorem bounded_foldBinary {op : BinaryOp} {l r : Constant} (h : t.foldBinary op l r = .ok c) :
    c.Bounded t := by
  unfold foldBinary at h
  split at h
  · exact bounded_foldInt h
  · exact bounded_foldFloat h
  · exact bounded_foldBool h
  · split at h <;> cases h
    exact Constant.bounded_bool _
  · exact bounded_foldEquality h
  · exact bounded_foldEquality h
  · split at h
    · exact bounded_foldEquality h
    · cases h

theorem bounded_foldUnary {op : UnaryOp} (h : t.foldUnary op c = .ok d) : d.Bounded t := by
  have hwrap {info : IntInfo} {v : Int} (hinfo : t.intInfo? c.type = some info) :
      (Constant.int c.type (info.wrap v)).Bounded t :=
    Constant.bounded_int fun info' hinfo' _ hbits => by
      cases hinfo.symm.trans hinfo'
      exact IntInfo.inRange_wrap hbits
  unfold foldUnary at h
  split at h
  · split at h <;> cases h
    exact hwrap ‹_›
  · split at h <;> cases h
    exact hwrap ‹_›
  · cases h
    exact Constant.bounded_float _
  · cases h
    exact Constant.bounded_bool _
  · cases h

theorem bounded_foldCast (hc : c.Bounded t) (h : t.foldCast c ty = .ok d) : d.Bounded t := by
  unfold foldCast at h
  split at h
  · cases h
    exact hc
  · cases hdata : t.castData? c ty with
    | none =>
      rw [hdata] at h
      cases h
    | some data =>
      rw [hdata] at h
      cases h
      intro v type info hp hinfo _ hbits
      -- nothing but an integer has a part that is one
      unfold castData? at hdata
      split at hdata
      · rename_i choice hchoice
        obtain ⟨id, rfl⟩ : ∃ id, ty = .choice id := by
          cases ty <;> first | exact ⟨_, rfl⟩ | cases hchoice
        split at hdata
        · split at hdata <;> cases hdata
          cases hp
          cases hinfo
        · cases hdata
      · split at hdata
        · rename_i info' hinfo'
          obtain ⟨w, hw, rfl⟩ := Option.map_eq_some_iff.mp hdata
          cases hp
          cases hinfo'.symm.trans hinfo
          cases hcast : c.data <;> rw [hcast] at hw <;> cases hw <;>
            exact IntInfo.inRange_wrap hbits
        · split at hdata
          · obtain ⟨x, -, rfl⟩ := Option.map_eq_some_iff.mp hdata
            cases hp
          · split at hdata
            · obtain ⟨x, -, rfl⟩ := Option.map_eq_some_iff.mp hdata
              cases hp
            · split at hdata <;> cases hdata
              cases hp
            · cases hdata

theorem bounded_intLiteral {value : Nat} {negative : Bool}
    (h : t.intLiteral value negative ty = .ok c) : c.Bounded t := by
  unfold intLiteral at h
  dsimp only at h
  split at h
  · cases h
    exact Constant.bounded_float _
  · split at h
    · cases h
    · cases hinfo : t.intInfo? ty with
      | none =>
        rw [hinfo] at h
        cases h
      | some info =>
        rw [hinfo] at h
        dsimp only at h
        generalize (if negative = true then -(value : Int) else value) = raw at h
        split at h
        · rename_i hfits
          cases h
          refine Constant.bounded_int fun info' hinfo' _ hbits => ?_
          cases hinfo.symm.trans hinfo'
          exact IntInfo.inRange_of_fits_narrow hfits hbits
        · cases h

/-! ## Parts -/

theorem bounded_index {i : Int} (hc : c.Bounded t) (h : c.index i = .ok d) : d.Bounded t := by
  obtain ⟨data, type⟩ := c
  unfold Constant.index at h
  split at h
  · rename_i hdata htype
    cases hdata
    cases htype
    split at h <;> cases h
    rename_i hitem
    exact fun v type info hp => hc v type info (.item (mem_of_itemAt hitem) hp)
  · split at h <;> cases h
    exact Constant.bounded_byte _
  · cases h

theorem bounded_knownMember {name : String} (hc : c.Bounded t)
    (h : t.knownMember c name = .ok d) : d.Bounded t := by
  obtain ⟨data, type⟩ := c
  unfold knownMember at h
  dsimp only at h
  split at h
  · split at h <;> cases h
    exact Constant.bounded_usize
  · split at h <;> cases h
    exact Constant.bounded_usize
  · rename_i items
    split at h
    · rename_i i field hfield
      obtain ⟨def_, hdef, hfield⟩ := Option.bind_eq_some_iff.mp hfield
      split at h <;> cases h
      rename_i item hitem
      have hmem : (item, field.type) ∈ items.zip def_.fieldTypes :=
        List.mem_iff_getElem?.mpr ⟨i, List.getElem?_zip_eq_some.mpr
          ⟨hitem, fieldTypes_of_field hfield⟩⟩
      exact fun v type info hp => hc v type info (.field hdef hmem hp)
    · cases h
  · cases h

theorem bounded_knownVariant {name : String} {payload : Option Constant}
    (hpayload : ∀ c, payload = some c → c.Bounded t)
    (h : t.knownVariant ty name payload = .ok d) : d.Bounded t := by
  unfold knownVariant at h
  split at h
  · rename_i choice hchoice
    split at h
    · cases h
    · split at h <;> cases h
      refine Constant.bounded_of_not_integral ?_
      cases ty <;> first | rfl | cases hchoice
  · rename_i mix _ hmix
    split at h
    · cases h
    · rename_i i variant hvariant
      have hvariant : (t.mixOf? ty).bind (·.variants[i]?) = some variant := by
        rw [hmix]
        exact getElem?_of_find? hvariant
      split at h
      · cases h
        intro v type info hp
        cases hp
      · rename_i expected given hexpected
        split at h <;> cases h
        intro v type info hp
        cases hp with
        | payload hv hcarried hp =>
          cases hvariant.symm.trans hv
          cases hexpected.symm.trans hcarried
          exact hpayload given rfl v type info (by rwa [‹given.type = expected›])
      · cases h
      · cases h
  · cases h

/-! ## Defaults -/

theorem defaultStep_int {parts : Ty → Except Fault Data}
    (h : t.defaultStep parts ty = .ok (.int v)) (hinfo : t.intInfo? ty = some info) : v = 0 := by
  cases ty with
  | int _ | uint _ =>
    cases h
    rfl
  | native kind =>
    unfold defaultStep at h
    split at h <;> cases h <;> rfl
  | _ => cases hinfo

/-- Every integer in a default is zero. -/
theorem bounded_default (h : t.default ty = .ok c) : c.Bounded t := by
  intro v type info hp hinfo _ _
  obtain ⟨d, hd, h⟩ := ok_of_bind h
  cases h
  obtain ⟨fuel, hv⟩ := part_defaultWithin hp hd
  obtain ⟨n, -, hv⟩ := defaultWithin_ok hv
  cases defaultStep_int hv hinfo
  exact IntInfo.inRange_zero info

/-- The number of rounds of a loop is an integer, and so are those before it. -/
theorem bounded_below {total i : Int} (hint : t.isIntegral c.type = true) (hfits : c.Fits t)
    (hc : c.Bounded t) (htotal : c.asInt? = some total) (hi : 0 ≤ i) (hlt : i < total) :
    (Constant.int c.type i).Bounded t := by
  obtain ⟨info, hinfo⟩ := Option.isSome_iff_exists.mp hint
  obtain ⟨data, type⟩ := c
  obtain ⟨v, rfl⟩ := Data.int_of_fits hfits hinfo
  cases htotal
  refine Constant.bounded_int fun info hinfo hne hbits => ?_
  exact (hc total type info .self hinfo hne hbits).below hi hlt

end TypeTable

/-! ## The domain -/

/-- Values that fit their types and whose integers are in range, for the definitions of a
table. -/
def Domain.bounded (t : TypeTable) (ht : t.HasDefaults) : Domain where
  holds c := c.Fits t ∧ c.Bounded t
  knows t' := t.SameDefinitions t'
  bool b := ⟨rfl, Constant.bounded_bool b⟩
  char _ := ⟨rfl, nofun⟩
  str _ := ⟨rfl, nofun⟩
  void := ⟨rfl, nofun⟩
  type ty := ⟨Constant.fits_type' ty, nofun⟩
  usize v := ⟨(Domain.fitting t ht).usize v, Constant.bounded_usize⟩
  byte b := ⟨(Domain.fitting t ht).byte b, Constant.bounded_byte b⟩
  int h hinfo hfits := by
    refine ⟨(Domain.fitting t ht).int h hinfo hfits,
      Constant.bounded_int fun info' hinfo' _ hbits => ?_⟩
    rw [h.intInfo?, hinfo'] at hinfo
    cases hinfo
    exact IntInfo.inRange_of_fits_narrow hfits hbits
  below h hint hc htotal hi hlt := ⟨(Domain.fitting t ht).below h hint hc.1 htotal hi hlt,
    TypeTable.bounded_below (h.isIntegral _ ▸ hint) hc.1 hc.2 htotal hi hlt⟩
  float x h hkind := ⟨(Domain.fitting t ht).float x h hkind, Constant.bounded_float x⟩
  null h := ⟨(Domain.fitting t ht).null h, nofun⟩
  none h := ⟨(Domain.fitting t ht).none h, nofun⟩
  some {c} h := by
    refine ⟨(Domain.fitting t ht).some h.1, fun v type info hp => ?_⟩
    cases hp with
    | inner hm hp =>
      cases hm
      exact h.2 v type info hp
  tuple {cs} h := by
    refine ⟨(Domain.fitting t ht).tuple fun c hc => (h c hc).1, fun v type info hp => ?_⟩
    cases hp with
    | member hmem hp =>
      rw [List.zip_map'] at hmem
      obtain ⟨c, hc, heq⟩ := List.mem_map.mp hmem
      cases heq
      exact (h c hc).2 v type info hp
  array {ds element} h := by
    refine ⟨(Domain.fitting t ht).array fun d hd => (h d hd).1, fun v type info hp => ?_⟩
    cases hp with
    | item hd hp => exact (h _ hd).2 v type info hp
  item h hd := ⟨(Domain.fitting t ht).item h.1 hd,
    fun v type info hp => h.2 v type info (.item hd hp)⟩
  struct {t₁ t₂ ty ds} h₁ h₂ hs h := by
    refine ⟨(Domain.fitting t ht).struct h₁ h₂ hs (h.imp fun _ _ h => h.1),
      fun v type info hp => ?_⟩
    cases hp with
    | field hdef hmem hp =>
      rw [h₂.structOf?, hdef] at h
      exact ((List.forall₂_iff_zip.mp h).2 hmem).2 v type info hp
  default h hc := ⟨(Domain.fitting t ht).default h hc,
    (TypeTable.bounded_default hc).congr h.symm⟩
  literal h hc := ⟨(Domain.fitting t ht).literal h hc,
    (TypeTable.bounded_intLiteral hc).congr h.symm⟩
  unary h hl hc := ⟨(Domain.fitting t ht).unary h hl.1 hc,
    (TypeTable.bounded_foldUnary hc).congr h.symm⟩
  binary h hl hr hc := ⟨(Domain.fitting t ht).binary h hl.1 hr.1 hc,
    (TypeTable.bounded_foldBinary hc).congr h.symm⟩
  cast h hl hc := ⟨(Domain.fitting t ht).cast h hl.1 hc,
    (TypeTable.bounded_foldCast (hl.2.congr h) hc).congr h.symm⟩
  index hl hc := ⟨(Domain.fitting t ht).index hl.1 hc, TypeTable.bounded_index hl.2 hc⟩
  member h hl hc := ⟨(Domain.fitting t ht).member h hl.1 hc,
    (TypeTable.bounded_knownMember (hl.2.congr h) hc).congr h.symm⟩
  variant h hp hc := ⟨(Domain.fitting t ht).variant h (fun c hc => (hp c hc).1) hc,
    (TypeTable.bounded_knownVariant (fun c hc => (hp c hc).2.congr h) hc).congr h.symm⟩

/-! ## Evaluation -/

def Options.DefinesFit (o : Options) : Prop :=
  ∀ name v, o.define? name = some (.int v) → (⟨64, true⟩ : IntInfo).InRange v

structure Compiler.Bounded (s : Compiler) : Prop where
  shaped : s.Shaped
  known : s.Knows (·.Bounded s.types)

/-- At first nothing is known. -/
theorem Compiler.bounded_ofOptions (o : Options) : (Compiler.ofOptions o).Bounded where
  shaped := by
    refine ⟨fun d hd => ?_, nofun, nofun, nofun⟩
    exact absurd hd (Array.not_mem_empty d)
  known := ⟨nofun, nofun, nofun⟩

/-- From a state in which all known integers are in range, evaluation gives a value in which
they are, and leaves such a state, however many calls may still nest. -/
theorem Emit.bounded_evaluateWith {o : Options} {s s' : Compiler} {left : Nat}
    {view : Viewpoint} {e : Expr} {expected : Option Ty} {c : Constant} (ho : o.DefinesFit)
    (hs : s.Bounded) (h : evaluateWith (callKnown left) view e expected o s = .ok c s') :
    c.Bounded s'.types ∧ s'.Bounded := by
  have hknown : s.Knows (Domain.bounded s.types hs.shaped.defaults).holds :=
    hs.shaped.knows.and hs.known
  let g : Ground := hknown.ground (fun _ h => h) Options.DefinesFit fun o name v ho hv =>
    ⟨Constant.fits_int rfl, Constant.bounded_int fun info hinfo _ _ => by
      cases hinfo
      exact ho name v hv⟩
  have hrun : g.Ends s.frames.length (evaluateWith (callKnown left) view e expected) g.holds :=
    ends_evaluateWith (calls_known left) e expected
  have hrun := hrun o ho s Compiler.Knows.stands
  rw [h] at hrun
  obtain ⟨hstands, hc⟩ := hrun
  obtain ⟨hsame, hknows⟩ := Compiler.Knows.of_stands hstands
  exact ⟨hc.2.congr hsame, hs.shaped.of_knows hsame (hknows.mono fun _ h => h.1),
    hknows.mono fun _ h => h.2.congr hsame⟩

/-- A difference of 128 bits without a sign may be negative. -/
example (t : TypeTable) : t.foldBinary .sub (.int (.uint 128) 0) (.int (.uint 128) 1) =
    .ok (.int (.uint 128) (-1)) :=
  rfl

end Staged
