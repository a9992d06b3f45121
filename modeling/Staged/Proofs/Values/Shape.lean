/-
  Staged.Proofs.Values.Shape — values that look like their type.

  A value and its type are kept apart, so nothing but the rules on values sees to it that
  they fit: an integer type or a choice holds a number, for a choice one of its variants'
  numbers; an array as many items as it is long; a tuple or a struct one item for every
  member; a mix one of its variants, with a payload exactly if that variant carries one
  (`Data.fits`). Whether they do depends on the definitions of a type table, not on which
  types have been used.

  Every rule on values that gives a constant gives one that fits, if it was given such.
-/

import Mathlib.Data.List.Forall2
import Staged.Constant.Emitted
import Staged.Known.Default
import Staged.Known.Shape
import Staged.Proofs.Definitions

namespace Staged

/-! ## Definitions behind types -/

namespace TypeTable

/-- The default variant of a mix, if it has one, is one of its variants. -/
def HasDefaults (t : TypeTable) : Prop :=
  ∀ d ∈ t.mixes, ∀ i, d.default = some i → i < d.variants.length

variable {t t' : TypeTable}

theorem SameDefinitions.memberTypes? (h : t.SameDefinitions t') (ty : Ty) :
    t'.memberTypes? ty = t.memberTypes? ty := by
  unfold TypeTable.memberTypes?
  rw [h.structs]

theorem SameDefinitions.hasDefaults (h : t.SameDefinitions t') (ht : t.HasDefaults) :
    t'.HasDefaults := by
  unfold HasDefaults
  rw [h.mixes]
  exact ht

end TypeTable

/-! ## Shapes -/

namespace Data

mutual

/-- Whether a value looks like a value of the type. -/
def fits (t : TypeTable) : Data → Ty → Bool
  | int v, ty => t.isIntegral ty || (t.choiceOf? ty).any fun d => d.variants.any (·.value == v)
  | float _, ty => (t.floatKind? ty).isSome
  | bool _, ty => ty == .bool
  | char _, ty => ty == .char
  | str _, ty => ty == .str
  | array items, ty => match ty with
    | .array element length => items.length == length && fitsAll t items element
    | _ => false
  | tuple items, ty => match ty with
    | .tuple members _ => fitsEach t items members
    | _ => false
  | struct items, ty => match t.structOf? ty with
    | some d => fitsEach t items d.fieldTypes
    | none => false
  | mix variant payload, ty => match (t.mixOf? ty).bind (·.variants[variant]?) with
    | some v => fitsPayload t payload v.payload
    | none => false
  | maybe inner, ty => match ty.maybe? with
    | some sub => fitsInner t inner sub
    | none => false
  | type a, ty => ty == .typed a
  | null, ty => ty.isMark
  | void, ty => ty == .void

def fitsAll (t : TypeTable) : List Data → Ty → Bool
  | [], _ => true
  | d :: ds, ty => fits t d ty && fitsAll t ds ty

def fitsEach (t : TypeTable) : List Data → List Ty → Bool
  | [], [] => true
  | d :: ds, ty :: tys => fits t d ty && fitsEach t ds tys
  | _, _ => false

def fitsPayload (t : TypeTable) : Option Data → Option Ty → Bool
  | none, none => true
  | some d, some ty => fits t d ty
  | _, _ => false

def fitsInner (t : TypeTable) : Option Data → Ty → Bool
  | none, _ => true
  | some d, ty => fits t d ty

end

variable {t : TypeTable} {ty : Ty}

mutual

/-- Only definitions matter. -/
theorem fits_congr {t' : TypeTable} (h : t.SameDefinitions t') :
    ∀ (d : Data) (ty : Ty), d.fits t' ty = d.fits t ty
  | int v, ty => by rw [fits, fits, h.isIntegral, h.choiceOf?]
  | float _, ty => by rw [fits, fits, h.floatKind?]
  | bool _, ty | char _, ty | str _, ty | type _, ty | null, ty | void, ty => by rw [fits, fits]
  | array items, ty => by
    cases ty with
    | array element length => rw [fits, fits, fitsAll_congr h items element]
    | _ => simp [fits]
  | tuple items, ty => by
    cases ty with
    | tuple members packed => rw [fits, fits, fitsEach_congr h items members]
    | _ => simp [fits]
  | struct items, ty => by
    rw [fits, fits, h.structOf?]
    cases t.structOf? ty with
    | none => rfl
    | some d => exact fitsEach_congr h items d.fieldTypes
  | mix variant payload, ty => by
    rw [fits, fits, h.mixOf?]
    cases (t.mixOf? ty).bind (·.variants[variant]?) with
    | none => rfl
    | some v => exact fitsPayload_congr h payload v.payload
  | maybe inner, ty => by
    rw [fits, fits]
    cases ty.maybe? with
    | none => rfl
    | some sub => exact fitsInner_congr h inner sub

theorem fitsAll_congr {t' : TypeTable} (h : t.SameDefinitions t') :
    ∀ (ds : List Data) (ty : Ty), fitsAll t' ds ty = fitsAll t ds ty
  | [], ty => by rw [fitsAll, fitsAll]
  | d :: ds, ty => by rw [fitsAll, fitsAll, fits_congr h d ty, fitsAll_congr h ds ty]

theorem fitsEach_congr {t' : TypeTable} (h : t.SameDefinitions t') :
    ∀ (ds : List Data) (tys : List Ty), fitsEach t' ds tys = fitsEach t ds tys
  | [], [] | [], _ :: _ | _ :: _, [] => by simp [fitsEach]
  | d :: ds, ty :: tys => by
    rw [fitsEach, fitsEach, fits_congr h d ty, fitsEach_congr h ds tys]

theorem fitsPayload_congr {t' : TypeTable} (h : t.SameDefinitions t') :
    ∀ (d : Option Data) (ty : Option Ty), fitsPayload t' d ty = fitsPayload t d ty
  | none, none | none, some _ | some _, none => by simp [fitsPayload]
  | some d, some ty => by rw [fitsPayload, fitsPayload, fits_congr h d ty]

theorem fitsInner_congr {t' : TypeTable} (h : t.SameDefinitions t') :
    ∀ (d : Option Data) (ty : Ty), fitsInner t' d ty = fitsInner t d ty
  | none, ty => by rw [fitsInner, fitsInner]
  | some d, ty => by rw [fitsInner, fitsInner, fits_congr h d ty]

end

theorem fitsAll_iff {ds : List Data} : fitsAll t ds ty = true ↔ ∀ d ∈ ds, d.fits t ty = true := by
  induction ds with
  | nil => simp [fitsAll]
  | cons d ds ih => rw [fitsAll, Bool.and_eq_true, ih, List.forall_mem_cons]

theorem fitsEach_iff : ∀ {ds : List Data} {tys : List Ty},
    fitsEach t ds tys = true ↔ List.Forall₂ (fun d ty => d.fits t ty = true) ds tys
  | [], [] => by simp [fitsEach]
  | [], _ :: _ | _ :: _, [] => by simp [fitsEach]
  | d :: ds, ty :: tys => by
    rw [fitsEach, Bool.and_eq_true, fitsEach_iff, List.forall₂_cons]

theorem fits_int {v : Int} : (int v).fits t ty = true ↔
    t.isIntegral ty = true ∨ ∃ d, t.choiceOf? ty = some d ∧ ∃ c ∈ d.variants, c.value = v := by
  simp [fits, Option.any_eq_true, List.any_eq_true]

theorem fits_array {items : List Data} : (array items).fits t ty = true ↔
    ∃ element, ty = .array element items.length ∧ ∀ d ∈ items, d.fits t element = true := by
  cases ty with
  | array element length =>
    simp only [fits, Bool.and_eq_true, beq_iff_eq, fitsAll_iff, Ty.array.injEq]
    constructor
    · rintro ⟨hlen, hall⟩
      exact ⟨element, ⟨rfl, hlen.symm⟩, hall⟩
    · rintro ⟨_, ⟨rfl, rfl⟩, hall⟩
      exact ⟨rfl, hall⟩
  | _ => simp [fits]

theorem fits_tuple {items : List Data} : (tuple items).fits t ty = true ↔
    ∃ members packed, ty = .tuple members packed ∧
      List.Forall₂ (fun d ty => d.fits t ty = true) items members := by
  cases ty with
  | tuple members packed => simp [fits, fitsEach_iff]
  | _ => simp [fits]

theorem fits_struct {items : List Data} : (struct items).fits t ty = true ↔
    ∃ d, t.structOf? ty = some d ∧
      List.Forall₂ (fun d ty => d.fits t ty = true) items d.fieldTypes := by
  rw [fits]
  cases t.structOf? ty with
  | none => simp
  | some d => simp [fitsEach_iff]

theorem fits_mix {variant : Nat} {payload : Option Data} :
    (mix variant payload).fits t ty = true ↔ ∃ d v, t.mixOf? ty = some d ∧
      d.variants[variant]? = some v ∧ fitsPayload t payload v.payload = true := by
  rw [fits]
  cases t.mixOf? ty with
  | none => simp
  | some d => cases h : d.variants[variant]? <;> simp [h]

theorem fits_maybe {inner : Option Data} : (maybe inner).fits t ty = true ↔
    ∃ sub, ty = .maybe sub ∧ ∀ d, inner = some d → d.fits t sub = true := by
  cases ty with
  | maybe sub => cases inner <;> simp [fits, Ty.maybe?, fitsInner]
  | _ => simp [fits, Ty.maybe?]

end Data

def Constant.Fits (c : Constant) (t : TypeTable) : Prop := c.data.fits t c.type = true

namespace Constant

variable {t : TypeTable} {c : Constant} {ty : Ty}

theorem fits_congr {t' : TypeTable} (h : t.SameDefinitions t') : c.Fits t' ↔ c.Fits t := by
  unfold Fits
  rw [Data.fits_congr h]

theorem fits_int {v : Int} (h : t.isIntegral ty = true) : (int ty v).Fits t :=
  Data.fits_int.mpr (.inl h)

theorem fits_bool (b : Bool) : (bool b).Fits t := rfl

theorem fits_float {x : Binary64} (h : (t.floatKind? ty).isSome = true) :
    (⟨.float x, ty⟩ : Constant).Fits t := h

theorem fits_type' (ty : Ty) : (type' ty).Fits t := by
  simp [Fits, type', Data.fits]

/-- Positions and lengths have an integer type, whatever the width of a pointer. -/
theorem isIntegral_usize (t : TypeTable) : t.isIntegral .usize = true := rfl

theorem isIntegral_u8 (t : TypeTable) : t.isIntegral .u8 = true := rfl

theorem fits_item {items : List Data} {element : Ty} {n : Nat} {d : Data}
    (h : (⟨.array items, .array element n⟩ : Constant).Fits t) (hd : d ∈ items) :
    (⟨d, element⟩ : Constant).Fits t := by
  obtain ⟨e, he, hall⟩ := Data.fits_array.mp h
  cases he
  exact hall d hd

end Constant

/-! ## Operators and casts -/

/-- A rule made of two steps gives a result only if both do. -/
theorem ok_of_bind {ε α β : Type} {x : Except ε α} {k : α → Except ε β} {b : β}
    (h : x >>= k = .ok b) : ∃ a, x = .ok a ∧ k a = .ok b := by
  cases x with
  | error e => cases h
  | ok a => exact ⟨a, rfl, h⟩

/-- A rule for each of some things gives a result for each. -/
theorem forall₂_of_mapM {ε α β : Type} {f : α → Except ε β} :
    ∀ {as : List α} {bs : List β}, as.mapM f = .ok bs → List.Forall₂ (fun b a => f a = .ok b) bs as
  | [], bs, h => by
    cases h
    exact .nil
  | a :: as, bs, h => by
    rw [List.mapM_cons] at h
    obtain ⟨b, hb, h⟩ := ok_of_bind h
    obtain ⟨rest, hrest, h⟩ := ok_of_bind h
    cases h
    exact .cons hb (forall₂_of_mapM hrest)

namespace TypeTable

variable {t : TypeTable} {l r c : Constant} {op : BinaryOp} {ty : Ty}

theorem fits_foldEquality {equal : Bool} (h : foldEquality op ty equal = .ok c) : c.Fits t := by
  unfold foldEquality at h
  split at h <;> cases h <;> exact Constant.fits_bool _

theorem fits_foldBool {a b : Bool} (h : foldBool op ty a b = .ok c) : c.Fits t := by
  unfold foldBool at h
  split at h <;> cases h <;> exact Constant.fits_bool _

theorem fits_foldFloat {a b : Binary64} (hty : (t.floatKind? ty).isSome = true)
    (h : t.foldFloat op ty a b = .ok c) : c.Fits t := by
  unfold foldFloat at h
  simp only at h
  split at h
  · cases h
    exact Constant.fits_bool _
  · split at h <;> cases h <;> exact Constant.fits_float hty

/-- Computing with a choice gives its underlying type, which is an integer type wherever
there is anything to compute. -/
theorem isIntegral_computedType {v : Int} {info : IntInfo} (hv : (Data.int v).fits t ty = true)
    (hi : t.ordinal? ty = some info) : t.isIntegral (t.computedType ty) = true := by
  rcases Data.fits_int.mp hv with hint | ⟨d, hd, -⟩
  · have hchoice : t.choiceOf? ty = none := by
      cases ty with
      | choice id => cases hint
      | _ => rfl
    unfold computedType
    rw [hchoice]
    exact hint
  · cases ty with
    | choice id =>
      have hord : t.ordinal? (.choice id) = (t.choiceOf? (.choice id)).bind fun d =>
        t.intInfo? d.underlying := rfl
      rw [hord, hd] at hi
      unfold computedType
      rw [hd]
      exact Option.isSome_of_eq_some hi
    | _ => cases hd

theorem fits_foldInt {a b : Int} (ha : (Data.int a).fits t ty = true)
    (h : t.foldInt op ty a b = .ok c) : c.Fits t := by
  unfold foldInt at h
  split at h
  · cases h
    exact Constant.fits_bool _
  · split at h
    · cases h
    · rename_i info hinfo
      obtain ⟨raw, -, h⟩ := ok_of_bind h
      cases h
      exact Constant.fits_int (isIntegral_computedType ha hinfo)

/-- Of the operands only the left one matters: the result has its type. -/
theorem fits_foldBinary (hl : l.Fits t) (h : t.foldBinary op l r = .ok c) : c.Fits t := by
  obtain ⟨data, type⟩ := l
  obtain ⟨data', type'⟩ := r
  unfold foldBinary at h
  split at h
  · rename_i a b ha hb
    cases ha
    exact fits_foldInt hl h
  · rename_i a b ha hb
    cases ha
    exact fits_foldFloat hl h
  · exact fits_foldBool h
  · split at h
    · cases h
      exact Constant.fits_bool _
    · cases h
  · exact fits_foldEquality h
  · exact fits_foldEquality h
  · split at h
    · exact fits_foldEquality h
    · cases h

theorem fits_foldUnary {op : UnaryOp} (hl : l.Fits t) (h : t.foldUnary op l = .ok c) :
    c.Fits t := by
  obtain ⟨data, type⟩ := l
  unfold foldUnary at h
  split at h
  · split at h
    · rename_i hinfo
      cases h
      exact Constant.fits_int (Option.isSome_of_eq_some hinfo)
    · cases h
  · split at h
    · rename_i hinfo
      cases h
      exact Constant.fits_int (Option.isSome_of_eq_some hinfo)
    · cases h
  · rename_i hdata
    cases hdata
    cases h
    exact hl
  · rename_i hdata
    cases hdata
    cases h
    exact hl
  · cases h

theorem fits_castData {d : Data} (h : t.castData? l ty = some d) : d.fits t ty = true := by
  unfold castData? at h
  split at h
  · rename_i choice hchoice
    split at h
    · split at h
      · rename_i raw _ hany
        cases h
        obtain ⟨v, hv, hvalue⟩ := List.any_eq_true.mp hany
        exact Data.fits_int.mpr (.inr ⟨choice, hchoice, v, hv, beq_iff_eq.mp hvalue⟩)
      · cases h
    · cases h
  · split at h
    · rename_i hinfo
      obtain ⟨v, -, rfl⟩ := Option.map_eq_some_iff.mp h
      exact Constant.fits_int (Option.isSome_of_eq_some hinfo)
    · split at h
      · rename_i hkind
        obtain ⟨x, -, rfl⟩ := Option.map_eq_some_iff.mp h
        exact Constant.fits_float (Option.isSome_of_eq_some hkind)
      · split at h
        · obtain ⟨x, -, rfl⟩ := Option.map_eq_some_iff.mp h
          rfl
        · split at h
          · cases h
            rfl
          · cases h
        · cases h

theorem fits_foldCast (hl : l.Fits t) (h : t.foldCast l ty = .ok c) : c.Fits t := by
  unfold foldCast at h
  split at h
  · cases h
    exact hl
  · split at h
    · rename_i hdata
      cases h
      exact fits_castData hdata
    · cases h

/-! ## Literals and parts -/

theorem fits_intLiteral {value : Nat} {negative : Bool}
    (h : t.intLiteral value negative ty = .ok c) : c.Fits t := by
  unfold intLiteral at h
  simp only at h
  split at h
  · rename_i hkind
    cases h
    exact Constant.fits_float hkind
  · split at h
    · cases h
    · cases hinfo : t.intInfo? ty with
      | none =>
        rw [hinfo] at h
        cases h
      | some info =>
        rw [hinfo] at h
        dsimp only at h
        generalize (if negative = true then -(value : Int) else value) = raw at h
        split at h
        · cases h
          exact Constant.fits_int (Option.isSome_of_eq_some hinfo)
        · cases h

end TypeTable

theorem mem_of_itemAt {α : Type} {items : List α} {i : Int} {a : α}
    (h : itemAt? items i = some a) : a ∈ items := by
  unfold itemAt? at h
  split at h
  · exact List.mem_of_getElem? h
  · cases h

theorem Constant.fits_index {t : TypeTable} {c d : Constant} {i : Int} (hc : c.Fits t)
    (h : c.index i = .ok d) : d.Fits t := by
  obtain ⟨data, type⟩ := c
  unfold Constant.index at h
  split at h
  · split at h
    · rename_i hitem
      rename_i hdata htype _ _
      cases hdata
      cases htype
      cases h
      exact fits_item hc (mem_of_itemAt hitem)
    · cases h
  · split at h
    · cases h
      exact fits_int (isIntegral_u8 t)
    · cases h
  · cases h

/-- What a name finds in a list together with its place is there. -/
theorem getElem?_of_find? {α : Type} {as : List α} {p : α × Nat → Bool} {a : α} {i : Nat}
    (h : (as.zipIdx.find? p).map (fun x => (x.2, x.1)) = some (i, a)) : as[i]? = some a := by
  obtain ⟨⟨b, j⟩, hfind, hx⟩ := Option.map_eq_some_iff.mp h
  cases hx
  exact List.mem_zipIdx_iff_getElem?.mp (List.mem_of_find?_eq_some hfind)

namespace TypeTable

variable {t : TypeTable} {c d : Constant} {ty : Ty} {name : String}

theorem fits_knownMember (hc : c.Fits t) (h : t.knownMember c name = .ok d) : d.Fits t := by
  obtain ⟨data, type⟩ := c
  unfold knownMember at h
  simp only at h
  split at h
  · split at h
    · cases h
      exact Constant.fits_int (Constant.isIntegral_usize t)
    · cases h
  · split at h
    · cases h
      exact Constant.fits_int (Constant.isIntegral_usize t)
    · cases h
  · rename_i items
    split at h
    · rename_i i field hfield
      split at h
      · rename_i item hitem
        cases h
        obtain ⟨def_, hdef, hall⟩ := Data.fits_struct.mp hc
        rw [hdef, Option.bind_some] at hfield
        have hi : def_.fieldTypes[i]? = some field.type := by
          unfold StructDef.fieldTypes
          rw [List.getElem?_map, getElem?_of_find? hfield]
          rfl
        obtain ⟨hlt, rfl⟩ := List.getElem?_eq_some_iff.mp hitem
        obtain ⟨hlt', heq⟩ := List.getElem?_eq_some_iff.mp hi
        have := hall.get hlt hlt'
        simp only [List.get_eq_getElem, heq] at this
        exact this
      · cases h
    · cases h
  · cases h

theorem fits_knownVariant {payload : Option Constant} (hp : ∀ c, payload = some c → c.Fits t)
    (h : t.knownVariant ty name payload = .ok d) : d.Fits t := by
  unfold knownVariant at h
  split at h
  · rename_i choice hchoice
    split at h
    · cases h
    · split at h
      · rename_i v hv
        cases h
        exact Data.fits_int.mpr (.inr ⟨choice, hchoice, v,
          List.mem_of_getElem? (getElem?_of_find? hv), rfl⟩)
      · cases h
  · rename_i mix _ hmix
    split at h
    · cases h
    · rename_i i v hv
      have hv := getElem?_of_find? hv
      split at h
      · rename_i hnone
        cases h
        refine Data.fits_mix.mpr ⟨mix, v, hmix, hv, ?_⟩
        rw [hnone]
        rfl
      · rename_i expected given hsome
        split at h
        · rename_i htype
          cases h
          refine Data.fits_mix.mpr ⟨mix, v, hmix, hv, ?_⟩
          rw [hsome]
          have := hp given rfl
          unfold Constant.Fits at this
          rw [htype] at this
          exact this
        · cases h
      · cases h
      · cases h
  · cases h

/-! ## Defaults -/

def Fitting (t : TypeTable) (parts : Ty → Except Fault Data) : Prop :=
  ∀ ty d, parts ty = .ok d → d.fits t ty = true

variable {parts : Ty → Except Fault Data} {data : Data}

theorem fits_defaultChoice {id : Nat} {def_ : ChoiceDef} (hd : t.choices[id]? = some def_)
    (h : defaultChoice def_ = .ok data) : data.fits t (.choice id) = true := by
  unfold defaultChoice at h
  split at h
  · rename_i v hv
    cases h
    obtain ⟨i, -, hi⟩ := Option.bind_eq_some_iff.mp hv
    exact Data.fits_int.mpr (.inr ⟨def_, hd, v, List.mem_of_getElem? hi, rfl⟩)
  · cases h

theorem fits_defaultMix {id : Nat} {def_ : MixDef} (ht : t.HasDefaults)
    (hparts : t.Fitting parts) (hd : t.mixes[id]? = some def_)
    (h : defaultMix parts def_ = .ok data) : data.fits t (.mix id) = true := by
  unfold defaultMix at h
  split at h
  · cases h
  · rename_i i hi
    have hlt := ht def_ (Array.mem_of_getElem? hd) i hi
    have hv := List.getElem?_eq_getElem hlt
    rw [hv, Option.bind_some] at h
    split at h
    · rename_i hpayload
      cases h
      refine Data.fits_mix.mpr ⟨def_, _, hd, hv, ?_⟩
      rw [hpayload]
      rfl
    · rename_i payload hpayload
      obtain ⟨inner, hpart, h⟩ := ok_of_bind h
      cases h
      refine Data.fits_mix.mpr ⟨def_, _, hd, hv, ?_⟩
      rw [hpayload]
      exact hparts payload inner hpart

mutual

theorem fits_defaultStep (ht : t.HasDefaults) (hparts : t.Fitting parts) :
    ∀ (ty : Ty) (d : Data), t.defaultStep parts ty = .ok d → d.fits t ty = true
  | .int _, d, h | .uint _, d, h => by
    cases h
    rfl
  | .float _, d, h | .bool, d, h | .char, d, h | .str, d, h | .maybe _, d, h => by
    cases h
    rfl
  | .native kind, d, h => by
    unfold defaultStep at h
    split at h
    · rename_i hrepr
      cases h
      simp [Data.fits, isIntegral, intInfo?, hrepr]
    · rename_i hrepr
      cases h
      simp [Data.fits, isIntegral, intInfo?, hrepr]
    · rename_i hrepr
      cases h
      simp [Data.fits, floatKind?, hrepr]
    · cases h
  | .mark .., d, h => by
    unfold defaultStep at h
    split at h
    · cases h
      rfl
    · cases h
  | .choice id, d, h => by
    unfold defaultStep at h
    split at h
    · rename_i hd
      exact fits_defaultChoice hd h
    · cases h
  | .mix id, d, h => by
    unfold defaultStep at h
    split at h
    · rename_i hd
      exact fits_defaultMix ht hparts hd h
    · cases h
  | .tuple members packed, d, h => by
    unfold defaultStep at h
    obtain ⟨ds, hds, h⟩ := ok_of_bind h
    cases h
    exact Data.fits_tuple.mpr ⟨members, packed, rfl, fits_defaultsStep ht hparts members ds hds⟩
  | .array element length, d, h => by
    unfold defaultStep at h
    obtain ⟨item, hitem, h⟩ := ok_of_bind h
    cases h
    refine Data.fits_array.mpr ⟨element, by rw [List.length_replicate], fun x hx => ?_⟩
    rw [List.eq_of_mem_replicate hx]
    exact fits_defaultStep ht hparts element item hitem
  | .struct id, d, h => by
    unfold defaultStep at h
    split at h
    · cases h
    · rename_i hprerun
      split at h
      · rename_i def_ hdef
        obtain ⟨ds, hds, h⟩ := ok_of_bind h
        cases h
        exact Data.fits_struct.mpr ⟨def_, hdef, (forall₂_of_mapM hds).imp fun d ty => hparts ty d⟩
      · -- a struct without a definition has no values that can be known
        rename_i hdef
        have hno : t.canBePrerun (.struct id) = false := by
          unfold canBePrerun has depth
          rw [traitWithin, traitStep, hdef]
        simp [hno] at hprerun
  | .void, d, h | .ref .., d, h | .vector .., d, h | .function .., d, h | .future .., d, h
  | .typed _, d, h => by
    cases h

theorem fits_defaultsStep (ht : t.HasDefaults) (hparts : t.Fitting parts) :
    ∀ (tys : List Ty) (ds : List Data), t.defaultsStep parts tys = .ok ds →
      List.Forall₂ (fun d ty => d.fits t ty = true) ds tys
  | [], ds, h => by
    cases h
    exact .nil
  | ty :: tys, ds, h => by
    unfold defaultsStep at h
    obtain ⟨d, hd, h⟩ := ok_of_bind h
    obtain ⟨rest, hrest, h⟩ := ok_of_bind h
    cases h
    exact .cons (fits_defaultStep ht hparts ty d hd) (fits_defaultsStep ht hparts tys rest hrest)

end

theorem fitting_defaultWithin (ht : t.HasDefaults) :
    ∀ fuel : Nat, t.Fitting (t.defaultWithin fuel) := by
  intro fuel
  induction fuel with
  | zero =>
    intro ty d h
    cases h
  | succ fuel ih =>
    intro ty d h
    exact fits_defaultStep ht ih ty d h

theorem fits_default (ht : t.HasDefaults) (h : t.default ty = .ok c) : c.Fits t := by
  obtain ⟨d, hd, h⟩ := ok_of_bind h
  cases h
  exact fitting_defaultWithin ht _ ty d hd

end TypeTable

end Staged
