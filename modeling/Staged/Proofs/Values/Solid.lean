/-
  Staged.Proofs.Values.Solid — known values that refer to nothing.

  A value of a reference type is used as what it refers to, so a value that is known must
  not be of one: it would stand for itself where the other value is meant. A value is solid
  when neither it nor anything that can be taken out of it is of a reference type
  (`Data.Solid`). Values that fit their type are solid; being solid asks for less, and it
  lasts when definitions are added or filled in.

  Every rule on values stays within solid ones (`Domain.solid`).
-/

import Staged.Proofs.Layouts.Evolve
import Staged.Proofs.Values.Logic
import Staged.Proofs.Values.Shape

namespace Staged

/-! ## Types that are no references -/

namespace TypeTable

variable {t t' : TypeTable} {ty : Ty}

theorem isRef_of_isIntegral (h : t.isIntegral ty = true) : ty.isRef = false := by
  cases ty <;> first | rfl | cases h

theorem isRef_of_floatKind (h : (t.floatKind? ty).isSome = true) : ty.isRef = false := by
  cases ty <;> first | rfl | cases h

theorem isRef_of_choiceOf {d : ChoiceDef} (h : t.choiceOf? ty = some d) : ty.isRef = false := by
  cases ty <;> first | rfl | cases h

theorem isRef_of_mixOf {d : MixDef} (h : t.mixOf? ty = some d) : ty.isRef = false := by
  cases ty <;> first | rfl | cases h

theorem isRef_of_structOf {d : StructDef} (h : t.structOf? ty = some d) : ty.isRef = false := by
  cases ty <;> first | rfl | cases h

end TypeTable

/-! ## Solid values -/

namespace Data

def isWhole (d : Data) : Bool := d.parts?.isNone && d.items?.isNone

inductive Solid (t : TypeTable) : Data → Ty → Prop
  | whole {d : Data} {ty : Ty} (hd : d.isWhole = true) (hty : ty.isRef = false) : Solid t d ty
  | array {items : List Data} {element : Ty} {n : Nat} (h : ∀ d ∈ items, Solid t d element) :
    Solid t (.array items) (.array element n)
  | tuple {items : List Data} {members : List Ty} {packed : Bool}
    (h : ∀ p ∈ items.zip members, Solid t p.1 p.2) : Solid t (.tuple items) (.tuple members packed)
  | struct {items : List Data} {ty : Ty} {d : StructDef} {fields : List FieldDef}
    (hd : t.structOf? ty = some d) (hf : d.fields? = some fields)
    (h : ∀ p ∈ items.zip (fields.map FieldDef.type), Solid t p.1 p.2) : Solid t (.struct items) ty
  /-- Of a struct that is not laid out, no field is known. -/
  | blank {ty : Ty} (hty : ty.isRef = false) : Solid t (.struct []) ty

variable {t t' : TypeTable} {d : Data} {ty : Ty}

theorem Solid.isRef (h : d.Solid t ty) : ty.isRef = false := by
  cases h with
  | whole _ hty => exact hty
  | array _ => rfl
  | tuple _ => rfl
  | struct hd _ _ => exact TypeTable.isRef_of_structOf hd
  | blank hty => exact hty

/-- Whatever becomes known of definitions, a solid value is solid. -/
theorem Solid.retained (h : d.Solid t ty) (hr : t.Retains t') : d.Solid t' ty := by
  induction h with
  | whole hd hty => exact .whole hd hty
  | array _ ih => exact .array ih
  | tuple _ ih => exact .tuple ih
  | @struct items ty d fields hd hf _ ih =>
    cases ty with
    | struct id =>
      obtain ⟨d', hd', hf'⟩ := hr.fields id d fields hd hf
      exact .struct hd' hf' ih
    | _ => cases hd
  | blank hty => exact .blank hty

theorem solid_congr (h : t.SameDefinitions t') : d.Solid t' ty ↔ d.Solid t ty :=
  ⟨fun hs => hs.retained h.symm.retains, fun hs => hs.retained h.retains⟩

theorem solid_tuple {items : List Data} {members : List Ty} {packed : Bool}
    (h : List.Forall₂ (fun d ty => d.Solid t ty) items members) :
    Solid t (.tuple items) (.tuple members packed) :=
  .tuple fun _ hp => (List.forall₂_iff_zip.mp h).2 hp

theorem solid_struct {items : List Data} {def_ : StructDef} (hd : t.structOf? ty = some def_)
    (h : List.Forall₂ (fun d ty => d.Solid t ty) items def_.fieldTypes) :
    Solid t (.struct items) ty := by
  cases hf : def_.fields? with
  | some fields =>
    refine .struct hd hf fun p hp => (List.forall₂_iff_zip.mp h).2 ?_
    rw [StructDef.fieldTypes, StructDef.fields, hf, Option.getD_some]
    exact hp
  | none =>
    rw [StructDef.fieldTypes, StructDef.fields, hf] at h
    cases h
    exact .blank (TypeTable.isRef_of_structOf hd)

/-- What fits its type is solid. -/
theorem solid_of_fits (d : Data) (ty : Ty) (h : d.fits t ty = true) : d.Solid t ty := by
  match d with
  | array items =>
    obtain ⟨element, rfl, hitems⟩ := fits_array.mp h
    exact .array fun d hd => solid_of_fits d element (hitems d hd)
  | tuple items =>
    obtain ⟨members, packed, rfl, hitems⟩ := fits_tuple.mp h
    refine .tuple fun p hp => ?_
    have hmem := List.of_mem_zip hp
    exact solid_of_fits p.1 p.2 ((List.forall₂_iff_zip.mp hitems).2 hp)
  | struct items =>
    obtain ⟨def_, hdef, hitems⟩ := fits_struct.mp h
    refine solid_struct hdef (List.forall₂_iff_zip.mpr ⟨hitems.length_eq, fun {a b} hp => ?_⟩)
    have hmem := List.of_mem_zip hp
    exact solid_of_fits a b ((List.forall₂_iff_zip.mp hitems).2 hp)
  | int _ | float _ | bool _ | char _ | str _ | mix _ _ | maybe _ | type _ | null | void =>
    refine .whole rfl ?_
    cases ty with
    | ref _ _ => cases h
    | _ => rfl
  termination_by sizeOf d
  decreasing_by
  · have := List.sizeOf_lt_of_mem hd
    simp only [array.sizeOf_spec]
    omega
  · have := List.sizeOf_lt_of_mem hmem.1
    simp only [tuple.sizeOf_spec]
    omega
  · have := List.sizeOf_lt_of_mem hmem.1
    simp only [struct.sizeOf_spec]
    omega

/-- An item of a solid array. -/
theorem Solid.item {items : List Data} {element : Ty} {n : Nat} {x : Data}
    (h : d.Solid t (.array element n)) (hd : d.items? = some items) (hx : x ∈ items) :
    x.Solid t element := by
  cases h with
  | whole hw _ => simp [isWhole, hd] at hw
  | array h =>
    cases hd
    exact h x hx
  | struct hs _ _ => cases hs
  | blank _ => cases hd

theorem mem_zip_of_getElem {α β : Type} {as : List α} {bs : List β} {a : α} {b : β} {i : Nat}
    (ha : as[i]? = some a) (hb : bs[i]? = some b) : (a, b) ∈ as.zip bs := by
  refine List.mem_of_getElem? (i := i) ?_
  rw [List.getElem?_zip_eq_some]
  exact ⟨ha, hb⟩

/-- A member of a solid tuple. -/
theorem Solid.member {items : List Data} {members : List Ty} {packed : Bool} {i : Nat} {x : Data}
    {a : Ty} (h : d.Solid t (.tuple members packed)) (hd : d.parts? = some items)
    (hx : items[i]? = some x) (ha : members[i]? = some a) : x.Solid t a := by
  cases h with
  | whole hw _ => simp [isWhole, hd] at hw
  | tuple h =>
    cases hd
    exact h _ (mem_zip_of_getElem hx ha)
  | struct hs _ _ => cases hs
  | blank _ =>
    cases hd
    cases hx

/-- A field of a solid struct. -/
theorem Solid.field {items : List Data} {def_ : StructDef} {i : Nat} {x : Data} {a : Ty}
    (h : d.Solid t ty) (hdef : t.structOf? ty = some def_) (hd : d.parts? = some items)
    (hx : items[i]? = some x) (ha : def_.fieldTypes[i]? = some a) : x.Solid t a := by
  cases h with
  | whole hw _ => simp [isWhole, hd] at hw
  | array _ => cases hdef
  | tuple _ => cases hdef
  | struct hs hf h =>
    cases hd
    cases hdef.symm.trans hs
    rw [StructDef.fieldTypes, StructDef.fields, hf, Option.getD_some] at ha
    exact h _ (mem_zip_of_getElem hx ha)
  | blank _ =>
    cases hd
    cases hx

end Data

def Constant.Solid (c : Constant) (t : TypeTable) : Prop := c.data.Solid t c.type

namespace Constant

variable {t t' : TypeTable} {c : Constant} {ty : Ty}

theorem solid_congr (h : t.SameDefinitions t') : c.Solid t' ↔ c.Solid t := Data.solid_congr h

theorem Solid.retained (h : c.Solid t) (hr : t.Retains t') : c.Solid t' := Data.Solid.retained h hr

theorem Solid.of_type (h : c.Solid t) (hty : c.type = ty) : c.data.Solid t ty := hty ▸ h

theorem Fits.solid (h : c.Fits t) : c.Solid t := Data.solid_of_fits c.data c.type h

end Constant

/-! ## Rules on values -/

namespace TypeTable

variable {t : TypeTable} {l r c d : Constant} {ty : Ty}

theorem solid_bool (b : Bool) : (Constant.bool b).Solid t := .whole rfl rfl

/-- Computing with a value gives its type or, of a choice, the integer type behind it. -/
theorem isRef_computedType {info : IntInfo} (hty : ty.isRef = false)
    (hi : t.ordinal? ty = some info) : (t.computedType ty).isRef = false := by
  unfold computedType
  cases hc : t.choiceOf? ty with
  | none => exact hty
  | some def_ =>
    cases ty with
    | choice id =>
      have hord : t.ordinal? (.choice id) = (t.choiceOf? (.choice id)).bind fun d =>
        t.intInfo? d.underlying := rfl
      rw [hord, hc] at hi
      exact isRef_of_isIntegral (Option.isSome_of_eq_some hi)
    | _ => cases hc

theorem solid_foldInt {op : BinaryOp} {a b : Int} (hty : ty.isRef = false)
    (h : t.foldInt op ty a b = .ok c) : c.Solid t := by
  unfold foldInt at h
  split at h
  · cases h
    exact solid_bool _
  · split at h
    · cases h
    · rename_i info hinfo
      obtain ⟨raw, -, h⟩ := ok_of_bind h
      cases h
      exact .whole rfl (isRef_computedType hty hinfo)

theorem solid_foldFloat {op : BinaryOp} {a b : Binary64} (hty : ty.isRef = false)
    (h : t.foldFloat op ty a b = .ok c) : c.Solid t := by
  unfold foldFloat at h
  simp only at h
  split at h
  · cases h
    exact solid_bool _
  · split at h <;> cases h <;> exact .whole rfl hty

/-- Of the operands only the left one matters. -/
theorem solid_foldBinary {op : BinaryOp} (hl : l.Solid t) (h : t.foldBinary op l r = .ok c) :
    c.Solid t := by
  have hty := hl.isRef
  unfold foldBinary at h
  split at h
  · exact solid_foldInt hty h
  · exact solid_foldFloat hty h
  · exact (fits_foldBool h).solid
  · split at h
    · cases h
      exact solid_bool _
    · cases h
  · exact (fits_foldEquality h).solid
  · exact (fits_foldEquality h).solid
  · split at h
    · exact (fits_foldEquality h).solid
    · cases h

theorem solid_foldUnary {op : UnaryOp} (hc : c.Solid t) (h : t.foldUnary op c = .ok d) :
    d.Solid t := by
  have hty := hc.isRef
  unfold foldUnary at h
  split at h
  · split at h <;> cases h
    exact .whole rfl hty
  · split at h <;> cases h
    exact .whole rfl hty
  · cases h
    exact .whole rfl hty
  · cases h
    exact .whole rfl hty
  · cases h

theorem solid_foldCast (hc : c.Solid t) (h : t.foldCast c ty = .ok d) : d.Solid t := by
  unfold foldCast at h
  split at h
  · cases h
    exact hc
  · split at h
    · rename_i hdata
      cases h
      exact Data.solid_of_fits _ _ (fits_castData hdata)
    · cases h

theorem solid_index {i : Int} (hc : c.Solid t) (h : c.index i = .ok d) : d.Solid t := by
  obtain ⟨data, type⟩ := c
  unfold Constant.index at h
  split at h
  · rename_i hdata htype
    cases hdata
    cases htype
    split at h
    · rename_i hitem
      cases h
      exact Data.Solid.item hc rfl (mem_of_itemAt hitem)
    · cases h
  · split at h
    · cases h
      exact .whole rfl rfl
    · cases h
  · cases h

theorem fieldTypes_of_field {def_ : StructDef} {name : String} {i : Nat} {f : FieldDef}
    (h : def_.field? name = some (i, f)) : def_.fieldTypes[i]? = some f.type := by
  rw [StructDef.fieldTypes, List.getElem?_map, getElem?_of_find? h, Option.map_some]

theorem solid_knownMember {name : String} (hc : c.Solid t) (h : t.knownMember c name = .ok d) :
    d.Solid t := by
  unfold knownMember at h
  split at h
  · split at h <;> cases h
    exact .whole rfl rfl
  · split at h <;> cases h
    exact .whole rfl rfl
  · rename_i items hitems
    split at h
    · rename_i i field hfield
      obtain ⟨def_, hdef, hfield⟩ := Option.bind_eq_some_iff.mp hfield
      split at h
      · rename_i hitem
        cases h
        refine Data.Solid.field hc hdef ?_ hitem (fieldTypes_of_field hfield)
        rw [hitems]
        rfl
      · cases h
    · cases h
  · cases h

theorem solid_knownVariant {name : String} {payload : Option Constant}
    (h : t.knownVariant ty name payload = .ok d) : d.Solid t := by
  unfold knownVariant at h
  split at h
  · rename_i hchoice
    split at h
    · cases h
    · split at h <;> cases h
      exact .whole rfl (isRef_of_choiceOf hchoice)
  · rename_i hmix
    split at h
    · cases h
    · split at h
      · cases h
        exact .whole rfl (isRef_of_mixOf hmix)
      · split at h <;> cases h
        exact .whole rfl (isRef_of_mixOf hmix)
      · cases h
      · cases h
  · cases h

/-! ## Defaults -/

def SolidParts (t : TypeTable) (parts : Ty → Except Fault Data) : Prop :=
  ∀ ty d, parts ty = .ok d → d.Solid t ty

variable {parts : Ty → Except Fault Data} {data : Data}

theorem solid_defaultMix {id : Nat} {def_ : MixDef} (h : defaultMix parts def_ = .ok data) :
    data.Solid t (.mix id) := by
  unfold defaultMix at h
  split at h
  · cases h
  · split at h
    · cases h
      exact .whole rfl rfl
    · obtain ⟨inner, -, h⟩ := ok_of_bind h
      cases h
      exact .whole rfl rfl

theorem solid_defaultChoice {id : Nat} {def_ : ChoiceDef} (h : defaultChoice def_ = .ok data) :
    data.Solid t (.choice id) := by
  unfold defaultChoice at h
  split at h <;> cases h
  exact .whole rfl rfl

mutual

theorem solid_defaultStep (hparts : t.SolidParts parts) :
    ∀ (ty : Ty) (d : Data), t.defaultStep parts ty = .ok d → d.Solid t ty
  | .int _, d, h | .uint _, d, h | .float _, d, h | .bool, d, h | .char, d, h | .str, d, h
  | .maybe _, d, h => by
    cases h
    exact .whole rfl rfl
  | .native kind, d, h => by
    unfold defaultStep at h
    split at h <;> cases h <;> exact .whole rfl rfl
  | .mark .., d, h => by
    unfold defaultStep at h
    split at h <;> cases h
    exact .whole rfl rfl
  | .choice id, d, h => by
    unfold defaultStep at h
    split at h
    · exact solid_defaultChoice h
    · cases h
  | .mix id, d, h => by
    unfold defaultStep at h
    split at h
    · exact solid_defaultMix h
    · cases h
  | .tuple members packed, d, h => by
    unfold defaultStep at h
    obtain ⟨ds, hds, h⟩ := ok_of_bind h
    cases h
    exact Data.solid_tuple (solid_defaultsStep hparts members ds hds)
  | .array element length, d, h => by
    unfold defaultStep at h
    obtain ⟨item, hitem, h⟩ := ok_of_bind h
    cases h
    refine .array fun x hx => ?_
    rw [List.eq_of_mem_replicate hx]
    exact solid_defaultStep hparts element item hitem
  | .struct id, d, h => by
    unfold defaultStep at h
    split at h
    · cases h
    · split at h
      · rename_i def_ hdef
        obtain ⟨ds, hds, h⟩ := ok_of_bind h
        cases h
        have hstruct : t.structOf? (.struct id) = some def_ := hdef
        exact Data.solid_struct hstruct ((forall₂_of_mapM hds).imp fun d ty => hparts ty d)
      · cases h
        exact .blank rfl
  | .void, d, h | .ref .., d, h | .vector .., d, h | .function .., d, h | .future .., d, h
  | .typed _, d, h => by
    cases h

theorem solid_defaultsStep (hparts : t.SolidParts parts) :
    ∀ (tys : List Ty) (ds : List Data), t.defaultsStep parts tys = .ok ds →
      List.Forall₂ (fun d ty => d.Solid t ty) ds tys
  | [], ds, h => by
    cases h
    exact .nil
  | ty :: tys, ds, h => by
    unfold defaultsStep at h
    obtain ⟨d, hd, h⟩ := ok_of_bind h
    obtain ⟨rest, hrest, h⟩ := ok_of_bind h
    cases h
    exact .cons (solid_defaultStep hparts ty d hd) (solid_defaultsStep hparts tys rest hrest)

end

theorem solidParts_defaultWithin : ∀ fuel : Nat, t.SolidParts (t.defaultWithin fuel) := by
  intro fuel
  induction fuel with
  | zero =>
    intro ty d h
    cases h
  | succ fuel ih => exact fun ty d h => solid_defaultStep ih ty d h

theorem solid_default (h : t.default ty = .ok c) : c.Solid t := by
  obtain ⟨d, hd, h⟩ := ok_of_bind h
  cases h
  exact solidParts_defaultWithin _ ty d hd

end TypeTable

/-! ## The domain -/

def Domain.solid (t : TypeTable) : Domain where
  holds c := c.Solid t
  knows t' := t.SameDefinitions t'
  bool _ := .whole rfl rfl
  char _ := .whole rfl rfl
  str _ := .whole rfl rfl
  void := .whole rfl rfl
  type _ := .whole rfl rfl
  usize _ := .whole rfl rfl
  byte _ := .whole rfl rfl
  int _ hinfo _ := .whole rfl (TypeTable.isRef_of_isIntegral (Option.isSome_of_eq_some hinfo))
  below _ hint _ _ _ _ := .whole rfl (TypeTable.isRef_of_isIntegral hint)
  float _ _ hkind := .whole rfl (TypeTable.isRef_of_floatKind hkind)
  null {ty} h := .whole rfl (by cases ty <;> first | rfl | cases h)
  none {ty} h := .whole rfl (by cases ty <;> first | rfl | cases h)
  some _ := .whole rfl rfl
  tuple {cs} h := by
    refine Data.solid_tuple ?_
    rw [List.forall₂_map_left_iff, List.forall₂_map_right_iff, List.forall₂_same]
    exact h
  array h := .array h
  item h hd := Data.Solid.item h rfl hd
  struct {t₁ t₂ ty ds} h₁ h₂ hs h := by
    obtain ⟨d, hd⟩ := Option.isSome_iff_exists.mp hs
    rw [h₁.structOf?] at hd
    rw [h₂.structOf?, hd] at h
    exact Data.solid_struct hd h
  default h hc := (Constant.solid_congr h).mp (TypeTable.solid_default hc)
  literal h hc := (Constant.solid_congr h).mp (TypeTable.fits_intLiteral hc).solid
  unary h hl hc :=
    (Constant.solid_congr h).mp (TypeTable.solid_foldUnary ((Constant.solid_congr h).mpr hl) hc)
  binary h hl _ hc :=
    (Constant.solid_congr h).mp (TypeTable.solid_foldBinary ((Constant.solid_congr h).mpr hl) hc)
  cast h hl hc :=
    (Constant.solid_congr h).mp (TypeTable.solid_foldCast ((Constant.solid_congr h).mpr hl) hc)
  index hl hc := TypeTable.solid_index hl hc
  member h hl hc :=
    (Constant.solid_congr h).mp (TypeTable.solid_knownMember ((Constant.solid_congr h).mpr hl) hc)
  variant h _ hc := (Constant.solid_congr h).mp (TypeTable.solid_knownVariant hc)

end Staged
