/-
  Staged.Proofs.Values.Default — a default is made of defaults.

  A value is made of parts, which have types of their own (`Data.Part`). The default of a type
  is found through its definition and those of its parts, so each of its parts is what the
  part's own type has for a default (`part_defaultWithin`). Whatever is refused as a default
  is therefore no part of one either: a default has no null in it but where the type of a
  mark allows it (`null_of_part_default`).

  What a type declares for its default is asked for where the default is found: a choice and a
  mix have a variant for it, and a struct with a default constructor has no default that is
  known. This goes for every part of a known default, however deep
  (`TypeTable.asDeclared_of_part_default`). Where no default is known, zeroed memory is the
  value of a struct without constructors (`Emit.lowerDefault_ok`). Only the struct itself is
  asked about there, so the zeros stand for its parts whatever these declare.
-/

import Staged.Emit.Construct
import Staged.Known.Evaluate
import Staged.Proofs.Code.Instr
import Staged.Proofs.Values.Shape

namespace Staged

inductive Data.Part (t : TypeTable) (part : Data) (type : Ty) : Data → Ty → Prop
  | self : Part t part type part type
  | item {d : Data} {items : List Data} {element : Ty} {n : Nat} :
    d ∈ items → Part t part type d element →
    Part t part type (.array items) (.array element n)
  | member {d : Data} {items : List Data} {ty : Ty} {members : List Ty} {packed : Bool} :
    (d, ty) ∈ items.zip members → Part t part type d ty →
    Part t part type (.tuple items) (.tuple members packed)
  | field {d : Data} {items : List Data} {ty struct : Ty} {def_ : StructDef} :
    t.structOf? struct = some def_ → (d, ty) ∈ items.zip def_.fieldTypes → Part t part type d ty →
    Part t part type (.struct items) struct
  | payload {d : Data} {ty mix : Ty} {i : Nat} {v : MixVariant} :
    (t.mixOf? mix).bind (·.variants[i]?) = some v → v.payload = some ty → Part t part type d ty →
    Part t part type (.mix i (some d)) mix
  | inner {d : Data} {ty maybe : Ty} : maybe.maybe? = some ty → Part t part type d ty →
    Part t part type (.maybe (some d)) maybe

namespace TypeTable

variable {t : TypeTable} {parts : Ty → Except Fault Data} {d : Data} {ty : Ty}
  {items : List Data}

/-! ## One definition deep -/

theorem defaultStep_item {element : Ty} {n : Nat}
    (h : t.defaultStep parts (.array element n) = .ok (.array items)) (hd : d ∈ items) :
    t.defaultStep parts element = .ok d := by
  unfold defaultStep at h
  obtain ⟨item, hitem, h⟩ := ok_of_bind h
  cases h
  rw [List.eq_of_mem_replicate hd]
  exact hitem

theorem forall₂_defaultsStep {members : List Ty} (h : t.defaultsStep parts members = .ok items) :
    List.Forall₂ (fun d ty => t.defaultStep parts ty = .ok d) items members := by
  induction members generalizing items with
  | nil =>
    cases h
    exact .nil
  | cons ty members ih =>
    unfold defaultsStep at h
    obtain ⟨d, hd, h⟩ := ok_of_bind h
    obtain ⟨rest, hrest, h⟩ := ok_of_bind h
    cases h
    exact .cons hd (ih hrest)

theorem defaultStep_member {members : List Ty} {packed : Bool}
    (h : t.defaultStep parts (.tuple members packed) = .ok (.tuple items))
    (hd : (d, ty) ∈ items.zip members) : t.defaultStep parts ty = .ok d := by
  unfold defaultStep at h
  obtain ⟨ds, hds, h⟩ := ok_of_bind h
  cases h
  exact (List.forall₂_iff_zip.mp (forall₂_defaultsStep hds)).2 hd

theorem defaultStep_field {struct : Ty} {def_ : StructDef} (hdef : t.structOf? struct = some def_)
    (h : t.defaultStep parts struct = .ok (.struct items))
    (hd : (d, ty) ∈ items.zip def_.fieldTypes) : parts ty = .ok d := by
  cases struct with
  | struct id =>
    have hdef : t.structs[id]? = some def_ := hdef
    unfold defaultStep at h
    split at h
    · cases h
    · rw [hdef] at h
      obtain ⟨ds, hds, h⟩ := ok_of_bind h
      cases h
      exact (List.forall₂_iff_zip.mp (forall₂_of_mapM hds)).2 hd
  | _ => cases hdef

theorem defaultStep_payload {mix : Ty} {i : Nat} {v : MixVariant}
    (hv : (t.mixOf? mix).bind (·.variants[i]?) = some v) (hpayload : v.payload = some ty)
    (h : t.defaultStep parts mix = .ok (.mix i (some d))) : parts ty = .ok d := by
  cases mix with
  | mix id =>
    obtain ⟨def_, hdef, hv⟩ := Option.bind_eq_some_iff.mp hv
    have hdef : t.mixes[id]? = some def_ := hdef
    unfold defaultStep at h
    rw [hdef] at h
    dsimp only at h
    unfold defaultMix at h
    split at h
    · cases h
    · split at h
      · cases h
      · rename_i j _ payload hj
        obtain ⟨inner, hinner, h⟩ := ok_of_bind h
        cases h
        rw [hv, Option.bind_some, hpayload] at hj
        cases hj
        exact hinner
  | _ => cases hv

theorem defaultStep_ne_inner {maybe : Ty} (hm : maybe.maybe? = some ty) :
    t.defaultStep parts maybe ≠ .ok (.maybe (some d)) := by
  intro h
  cases maybe with
  | maybe => cases h
  | _ => cases hm

/-! ## At any depth -/

theorem defaultWithin_ok {fuel : Nat} (h : t.defaultWithin fuel ty = .ok d) :
    ∃ n, fuel = n + 1 ∧ t.defaultStep (t.defaultWithin n) ty = .ok d := by
  cases fuel with
  | zero => cases h
  | succ n => exact ⟨n, rfl, h⟩

/-- Each part of a default is the default of its own type. -/
theorem part_defaultWithin {part : Data} {type : Ty} (hpart : Data.Part t part type d ty) :
    ∀ {fuel : Nat}, t.defaultWithin fuel ty = .ok d →
      ∃ fuel', t.defaultWithin fuel' type = .ok part := by
  induction hpart with
  | self => exact fun h => ⟨_, h⟩
  | item hd _ ih =>
    intro fuel h
    obtain ⟨n, rfl, h⟩ := defaultWithin_ok h
    exact @ih (n + 1) (defaultStep_item h hd)
  | member hd _ ih =>
    intro fuel h
    obtain ⟨n, rfl, h⟩ := defaultWithin_ok h
    exact @ih (n + 1) (defaultStep_member h hd)
  | field hdef hd _ ih =>
    intro fuel h
    obtain ⟨n, rfl, h⟩ := defaultWithin_ok h
    exact ih (defaultStep_field hdef h hd)
  | payload hv hpayload _ ih =>
    intro fuel h
    obtain ⟨n, rfl, h⟩ := defaultWithin_ok h
    exact ih (defaultStep_payload hv hpayload h)
  | inner hm _ _ =>
    intro fuel h
    obtain ⟨n, rfl, h⟩ := defaultWithin_ok h
    exact absurd h (defaultStep_ne_inner hm)

/-- Null is the default of marks that may be null, and of nothing else. -/
theorem defaultStep_null (h : t.defaultStep parts ty = .ok .null) :
    ∃ sub owner slice isVar, ty = .mark sub owner true slice isVar := by
  cases ty with
  | mark sub owner nullable slice isVar =>
    cases nullable with
    | true => exact ⟨sub, owner, slice, isVar, rfl⟩
    | false => cases h
  | choice id =>
    unfold defaultStep defaultChoice at h
    split at h
    · split at h <;> cases h
    · cases h
  | mix id =>
    unfold defaultStep at h
    split at h
    · unfold defaultMix at h
      split at h
      · cases h
      · split at h
        · cases h
        · obtain ⟨_, _, h⟩ := ok_of_bind h
          cases h
    · cases h
  | tuple members packed =>
    obtain ⟨_, _, h⟩ := ok_of_bind h
    cases h
  | array element length =>
    obtain ⟨_, _, h⟩ := ok_of_bind h
    cases h
  | struct id =>
    unfold defaultStep at h
    split at h
    · cases h
    · split at h
      · obtain ⟨_, _, h⟩ := ok_of_bind h
        cases h
      · cases h
  | native kind =>
    unfold defaultStep at h
    split at h <;> cases h
  | _ => cases h

/-- However deep it lies, a null in a default belongs to a mark that may be null. -/
theorem null_of_part_default {c : Constant} (h : t.default ty = .ok c) {type : Ty}
    (hpart : Data.Part t .null type c.data c.type) :
    ∃ sub owner slice isVar, type = .mark sub owner true slice isVar := by
  obtain ⟨d, hd, h⟩ := ok_of_bind h
  cases h
  obtain ⟨fuel, hnull⟩ := part_defaultWithin hpart hd
  obtain ⟨n, -, hnull⟩ := defaultWithin_ok hnull
  exact defaultStep_null hnull

/-- Writing `null` is not held to this: it is taken for any mark. -/
example (call : Emit.Caller) (view : Viewpoint) (range : Span) (o : Options) (s : Compiler) :
    let mark : Ty := .mark (.int 32) .anonymous false false false
    Emit.evaluateWith call view (.null range) (some mark) o s = .ok ⟨.null, mark⟩ s :=
  rfl

end TypeTable

/-! ## What is declared -/

structure Data.AsDeclared (t : TypeTable) (d : Data) (ty : Ty) : Prop where
  choice {def_ : ChoiceDef} : t.choiceOf? ty = some def_ →
    ∃ v, def_.default.bind (def_.variants[·]?) = some v ∧ d = .int v.value
  mix {def_ : MixDef} : t.mixOf? ty = some def_ →
    ∃ i payload, def_.default = some i ∧ d = .mix i payload ∧
      (payload.isSome ↔ ((def_.variants[i]?).bind MixVariant.payload).isSome)
  struct {id : Nat} : ty = .struct id → t.hasMember ty .defaultConstructor = false

namespace TypeTable

variable {t : TypeTable} {parts : Ty → Except Fault Data} {d : Data} {ty : Ty}

theorem defaultChoice_ok {def_ : ChoiceDef} (h : defaultChoice def_ = .ok d) :
    ∃ v, def_.default.bind (def_.variants[·]?) = some v ∧ d = .int v.value := by
  unfold defaultChoice at h
  split at h
  · cases h
    exact ⟨_, ‹_›, rfl⟩
  · cases h

theorem defaultMix_ok {def_ : MixDef} (h : defaultMix parts def_ = .ok d) :
    ∃ i payload, def_.default = some i ∧ d = .mix i payload ∧
      (payload.isSome ↔ ((def_.variants[i]?).bind MixVariant.payload).isSome) := by
  unfold defaultMix at h
  split at h
  · cases h
  · rename_i i hdefault
    split at h
    · rename_i hpayload
      cases h
      exact ⟨i, none, hdefault, rfl, by simp [hpayload]⟩
    · rename_i payload hpayload
      obtain ⟨inner, -, h⟩ := ok_of_bind h
      cases h
      exact ⟨i, some inner, hdefault, rfl, by simp [hpayload]⟩

theorem defaultStep_asDeclared (h : t.defaultStep parts ty = .ok d) : d.AsDeclared t ty where
  choice {def_} hdef := by
    cases ty with
    | choice id =>
      have hdef : t.choices[id]? = some def_ := hdef
      unfold defaultStep at h
      rw [hdef] at h
      exact defaultChoice_ok h
    | _ => cases hdef
  mix {def_} hdef := by
    cases ty with
    | mix id =>
      have hdef : t.mixes[id]? = some def_ := hdef
      unfold defaultStep at h
      rw [hdef] at h
      exact defaultMix_ok h
    | _ => cases hdef
  struct := by
    rintro id rfl
    unfold defaultStep at h
    split at h
    · cases h
    · simp_all

/-- Each part of a known default is what its own type declares. -/
theorem asDeclared_of_part_default {c : Constant} (h : t.default ty = .ok c) {part : Data}
    {type : Ty} (hpart : Data.Part t part type c.data c.type) : part.AsDeclared t type := by
  obtain ⟨d, hd, h⟩ := ok_of_bind h
  cases h
  obtain ⟨fuel, hd⟩ := part_defaultWithin hpart hd
  obtain ⟨n, -, hd⟩ := defaultWithin_ok hd
  exact defaultStep_asDeclared hd

end TypeTable

namespace Emit

variable {o : Options} {s s' : Compiler} {view : Viewpoint} {ty : Ty} {expect : Expect}
  {range : Span} {v : Value}

/-! ## Lowered defaults -/

theorem isZeroable_iff {t : TypeTable} : isZeroable t ty = true ↔
    (t.structOf? ty).isSome = true ∧ t.isSized ty = true ∧ t.hasMember ty .constructor = false ∧
      t.hasMember ty .fromConvertor = false := by
  simp [isZeroable, and_assoc]

theorem types_apply : types o s = .ok s.types s := rfl

theorem lowerDefault_known {c : Constant} (hm : s.types.member? ty .defaultConstructor = none)
    (h : s.types.default ty = .ok c) :
    lowerDefault view ty expect range o s = constant c range o s := by
  unfold lowerDefault
  simp only [bind_apply, types_apply, hm, h]

theorem lowerDefault_unknown {f : Fault} (hm : s.types.member? ty .defaultConstructor = none)
    (h : s.types.default ty = .error f) :
    lowerDefault view ty expect range o s = (if isZeroable s.types ty then do
        let slot ← targetSlot ty expect range
        store (Ir.Const.zero ty) slot.ir
        return slot
      else refuse f range : Emit Value) o s := by
  unfold lowerDefault
  simp only [bind_apply, types_apply, hm, h]
  split <;> rfl

/-- Without a default constructor of its own, the default of a type is the known one, each
part as its type declares it, or memory filled with zeros. The latter takes a struct that has
neither a constructor nor a convertor, and no known default. -/
theorem lowerDefault_ok (hm : s.types.member? ty .defaultConstructor = none)
    (h : lowerDefault view ty expect range o s = .ok v s') :
    (∃ c, s.types.default ty = .ok c ∧ v.known = some c ∧
      ∀ part type, Data.Part s.types part type c.data c.type →
        part.AsDeclared s.types type) ∨
    (∃ f s₁, s.types.default ty = .error f ∧ isZeroable s.types ty = true ∧
      targetSlot ty expect range o s = .ok v s₁ ∧
      store (Ir.Const.zero ty) v.ir o s₁ = .ok () s') := by
  cases hdefault : s.types.default ty with
  | ok c =>
    rw [lowerDefault_known hm hdefault] at h
    obtain ⟨ir, s₁, -, h⟩ := bind_ok h
    cases h
    exact .inl ⟨c, rfl, rfl, fun _ _ => TypeTable.asDeclared_of_part_default hdefault⟩
  | error f =>
    rw [lowerDefault_unknown hm hdefault] at h
    cases hzero : isZeroable s.types ty with
    | false =>
      rw [hzero] at h
      cases h
    | true =>
      rw [hzero] at h
      obtain ⟨slot, s₂, hslot, h⟩ := bind_ok h
      obtain ⟨⟨⟩, s₃, hstore, h⟩ := bind_ok h
      cases h
      exact .inr ⟨f, s₂, rfl, rfl, hslot, hstore⟩

/-- Only structs are filled with zeros. -/
theorem lowerDefault_not_struct (hm : s.types.member? ty .defaultConstructor = none)
    (hstruct : s.types.structOf? ty = none)
    (h : lowerDefault view ty expect range o s = .ok v s') :
    ∃ c, s.types.default ty = .ok c ∧ v.known = some c ∧
      ∀ part type, Data.Part s.types part type c.data c.type → part.AsDeclared s.types type := by
  rcases lowerDefault_ok hm h with h | ⟨_, _, _, hzero, _⟩
  · exact h
  · rw [isZeroable_iff, hstruct] at hzero
    cases hzero.1

end Emit

/-- A struct of a choice whose second variant is the default and of a struct with a default
constructor has no known default, and its memory is filled with zeros. -/
example :
    let ident (text : String) : Ident := ⟨text, ⟨0, 0, 0⟩⟩
    let vis : Visibility := .pub
    let field (name : String) (type : Ty) : FieldDef := ⟨ident name, type, false, vis⟩
    let variants : List ChoiceVariant := [⟨ident "A", 0⟩, ⟨ident "B", 1⟩]
    let choice : ChoiceDef := ⟨ident "C", "C", 0, vis, variants, .uint 1, some 1⟩
    let run : MemberFunction :=
      ⟨.defaultConstructor, "default", 0, .struct 0, [], .void, vis, ⟨0, 0, 0⟩⟩
    let inner : StructDef := ⟨ident "P", "P", 0, vis, some [field "x" (.int 32)], [run]⟩
    let fields := [field "c" (.choice 0), field "p" (.struct 0)]
    let outer : StructDef := ⟨ident "S", "S", 0, vis, some fields, []⟩
    let t : TypeTable := { TypeTable.ofPointerWidth 64 with
      structs := #[inner, outer], choices := #[choice] }
    (t.default (.choice 0)).toOption.isSome ∧ t.hasMember (.struct 0) .defaultConstructor ∧
      (t.default (.struct 1)).toOption = none ∧ Emit.isZeroable t (.struct 1) := by
  decide +kernel

end Staged
