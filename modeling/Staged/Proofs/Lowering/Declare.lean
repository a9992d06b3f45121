/-
  Staged.Proofs.Lowering.Declare — what the phases of a declaration do.

  The first phase of an entity gives it a symbol and changes nothing else that lowering
  reads (`Setting.Defines`); the phases after it keep the setting. A phase before the last
  asks only for what the uses of the declaration mean that are collected for that phase or
  an earlier one. Bodies are lowered in open settings.
-/

import Staged.Compile
import Staged.Proofs.Lowering.Sentence

open Std.Do

set_option mvcgen.warning false

namespace Staged

/-! ## Symbols -/

namespace Setting

def define (w : Setting) (id : EntityId) (y : Symbol) : Setting :=
  { w with outer := { w.outer with symbols := (id, y) :: w.outer.symbols } }

abbrev Defines (w : Setting) (id : EntityId) (a : Emit Unit) (Q : Symbol → Prop) : Prop :=
  ⦃fun _ s => ⌜w.Holds s⌝⦄ a
  ⦃post⟨fun _ _ s => ⌜∃ y, Q y ∧ (w.define id y).Holds s⌝,
    fun f s => ⌜s.outer = w.outer ∧ w.Allows f ∧ w.code s.core⌝⟩⦄

end Setting

def TypeSetting.define (w : TypeSetting) (id : EntityId) (y : Symbol) : TypeSetting :=
  { w.toSetting.define id y with code_types := w.code_types, code_emitted := w.code_emitted }

@[simp] def Symbol.isCallable : Symbol → Bool
  | .prerunFunction _ => true
  | _ => false

/-- A compile-time function is what its declaration in a module says. -/
def PrerunFunctionDecl.Becomes (module : ModId) (d : PrerunFunctionDecl) (y : Symbol) : Prop :=
  ∃ f : PrerunFunction, y = .prerunFunction f ∧ f.module = module ∧
    f.args.map (·.name.text) = argNames d.args ∧ f.body = d.body

namespace Emit

variable {w : Setting}

theorem holds_setSymbol (id : EntityId) (y : Symbol) :
    ⦃fun _ s => ⌜w.Holds s⌝⦄ setSymbol id y
    ⦃post⟨fun _ _ s => ⌜(w.define id y).Holds s⌝,
      fun f s => ⌜s.outer = w.outer ∧ w.Allows f ∧ w.code s.core⌝⟩⦄ := by
  refine triple_iff.mpr fun o s hs => ⟨?_, hs.2⟩
  obtain ⟨hs, -⟩ := hs
  unfold Setting.define
  rw [← hs]
  rfl

@[spec] theorem defines_setSymbol (id : EntityId) {y : Symbol} {Q : Symbol → Prop} (hy : Q y) :
    w.Defines id (setSymbol id y) Q := by
  refine triple_iff.mpr fun o s hs => ?_
  exact ⟨y, hy, triple_iff.mp (holds_setSymbol id y) o s hs⟩

/-! ## Lists -/

theorem gives_mapM {α β : Type} {f : α → Emit β} {R : α → β → Prop} :
    ∀ {as : List α}, (∀ a ∈ as, w.Gives (f a) (R a)) → w.Gives (as.mapM f) (List.Forall₂ R as)
  | [], _ => by
    rw [List.mapM_nil]
    mvcgen
    simp_all
  | a :: as, hf => by
    have hfirst := hf a List.mem_cons_self
    have hrest := gives_mapM fun x hx => hf x (List.mem_cons_of_mem a hx)
    rw [List.mapM_cons]
    refine hfirst.bind fun b hb => hrest.bind fun bs hbs => ?_
    mvcgen
    simp_all

theorem keeps_mapM {α β : Type} {f : α → Emit β} {as : List α} (hf : ∀ a ∈ as, w.Keeps (f a)) :
    w.Keeps (as.mapM f) :=
  (gives_mapM (R := fun _ _ => True) fun a ha => (hf a ha).gives).keeps

/-! ## Signatures -/

variable {view : Viewpoint} {phase : Phase} {need : Need}

theorem coversAll_flatMap {α : Type} {as : List α} {f : α → List Use} :
    w.CoversAll view (as.flatMap f) ↔ ∀ a ∈ as, w.CoversAll view (f a) := by
  simp only [Setting.CoversAll, List.mem_flatMap]
  grind

theorem keeps_checkUniqueAfter (what : String) :
    ∀ seen names : List Ident, w.Keeps (checkUniqueAfter what seen names)
  | _, [] => by mvcgen [checkUniqueAfter]
  | seen, name :: rest => by
    have hrest := keeps_checkUniqueAfter what (seen ++ [name]) rest
    mvcgen [checkUniqueAfter, hrest] <;> simp_all

@[spec] theorem keeps_checkUnique (what : String) (names : List Ident) :
    w.Keeps (checkUnique what names) :=
  keeps_checkUniqueAfter what [] names

theorem keeps_resolveTypeOption {ty : Option TypeExpr} (hw : w.Sound)
    (hu : w.CoversAll view (typeUses need phase ty)) : w.Keeps (resolveType? view ty) := by
  cases ty with
  | none => mvcgen [resolveType?]
  | some ty =>
    have hty := keeps_resolveType hw hu
    mvcgen [resolveType?, hty]

theorem keeps_resultTypeOf {ty : Option TypeExpr} (hw : w.Sound)
    (hu : w.CoversAll view (typeUses need phase ty)) : w.Keeps (resultTypeOf view ty) := by
  have hty := keeps_resolveTypeOption hw hu
  mvcgen [resultTypeOf, hty]

theorem keeps_paramType {a : Argument} (signature : Signature) (hw : w.Sound)
    (ha : w.CoversAll view (typeUses need phase a.type)) :
    w.Keeps (paramType view signature a) := by
  have hty {ty : TypeExpr} (h : a.type = some ty) : w.Keeps (resolveType view ty) := by
    rw [h] at ha
    exact keeps_resolveType hw ha
  mvcgen [paramType, hty] <;> simp_all

theorem keeps_paramTypes {args : List Argument} (signature : Signature) (hw : w.Sound)
    (ha : w.CoversAll view (argsUses need phase args)) :
    w.Keeps (paramTypes view signature args) :=
  (keeps_checkUnique "Argument" _).bind fun _ =>
    keeps_mapM fun a hmem => keeps_paramType signature hw (coversAll_flatMap.mp ha a hmem)

/-! ## Functions -/

@[spec] theorem keeps_addFunction {w : TypeSetting} (f : Ir.Function) :
    w.Keeps (addFunction f) := by
  mvcgen [addFunction]
  rename_i h _
  exact h.recode rfl rfl rfl

theorem defines_functionPrototype {w : TypeSetting} {id : EntityId} {d : FunctionDecl}
    (range : Span) (hw : w.Sound) (ha : w.CoversAll view (argsUses need phase d.args))
    (hr : w.CoversAll view (typeUses need phase d.result)) :
    w.Defines id (functionPrototype view id d range) (·.isCallable = false) := by
  have hparams := keeps_paramTypes (.function d.name.text) hw ha
  have hresult := keeps_resultTypeOf hw hr
  mvcgen [functionPrototype, hparams, hresult] <;> simp_all

/-! ## Values and functions of compile time -/

theorem keeps_declaredValue {type : Option TypeExpr} {value : Expr} (hw : w.Sound)
    (ht : w.CoversAll view (typeUses need phase type))
    (hv : w.CoversAll view (value.uses phase [])) : w.Keeps (declaredValue view type value) := by
  have htype := keeps_resolveTypeOption hw ht
  have hvalue := keeps_evaluate hw hv
  mvcgen [declaredValue, htype, hvalue]
  simp_all

@[spec] theorem keeps_addGlobal {w : TypeSetting} (g : Ir.Global) : w.Keeps (addGlobal g) := by
  mvcgen [addGlobal]
  rename_i h _
  exact h.recode rfl rfl rfl

@[spec] theorem keeps_fullNameOf (module : ModId) (name : Ident) :
    w.Keeps (fullNameOf module name) := by
  mvcgen [fullNameOf]
  simp_all

@[spec] theorem keeps_visibilityOf (vis : VisSpec) (module : ModId) (parent : Option Ty) :
    w.Keeps (visibilityOf vis module parent) := by
  mvcgen [visibilityOf]
  simp_all

@[spec] theorem keeps_requirePrerun (ty : Ty) (place : PrerunPlace) (range : Span) :
    w.Keeps (requirePrerun ty place range) := by
  mvcgen [requirePrerun] <;> simp_all

theorem defines_globalValue {w : TypeSetting} {id : EntityId} {d : GlobalDecl} (hw : w.Sound)
    (ht : w.CoversAll view (typeUses need phase d.type))
    (hv : w.CoversAll view (d.value.uses phase [])) :
    w.Defines id (globalValue view id d) (·.isCallable = false) := by
  have hvalue := keeps_declaredValue hw ht hv
  mvcgen [globalValue, hvalue] <;> simp_all

theorem defines_prerunGlobal {id : EntityId} {d : PrerunGlobalDecl} (hw : w.Sound)
    (ht : w.CoversAll view (typeUses need phase d.type))
    (hv : w.CoversAll view (d.value.uses phase [])) :
    w.Defines id (prerunGlobal view id d) (·.isCallable = false) := by
  have hvalue := keeps_declaredValue hw ht hv
  mvcgen [prerunGlobal, hvalue]
  simp_all

theorem gives_prerunArg {a : Argument} (function : Ident) (hw : w.Sound)
    (ha : w.CoversAll view (typeUses need phase a.type)) :
    w.Gives (prerunArg view function a) fun arg => arg.name = a.name := by
  have hty {ty : TypeExpr} (h : a.type = some ty) : w.Keeps (resolveType view ty) := by
    rw [h] at ha
    exact keeps_resolveType hw ha
  mvcgen [prerunArg, hty] <;> simp_all

theorem keeps_prerunResult {result : Option TypeExpr} (function : Ident) (hw : w.Sound)
    (hr : w.CoversAll view (typeUses need phase result)) :
    w.Keeps (prerunResult view function result) := by
  cases result with
  | none => mvcgen [prerunResult]
  | some e =>
    have hty := keeps_resolveType hw hr
    mvcgen [prerunResult, hty]

theorem argNames_eq {params : List Argument} {args : List PrerunArg}
    (h : List.Forall₂ (fun a arg => arg.name = a.name) params args) :
    args.map (·.name.text) = argNames params := by
  induction h with
  | nil => rfl
  | cons h _ ih => simp only [argNames, List.map_cons, h] at ih ⊢; rw [ih]

theorem defines_prerunFunction {id : EntityId} {d : PrerunFunctionDecl} (range : Span)
    (hw : w.Sound) (ha : w.CoversAll view (argsUses need phase d.args))
    (hr : w.CoversAll view (typeUses need phase d.result)) :
    w.Defines id (prerunFunction view id d range) (d.Becomes view.module) := by
  have hargs := gives_mapM fun a hmem =>
    gives_prerunArg d.name hw (coversAll_flatMap.mp ha a hmem)
  have hresult := keeps_prerunResult d.name hw hr
  unfold prerunFunction
  refine Triple.bind _ _ (keeps_checkUnique "Argument" _) fun _ => ?_
  refine Triple.bind _ _ hargs fun args => ?_
  mvcgen [hresult]
  case vc1.pre h => exact h.1
  case vc4 h _ _ _ _ _ => exact fun _ _ _ => ⟨_, rfl, rfl, argNames_eq h.2, rfl⟩

/-! ## Members -/

theorem keeps_fieldArg {a : Argument} (parent : Ty) (kind : MemberKind) (hw : w.Sound)
    (ha : w.CoversAll view (typeUses need phase a.type)) :
    w.Keeps (fieldArg view parent kind a) := by
  have hty {ty : TypeExpr} (h : a.type = some ty) : w.Keeps (resolveType view ty) := by
    rw [h] at ha
    exact keeps_resolveType hw ha
  mvcgen [fieldArg, hty] <;> simp_all

theorem keeps_memberArg {a : Argument} (parent : Ty) (kind : MemberKind) (hw : w.Sound)
    (ha : w.CoversAll view (typeUses need phase a.type)) :
    w.Keeps (memberArg view parent kind a) := by
  have hfield := keeps_fieldArg parent kind hw ha
  have hty {ty : TypeExpr} (h : a.type = some ty) : w.Keeps (resolveType view ty) := by
    rw [h] at ha
    exact keeps_resolveType hw ha
  mvcgen [memberArg, hfield, hty] <;> simp_all

@[spec] theorem keeps_otherArg (parent : Ty) (kind : MemberKind) (range : Span) :
    w.Keeps (otherArg parent kind range) := by
  mvcgen [otherArg]

theorem keeps_memberResult {d : MemberDecl} (kind : MemberKind) (hw : w.Sound)
    (hr : w.CoversAll view (typeUses need phase d.result)) :
    w.Keeps (memberResult view kind d) := by
  have hresult := keeps_resultTypeOf hw hr
  have hty {ty : TypeExpr} (h : d.result = some ty) : w.Keeps (resolveType view ty) := by
    rw [h] at hr
    exact keeps_resolveType hw hr
  mvcgen [memberResult, hresult, hty] <;> simp_all

@[spec] theorem keeps_checkArity (parent : Ty) (kind : MemberKind) (d : MemberDecl) :
    w.Keeps (checkArity parent kind d) := by
  mvcgen [checkArity] <;> simp_all

@[spec] theorem keeps_checkClash (m : MemberFunction) : w.Keeps (checkClash m) := by
  mvcgen [checkClash] <;> simp_all

/-- The type of the parameter for the instance of a member, if there is one. -/
def selfTypes (parent : Ty) (kind : MemberKind) : Emit (List Ty) := do
  if kind.hasSelf then return [← intern (.markTo parent kind.isVariation)] else return []

/-- The function of a member of which the arguments and the result are known. -/
def memberFunction (view : Viewpoint) (parent : Ty) (owner : String) (position : Nat)
    (d : MemberDecl) (args : List MemberArg) (result : Ty) (self : List Ty) :
    Emit MemberFunction := do
  let function ← addFunction (.ofSignature s!"{owner}'{d.form.name}.{position}"
    (self ++ args.map MemberArg.type) result)
  let vis := (← modules).visibility d.vis view.module (some parent)
  let m : MemberFunction :=
    ⟨d.form.kind, d.form.name, function, parent, args, result, vis, d.range⟩
  checkClash m
  return m

theorem memberPrototype_eq (view : Viewpoint) (parent : Ty) (owner : String) (position : Nat)
    (d : MemberDecl) : memberPrototype view parent owner position d = (do
      checkArity parent d.form.kind d
      checkUnique "Argument" (d.args.map Argument.name)
      let args ← d.args.mapM (memberArg view parent d.form.kind)
      let other ← otherArg parent d.form.kind d.range
      let result ← memberResult view d.form.kind d
      let self ← selfTypes parent d.form.kind
      memberFunction view parent owner position d (args ++ other) result self) := by
  unfold memberPrototype selfTypes
  by_cases hself : d.form.kind.hasSelf = true
  · simp only [if_pos hself]
    rfl
  · simp only [if_neg hself]
    rfl

theorem keeps_memberPrototype {w : TypeSetting} {d : MemberDecl} (parent : Ty) (owner : String)
    (position : Nat) (hw : w.Sound) (ha : w.CoversAll view (argsUses need phase d.args))
    (hr : w.CoversAll view (typeUses need phase d.result)) :
    w.Keeps (memberPrototype view parent owner position d) := by
  have hargs := keeps_mapM fun a hmem =>
    keeps_memberArg parent d.form.kind hw (coversAll_flatMap.mp ha a hmem)
  have hresult := keeps_memberResult d.form.kind hw hr
  unfold memberPrototype
  refine (keeps_checkArity parent d.form.kind d).bind fun _ => ?_
  refine (keeps_checkUnique "Argument" _).bind fun _ => ?_
  refine hargs.bind fun args => ?_
  mvcgen [hresult] <;> simp_all

theorem keeps_memberPrototypes {w : TypeSetting} {add : MemberFunction → Emit Unit} (parent : Ty)
    (owner : String) (hw : w.Sound) (hadd : ∀ m, w.Keeps (add m)) :
    ∀ (position : Nat) (ds : List MemberDecl),
      (∀ d ∈ ds, w.CoversAll view (argsUses need phase d.args ++ typeUses need phase d.result)) →
      w.Keeps (memberPrototypes view parent owner add position ds)
  | _, [], _ => by mvcgen [memberPrototypes]
  | position, d :: ds, hd => by
    have hfirst := w.coversAll_append.mp (hd d List.mem_cons_self)
    have hmember := keeps_memberPrototype parent owner position hw hfirst.1 hfirst.2
    have hrest := keeps_memberPrototypes parent owner hw hadd (position + 1) ds fun x hx =>
      hd x (List.mem_cons_of_mem d hx)
    mvcgen [memberPrototypes, hmember, hadd, hrest]

/-! ## Types -/

theorem defines_defineType (id : EntityId) {add : TypeTable → TypeTable × Ty}
    (hadd : ∀ c, w.code c → w.code { c with types := (add c.types).1 }) :
    w.Defines id (defineType id add) (·.isCallable = false) := by
  mvcgen [defineType]
  rename_i h _
  exact ⟨h.1, h.2.1, hadd _ h.2.2⟩

theorem keeps_modifyTypes {f : TypeTable → TypeTable}
    (hf : ∀ c, w.code c → w.code { c with types := f c.types }) : w.Keeps (modifyTypes f) := by
  mvcgen [modifyTypes]
  rename_i h _
  exact ⟨h.1, h.2.1, hf _ h.2.2⟩

@[spec] theorem keeps_typeSymbol {id : EntityId} (range : Span)
    (hid : w.outer.symbols.lookup id = none → w.blames id) : w.Keeps (typeSymbol id range) := by
  mvcgen [typeSymbol] <;> simp_all

theorem defines_structSkeleton (view : Viewpoint) (id : EntityId) (d : StructDecl)
    (hadd : ∀ k : StructDef, k.fields? = none → ∀ c, w.code c →
      w.code { c with types := (c.types.addStruct k).1 }) :
    w.Defines id (structSkeleton view id d) (·.isCallable = false) := by
  unfold structSkeleton
  refine Triple.bind _ _ (keeps_fullNameOf _ _) fun name => ?_
  refine Triple.bind _ _ (keeps_visibilityOf _ _ _) fun vis => ?_
  exact defines_defineType id (hadd _ rfl)

theorem keeps_structField {f : FieldDecl} (type : Ty) (owner : Ident) (hw : w.Sound)
    (hf : w.CoversAll view (f.type.uses phase [] need)) :
    w.Keeps (structField view type owner f) := by
  have hty := keeps_resolveType hw hf
  mvcgen [structField, hty] <;> simp_all

theorem keeps_structFields (type : Ty) (owner : Ident) (hw : w.Sound) :
    ∀ (done : List FieldDef) (fs : List FieldDecl),
      (∀ f ∈ fs, w.CoversAll view (f.type.uses phase [] need)) →
      w.Keeps (structFields view type owner done fs)
  | _, [], _ => by mvcgen [structFields]
  | done, f :: fs, hf => by
    have hfirst := keeps_structField type owner hw (hf f List.mem_cons_self)
    have hrest (done : List FieldDef) := keeps_structFields type owner hw done fs fun x hx =>
      hf x (List.mem_cons_of_mem f hx)
    mvcgen [structFields, hfirst, hrest] <;> simp_all

theorem keeps_structLayout {w : FreeSetting} {id : EntityId} {d : StructDecl} {needs : Need}
    (hw : w.Sound) (hid : w.outer.symbols.lookup id = none → w.blames id)
    (hf : ∀ f ∈ d.fields, w.CoversAll view (f.type.uses phase [] need))
    (hm : ∀ ty, ∀ m ∈ d.members, w.CoversAll { view with memberOf := some ty }
      (argsUses needs phase m.args ++ typeUses needs phase m.result)) :
    w.Keeps (structLayout view id d) := by
  have hfields (type : Ty) := keeps_structFields type d.name hw [] d.fields hf
  have hmembers (ty : Ty) (owner : String) (add : MemberFunction → Emit Unit)
      (hadd : ∀ m, w.Keeps (add m)) :=
    keeps_memberPrototypes ty owner hw hadd 0 d.members (hm ty)
  have hmodify (f : TypeTable → TypeTable) : w.Keeps (modifyTypes f) :=
    keeps_modifyTypes fun _ _ => w.code_all _
  mvcgen [structLayout, hfields, hmembers, hmodify]
  simp_all

theorem defines_mixSkeleton (view : Viewpoint) (id : EntityId) (d : MixDecl)
    (hadd : ∀ k : MixDef, k.variants? = none → ∀ c, w.code c →
      w.code { c with types := (c.types.addMix k).1 }) :
    w.Defines id (mixSkeleton view id d) (·.isCallable = false) := by
  unfold mixSkeleton
  refine Triple.bind _ _ (keeps_fullNameOf _ _) fun name => ?_
  refine Triple.bind _ _ (keeps_visibilityOf _ _ _) fun vis => ?_
  exact defines_defineType id (hadd _ rfl)

theorem keeps_mixPayload {payload : TypeExpr} (type : Ty) (variant : Ident) (hw : w.Sound)
    (hp : w.CoversAll view (payload.uses phase [] need)) :
    w.Keeps (mixPayload view type variant payload) := by
  have hty := keeps_resolveType hw hp
  mvcgen [mixPayload, hty]
  simp_all

theorem keeps_mixVariantList (type : Ty) (owner : Ident) (hw : w.Sound) :
    ∀ (done : List MixVariant) (vs : List MixVariantDecl),
      (∀ v ∈ vs, w.CoversAll view (typeUses need phase v.payload)) →
      w.Keeps (mixVariantList view type owner done vs)
  | _, [], _ => by mvcgen [mixVariantList]
  | done, v :: vs, hv => by
    have hfirst {ty : TypeExpr} (h : v.payload = some ty) :
        w.Keeps (mixPayload view type v.name ty) := by
      have hpayload := hv v List.mem_cons_self
      rw [h] at hpayload
      exact keeps_mixPayload type v.name hw hpayload
    have hrest (done : List MixVariant) := keeps_mixVariantList type owner hw done vs fun x hx =>
      hv x (List.mem_cons_of_mem v hx)
    mvcgen [mixVariantList, hfirst, hrest] <;> simp_all

@[spec] theorem keeps_mixDefault (owner : Ident) (variants : List MixVariant)
    (name : Option Ident) : w.Keeps (mixDefault owner variants name) := by
  mvcgen [mixDefault] <;> simp_all

theorem keeps_mixVariants {w : FreeSetting} {id : EntityId} {d : MixDecl} (hw : w.Sound)
    (hid : w.outer.symbols.lookup id = none → w.blames id)
    (hv : ∀ v ∈ d.variants, w.CoversAll view (typeUses need phase v.payload)) :
    w.Keeps (mixVariants view id d) := by
  have hvariants (type : Ty) := keeps_mixVariantList type d.name hw [] d.variants hv
  have hmodify (f : TypeTable → TypeTable) : w.Keeps (modifyTypes f) :=
    keeps_modifyTypes fun _ _ => w.code_all _
  mvcgen [mixVariants, hvariants, hmodify]
  simp_all

theorem keeps_choiceUnderlying {ty : Option TypeExpr} (hw : w.Sound)
    (hu : w.CoversAll view (typeUses need phase ty)) : w.Keeps (choiceUnderlying view ty) := by
  cases ty with
  | none => mvcgen [choiceUnderlying]
  | some e =>
    have hty := keeps_resolveType hw hu
    mvcgen [choiceUnderlying, hty]
    simp_all

theorem keeps_writtenNumber {v : ChoiceVariantDecl} (expected : Option Ty) (hw : w.Sound)
    (hv : w.CoversAll view (optionUses phase [] v.value)) :
    w.Keeps (writtenNumber view expected v) := by
  have hvalue {e : Expr} (h : v.value = some e) : w.Keeps (evaluate view e expected) := by
    rw [h, optionUses] at hv
    exact keeps_evaluate hw hv expected
  mvcgen [writtenNumber, hvalue]
  simp_all

@[spec] theorem keeps_numberType (underlying : Option (Ty × IntInfo))
    (variants : List ChoiceVariantDecl) (values : List Int) :
    w.Keeps (numberType underlying variants values) := by
  mvcgen [numberType] <;> simp_all

@[spec] theorem keeps_choiceDefault (d : ChoiceDecl) : w.Keeps (choiceDefault d) := by
  mvcgen [choiceDefault]
  simp_all

theorem defines_choiceType {w : FreeSetting} {id : EntityId} {d : ChoiceDecl} (hw : w.Sound)
    (hu : w.CoversAll view (typeUses need phase d.underlying))
    (hv : ∀ v ∈ d.variants, w.CoversAll view (optionUses phase [] v.value)) :
    w.Defines id (choiceType view id d) (·.isCallable = false) := by
  have hwritten := keeps_choiceUnderlying hw hu
  have hnumbers (expected : Option Ty) := keeps_mapM fun v hmem =>
    keeps_writtenNumber expected hw (hv v hmem)
  unfold choiceType
  refine Triple.bind _ _ hwritten fun written => ?_
  refine Triple.bind _ _ (hnumbers _) fun numbers => ?_
  have hdefine (add : TypeTable → TypeTable × Ty) : w.Defines id (defineType id add)
      (·.isCallable = false) := defines_defineType id fun _ _ => w.code_all _
  mvcgen [hdefine] <;> simp_all

theorem defines_typeDefinition {id : EntityId} {d : TypeDecl} (hw : w.Sound)
    (hu : w.CoversAll view (d.type.uses phase [] need)) :
    w.Defines id (typeDefinition view id d) (·.isCallable = false) := by
  have hty := keeps_resolveType hw hu
  mvcgen [typeDefinition, hty]
  simp_all

theorem keeps_checkTypeDefinition {id : EntityId} (d : TypeDecl)
    (hid : w.outer.symbols.lookup id = none → w.blames id) :
    w.Keeps (checkTypeDefinition id d) := by
  mvcgen [checkTypeDefinition]

/-! ## Skills -/

theorem keeps_skillPrototype {p : PrototypeDecl} (skill : Ident) (hw : w.Sound)
    (ha : w.CoversAll view (argsUses need phase p.args))
    (hr : w.CoversAll view (typeUses need phase p.result)) :
    w.Keeps (skillPrototype view skill p) := by
  have hparams := keeps_paramTypes (.skillMethod p.name.text skill.text) hw ha
  have hresult := keeps_resultTypeOf hw hr
  mvcgen [skillPrototype, hparams, hresult]

theorem defines_skillType {id : EntityId} {d : SkillDecl} (hw : w.Sound)
    (hp : ∀ p ∈ d.prototypes,
      w.CoversAll view (argsUses need phase p.args ++ typeUses need phase p.result))
    (hadd : ∀ k c, w.code c → w.code { c with types := (c.types.addSkill k).1 }) :
    w.Defines id (skillType view id d) (·.isCallable = false) := by
  have hprototypes := keeps_mapM fun p hmem =>
    keeps_skillPrototype d.name hw (w.coversAll_append.mp (hp p hmem)).1
      (w.coversAll_append.mp (hp p hmem)).2
  unfold skillType
  refine Triple.bind _ _ (keeps_checkUnique "Method" _) fun _ => ?_
  refine Triple.bind _ _ hprototypes fun prototypes => ?_
  mvcgen
  rename_i h _
  exact ⟨h.1, h.2.1, hadd _ _ h.2.2⟩

theorem keeps_skillTarget {d : DoSkillDecl} (hw : w.Sound)
    (ht : w.CoversAll view (d.target.uses phase [] need)) : w.Keeps (skillTarget view d) := by
  have hty := keeps_resolveType hw ht
  mvcgen [skillTarget, hty]
  simp_all

theorem keeps_skillNamed {name : Option QName}
    (hn : w.CoversAll view ((name.map (·.uses phase [] need)).getD [])) :
    w.Keeps (skillNamed view name) := by
  have hfinds {n : QName} (h : name = some n) : w.Finds view n := by
    subst h
    refine (hn _ (List.mem_singleton.mpr rfl)).finds ?_
    simp only [Use.isLocal, QName.headIn_nil, Bool.and_false]
  mvcgen [skillNamed]
  case vc6.hid hname _ _ _ _ _ _ _ _ hi => exact (hfinds hname).serves hi.2
  all_goals simp_all

theorem keeps_checkProvided (skill : SkillDef) (target : Ty) (members : List MemberFunction)
    (range : Span) :
    ∀ ps : List SkillPrototype, w.Keeps (checkProvided skill target members range ps)
  | [] => by mvcgen [checkProvided]
  | p :: ps => by
    have hrest := keeps_checkProvided skill target members range ps
    mvcgen [checkProvided, hrest] <;> simp_all

end Emit

namespace Setting

variable {w : Setting} {id : EntityId} {y : Symbol}

theorem lookup_of_define {j : EntityId}
    (h : (w.define id y).outer.symbols.lookup j = none) : w.outer.symbols.lookup j = none := by
  simp only [define, List.lookup_cons] at h
  split at h
  · cases h
  · exact h

theorem CoversAll.define {view : Viewpoint} {us : List Use} (hc : w.CoversAll view us) :
    (w.define id y).CoversAll view us :=
  fun u hu z hz hn => hc u hu z hz (lookup_of_define hn)

theorem Sound.define (hw : w.Sound) (hy : y.isCallable = false) : (w.define id y).Sound := by
  intro f hf
  suffices w.Callable f from ⟨(hw f this).1.define, (hw f this).2.1.define, (hw f this).2.2⟩
  obtain ⟨j, hj⟩ := hf
  simp only [Setting.define, List.lookup_cons] at hj
  split at hj
  · cases hj
    cases hy
  · exact ⟨j, hj⟩

end Setting

namespace Emit

variable {w : Setting} {view : Viewpoint} {phase : Phase} {need : Need}

theorem loosely {α : Type} {a : Emit α} {Q : α → Compiler → Prop}
    (h : ⦃fun _ s => ⌜w.Holds s⌝⦄ a
      ⦃post⟨fun v _ s => ⌜Q v s⌝, fun f s => ⌜s.outer = w.outer ∧ w.Allows f ∧ w.code s.core⌝⟩⦄) :
    ⦃fun _ s => ⌜w.Holds s⌝⦄ a
    ⦃post⟨fun v _ s => ⌜Q v s⌝,
      fun f s => ⌜s.outer.modules = w.outer.modules ∧ w.Allows f ∧ w.code s.core⌝⟩⦄ := by
  refine triple_iff.mpr fun o s hs => ?_
  have := triple_iff.mp h o s hs
  cases hr : a o s <;> rw [hr] at this
  · exact this
  · exact ⟨congrArg Outer.modules this.1, this.2⟩

theorem defines_of_keeps {w : TypeSetting} {a : Emit Unit} {id : EntityId} {y : Symbol}
    (hy : y.isCallable = false) (h : (w.define id y).Keeps a) :
    ⦃fun _ s => ⌜(w.define id y).Holds s⌝⦄ a
    ⦃post⟨fun _ _ s => ⌜∃ y, y.isCallable = false ∧ (w.define id y).Holds s⌝,
      fun f s => ⌜s.outer.modules = w.outer.modules ∧ w.Allows f ∧ w.code s.core⌝⟩⦄ := by
  refine triple_iff.mpr fun o s hs => ?_
  have := triple_iff.mp h o s hs
  cases hr : a o s <;> rw [hr] at this
  · exact ⟨y, hy, this⟩
  · exact ⟨by rw [this.1]; rfl, this.2⟩

/-- The members of an implementation are declared once it has its symbol, so a failure may
come after that. -/
theorem defines_donePrototypes {w : TypeSetting} {id : EntityId} {d : DoSkillDecl}
    {needs : Need} (hw : w.Sound)
    (hs : w.CoversAll view ((d.skill.map (·.uses phase [] need)).getD []))
    (ht : w.CoversAll view (d.target.uses phase [] need))
    (hm : ∀ ty, ∀ m ∈ d.members, w.CoversAll { view with memberOf := some ty }
      (argsUses needs phase m.args ++ typeUses needs phase m.result))
    (hdone : ∀ k c, w.code c → w.code { c with types := (c.types.addDone k).1 })
    (hmember : ∀ done m c, w.code c → w.code { c with
      types := c.types.modifyDone done fun s => { s with members := s.members ++ [m] } }) :
    ⦃fun _ s => ⌜w.Holds s⌝⦄ donePrototypes view id d
    ⦃post⟨fun _ _ s => ⌜∃ y, y.isCallable = false ∧ (w.define id y).Holds s⌝,
      fun f s => ⌜s.outer.modules = w.outer.modules ∧ w.Allows f ∧ w.code s.core⌝⟩⦄ := by
  have hadd (target : Ty) (skillId : Option SkillId) : w.Keeps (modifyGet fun s =>
      ((s.types.addDone ⟨skillId, target, view.module, [], d.range⟩).2, { s with
        types := (s.types.addDone ⟨skillId, target, view.module, [], d.range⟩).1 })) := by
    mvcgen
    rename_i h _
    exact ⟨h.1, h.2.1, hdone _ _ h.2.2⟩
  unfold donePrototypes
  refine Triple.bind _ _ (loosely (keeps_skillTarget hw ht)) fun target => ?_
  refine Triple.bind _ _ (loosely (keeps_skillNamed hs)) fun skillId => ?_
  refine Triple.bind _ _ (loosely (hadd target skillId)) fun done => ?_
  refine Triple.bind _ _ (loosely (holds_setSymbol id (.doneSkill done))) fun _ => ?_
  have hmembers (owner : String) (add : MemberFunction → Emit Unit)
      (hadd : ∀ m, (w.define id (.doneSkill done)).Keeps (add m)) :=
    @keeps_memberPrototypes _ _ _ (w.define id (.doneSkill done)) add target owner
      (hw.define rfl) hadd 0 d.members fun m hmem => (hm target m hmem).define
  have hmodify (m : MemberFunction) := @keeps_modifyTypes (w.define id (.doneSkill done)).toSetting
    (·.modifyDone done fun s => { s with members := s.members ++ [m] }) (hmember done m)
  refine defines_of_keeps rfl ?_
  mvcgen [hmembers, hmodify, keeps_checkProvided]

/-! ## Bodies -/

variable {w : TypeSetting}

@[spec] theorem keeps_bindParam (name : Ident) (r : Ir.Register) (ty : Ty) (isVar : Bool) :
    w.Keeps (bindParam name r ty isVar) := by
  mvcgen [bindParam]

theorem keeps_bindParams :
    ∀ (args : List Argument) (rs : List Ir.Register), w.Keeps (bindParams args rs)
  | [], _ | _ :: _, [] => by mvcgen [bindParams]
  | _ :: args, _ :: rs => by
    have hrest := keeps_bindParams args rs
    mvcgen [bindParams, hrest]

theorem keeps_functionBody {id : EntityId} (view : Viewpoint) (d : FunctionDecl) (range : Span)
    (hw : w.Open) (hs : ∀ e, w.strays e) (hid : w.outer.symbols.lookup id = none → w.blames id) :
    w.Keeps (functionBody view id d range) := by
  mvcgen [functionBody, keeps_bindParams, keeps_lowerSentences] <;> simp_all

@[spec] theorem keeps_splitParams (m : MemberFunction) (params : List Ir.Register) :
    w.Keeps (splitParams m params) := by
  mvcgen [splitParams]
  simp_all

theorem keeps_bindMemberArgs (parent : Ty) (self : Option Instance) :
    ∀ (args : List MemberArg) (rs : List Ir.Register),
      w.Keeps (bindMemberArgs parent self args rs)
  | [], _ | _ :: _, [] => by mvcgen [bindMemberArgs]
  | _ :: args, _ :: rs => by
    have hrest := keeps_bindMemberArgs parent self args rs
    mvcgen [bindMemberArgs, hrest]

@[spec] theorem keeps_memberBody (module : ModId) (m : MemberFunction) (d : MemberDecl)
    (hw : w.Open) (hs : ∀ e, w.strays e) : w.Keeps (memberBody module m d) := by
  mvcgen [memberBody, keeps_bindMemberArgs, keeps_lowerSentences]

theorem keeps_memberBodies (module : ModId) (hw : w.Open) (hs : ∀ e, w.strays e) :
    ∀ (ms : List MemberFunction) (ds : List MemberDecl), w.Keeps (memberBodies module ms ds)
  | [], _ | _ :: _, [] => by mvcgen [memberBodies]
  | _ :: ms, _ :: ds => by
    have hrest := keeps_memberBodies module hw hs ms ds
    mvcgen [memberBodies, hrest]

theorem keeps_structBodies {id : EntityId} (view : Viewpoint) (d : StructDecl) (hw : w.Open)
    (hs : ∀ e, w.strays e) (hid : w.outer.symbols.lookup id = none → w.blames id) :
    w.Keeps (structBodies view id d) := by
  mvcgen [structBodies, keeps_memberBodies] <;> simp_all

theorem keeps_doneBodies {id : EntityId} (view : Viewpoint) (d : DoSkillDecl) (hw : w.Open)
    (hs : ∀ e, w.strays e) (hid : w.outer.symbols.lookup id = none → w.blames id) :
    w.Keeps (doneBodies view id d) := by
  mvcgen [doneBodies, keeps_memberBodies] <;> simp_all

end Emit

/-! ## Phases -/

/-- What a declaration in a module becomes in its first phase. -/
def DeclBody.Becomes (module : ModId) : DeclBody → Symbol → Prop
  | .prerunFunction d, y => d.Becomes module y
  | _, y => y.isCallable = false

namespace Setting

/-- What is collected for a phase or an earlier one may be asked for. -/
def CoversBy (w : Setting) (view : Viewpoint) (phase : Phase) (us : List Use) : Prop :=
  ∀ u ∈ us, u.phase.le phase = true → w.Covers view u

variable {w : Setting} {view : Viewpoint} {phase : Phase}

theorem coversBy_append {us vs : List Use} :
    w.CoversBy view phase (us ++ vs) ↔ w.CoversBy view phase us ∧ w.CoversBy view phase vs :=
  List.forall_mem_append

theorem CoversBy.flatMap {α : Type} {as : List α} {f : α → List Use}
    (h : w.CoversBy view phase (as.flatMap f)) (a : α) (ha : a ∈ as) :
    w.CoversBy view phase (f a) :=
  fun u hu => h u (List.mem_flatMap.mpr ⟨a, ha, hu⟩)

theorem CoversBy.all {q : Phase} {us : List Use} (h : w.CoversBy view phase us)
    (hat : AllAt q us) (hq : q.le phase = true) : w.CoversAll view us :=
  fun u hu => h u hu (by rw [hat u hu]; exact hq)

/-- Inside a member of a type, a use means what it means outside. -/
theorem CoversAll.memberOf {P : Item → Prop} {us : List Use} (ht : w.outer.modules.Fits P)
    (h : w.CoversAll view us) (ty : Ty) : w.CoversAll { view with memberOf := some ty } us := by
  intro u hu
  unfold Covers
  rw [ht.meant?_congr (show Viewpoint.module { view with memberOf := some ty } = view.module
    from rfl)]
  exact h u hu

/-- The signatures of members are collected for the phase that declares them. -/
theorem CoversBy.members {q : Phase} {ms : List MemberDecl} {P : Item → Prop}
    (ht : w.outer.modules.Fits P) (h : w.CoversBy view phase (membersUses q ms))
    (hq : q.le phase = true) (ty : Ty) (m : MemberDecl) (hm : m ∈ ms) :
    w.CoversAll { view with memberOf := some ty }
      (argsUses .partially q m.args ++ typeUses .partially q m.result) := by
  refine CoversAll.memberOf ht (CoversBy.all ?_ (q := q) ?_ hq) ty
  · exact (coversBy_append.mp h).1.flatMap m hm
  · exact allAt_append.mpr ⟨allAt_argsUses q .partially m.args, allAt_typeUses q .partially m.result⟩

end Setting

namespace Emit

variable {w : FreeSetting} {view : Viewpoint}

/-- The first phase of a declaration that is no bring gives it what it becomes. -/
theorem defines_phaseOf {P : Item → Prop} {id : EntityId} {d : EntityDecl} (hw : w.Sound)
    (ht : w.outer.modules.Fits P) (hb : d.body.kind ≠ .bring)
    (hu : w.CoversBy view d.body.kind.firstPhase d.body.uses) :
    ⦃fun _ s => ⌜w.Holds s⌝⦄ phaseOf view id d d.body.kind.firstPhase
    ⦃post⟨fun _ _ s => ⌜∃ y, d.body.Becomes view.module y ∧ (w.define id y).Holds s⌝,
      fun f s => ⌜s.outer.modules = w.outer.modules ∧ w.Allows f ∧ w.code s.core⌝⟩⦄ := by
  obtain ⟨body, guard, range⟩ := d
  simp only [DeclBody.uses] at hu
  cases body with
  | function f =>
    rw [Setting.coversBy_append, Setting.coversBy_append] at hu
    exact loosely (defines_functionPrototype range hw (hu.1.1.all (allAt_argsUses _ _ _) rfl)
      (hu.1.2.all (allAt_typeUses _ _ _) rfl))
  | struct s => exact loosely (defines_structSkeleton view id s fun _ _ _ _ => w.code_all _)
  | mix m => exact loosely (defines_mixSkeleton view id m fun _ _ _ _ => w.code_all _)
  | choice c =>
    rw [Setting.coversBy_append] at hu
    exact loosely (defines_choiceType hw (hu.1.all (allAt_typeUses _ _ _) rfl) fun v hv =>
      (hu.2.flatMap v hv).all (allAt_optionUses _ _ _) rfl)
  | global g =>
    rw [Setting.coversBy_append] at hu
    exact loosely (defines_globalValue hw (hu.1.all (allAt_typeUses _ _ _) rfl)
      (hu.2.all (g.value.allAt_uses _ _) rfl))
  | prerunGlobal g =>
    rw [Setting.coversBy_append] at hu
    exact loosely (defines_prerunGlobal hw (hu.1.all (allAt_typeUses _ _ _) rfl)
      (hu.2.all (g.value.allAt_uses _ _) rfl))
  | prerunFunction f =>
    rw [Setting.coversBy_append, Setting.coversBy_append] at hu
    exact loosely (defines_prerunFunction range hw (hu.1.1.all (allAt_argsUses _ _ _) rfl)
      (hu.1.2.all (allAt_typeUses _ _ _) rfl))
  | typeDef t =>
    rw [Setting.coversBy_append] at hu
    exact loosely (defines_typeDefinition hw (hu.1.all (t.type.allAt_uses _ _ _) rfl))
  | skill s =>
    refine loosely (defines_skillType hw (fun p hp => (hu.flatMap p hp).all (q := .one) ?_ rfl)
      fun _ _ _ => w.code_all _)
    exact allAt_append.mpr ⟨allAt_argsUses _ _ _, allAt_typeUses _ _ _⟩
  | doSkill s =>
    rw [Setting.coversBy_append, Setting.coversBy_append] at hu
    have hskill : AllAt .two ((s.skill.map (·.uses .two [] .complete)).getD []) := by
      cases s.skill with
      | none => exact allAt_nil .two
      | some n => exact n.allAt_uses .two [] .complete
    exact defines_donePrototypes hw (hu.1.1.all hskill rfl)
      (hu.1.2.all (s.target.allAt_uses _ _ _) rfl) (hu.2.members ht rfl) (fun _ _ _ => w.code_all _) fun _ _ _ _ => w.code_all _
  | bring b => exact absurd rfl hb

/-- The phases after the first one change nothing that lowering reads. -/
theorem keeps_phaseOf {P : Item → Prop} {id : EntityId} {d : EntityDecl} {phase : Phase}
    (hw : w.Sound) (ht : w.outer.modules.Fits P) (hp : phase ∈ d.body.kind.schedule.2)
    (hid : w.outer.symbols.lookup id = none → w.blames id)
    (hu : w.CoversBy view phase d.body.uses) (hopen : phase = .three → w.Open)
    (hs : ∀ e, w.strays e) :
    w.Keeps (phaseOf view id d phase) := by
  obtain ⟨body, guard, range⟩ := d
  simp only [DeclBody.uses] at hu
  cases body with
  | function f =>
    cases List.mem_singleton.mp hp
    exact keeps_functionBody view f range (hopen rfl) hs hid
  | struct s =>
    rcases List.mem_pair.mp hp with rfl | rfl
    · rw [Setting.coversBy_append] at hu
      exact keeps_structLayout hw hid
        (fun f hf => (hu.1.flatMap f hf).all (f.type.allAt_uses _ _ _) rfl) (hu.2.members ht rfl)
    · exact keeps_structBodies view s (hopen rfl) hs hid
  | mix m =>
    cases List.mem_singleton.mp hp
    exact keeps_mixVariants hw hid fun v hv => (hu.flatMap v hv).all (allAt_typeUses _ _ _) rfl
  | typeDef t =>
    cases List.mem_singleton.mp hp
    exact keeps_checkTypeDefinition t hid
  | doSkill s =>
    cases List.mem_singleton.mp hp
    exact keeps_doneBodies view s (hopen rfl) hs hid
  | choice c | global g | prerunGlobal g | prerunFunction f | skill s | bring b =>
    exact absurd hp List.not_mem_nil

end Emit

end Staged
