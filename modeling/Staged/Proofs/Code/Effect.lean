/-
  Staged.Proofs.Code.Effect — what a phase does to the code.

  A declaration owes bodies to functions: to itself if it is a function with a body, and
  to the members it keeps (`Compiler.Owes`). The phase before the last declares these
  functions and the last one pays for them; no other phase adds a function that lacks a
  body (`Compiler.Effect`). A home is made by the first phase of one declaration, and only
  the phases of that declaration change what it keeps.
-/

import Staged.Compile
import Staged.Proofs.Code.Members
import Staged.Proofs.Compile.Gather

open Std.Do

namespace Staged

namespace DeclBody

/-- Where a declaration keeps its members, given what it has become. -/
def home? : DeclBody → Symbol → Option Home
  | .struct _, .type (.struct id) => some (.struct id)
  | .doSkill _, .doneSkill id => some (.done id)
  | _, _ => none

def function? : DeclBody → Symbol → Option Ir.FunctionId
  | .function d, .function i _ => if d.body.isSome then some i else none
  | _, _ => none

def members : DeclBody → List MemberDecl
  | .struct d => d.members
  | .doSkill d => d.members
  | _ => []

/-- A declaration that no function with a body is declared for. -/
def isQuiet : DeclBody → Bool
  | .function d => d.body.isNone
  | .struct _ | .doSkill _ => false
  | _ => true

theorem home_of_isQuiet {body : DeclBody} (h : body.isQuiet = true) (y : Symbol) :
    body.home? y = none := by
  cases body <;> first | rfl | cases h

theorem function_of_isQuiet {body : DeclBody} (h : body.isQuiet = true) (y : Symbol) :
    body.function? y = none := by
  cases body with
  | function d =>
    cases y <;> first | rfl | exact if_neg (by rw [Option.isNone_iff_eq_none.mp h]; exact Bool.false_ne_true)
  | struct d => cases h
  | doSkill d => cases h
  | _ => rfl

end DeclBody

def EntityKind.declares : EntityKind → Phase → Bool
  | .function, .one | .struct, .two | .doSkill, .two => true
  | _, _ => false

namespace Compiler

def Keeps (s : Compiler) (id : EntityId) (body : DeclBody) (w : Home) : Prop :=
  ∃ y, s.symbols.lookup id = some y ∧ body.home? y = some w

def Owes (s : Compiler) (id : EntityId) (body : DeclBody) (i : Ir.FunctionId) : Prop :=
  (∃ y, s.symbols.lookup id = some y ∧ body.function? y = some i) ∨
    ∃ w ms m, s.Keeps id body w ∧ s.types.membersAt w = some ms ∧ m ∈ ms ∧ m.function = i

structure Effect (s s' : Compiler) (id : EntityId) (body : DeclBody) (phase : Phase) : Prop where
  whole : s'.Whole
  plain : ∀ i, s.core.Plain i → s'.core.Plain i
  lacks : ∀ i, s'.core.Lacks i →
    s.core.Lacks i ∨ body.kind.declares phase = true ∧ s'.Owes id body i
  owed : ∀ i, s'.Owes id body i → s'.core.Plain i
  other : ∀ w, s.types.membersAt w ≠ none → ¬s'.Keeps id body w →
    s'.types.membersAt w = s.types.membersAt w
  kept : ∀ w, s'.Keeps id body w →
    s'.types.membersAt w ≠ none ∧ (s.Keeps id body w ∨ s.types.membersAt w = none)
  empty : phase = .one → ∀ w, s'.Keeps id body w → s'.types.membersAt w = some []
  full : phase = .two → ∀ w ms, s'.Keeps id body w → s'.types.membersAt w = some ms →
    ms.length = body.members.length
  paid : phase = .three → ∀ i, s.Owes id body i → ¬s'.core.Lacks i

structure Due (s : Compiler) (id : EntityId) (body : DeclBody) (phase : Phase) : Prop where
  whole : s.Whole
  owed : ∀ i, s.Owes id body i → s.core.Plain i
  kept : ∀ w, s.Keeps id body w → s.types.membersAt w ≠ none
  empty : phase = .two → ∀ w, s.Keeps id body w → s.types.membersAt w = some []
  full : phase = .three → ∀ w ms, s.Keeps id body w → s.types.membersAt w = some ms →
    ms.length = body.members.length

structure Quiet (s s' : Compiler) : Prop where
  whole : s'.Whole
  advances : s.core.Advances s'.core fun _ => False
  members : ∀ w, s.types.membersAt w ≠ none → s'.types.membersAt w = s.types.membersAt w

variable {s s₁ s' : Compiler} {id : EntityId} {body : DeclBody} {phase : Phase}

theorem Passes.quiet (h : s.Passes s' fun _ => False) : s.Quiet s' :=
  ⟨h.whole, h.advances, fun w _ => h.membersAt w⟩

theorem Quiet.refl (hs : s.Whole) : s.Quiet s := (Passes.refl hs).quiet

theorem Quiet.trans (h : s.Quiet s₁) (h' : s₁.Quiet s') : s.Quiet s' where
  whole := h'.whole
  advances := (h.advances.trans h'.advances).mono fun _ h => h.elim id id
  members w hw := by
    have hw' := h.members w hw
    rw [h'.members w (hw' ▸ hw), hw']

/-- An entity becomes something that refers only to what exists. -/
theorem Quiet.define (h : s.Quiet s') (id : EntityId) {y : Symbol}
    (hy : s'.core.extent.Covers y.refs) :
    s.Quiet { s' with symbols := (id, y) :: s'.symbols } where
  whole := ⟨h.whole.func, h.whole.code, fun z hz => by
    rcases List.mem_cons.mp hz with rfl | hz
    · exact hy
    · exact h.whole.symbols z hz⟩
  advances := ⟨h.advances.plain, h.advances.lacks⟩
  members := h.members

/-- Types change, but no members. -/
theorem Quiet.retype (h : s.Quiet s') {t : TypeTable}
    (hm : ∀ w, t.membersAt w = s'.types.membersAt w) : s.Quiet { s' with types := t } where
  whole := ⟨h.whole.func, { h.whole.code with
    types := TypeTable.sound_iff.mpr fun w ms hw =>
      TypeTable.sound_iff.mp h.whole.code.types w ms ((hm w).symm.trans hw) }, h.whole.symbols⟩
  advances := ⟨h.advances.plain, h.advances.lacks⟩
  members w hw := (hm w).trans (h.members w hw)

theorem not_keeps_of_isQuiet (hq : body.isQuiet = true) (w : Home) : ¬s.Keeps id body w := by
  rintro ⟨y, -, hy⟩
  rw [DeclBody.home_of_isQuiet hq] at hy
  cases hy

theorem not_owes_of_isQuiet (hq : body.isQuiet = true) (i : Ir.FunctionId) :
    ¬s.Owes id body i := by
  rintro (⟨y, -, hy⟩ | ⟨w, ms, m, hw, -⟩)
  · rw [DeclBody.function_of_isQuiet hq] at hy
    cases hy
  · exact not_keeps_of_isQuiet hq w hw

/-- The phases of most declarations are quiet. -/
theorem Quiet.effect (h : s.Quiet s') (hq : body.isQuiet = true) (id : EntityId) (phase : Phase) :
    s.Effect s' id body phase where
  whole := h.whole
  plain := h.advances.plain
  lacks i hi := .inl ((h.advances.lacks i hi).resolve_right not_false)
  owed i hi := absurd hi (not_owes_of_isQuiet hq i)
  other w hw _ := h.members w hw
  kept w hw := absurd hw (not_keeps_of_isQuiet hq w)
  empty _ w hw := absurd hw (not_keeps_of_isQuiet hq w)
  full _ w _ hw := absurd hw (not_keeps_of_isQuiet hq w)
  paid _ i hi := absurd hi (not_owes_of_isQuiet hq i)

variable {new : Ir.FunctionId → Prop}

theorem Passes.keeps_iff (h : s.Passes s' new) {w : Home} :
    s'.Keeps id body w ↔ s.Keeps id body w := by
  unfold Keeps
  rw [h.symbols]

theorem Passes.owes_iff (h : s.Passes s' new) {i : Ir.FunctionId} :
    s'.Owes id body i ↔ s.Owes id body i := by
  unfold Owes
  simp only [h.symbols, h.membersAt, h.keeps_iff]

/-- Something that passes before a phase belongs to what the phase does. -/
theorem Effect.after (h : s₁.Effect s' id body phase) (hp : s.Passes s₁ fun _ => False) :
    s.Effect s' id body phase where
  whole := h.whole
  plain i hi := h.plain i (hp.advances.plain i hi)
  lacks i hi := (h.lacks i hi).imp_left fun hi => (hp.advances.lacks i hi).resolve_right not_false
  owed := h.owed
  other w hw hn := by
    rw [← hp.membersAt w] at hw ⊢
    exact h.other w hw hn
  kept w hw := ⟨(h.kept w hw).1, (h.kept w hw).2.imp hp.keeps_iff.mp fun hn =>
    (hp.membersAt w).symm.trans hn⟩
  empty := h.empty
  full := h.full
  paid hphase i hi := h.paid hphase i (hp.owes_iff.mpr hi)

/-- So does something that passes after it. -/
theorem Effect.next (h : s.Effect s₁ id body phase) (hp : s₁.Passes s' fun _ => False) :
    s.Effect s' id body phase where
  whole := hp.whole
  plain i hi := hp.advances.plain i (h.plain i hi)
  lacks i hi := (h.lacks i ((hp.advances.lacks i hi).resolve_right not_false)).imp_right fun hi =>
    ⟨hi.1, hp.owes_iff.mpr hi.2⟩
  owed i hi := hp.advances.plain i (h.owed i (hp.owes_iff.mp hi))
  other w hw hn := (hp.membersAt w).trans (h.other w hw fun hk => hn (hp.keeps_iff.mpr hk))
  kept w hw := by
    rw [hp.membersAt]
    exact h.kept w (hp.keeps_iff.mp hw)
  empty hphase w hw := (hp.membersAt w).trans (h.empty hphase w (hp.keeps_iff.mp hw))
  full hphase w ms hw hms :=
    h.full hphase w ms (hp.keeps_iff.mp hw) ((hp.membersAt w).symm.trans hms)
  paid hphase i hi hl := h.paid hphase i hi ((hp.advances.lacks i hl).resolve_right not_false)

/-- What a phase relies on is still there after something that passes. -/
theorem Due.after (h : s.Due id body phase) (hp : s.Passes s₁ fun _ => False) :
    s₁.Due id body phase where
  whole := hp.whole
  owed i hi := hp.advances.plain i (h.owed i (hp.owes_iff.mp hi))
  kept w hw := by
    rw [hp.membersAt]
    exact h.kept w (hp.keeps_iff.mp hw)
  empty hphase w hw := by
    rw [hp.membersAt]
    exact h.empty hphase w (hp.keeps_iff.mp hw)
  full hphase w ms hw hms := by
    rw [hp.membersAt] at hms
    exact h.full hphase w ms (hp.keeps_iff.mp hw) hms

/-- The third phase declares nothing and pays what is owed. -/
theorem Due.paid (h : s.Due id body .three) (hp : s.Passes s' fun _ => False)
    (hpaid : ∀ i, s.Owes id body i → ¬s'.core.Lacks i) : s.Effect s' id body .three where
  whole := hp.whole
  plain := hp.advances.plain
  lacks i hi := .inl ((hp.advances.lacks i hi).resolve_right not_false)
  owed i hi := hp.advances.plain i (h.owed i (hp.owes_iff.mp hi))
  other w _ _ := hp.membersAt w
  kept w hw := by
    rw [hp.membersAt]
    exact ⟨h.kept w (hp.keeps_iff.mp hw), .inl (hp.keeps_iff.mp hw)⟩
  empty hphase := by cases hphase
  full hphase := by cases hphase
  paid _ := hpaid

/-- What changes neither code nor symbols passes. -/
theorem passes_of_core (hs : s.Whole) (hcore : s'.core = s.core) (hsymbols : s'.symbols = s.symbols) :
    s.Passes s' fun _ => False where
  whole := ⟨(congrArg Core.func hcore).trans hs.func, hcore ▸ hs.code,
    hsymbols ▸ hcore ▸ hs.symbols⟩
  symbols := hsymbols
  types := by
    rw [show s'.types = s.types from congrArg Core.types hcore]
    exact .refl _
  advances := hcore ▸ .refl _

end Compiler

namespace Emit

variable {α β : Type} {o : Options} {s s₀ s' : Compiler} {view : Viewpoint} {id : EntityId}
  {E : Extent} {P : Prop} {u : Unit}

/-! ## Inverting sequences -/

theorem guard_ok {c : Prop} [Decidable c] {f : Fault} {range : Span} {k : α → Emit β}
    {rest : Emit β} {v : β} (h : (if c then refuse f range >>= k else rest) o s = .ok v s') :
    rest o s = .ok v s' := by
  split at h
  · cases h
  · exact h

/-- A step of a quiet sequence. -/
theorem quiet_bind {a : Emit α} {k : α → Emit β} {Q : Extent → α → Prop} {v : β}
    (h : s₀.Quiet s) (ha : ∀ E, Emits E True a (Q E)) (hr : (a >>= k) o s = .ok v s') :
    ∃ x t, s₀.Quiet t ∧ Q t.core.extent x ∧ k x o t = .ok v s' := by
  obtain ⟨x, t, hx, hr⟩ := bind_ok hr
  obtain ⟨hpasses, hq⟩ := passes_of_emits ha h.whole hx
  exact ⟨x, t, h.trans hpasses.quiet, hq, hr⟩

/-! ## Evaluation -/

theorem emits_fullNameOf (module : ModId) (name : Ident) :
    Emits E P (fullNameOf module name) fun _ => True :=
  emits_of_keeps fun _ _ => keeps_fullNameOf module name

theorem emits_visibilityOf (vis : VisSpec) (module : ModId) (parent : Option Ty) :
    Emits E P (visibilityOf vis module parent) fun _ => True :=
  emits_of_keeps fun _ _ => keeps_visibilityOf vis module parent

theorem emits_declaredValue (view : Viewpoint) (type : Option TypeExpr) (value : Expr) :
    Emits E P (declaredValue view type value) fun _ => True :=
  emits_of_keeps fun _ hw => keeps_declaredValue hw.sound
    (hw.coversAll view (typeUses .partially .one type)) (hw.coversAll view (value.uses .one []))

theorem emits_choiceUnderlying (view : Viewpoint) (ty : Option TypeExpr) :
    Emits E P (choiceUnderlying view ty) fun _ => True :=
  emits_of_keeps fun _ hw => keeps_choiceUnderlying hw.sound
    (hw.coversAll view (typeUses .partially .one ty))

theorem emits_writtenNumbers (view : Viewpoint) (expected : Option Ty)
    (vs : List ChoiceVariantDecl) :
    Emits E P (vs.mapM (writtenNumber view expected)) fun _ => True :=
  emits_of_keeps fun _ hw => keeps_mapM fun v _ =>
    keeps_writtenNumber expected hw.sound (hw.coversAll view (optionUses .one [] v.value))

theorem emits_numberType (underlying : Option (Ty × IntInfo)) (variants : List ChoiceVariantDecl)
    (values : List Int) : Emits E P (numberType underlying variants values) fun _ => True :=
  emits_of_keeps fun _ _ => keeps_numberType underlying variants values

theorem emits_choiceDefault (d : ChoiceDecl) : Emits E P (choiceDefault d) fun _ => True :=
  emits_of_keeps fun _ _ => keeps_choiceDefault d

theorem emits_requirePrerun (ty : Ty) (place : PrerunPlace) (range : Span) :
    Emits E P (requirePrerun ty place range) fun _ => True :=
  emits_of_keeps fun _ _ => keeps_requirePrerun ty place range

theorem emits_prerunArgs (view : Viewpoint) (function : Ident) (args : List Argument) :
    Emits E P (args.mapM (prerunArg view function)) fun _ => True :=
  emits_of_keeps fun _ hw => keeps_mapM fun a _ =>
    (gives_prerunArg function hw.sound
      (hw.coversAll view (typeUses .partially .one a.type))).keeps

theorem emits_prerunResult (view : Viewpoint) (function : Ident) (result : Option TypeExpr) :
    Emits E P (prerunResult view function result) fun _ => True :=
  emits_of_keeps fun _ hw => keeps_prerunResult function hw.sound
    (hw.coversAll view (typeUses .partially .one result))

theorem emits_skillPrototypes (view : Viewpoint) (skill : Ident) (ps : List PrototypeDecl) :
    Emits E P (ps.mapM (skillPrototype view skill)) fun _ => True :=
  emits_of_keeps fun _ hw => keeps_mapM fun p _ =>
    keeps_skillPrototype skill hw.sound (hw.coversAll view (argsUses .partially .one p.args))
      (hw.coversAll view (typeUses .partially .one p.result))

theorem emits_mixVariantList (view : Viewpoint) (type : Ty) (owner : Ident)
    (vs : List MixVariantDecl) :
    Emits E P (mixVariantList view type owner [] vs) fun _ => True :=
  emits_of_keeps fun _ hw => keeps_mixVariantList type owner hw.sound [] vs fun v _ =>
    hw.coversAll view (typeUses .partially .one v.payload)

theorem emits_mixDefault (owner : Ident) (variants : List MixVariant) (name : Option Ident) :
    Emits E P (mixDefault owner variants name) fun _ => True :=
  emits_of_keeps fun _ _ => keeps_mixDefault owner variants name

theorem emits_structFields (view : Viewpoint) (type : Ty) (owner : Ident) (fs : List FieldDecl) :
    Emits E P (structFields view type owner [] fs) fun _ => True :=
  emits_of_keeps fun _ hw => keeps_structFields type owner hw.sound [] fs fun f _ =>
    hw.coversAll view (f.type.uses .one [] .partially)

theorem emits_paramTypes (view : Viewpoint) (signature : Signature) (args : List Argument) :
    Emits E P (paramTypes view signature args) fun _ => True :=
  emits_of_keeps fun _ hw => keeps_paramTypes signature hw.sound
    (hw.coversAll view (argsUses .partially .one args))

theorem emits_resultTypeOf (view : Viewpoint) (ty : Option TypeExpr) :
    Emits E P (resultTypeOf view ty) fun _ => True :=
  emits_of_keeps fun _ hw => keeps_resultTypeOf hw.sound
    (hw.coversAll view (typeUses .partially .one ty))

theorem emits_skillTarget (view : Viewpoint) (d : DoSkillDecl) :
    Emits E P (skillTarget view d) fun _ => True :=
  emits_of_keeps fun _ hw => keeps_skillTarget hw.sound
    (hw.coversAll view (d.target.uses .one [] .partially))

theorem emits_skillNamed (view : Viewpoint) (name : Option QName) :
    Emits E P (skillNamed view name) fun _ => True :=
  emits_of_keeps fun _ hw => keeps_skillNamed
    (hw.coversAll view ((name.map (·.uses .one [] .partially)).getD []))

theorem emits_checkProvided (skill : SkillDef) (target : Ty) (members : List MemberFunction)
    (range : Span) (ps : List SkillPrototype) :
    Emits E P (checkProvided skill target members range ps) fun _ => True :=
  emits_of_keeps fun _ _ => keeps_checkProvided skill target members range ps

theorem typeSymbol_ok {range : Span} {ty : Ty} (h : typeSymbol id range o s = .ok ty s') :
    s.symbols.lookup id = some (.type ty) ∧ s' = s := by
  obtain ⟨y, t, hy, hr⟩ := bind_ok h
  obtain ⟨hlookup, rfl⟩ := symbolOf_ok hy
  cases y with
  | type ty' =>
    cases hr
    exact ⟨hlookup, rfl⟩
  | _ =>
    obtain ⟨_, _, _, hr⟩ := bind_ok hr
    cases hr

/-! ## Quiet phases -/

theorem quiet_setSymbol {y : Symbol} (h : s₀.Quiet s) (hy : s.core.extent.Covers y.refs)
    (hr : setSymbol id y o s = .ok u s') : s₀.Quiet s' := by
  cases hr
  exact h.define id hy

theorem quiet_defineType {add : TypeTable → TypeTable × Ty} (h : s₀.Quiet s)
    (hm : ∀ w, (add s.types).1.membersAt w = s.types.membersAt w)
    (hr : defineType id add o s = .ok u s') : s₀.Quiet s' := by
  cases hr
  exact (h.retype hm).define id Extent.covers_nil

theorem quiet_mixSkeleton {d : MixDecl} (hs : s.Whole)
    (hr : mixSkeleton view id d o s = .ok u s') : s.Quiet s' := by
  obtain ⟨name, t, h, -, hr⟩ := quiet_bind (.refl hs) (fun E => emits_fullNameOf _ _) hr
  obtain ⟨vis, t, h, -, hr⟩ := quiet_bind h (fun E => emits_visibilityOf _ _ _) hr
  exact quiet_defineType h (TypeTable.membersAt_intern _ _) hr

theorem quiet_mixVariants {d : MixDecl} (hs : s.Whole)
    (hr : mixVariants view id d o s = .ok u s') : s.Quiet s' := by
  obtain ⟨ty, t, hty, hr⟩ := bind_ok hr
  obtain ⟨-, rfl⟩ := typeSymbol_ok hty
  cases ty with
  | mix mid =>
    obtain ⟨variants, t, h, -, hr⟩ :=
      quiet_bind (.refl hs) (fun E => emits_mixVariantList _ _ _ _) hr
    obtain ⟨default, t, h, -, hr⟩ := quiet_bind h (fun E => emits_mixDefault _ _ _) hr
    cases hr
    exact h.retype fun _ => rfl
  | _ => cases hr

theorem quiet_choiceType {d : ChoiceDecl} (hs : s.Whole)
    (hr : choiceType view id d o s = .ok u s') : s.Quiet s' := by
  obtain ⟨written, t, h, -, hr⟩ := quiet_bind (.refl hs) (fun E => emits_choiceUnderlying _ _) hr
  obtain ⟨numbers, t, h, -, hr⟩ := quiet_bind h (fun E => emits_writtenNumbers _ _ _) hr
  obtain ⟨-, t, h, -, hr⟩ := quiet_bind h (fun E => emits_checkUnique _ _) hr
  dsimp only at hr
  cases hdup : firstDuplicate? ((numberVariants numbers).zip
      (d.variants.map ChoiceVariantDecl.name)) with
  | some dup =>
    rw [hdup] at hr
    cases hr
  | none =>
    rw [hdup] at hr
    obtain ⟨underlying, t, h, -, hr⟩ := quiet_bind h (fun E => emits_numberType _ _ _) hr
    obtain ⟨default, t, h, -, hr⟩ := quiet_bind h (fun E => emits_choiceDefault _) hr
    obtain ⟨name, t, h, -, hr⟩ := quiet_bind h (fun E => emits_fullNameOf _ _) hr
    obtain ⟨vis, t, h, -, hr⟩ := quiet_bind h (fun E => emits_visibilityOf _ _ _) hr
    exact quiet_defineType h (TypeTable.membersAt_intern _ _) hr

/-- A global is added. -/
theorem quiet_addGlobal {g : Ir.Global} (h : s₀.Quiet s)
    (hg : s.core.extent.Covers g.init.refs) :
    s₀.Quiet { s with ir := (s.ir.addGlobal g).1 } := by
  have hle : s.core.extent.Le (Core.extent { s.core with ir := (s.ir.addGlobal g).1 }) :=
    ⟨Nat.le_refl _, (by
      simp only [Core.extent, Ir.Module.addGlobal, Array.size_push]
      exact Nat.le_succ _), Nat.le_refl _⟩
  have hcode := h.whole.code.mono hle h.whole.func
  refine ⟨⟨h.whole.func, { hcode with globals := fun x hx => ?_ }, fun y hy =>
    (h.whole.symbols y hy).mono hle⟩, ⟨h.advances.plain, h.advances.lacks⟩, h.members⟩
  rcases Array.mem_push.mp hx with hx | rfl
  · exact hcode.globals x hx
  · exact hg.mono hle

theorem quiet_globalValue {d : GlobalDecl} (hs : s.Whole)
    (hr : globalValue view id d o s = .ok u s') : s.Quiet s' := by
  obtain ⟨c, t, h, -, hr⟩ := quiet_bind (.refl hs) (fun E => emits_declaredValue _ _ _) hr
  obtain ⟨-, t, h, -, hr⟩ := quiet_bind h (fun E => emits_requireSized _ _) (guard_ok hr)
  obtain ⟨init, t, h, hinit, hr⟩ := quiet_bind h (fun E => emits_emitted _) hr
  obtain ⟨name, t', hname, hr⟩ := bind_ok hr
  cases hname
  obtain ⟨g, t', hg, hr⟩ := bind_ok hr
  cases hg
  refine quiet_setSymbol (quiet_addGlobal h hinit) ?_ hr
  simp [Core.extent, Ir.Module.addGlobal, Compiler.core]

theorem quiet_prerunGlobal {d : PrerunGlobalDecl} (hs : s.Whole)
    (hr : prerunGlobal view id d o s = .ok u s') : s.Quiet s' := by
  obtain ⟨c, t, h, -, hr⟩ := quiet_bind (.refl hs) (fun E => emits_declaredValue _ _ _) hr
  obtain ⟨-, t, h, -, hr⟩ := quiet_bind h (fun E => emits_requirePrerun _ _ _) hr
  exact quiet_setSymbol h Extent.covers_nil hr

theorem quiet_prerunFunction {d : PrerunFunctionDecl} {range : Span} (hs : s.Whole)
    (hr : prerunFunction view id d range o s = .ok u s') : s.Quiet s' := by
  obtain ⟨-, t, h, -, hr⟩ := quiet_bind (.refl hs) (fun E => emits_checkUnique _ _) hr
  obtain ⟨args, t, h, -, hr⟩ := quiet_bind h (fun E => emits_prerunArgs _ _ _) hr
  obtain ⟨result, t, h, -, hr⟩ := quiet_bind h (fun E => emits_prerunResult _ _ _) hr
  obtain ⟨name, t, h, -, hr⟩ := quiet_bind h (fun E => emits_fullNameOf _ _) hr
  exact quiet_setSymbol h Extent.covers_nil hr

theorem quiet_typeDefinition {d : TypeDecl} (hs : s.Whole)
    (hr : typeDefinition view id d o s = .ok u s') : s.Quiet s' := by
  obtain ⟨ty, t, h, -, hr⟩ := quiet_bind (.refl hs) (fun E => emits_resolveType _ _) hr
  exact quiet_setSymbol h Extent.covers_nil hr

theorem quiet_checkTypeDefinition {d : TypeDecl} (hs : s.Whole)
    (hr : checkTypeDefinition id d o s = .ok u s') : s.Quiet s' := by
  obtain ⟨ty, t, hty, hend⟩ := bind_ok hr
  obtain ⟨-, rfl⟩ := typeSymbol_ok hty
  cases hend
  exact .refl hs

theorem quiet_skillType {d : SkillDecl} (hs : s.Whole)
    (hr : skillType view id d o s = .ok u s') : s.Quiet s' := by
  obtain ⟨-, t, h, -, hr⟩ := quiet_bind (.refl hs) (fun E => emits_checkUnique _ _) hr
  obtain ⟨prototypes, t, h, -, hr⟩ := quiet_bind h (fun E => emits_skillPrototypes _ _ _) hr
  obtain ⟨name, t, h, -, hr⟩ := quiet_bind h (fun E => emits_fullNameOf _ _) hr
  obtain ⟨vis, t, h, -, hr⟩ := quiet_bind h (fun E => emits_visibilityOf _ _ _) hr
  obtain ⟨skill, t', hskill, hr⟩ := bind_ok hr
  cases hskill
  refine quiet_setSymbol ?_ Extent.covers_nil hr
  exact h.retype fun _ => rfl

/-! ## Brings -/

def Stays {α : Type} (a : Emit α) : Prop :=
  ∀ (c : Core) (ys : List (EntityId × Symbol)),
    Yields (fun s => s.core = c ∧ s.symbols = ys) a fun _ s => s.core = c ∧ s.symbols = ys

theorem Stays.bind {a : Emit α} {k : α → Emit β} (ha : Stays a) (hk : ∀ v, Stays (k v)) :
    Stays (a >>= k) :=
  fun c ys => (ha c ys).bind fun v => hk v c ys

theorem stays_modules : Stays modules := fun _ _ => yields_modules fun _ h => h

theorem stays_orRefuseBring {α : Type} (r : Except ResolveError α) : Stays (orRefuseBring r) :=
  fun _ _ => yields_orRefuseBring fun _ _ _ h => h

theorem stays_bringResolved (module : ModId) (found : Resolved) (name : Ident) (vis : Visibility)
    (range : Span) : Stays (bringResolved module found name vis range) := by
  intro c ys
  cases found with
  | module target => exact yields_modify fun _ h => h
  | item item =>
    refine Yields.bind (Q := fun s _ => s.core = c ∧ s.symbols = ys) (yields_get fun _ h => h)
      fun s => ?_
    split
    · refine fun o t ht => ?_
      exact ht
    · exact yields_refuse _ rfl

theorem stays_bringMembers (view : Viewpoint) (target : ModId) (vis : Visibility) :
    ∀ names : List BroughtName, Stays (bringMembers view target vis names)
  | [] => fun _ _ => yields_pure fun _ h => h
  | n :: rest => by
    unfold bringMembers
    refine stays_modules.bind fun t => (stays_orRefuseBring _).bind fun r => ?_
    cases r with
    | none => exact fun c ys => (yields_refuseBring _ (Q := fun _ _ => False)).bind fun _ _ _ h => h.elim
    | some found =>
      exact (stays_bringResolved _ _ _ _ _).bind fun _ => stays_bringMembers view target vis rest

theorem stays_bringItem (view : Viewpoint) (vis : Visibility) (item : BringItem) :
    Stays (bringItem view vis item) := by
  have hrequire {α : Type} {v : Option α} {f : Fault} {range : Span} (hf : f.isNotReady = false) :
      Stays (require v f range) := fun _ _ => yields_require range hf fun _ _ _ h => h
  cases item with
  | path path asName =>
    exact stays_modules.bind fun t => (stays_orRefuseBring _).bind fun found =>
      (hrequire rfl).bind fun name => stays_bringResolved _ _ _ _ _
  | members source names =>
    exact stays_modules.bind fun t => (stays_orRefuseBring _).bind fun target =>
      stays_bringMembers view target vis names
  | file path asName range =>
    exact stays_modules.bind fun t => (hrequire rfl).bind fun target => fun _ _ =>
      yields_modify fun _ h => h

theorem stays_settleBring (id : EntityId) : Stays (settleBring id) := by
  intro c ys
  refine Yields.bind (Q := fun _ s => s.core = c ∧ s.symbols = ys) (yields_modify fun _ h => h)
    fun _ => ?_
  refine Yields.bind (Q := fun _ s => s.core = c ∧ s.symbols = ys) (yields_get fun _ h => h)
    fun _ => ?_
  exact Yields.bind (yields_forIn fun j _ => yields_collectDependencies fun _ _ h _ => h)
    fun _ => yields_pure fun _ h => h

/-- A bring becomes one and touches nothing else that is known of code and symbols. -/
theorem yields_bring_core (view : Viewpoint) (id : EntityId) (d : BringDecl) (c : Core)
    (ys : List (EntityId × Symbol)) :
    Yields (fun t => t.core = c ∧ t.symbols = ys) (bring view id d)
      fun _ t => t.core = c ∧ t.symbols = (id, .bring) :: ys := by
  refine (stays_modules _ _).bind fun t => ?_
  refine (yields_forIn fun item _ => stays_bringItem _ _ item _ _).bind fun _ => ?_
  refine Yields.bind (Q := fun _ t => t.core = c ∧ t.symbols = (id, .bring) :: ys)
    (yields_modify fun t ht => ?_) fun _ => ?_
  · exact ⟨ht.1, congrArg ((id, Symbol.bring) :: ·) ht.2⟩
  · exact stays_settleBring id _ _

theorem bring_ok {d : BringDecl} (hr : bring view id d o s = .ok u s') :
    s'.core = s.core ∧ s'.symbols = (id, .bring) :: s.symbols := by
  have h := yields_bring_core view id d s.core s.symbols o s ⟨rfl, rfl⟩
  rw [hr] at h
  exact h

theorem quiet_bring {d : BringDecl} (hs : s.Whole) (hr : bring view id d o s = .ok u s') :
    s.Quiet s' := by
  obtain ⟨hcore, hsymbols⟩ := bring_ok hr
  have hquiet := (Compiler.Quiet.refl hs).define id (y := .bring) Extent.covers_nil
  exact ⟨⟨(congrArg Core.func hcore).trans hs.func, hcore ▸ hquiet.whole.code,
    hsymbols ▸ hcore ▸ hquiet.whole.symbols⟩, hcore ▸ .refl _,
    fun w _ => congrArg (TypeTable.membersAt · w) (congrArg Core.types hcore)⟩

end Emit

end Staged
