/-
  Staged.Proofs.Ssa.Declare — every phase keeps functions certified.

  What a phase evaluates before it changes anything leaves functions and members as they
  are (`Compiler.Rests`). A phase that declares functions adds them at the end, without a
  body and with a parameter for the instance; so no two members share a function. Only the
  last phase of a declaration gives bodies, and only to functions that are owed one
  (`Compiler.Settles`). The kind of a declaration decides the form of what it becomes, so no
  phase finds something that it cannot handle.
-/

import Staged.Proofs.Code.Phase
import Staged.Proofs.Ssa.Body
import Staged.Proofs.Values.Declare

namespace Staged

namespace Compiler

/-! ## What stays the same between bodies -/

structure Rests (s₀ s : Compiler) : Prop where
  outer : s.outer = s₀.outer
  frames : s.frames = []
  func : s.func = none
  functions : s.ir.functions = s₀.ir.functions
  structs : s.types.structs = s₀.types.structs
  done : s.types.done = s₀.types.done

def restGround (s₀ : Compiler) : Ground where
  toDomain := .all
  outer := s₀.outer
  admits _ := True
  code c := c.func = none ∧ c.ir.functions = s₀.ir.functions ∧
    c.types.structs = s₀.types.structs ∧ c.types.done = s₀.types.done
  code_intern {c} ty h := ⟨h.1, h.2.1, (c.types.same_intern ty).structs.trans h.2.2.1,
    (c.types.same_intern ty).done.trans h.2.2.2⟩
  code_abandon := by
    rintro _ c - - ⟨hfunc, h⟩
    refine ⟨?_, h⟩
    show c.func.map _ = none
    rw [hfunc]
    rfl
  knows_types _ := trivial
  locals _ _ _ _ := trivial
  symbols _ _ := trivial
  defines _ _ := trivial
  allows f := f.isFault = true
  allows_fault := Failure.isFault_fault
  allows_missing := by
    rintro c f ⟨hnone, -⟩ hf
    rw [hnone] at hf
    cases hf
  warned _ := True
  warned_push _ _ := trivial

variable {s₀ s s' : Compiler} {id : EntityId} {body : DeclBody}

theorem Rests.refl (hframes : s.frames = []) (hfunc : s.func = none) : s.Rests s :=
  ⟨rfl, hframes, hfunc, rfl, rfl, rfl⟩

theorem Rests.symbols (h : s₀.Rests s) : s.symbols = s₀.symbols := congrArg Outer.symbols h.outer

theorem Rests.membersAt (h : s₀.Rests s) (w : Home) :
    s.types.membersAt w = s₀.types.membersAt w :=
  TypeTable.membersAt_congr h.structs h.done w

/-! ## What phases do to functions -/

end Compiler

def DeclBody.Shapes : DeclBody → Symbol → Prop
  | .function _, y => ∃ i result params variadic,
      y = .function i (.function result params variadic)
  | .struct _, y => ∃ i, y = .type (.struct i)
  | .mix _, y => ∃ i, y = .type (.mix i)
  | .typeDef _, y => ∃ ty, y = .type ty
  | .doSkill _, y => ∃ i, y = .doneSkill i
  | _, y => ∀ i ty, y ≠ .function i ty

theorem DeclBody.Shapes.typed {body : DeclBody} {y : Symbol} (h : body.Shapes y) (i : Ir.FunctionId)
    (ty : Ty) (hy : y = .function i ty) :
    ∃ result params variadic, ty = .function result params variadic := by
  subst hy
  cases body with
  | function d =>
    obtain ⟨j, result, params, variadic, hy⟩ := h
    cases hy
    exact ⟨result, params, variadic, rfl⟩
  | struct d | mix d | typeDef d | doSkill d =>
    obtain ⟨j, hy⟩ := h
    cases hy
  | _ => exact absurd rfl (h i ty)

theorem Ir.Members.mono {fs fs' : Array Ir.Function} {ms : List MemberFunction}
    {paid : Ir.FunctionId → Prop} (h : Ir.Members fs ms) (hf : Ir.Fills fs fs' paid)
    (hlt : ∀ m ∈ ms, m.function < fs.size) : Ir.Members fs' ms where
  nodup := h.nodup
  self m hm hself p' hp' := by
    have hp := Array.getElem?_eq_getElem (hlt m hm)
    obtain ⟨p'', hp'', hparams⟩ := hf.params _ _ hp
    cases hp'.symm.trans hp''
    rw [hparams]
    exact h.self m hm hself _ hp

theorem Ir.members_nil (fs : Array Ir.Function) : Ir.Members fs [] :=
  ⟨List.nodup_nil, fun _ h => by cases h⟩

namespace Compiler

structure Settles (s s' : Compiler) (id : EntityId) (body : DeclBody) (phase : Phase) : Prop where
  fills : Ir.Fills s.ir.functions s'.ir.functions fun i => phase = .three ∧ s.Owes id body i
  new : phase ≠ .three → ∀ i, s'.Owes id body i → s.ir.functions.size ≤ i
  old : phase = .three → ∀ i, s'.Owes id body i → s.Owes id body i
  members : ∀ w ms, s'.Keeps id body w → s'.types.membersAt w = some ms →
    Ir.Members s'.ir.functions ms
  symbol : ∀ y, s'.symbols.lookup id = some y → body.Shapes y

structure Fit (s : Compiler) (id : EntityId) (body : DeclBody) (phase : Phase) : Prop where
  calm : s.Calm s.outer
  typed : s.outer.Typed
  symbol : ∀ y, s.symbols.lookup id = some y → body.Shapes y
  members : ∀ w ms, s.Keeps id body w → s.types.membersAt w = some ms →
    Ir.Members s.ir.functions ms
  blank : phase = .three → ∀ i p, s.Owes id body i → s.ir.functions[i]? = some p →
    p.blocks = #[]

variable {s s' : Compiler} {id : EntityId} {body : DeclBody} {phase : Phase}

/-- Most declarations have nothing to do with functions. -/
theorem Settles.of_isQuiet (hq : body.isQuiet = true)
    (hf : Ir.Fills s.ir.functions s'.ir.functions fun _ => False)
    (hy : ∀ y, s'.symbols.lookup id = some y → body.Shapes y) : s.Settles s' id body phase where
  fills := hf.mono fun _ h => h.elim
  new _ i hi := absurd hi (not_owes_of_isQuiet hq i)
  old _ i hi := absurd hi (not_owes_of_isQuiet hq i)
  members w _ hw := absurd hw (not_keeps_of_isQuiet hq w)
  symbol := hy

/-- A declaration that keeps members whose functions are new. -/
theorem Settles.of_home {y : Symbol} {w : Home} (ms : List MemberFunction)
    (hlookup : s'.symbols.lookup id = some y) (hw : body.home? y = some w)
    (hfunction : body.function? y = none) (hshape : body.Shapes y)
    (hms : s'.types.membersAt w = some ms)
    (hf : Ir.Fills s.ir.functions s'.ir.functions fun _ => False)
    (hmembers : Ir.Members s'.ir.functions ms)
    (hnew : ∀ m ∈ ms, s.ir.functions.size ≤ m.function) (hphase : phase ≠ .three) :
    s.Settles s' id body phase := by
  have hkeeps {w' : Home} (h : s'.Keeps id body w') : w' = w := by
    obtain ⟨z, hz, hw'⟩ := h
    cases hlookup.symm.trans hz
    exact Option.some.inj (hw'.symm.trans hw)
  refine ⟨hf.mono fun _ h => h.elim, fun _ i hi => ?_, fun h => absurd h hphase,
    fun w' ms' hk hms' => ?_, fun z hz => ?_⟩
  · rcases hi with ⟨z, hz, hi⟩ | ⟨w', ms', m, hk, hms', hm, rfl⟩
    · cases hlookup.symm.trans hz
      rw [hfunction] at hi
      cases hi
    · rw [hkeeps hk, hms] at hms'
      cases hms'
      exact hnew m hm
  · rw [hkeeps hk, hms] at hms'
    cases hms'
    exact hmembers
  · cases hlookup.symm.trans hz
    exact hshape

/-- The bodies that are owed are lowered. -/
theorem Settles.of_passes (hs : s.Due id body .three) (hfit : s.Fit id body .three)
    (hp : s.Passes s' fun _ => False)
    (hf : Ir.Fills s.ir.functions s'.ir.functions fun i => s.Owes id body i) :
    s.Settles s' id body .three where
  fills := hf.mono fun _ h => ⟨rfl, h⟩
  new h := absurd rfl h
  old _ i hi := hp.owes_iff.mp hi
  members w ms hw hms := by
    rw [hp.keeps_iff] at hw
    rw [hp.membersAt] at hms
    refine (hfit.members w ms hw hms).mono hf fun m hm => ?_
    obtain ⟨f, hf, -⟩ := hs.owed _ (.inr ⟨w, ms, m, hw, hms, hm, rfl⟩)
    exact (Array.getElem?_eq_some_iff.mp hf).1
  symbol y hy := hfit.symbol y (hp.symbols ▸ hy)

theorem Fit.rests (h : s.Fit id body phase) : s.Rests s := .refl h.calm.frames h.calm.func

end Compiler

namespace Emit

variable {α β : Type} {s₀ : Compiler} {view : Viewpoint} {id : EntityId} {body : DeclBody}
  {phase : Phase} {a : Emit α} {k : α → Emit β} {Q : α → Prop} {R : β → Compiler → Prop}

/-! ## Between bodies -/

theorem safely_of_ends (h : s₀.restGround.Ends 0 a Q) :
    Safely s₀.Rests a fun v s => s₀.Rests s ∧ Q v := by
  intro o s hs
  have h := h o trivial s ⟨⟨hs.outer, by rw [hs.frames]; rfl,
    ⟨hs.func, hs.functions, hs.structs, hs.done⟩, trivial⟩,
    fun f hf => by rw [hs.frames] at hf; cases hf⟩
  cases hr : a o s with
  | error f s' =>
    rw [hr] at h
    exact h.2
  | ok v s' =>
    rw [hr] at h
    obtain ⟨⟨⟨houter, hcalls, ⟨hfunc, hfunctions, hstructs, hdone⟩, -⟩, -⟩, hq⟩ := h
    exact ⟨⟨houter, List.length_eq_zero_iff.mp hcalls, hfunc, hfunctions, hstructs, hdone⟩, hq⟩

/-- A step that only evaluates. -/
theorem rests_bind (ha : s₀.restGround.Ends 0 a Q)
    (hk : ∀ v, Q v → Safely s₀.Rests (k v) R) : Safely s₀.Rests (a >>= k) R :=
  (safely_of_ends ha).bind fun v => .of_and (hk v)

theorem rests_guard {c : Prop} [Decidable c] {f : Fault} {range : Span} {k : α → Emit β}
    {rest : Emit β} (hrest : ¬c → Safely s₀.Rests rest R) :
    Safely s₀.Rests (if c then refuse f range >>= k else rest) R := by
  split
  · exact fun _ _ _ => rfl
  · exact hrest ‹_›

theorem safely_refuse {P : Compiler → Prop} {Q : α → Compiler → Prop} (f : Fault) (range : Span) :
    Safely P (refuse f range) Q := fun _ _ _ => rfl

/-- What an entity of a certain form has become. -/
theorem rests_symbolOf (id : EntityId) (range : Span) {k : Symbol → Emit β}
    (hk : ∀ y, s₀.symbols.lookup id = some y → Safely s₀.Rests (k y) R) :
    Safely s₀.Rests (symbolOf id range >>= k) R := by
  refine Safely.bind (Q := fun y s => s₀.Rests s ∧ s₀.symbols.lookup id = some y) ?_
    fun y => .of_and (hk y)
  refine .of_forall fun s hs => (safely_symbolOf id range).mono (fun _ h => h) ?_
  rintro y _ ⟨rfl, hy⟩
  exact ⟨hs, hs.symbols ▸ hy⟩

theorem rests_typeSymbol (id : EntityId) (range : Span) {k : Ty → Emit β}
    (hshape : ∀ y, s₀.symbols.lookup id = some y → ∃ ty, y = .type ty)
    (hk : ∀ ty, s₀.symbols.lookup id = some (.type ty) → Safely s₀.Rests (k ty) R) :
    Safely s₀.Rests (typeSymbol id range >>= k) R := by
  unfold typeSymbol
  rw [bind_assoc]
  refine rests_symbolOf id range fun y hy => ?_
  obtain ⟨ty, rfl⟩ := hshape y hy
  exact hk ty hy

theorem safely_emitted (c : Constant) : Safely s₀.Rests (emitted c) fun _ => s₀.Rests := by
  intro o s hs
  obtain ⟨hg, -⟩ := Data.emits_emitted (E := ⟨0, 0, 0, 0⟩) c.type c.data ⟨s.types, s.ir⟩
  exact ⟨hs.outer, hs.frames, hs.func, hg.functions.trans hs.functions,
    hg.types.structs.trans hs.structs, hg.types.done.trans hs.done⟩

/-- An entity that has nothing to do with functions becomes something. -/
theorem safely_setSymbol {y : Symbol} {P : Compiler → Prop} (hq : body.isQuiet = true)
    (hy : body.Shapes y)
    (hP : ∀ s, P s → Ir.Fills s₀.ir.functions s.ir.functions fun _ => False) :
    Safely P (setSymbol id y) fun _ s => s₀.Settles s id body phase := by
  intro o s hs
  refine .of_isQuiet hq (hP s hs) fun z hz => ?_
  have hlookup : List.lookup id ((id, y) :: s.symbols) = some z := hz
  rw [List.lookup_cons_self] at hlookup
  exact Option.some.inj hlookup ▸ hy

theorem rests_setSymbol {y : Symbol} (hq : body.isQuiet = true) (hy : body.Shapes y) :
    Safely s₀.Rests (setSymbol id y) fun _ s => s₀.Settles s id body phase :=
  safely_setSymbol hq hy fun _ hs => hs.functions.symm ▸ .refl _

/-- An entity that is done with evaluating stays what it is. -/
theorem settles_of_rests (hq : body.isQuiet = true) (hs₀ : s₀.Fit id body phase) {s : Compiler}
    (hf : s.ir.functions = s₀.ir.functions) (hy : s.symbols = s₀.symbols) :
    s₀.Settles s id body phase :=
  .of_isQuiet hq (hf.symm ▸ .refl _) fun y h => hs₀.symbol y (hy ▸ h)

/-! ## Declarations without functions -/

theorem safely_defineType {add : TypeTable → TypeTable × Ty} (hq : body.isQuiet = true)
    (hshape : ∀ t, body.Shapes (.type (add t).2)) :
    Safely s₀.Rests (defineType id add) fun _ s => s₀.Settles s id body phase := by
  intro o s hs
  refine .of_isQuiet hq (hs.functions.symm ▸ .refl _) fun y hy => ?_
  have hlookup : List.lookup id ((id, Symbol.type (add s.types).2) :: s.symbols) = some y := hy
  rw [List.lookup_cons_self] at hlookup
  exact Option.some.inj hlookup ▸ hshape s.types

theorem safely_mixSkeleton (d : MixDecl) :
    Safely s₀.Rests (mixSkeleton view id d) fun _ s => s₀.Settles s id (.mix d) phase :=
  rests_bind (ends_fullNameOf _ _) fun _ _ => rests_bind (ends_visibilityOf _ _ _) fun _ _ =>
    safely_defineType rfl fun _ => ⟨_, rfl⟩

theorem safely_mixVariants {d : MixDecl} (hs₀ : s₀.Fit id (.mix d) phase) :
    Safely s₀.Rests (mixVariants view id d) fun _ s => s₀.Settles s id (.mix d) phase := by
  refine rests_typeSymbol id _ (fun y hy => ?_) fun ty hty => ?_
  · obtain ⟨i, hi⟩ := hs₀.symbol y hy
    exact ⟨_, hi⟩
  · obtain ⟨i, hi⟩ := hs₀.symbol _ hty
    cases hi
    refine rests_bind (ends_mixVariantList _ _ _ _ _ fun _ h => by cases h) fun variants _ => ?_
    refine rests_bind (ends_mixDefault _ _ _) fun default _ => ?_
    exact fun o s hs => settles_of_rests rfl hs₀ hs.functions hs.symbols

theorem safely_choiceType (d : ChoiceDecl) :
    Safely s₀.Rests (choiceType view id d) fun _ s => s₀.Settles s id (.choice d) phase := by
  refine rests_bind (ends_choiceUnderlying _ _) fun written hwritten => ?_
  refine rests_bind (ends_mapM (ends_writtenNumber view _) _) fun numbers _ => ?_
  refine rests_bind (ends_checkUnique _ _) fun _ _ => ?_
  dsimp only
  split
  · exact safely_refuse _ _
  · refine rests_bind (ends_numberType _ _ _ hwritten) fun underlying _ => ?_
    refine rests_bind (ends_choiceDefault d) fun default _ => ?_
    refine rests_bind (ends_fullNameOf _ _) fun name _ => ?_
    refine rests_bind (ends_visibilityOf _ _ _) fun vis _ => ?_
    exact safely_defineType rfl fun _ _ _ h => by cases h

theorem safely_globalValue (d : GlobalDecl) :
    Safely s₀.Rests (globalValue view id d) fun _ s => s₀.Settles s id (.global d) phase := by
  refine rests_bind (ends_declaredValue _ _ _) fun c _ => rests_guard fun _ => ?_
  refine rests_bind (ends_requireSized _ _) fun _ _ => ?_
  refine (safely_emitted c).bind fun init => rests_bind (ends_fullNameOf _ _) fun name _ => ?_
  refine Safely.bind (Q := fun _ => s₀.Rests) ?_ fun g => rests_setSymbol rfl fun _ _ h => by cases h
  exact fun o s hs => ⟨hs.outer, hs.frames, hs.func, hs.functions, hs.structs, hs.done⟩

theorem safely_prerunGlobal (d : PrerunGlobalDecl) :
    Safely s₀.Rests (prerunGlobal view id d) fun _ s => s₀.Settles s id (.prerunGlobal d) phase :=
  rests_bind (ends_declaredValue _ _ _) fun _ _ => rests_bind (ends_requirePrerun _ _ _)
    fun _ _ => rests_setSymbol rfl fun _ _ h => by cases h

theorem safely_prerunFunction (d : PrerunFunctionDecl) (range : Span) :
    Safely s₀.Rests (prerunFunction view id d range) fun _ s =>
      s₀.Settles s id (.prerunFunction d) phase := by
  refine rests_bind (ends_checkUnique _ _) fun _ _ => ?_
  refine rests_bind (ends_mapM (ends_prerunArg view _) _) fun args _ => ?_
  refine rests_bind (ends_prerunResult _ _ _) fun result _ => ?_
  exact rests_bind (ends_fullNameOf _ _) fun _ _ => rests_setSymbol rfl fun _ _ h => by cases h

theorem safely_typeDefinition (d : TypeDecl) :
    Safely s₀.Rests (typeDefinition view id d) fun _ s => s₀.Settles s id (.typeDef d) phase :=
  rests_bind (ends_resolveType view d.type) fun ty _ => rests_setSymbol rfl ⟨ty, rfl⟩

theorem safely_checkTypeDefinition {d : TypeDecl} (hs₀ : s₀.Fit id (.typeDef d) phase) :
    Safely s₀.Rests (checkTypeDefinition id d) fun _ s => s₀.Settles s id (.typeDef d) phase :=
  rests_typeSymbol id _ hs₀.symbol fun _ _ =>
    .pure fun _ hs => settles_of_rests rfl hs₀ hs.functions hs.symbols

theorem safely_skillType (d : SkillDecl) :
    Safely s₀.Rests (skillType view id d) fun _ s => s₀.Settles s id (.skill d) phase := by
  refine rests_bind (ends_checkUnique _ _) fun _ _ => ?_
  refine rests_bind (ends_mapM (ends_skillPrototype view _) _) fun prototypes _ => ?_
  refine rests_bind (ends_fullNameOf _ _) fun name _ => ?_
  refine rests_bind (ends_visibilityOf _ _ _) fun vis _ => ?_
  refine Safely.bind (Q := fun _ => s₀.Rests) ?_ fun g => rests_setSymbol rfl fun _ _ h => by cases h
  exact fun o s hs => ⟨hs.outer, hs.frames, hs.func, hs.functions, hs.structs, hs.done⟩

/-! ## Functions -/

theorem certified_ofSignature (name : String) (params : List Ty) (result : Ty) :
    (Ir.Function.ofSignature name params result).IsCertified :=
  ⟨_, Ir.Function.certified_ofSignature name params result,
    Ir.Function.exactPhis_of_blocks rfl⟩

theorem safely_declareExternal (name : String) (params : List Ty) (result : Ty)
    (variadic : Bool) : Safely s₀.Rests (declareExternal name params result variadic)
      fun _ s => Ir.Fills s₀.ir.functions s.ir.functions fun _ => False := by
  intro o s hs
  show Ir.Fills _ (s.ir.declareExternal name params result variadic).1.functions _
  rw [← hs.functions]
  unfold Ir.Module.declareExternal
  split
  · exact .refl _
  · have hadd := Ir.Fills.append s.ir.functions #[.ofExternal name params result variadic]
      fun f hf => by
        rw [List.mem_singleton.mp (Array.mem_toList_iff.mpr hf)]
        exact ⟨isCertified_ofExternal _ _ _ _, rfl⟩
    rwa [Array.append_singleton] at hadd

/-- A function without a body is added behind the others. -/
theorem safely_addFunction (f : Ir.Function) : Safely s₀.Rests (addFunction f) fun i s =>
    Compiler.Rests { s₀ with ir := (s₀.ir.addFunction f).1 } s ∧ i = s₀.ir.functions.size := by
  intro o s hs
  refine ⟨⟨hs.outer, hs.frames, hs.func, ?_, hs.structs, hs.done⟩,
    congrArg Array.size hs.functions⟩
  exact congrArg (·.push f) hs.functions

theorem fills_addFunction {f : Ir.Function} {s : Compiler}
    (hs : Compiler.Rests { s₀ with ir := (s₀.ir.addFunction f).1 } s) (hc : f.IsCertified)
    (hblocks : f.blocks = #[]) : Ir.Fills s₀.ir.functions s.ir.functions fun _ => False := by
  have hadd := Ir.Fills.append s₀.ir.functions #[f] fun g hg => by
    rw [List.mem_singleton.mp (Array.mem_toList_iff.mpr hg)]
    exact ⟨hc, hblocks⟩
  rw [hs.functions]
  rwa [Array.append_singleton] at hadd

/-- A function with a body is declared. -/
theorem safely_declared (name : String) (params : List Ty) (result : Ty) (variadic : Bool)
    {d : FunctionDecl} :
    Safely s₀.Rests (do
      let f ← addFunction (.ofSignature name params result)
      let ty ← intern (.function result params variadic)
      setSymbol id (.function f ty))
      fun _ s => s₀.Settles s id (.function d) .one := by
  refine (safely_addFunction _).bind fun f => .of_and fun hf => ?_
  refine rests_bind (ends_intern _) fun ty hty => ?_
  subst hf hty
  intro o s hs
  have hfills := fills_addFunction hs (certified_ofSignature name params result) rfl
  have hlookup : List.lookup id ((id, Symbol.function s₀.ir.functions.size
      (.function result params variadic)) :: s.symbols) = some (.function s₀.ir.functions.size
      (.function result params variadic)) := List.lookup_cons_self
  refine ⟨hfills.mono fun _ h => h.elim, fun _ i hi => ?_, fun h => (by cases h),
    fun w ms hw => ?_, fun y hy => ?_⟩
  · rcases hi with ⟨y, hy, hi⟩ | ⟨w, -, -, ⟨y, -, hw⟩, -⟩
    · cases hlookup.symm.trans hy
      unfold DeclBody.function? at hi
      dsimp only at hi
      split at hi
      · cases hi
        exact Nat.le_refl _
      · cases hi
    · cases hw
  · obtain ⟨y, -, hw⟩ := hw
    cases hw
  · cases hlookup.symm.trans hy
    exact ⟨_, result, params, variadic, rfl⟩

theorem safely_functionPrototype (d : FunctionDecl) (range : Span) :
    Safely s₀.Rests (functionPrototype view id d range) fun _ s =>
      s₀.Settles s id (.function d) .one := by
  refine rests_bind (ends_paramTypes _ _ _) fun params _ => ?_
  refine rests_bind (ends_resultTypeOf _ _) fun result _ => ?_
  cases hd : d.body with
  | none =>
    refine (safely_declareExternal _ _ _ _).bind fun f => ?_
    refine Safely.bind (Q := fun ty s => (Ir.Fills s₀.ir.functions s.ir.functions fun _ => False) ∧
      ty = .function result params d.variadic) (fun _ _ hs => ⟨hs, rfl⟩) fun ty => .of_and fun hty => ?_
    subst hty
    exact safely_setSymbol (Option.isNone_iff_eq_none.mpr hd) ⟨f, _, _, _, rfl⟩ fun _ hs => hs
  | some body =>
    refine rests_guard fun _ => rests_bind ends_modules fun tree _ => ?_
    exact safely_declared _ _ _ _

/-! ## Members -/

theorem params_ofSignature_ne_nil (name : String) {params : List Ty} (result : Ty)
    (h : params ≠ []) : (Ir.Function.ofSignature name params result).params ≠ [] := by
  cases params with
  | nil => exact absurd rfl h
  | cons ty rest => exact List.cons_ne_nil _ _

/-- The prototype of a member is a new function. -/
theorem safely_memberPrototype (parent : Ty) (owner : String) (position : Nat) (d : MemberDecl) :
    Safely s₀.Rests (memberPrototype view parent owner position d) fun m s =>
      ∃ f : Ir.Function, Compiler.Rests { s₀ with ir := (s₀.ir.addFunction f).1 } s ∧
        f.IsCertified ∧ f.blocks = #[] ∧ (m.kind.hasSelf = true → f.params ≠ []) ∧
        m.function = s₀.ir.functions.size := by
  rw [memberPrototype_eq]
  refine rests_bind (ends_checkArity _ _ _) fun _ _ => ?_
  refine rests_bind (ends_checkUnique _ _) fun _ _ => ?_
  refine rests_bind (ends_mapM (ends_memberArg view _ _) _) fun args _ => ?_
  refine rests_bind (ends_otherArg _ _ _) fun other _ => ?_
  refine rests_bind (ends_memberResult _ _ _) fun result _ => ?_
  refine rests_bind (ends_selfTypes _ _) fun self hself => ?_
  refine (safely_addFunction _).bind fun i => .of_and fun hi => ?_
  refine rests_bind ends_modules fun tree _ => rests_bind (ends_checkClash _) fun _ _ => ?_
  refine .pure fun s hs => ⟨_, hs, certified_ofSignature _ _ _, rfl, fun h => ?_, hi⟩
  refine params_ofSignature_ne_nil _ _ fun hnil => ?_
  rw [hself, if_pos h] at hnil
  exact List.cons_ne_nil _ _ hnil

end Emit

structure Compiler.Enlists (s s' : Compiler) (w : Home) (ms : List MemberFunction) : Prop where
  outer : s'.outer = s.outer
  frames : s'.frames = []
  func : s'.func = none
  own : s'.types.membersAt w = (s.types.membersAt w).map (· ++ ms)
  functions : ∃ added : Array Ir.Function, s'.ir.functions = s.ir.functions ++ added ∧
    ∀ f ∈ added, f.IsCertified ∧ f.blocks = #[]
  numbers : ms.map MemberFunction.function = List.range' s.ir.functions.size ms.length
  self : ∀ m ∈ ms, m.kind.hasSelf = true → ∀ p : Ir.Function,
    s'.ir.functions[m.function]? = some p → p.params ≠ []

namespace Compiler.Enlists

variable {s s' s'' : Compiler} {w : Home} {ms : List MemberFunction}

theorem fills (h : s.Enlists s' w ms) :
    Ir.Fills s.ir.functions s'.ir.functions fun _ => False := by
  obtain ⟨added, hadded, hnew⟩ := h.functions
  exact hadded ▸ .append _ added hnew

theorem members (h : s.Enlists s' w ms) : Ir.Members s'.ir.functions ms :=
  ⟨h.numbers ▸ List.nodup_range', h.self⟩

theorem le (h : s.Enlists s' w ms) (m : MemberFunction) (hm : m ∈ ms) :
    s.ir.functions.size ≤ m.function := by
  have := List.mem_map_of_mem (f := MemberFunction.function) hm
  rw [h.numbers, List.mem_range'_1] at this
  exact this.1

theorem rests (h : s.Enlists s' w ms) (hr : s'.Rests s'') : s.Enlists s'' w ms :=
  ⟨hr.outer.trans h.outer, hr.frames, hr.func, (hr.membersAt w).trans h.own,
    hr.functions ▸ h.functions, h.numbers, hr.functions ▸ h.self⟩

/-- One more member in front. -/
theorem cons {m : MemberFunction} {f : Ir.Function} {t : Compiler}
    (ht : Rests { s with ir := (s.ir.addFunction f).1 } t) (hc : f.IsCertified)
    (hblocks : f.blocks = #[]) (hself : m.kind.hasSelf = true → f.params ≠ [])
    (hm : m.function = s.ir.functions.size)
    (h : Enlists { t with types := t.types.addMember m w } s' w ms) :
    s.Enlists s' w (m :: ms) := by
  have hfunctions : t.ir.functions = s.ir.functions.push f := ht.functions
  have hsize : t.ir.functions.size = s.ir.functions.size + 1 := by
    rw [hfunctions, Array.size_push]
  obtain ⟨added, hadded, hnew⟩ := h.functions
  have hall : s'.ir.functions = s.ir.functions ++ (#[f] ++ added) := by
    rw [hadded, ← Array.append_assoc, Array.append_singleton]
    exact congrArg (· ++ added) hfunctions
  refine ⟨h.outer.trans ht.outer, h.frames, h.func, ?_, ⟨_, hall, fun g hg => ?_⟩, ?_,
    fun x hx => ?_⟩
  · rw [h.own, TypeTable.membersAt_addMember, if_pos rfl, ht.membersAt, Option.map_map]
    congr 1
    funext old
    simp
  · rcases Array.mem_append.mp hg with hg | hg
    · rw [List.mem_singleton.mp (Array.mem_toList_iff.mpr hg)]
      exact ⟨hc, hblocks⟩
    · exact hnew g hg
  · rw [List.map_cons, h.numbers, hm, List.length_cons, List.range'_succ]
    exact congrArg (fun n => _ :: List.range' n ms.length) hsize
  · rcases List.mem_cons.mp hx with rfl | hx
    · intro hx p hp
      rw [hall, hm, Array.getElem?_append_right (Nat.le_refl _), Nat.sub_self] at hp
      simp only [Array.getElem?_append, List.size_toArray, List.length_singleton,
        Nat.zero_lt_one, if_true] at hp
      cases hp
      exact hself hx
    · exact h.self x hx

end Compiler.Enlists

namespace Emit

variable {s₀ : Compiler} {view : Viewpoint} {id : EntityId} {body : DeclBody} {phase : Phase}

/-- Members are declared one after another. -/
theorem safely_memberPrototypes (parent : Ty) (owner : String) (w : Home) :
    ∀ (ds : List MemberDecl) (position : Nat) {s₀ : Compiler},
      Safely s₀.Rests (memberPrototypes view parent owner
          (fun m => modifyTypes (·.addMember m w)) position ds)
        fun _ s => ∃ ms, s₀.Enlists s w ms
  | [], position, s₀ => by
    unfold memberPrototypes
    refine .pure fun s hs => ⟨[], hs.outer, hs.frames, hs.func, ?_, ⟨#[], ?_, ?_⟩, rfl, ?_⟩
    · rw [hs.membersAt]
      cases s₀.types.membersAt w <;> simp
    · rw [hs.functions, Array.append_empty]
    · exact fun f hf => absurd hf (Array.not_mem_empty f)
    · exact fun m hm => by cases hm
  | d :: ds, position, s₀ => by
    unfold memberPrototypes
    refine (safely_memberPrototype parent owner position d).bind fun m =>
      .of_forall fun t hnew => ?_
    obtain ⟨f, ht, hc, hblocks, hself, hm⟩ := hnew
    refine Safely.bind (Q := fun _ s => s = { t with types := t.types.addMember m w })
      (fun _ s hs => by subst hs; rfl) fun _ => ?_
    have hrest := @safely_memberPrototypes parent owner w ds (position + 1)
      { t with types := t.types.addMember m w }
    refine hrest.mono (fun s hs => ?_) fun _ s hs => ?_
    · subst hs
      exact .refl ht.frames ht.func
    · obtain ⟨ms, hms⟩ := hs
      exact ⟨m :: ms, .cons ht hc hblocks hself hm hms⟩

/-- A declaration that has got the symbol that names its home keeps the members that are
declared for it. -/
theorem settles_of_enlists {t s : Compiler} {y : Symbol} {w : Home} {ms : List MemberFunction}
    (hfunctions : t.ir.functions = s₀.ir.functions) (hlookup : t.symbols.lookup id = some y)
    (hw : body.home? y = some w) (hfunction : body.function? y = none) (hshape : body.Shapes y)
    (hown : t.types.membersAt w = some []) (h : t.Enlists s w ms) (hphase : phase ≠ .three) :
    s₀.Settles s id body phase := by
  refine .of_home ms (w := w) ?_ hw hfunction hshape ?_ (hfunctions ▸ h.fills) h.members
    (fun m hm => hfunctions ▸ h.le m hm) hphase
  · rw [show s.symbols = t.symbols from congrArg Outer.symbols h.outer]
    exact hlookup
  · rw [h.own, hown]
    rfl

theorem safely_structSkeleton (d : StructDecl) :
    Safely s₀.Rests (structSkeleton view id d) fun _ s => s₀.Settles s id (.struct d) .one := by
  refine rests_bind (ends_fullNameOf _ _) fun name _ => ?_
  refine rests_bind (ends_visibilityOf _ _ _) fun vis _ => fun o s hs => ?_
  refine .of_home [] (y := .type (.struct s.types.structs.size)) (w := .struct s.types.structs.size)
    List.lookup_cons_self rfl rfl ⟨_, rfl⟩ ?_ (hs.functions.symm ▸ .refl _)
    (Ir.members_nil _) (fun m hm => by cases hm) nofun
  exact (membersAt_addStruct s.types ⟨d.name, name, view.module, vis, none, []⟩ _).trans
    (if_pos rfl)

theorem safely_structLayout {d : StructDecl} (hs₀ : s₀.Fit id (.struct d) .two)
    (hdue : s₀.Due id (.struct d) .two) :
    Safely s₀.Rests (structLayout view id d) fun _ s => s₀.Settles s id (.struct d) .two := by
  refine rests_typeSymbol id _ (fun y hy => ?_) fun ty hty => ?_
  · obtain ⟨i, hi⟩ := hs₀.symbol y hy
    exact ⟨_, hi⟩
  · obtain ⟨sid, hi⟩ := hs₀.symbol _ hty
    cases hi
    refine rests_bind (ends_structFields _ _ _ _ _ fun _ h => by cases h) fun fields _ => .of_forall fun t ht => ?_
    let t' : Compiler := { t with types := t.types.setFields (.struct sid) (some fields) }
    refine Safely.bind (Q := fun _ s => s = t') (fun _ s hs => by subst hs; rfl) fun _ => ?_
    have hsame (w : Home) : t'.types.membersAt w = s₀.types.membersAt w :=
      (membersAt_setFields _ _ _ w).trans (ht.membersAt w)
    refine Safely.mono (P := t'.Rests) ?_ (fun s hs => ?_) fun _ _ h => h
    · refine rests_bind ends_types fun types _ => ?_
      refine (safely_memberPrototypes (.struct sid) _ (.struct sid) d.members 0).mono
        (fun _ h => h) fun _ s ⟨ms, hms⟩ => ?_
      exact settles_of_enlists (t := t') ht.functions (ht.symbols ▸ hty) rfl rfl ⟨_, rfl⟩
        ((hsame _).trans (hdue.empty rfl _ ⟨_, hty, rfl⟩)) hms nofun
    · subst hs
      exact .refl ht.frames ht.func

theorem safely_donePrototypes (d : DoSkillDecl) :
    Safely s₀.Rests (donePrototypes view id d) fun _ s => s₀.Settles s id (.doSkill d) .two := by
  refine rests_bind (ends_skillTarget _ _) fun target _ => ?_
  refine rests_bind (ends_skillNamed _ _) fun skillId _ => .of_forall fun t ht => ?_
  let k : DoneSkill := ⟨skillId, target, view.module, [], d.range⟩
  refine Safely.bind (Q := fun done s => s = { t with types := (t.types.addDone k).1 } ∧
    done = t.types.done.size) (fun _ s hs => by subst hs; exact ⟨rfl, rfl⟩) fun done =>
    .of_and fun hdone => ?_
  subst hdone
  let t' : Compiler := { t with
    types := (t.types.addDone k).1
    symbols := (id, .doneSkill t.types.done.size) :: t.symbols }
  refine Safely.bind (Q := fun _ s => s = t') (fun _ s hs => by subst hs; rfl) fun _ => ?_
  refine Safely.mono (P := t'.Rests) ?_ (fun s hs => ?_) fun _ _ h => h
  · refine rests_bind ends_types fun types _ => ?_
    refine (safely_memberPrototypes target _ (.done t.types.done.size) d.members 0).bind
      fun _ => .of_forall fun s ⟨ms, hms⟩ => ?_
    have hsettles {s' : Compiler} (h : t'.Enlists s' (.done t.types.done.size) ms) :
        s₀.Settles s' id (.doSkill d) .two :=
      settles_of_enlists (t := t') ht.functions List.lookup_cons_self rfl rfl ⟨_, rfl⟩
        ((membersAt_addDone t.types k _).trans (if_pos rfl)) h nofun
    refine Safely.mono (P := s.Rests) ?_ (fun x hx => ?_) fun _ s' hs' => hsettles (hms.rests hs')
    · dsimp only
      split
      · refine rests_bind ends_types fun types _ => ?_
        exact (safely_of_ends (ends_checkProvided _ _ _ _ _)).mono (fun _ h => h) fun _ _ h => h.1
      · exact .pure fun _ h => h
    · subst hx
      exact .refl hms.frames hms.func
  · subst hs
    exact .refl ht.frames ht.func

/-! ## Bodies -/

/-- What is known of a run that succeeds may be used. -/
theorem Safely.ran {α : Type} {s₀ : Compiler} {a : Emit α} {Q Q' : α → Compiler → Prop}
    (h : Safely (· = s₀) a Q) (hq : ∀ o v s, a o s₀ = .ok v s → Q v s → Q' v s) :
    Safely (· = s₀) a Q' := by
  intro o t ht
  subst ht
  have h := h o t rfl
  cases hr : a o t with
  | error f s =>
    rw [hr] at h
    exact h
  | ok v s =>
    rw [hr] at h
    exact hq o v s hr h

theorem settles_functionBody {d : FunctionDecl} (range : Span)
    (hs₀ : s₀.Fit id (.function d) .three) (hdue : s₀.Due id (.function d) .three) :
    Safely (· = s₀) (functionBody view id d range) fun _ s =>
      s₀.Settles s id (.function d) .three := by
  have howes {i : Ir.FunctionId} {ty : Ty} (hy : s₀.symbols.lookup id = some (.function i ty))
      (hbody : d.body.isSome = true) : s₀.Owes id (.function d) i :=
    .inl ⟨_, hy, if_pos hbody⟩
  refine (safely_functionBody hs₀.typed hs₀.calm view range (fun y hy => ?_)
    fun i ty hy hbody => ?_).ran fun o u s hr hs => ?_
  · obtain ⟨i, result, params, variadic, hi⟩ := hs₀.symbol y hy
    exact ⟨i, _, hi⟩
  · obtain ⟨p, hp, -⟩ := hdue.owed i (howes hy hbody)
    exact ⟨p, hp, hs₀.blank rfl i p (howes hy hbody) hp⟩
  · have hpasses := (passes_functionBody hdue.whole hr fun i ty hy hbody =>
      hdue.owed i (howes hy hbody)).1
    exact .of_passes hdue hs₀ hpasses (hs.2.mono fun i ⟨hbody, ty, hy⟩ => howes hy hbody)

/-- The bodies of the members that a declaration keeps. -/
theorem settles_memberBodies (module : ModId) {y : Symbol} {w : Home}
    (hs₀ : s₀.Fit id body .three) (hdue : s₀.Due id body .three)
    (hy : s₀.symbols.lookup id = some y) (hw : body.home? y = some w) :
    Safely (· = s₀) (memberBodies module ((s₀.types.membersAt w).getD []) body.members)
      fun _ s => s₀.Settles s id body .three := by
  have hkeeps : s₀.Keeps id body w := ⟨y, hy, hw⟩
  obtain ⟨ms, hms⟩ := Option.ne_none_iff_exists'.mp (hdue.kept w hkeeps)
  have howes (m : MemberFunction) (hm : m ∈ ms) : s₀.Owes id body m.function :=
    .inr ⟨w, ms, m, hkeeps, hms, hm, rfl⟩
  rw [hms, Option.getD_some]
  refine (safely_memberBodies hs₀.typed module ms _ hs₀.calm ⟨hs₀.members w ms hkeeps hms,
    fun m hm => ?_⟩).ran fun o u s hr hs => ?_
  · obtain ⟨p, hp, -⟩ := hdue.owed _ (howes m hm)
    exact ⟨p, hp, hs₀.blank rfl _ p (howes m hm) hp⟩
  · have hpasses := (passes_memberBodies hdue.whole (fun m hm => hdue.owed _ (howes m hm)) hr).1
    exact .of_passes hdue hs₀ hpasses (hs.2.mono fun i ⟨m, hm, hi⟩ => hi ▸ howes m hm)

theorem settles_structBodies {d : StructDecl} (hs₀ : s₀.Fit id (.struct d) .three)
    (hdue : s₀.Due id (.struct d) .three) :
    Safely (· = s₀) (structBodies view id d) fun _ s => s₀.Settles s id (.struct d) .three := by
  have htype : Safely (· = s₀) (typeSymbol id d.name.range) fun ty s =>
      s = s₀ ∧ s₀.symbols.lookup id = some (.type ty) := by
    refine (safely_symbolOf id d.name.range).bind fun y => .of_and fun hy => ?_
    obtain ⟨i, rfl⟩ := hs₀.symbol y hy
    exact .pure fun s hs => ⟨hs, hy⟩
  refine htype.bind fun ty => .of_and fun hy => ?_
  obtain ⟨sid, hi⟩ := hs₀.symbol _ hy
  cases hi
  refine Safely.bind (Q := fun t s => s = s₀ ∧ t = s₀.types)
    (fun _ s hs => by subst hs; exact ⟨rfl, rfl⟩) fun t => .of_and fun ht => ?_
  subst ht
  exact settles_memberBodies view.module hs₀ hdue hy rfl

theorem settles_doneBodies {d : DoSkillDecl} (hs₀ : s₀.Fit id (.doSkill d) .three)
    (hdue : s₀.Due id (.doSkill d) .three) :
    Safely (· = s₀) (doneBodies view id d) fun _ s => s₀.Settles s id (.doSkill d) .three := by
  refine (safely_symbolOf id d.range).bind fun y => .of_and fun hy => ?_
  obtain ⟨k, rfl⟩ := hs₀.symbol y hy
  refine Safely.bind (Q := fun t s => s = s₀ ∧ t = s₀.types)
    (fun _ s hs => by subst hs; exact ⟨rfl, rfl⟩) fun t => .of_and fun ht => ?_
  subst ht
  exact settles_memberBodies view.module hs₀ hdue hy rfl

end Emit

end Staged
