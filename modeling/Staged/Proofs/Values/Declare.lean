/-
  Staged.Proofs.Values.Declare — what declarations evaluate.

  Before a declaration changes anything, its types are resolved, its values evaluated and
  its parts checked against each other. All of this stays on the ground it starts from.
-/

import Staged.Declare.Bring
import Staged.Declare.Global
import Staged.Declare.Skill
import Staged.Proofs.Lowering.Declare
import Staged.Proofs.Values.Calls

namespace Staged

def Ground.Sized (g : Ground) (ty : Ty) : Prop := ∃ t, g.knows t ∧ t.isSized ty = true

namespace Emit

variable {g : Ground} {n : Nat} {α β : Type}

theorem ends_mapM {f : α → Emit β} (hf : ∀ a, g.Ends n (f a) fun _ => True) :
    ∀ as : List α, g.Ends n (as.mapM f) fun bs => bs.length = as.length
  | [] => by
    rw [List.mapM_nil]
    exact .pure rfl
  | a :: as => by
    rw [List.mapM_cons]
    exact (hf a).bind fun _ _ => (ends_mapM hf as).bind fun _ hbs => .pure (congrArg (· + 1) hbs)

/-- A value that something may be missing for. -/
theorem ends_requireAny (value : Option α) (f : Fault) (range : Span) :
    g.Ends n (require value f range) fun _ => True :=
  ends_require f range fun _ _ => trivial

theorem ends_modules : g.Ends n modules fun _ => True := fun _ _ _ hs => ⟨hs, trivial⟩

theorem ends_requireSized (ty : Ty) (range : Span) :
    g.Ends n (requireSized ty range) fun _ => g.Sized ty := by
  refine ends_types.bind fun t ht => ?_
  split
  · exact .pure ⟨t, ht, ‹_›⟩
  · exact ends_refuse _ _

theorem ends_fullNameOf (module : ModId) (name : Ident) :
    g.Ends n (fullNameOf module name) fun _ => True :=
  ends_modules.bind fun _ _ => .pure trivial

theorem ends_visibilityOf (vis : VisSpec) (module : ModId) (parent : Option Ty) :
    g.Ends n (visibilityOf vis module parent) fun _ => True :=
  ends_modules.bind fun _ _ => .pure trivial

theorem ends_checkUniqueAfter (what : String) :
    ∀ seen names : List Ident, g.Ends n (checkUniqueAfter what seen names) fun _ => True
  | _, [] => by
    unfold checkUniqueAfter
    exact .pure trivial
  | seen, name :: rest => by
    unfold checkUniqueAfter
    split
    · exact ends_refuse _ _
    · exact ends_checkUniqueAfter what _ rest

theorem ends_checkUnique (what : String) (names : List Ident) :
    g.Ends n (checkUnique what names) fun _ => True := ends_checkUniqueAfter what [] names

/-! ## Signatures -/

theorem ends_paramType (view : Viewpoint) (signature : Signature) (a : Argument) :
    g.Ends n (paramType view signature a) fun _ => True := by
  refine ends_guard fun _ => (ends_requireAny _ _ _).bind fun ty _ => ?_
  exact (ends_resolveType view ty).bind fun ty _ => ends_guard fun _ => .pure trivial

theorem ends_paramTypes (view : Viewpoint) (signature : Signature) (args : List Argument) :
    g.Ends n (paramTypes view signature args) fun _ => True :=
  (ends_checkUnique _ _).bind fun _ _ =>
    (ends_mapM (ends_paramType view signature) args).mono fun _ _ => trivial

theorem ends_resultTypeOf (view : Viewpoint) (ty : Option TypeExpr) :
    g.Ends n (resultTypeOf view ty) fun _ => True :=
  (ends_resolveTypeOption view ty).bind fun _ _ => .pure trivial

/-! ## Values of compile time -/

theorem ends_declaredValue (view : Viewpoint) (type : Option TypeExpr) (value : Expr) :
    g.Ends n (declaredValue view type value) g.holds := by
  refine (ends_resolveTypeOption view type).bind fun declared _ => ?_
  refine (ends_evaluate view value declared).bind fun c hc => ?_
  split
  · split
    · exact (ends_mismatch (Q := fun _ => False) _ _ _).bind fun _ h => h.elim
    · exact .pure hc
  · exact .pure hc

theorem ends_requirePrerun (ty : Ty) (place : PrerunPlace) (range : Span) :
    g.Ends n (requirePrerun ty place range) fun _ => True := by
  refine ends_types.bind fun t _ => ?_
  split
  · exact .pure trivial
  · exact ends_refuse _ _

theorem ends_prerunArg (view : Viewpoint) (function : Ident) (a : Argument) :
    g.Ends n (prerunArg view function a) fun _ => True := by
  refine ends_guard fun _ => (ends_requireAny _ _ _).bind fun ty _ => ?_
  refine (ends_resolveType view ty).bind fun ty _ => ?_
  exact (ends_requirePrerun ty _ _).bind fun _ _ => .pure trivial

theorem ends_prerunResult (view : Viewpoint) (function : Ident) (result : Option TypeExpr) :
    g.Ends n (prerunResult view function result) fun _ => True := by
  cases result with
  | none => exact .pure trivial
  | some e =>
    refine (ends_resolveType view e).bind fun ty _ => ?_
    dsimp only
    split
    · exact (ends_requirePrerun ty _ _).bind fun _ _ => .pure trivial
    · exact .pure trivial

/-! ## Members -/

/-- A declared type, which has to be that of the field. -/
theorem ends_fieldArg (view : Viewpoint) (parent : Ty) (kind : MemberKind) (a : Argument) :
    g.Ends n (fieldArg view parent kind a) fun _ => True := by
  refine ends_unless fun _ => ends_types.bind fun t _ => ?_
  refine (ends_requireAny _ _ _).bind fun found _ => ?_
  dsimp only
  split
  · refine (ends_resolveType view _).bind fun ty _ => ?_
    split
    · exact (ends_mismatch (Q := fun _ => False) _ _ _).bind fun _ h => h.elim
    · exact .pure trivial
  · exact .pure trivial

theorem ends_memberArg (view : Viewpoint) (parent : Ty) (kind : MemberKind) (a : Argument) :
    g.Ends n (memberArg view parent kind a) fun _ => True := by
  unfold memberArg
  split
  · exact ends_fieldArg view parent kind a
  · refine (ends_requireAny _ _ _).bind fun ty _ => ?_
    exact (ends_resolveType view ty).bind fun ty _ => ends_guard fun _ => .pure trivial

theorem ends_otherArg (parent : Ty) (kind : MemberKind) (range : Span) :
    g.Ends n (otherArg parent kind range) fun other =>
      other.map MemberArg.type = (kind.otherIsVar?.map (Ty.ref parent)).toList := by
  unfold otherArg
  split
  · rename_i isVar hkind
    refine (ends_intern _).bind fun ty hty => .pure ?_
    rw [hkind, hty]
    rfl
  · rename_i hkind
    rw [hkind]
    exact .pure rfl

theorem ends_selfTypes (parent : Ty) (kind : MemberKind) :
    g.Ends n (selfTypes parent kind) fun self =>
      self = if kind.hasSelf then [.markTo parent kind.isVariation] else [] := by
  unfold selfTypes
  split
  · refine (ends_intern _).bind fun ty hty => .pure ?_
    rw [hty]
  · exact .pure rfl

theorem ends_memberResult (view : Viewpoint) (kind : MemberKind) (d : MemberDecl) :
    g.Ends n (memberResult view kind d) fun _ => True := by
  unfold memberResult
  split
  · split
    · exact ends_refuse _ _
    · exact .pure trivial
  · split
    · exact (ends_requireAny _ _ _).bind fun ty _ => ends_resolveType view ty
    · exact ends_resultTypeOf view d.result

theorem ends_checkArity (parent : Ty) (kind : MemberKind) (d : MemberDecl) :
    g.Ends n (checkArity parent kind d) fun _ =>
      ∀ count, kind.fixedArity? = some count → d.args.length = count := by
  unfold checkArity
  split
  · rename_i expected hkind
    split
    · exact ends_refuse _ _
    · refine .pure fun count hcount => ?_
      cases hkind.symm.trans hcount
      exact not_not.mp ‹_›
  · rename_i hkind
    exact .pure fun count hcount => (hkind count hcount).elim

theorem ends_checkClash (m : MemberFunction) : g.Ends n (checkClash m) fun _ => True := by
  refine ends_types.bind fun t _ => ?_
  split
  · exact ends_refuse _ _
  · exact .pure trivial

/-! ## Types -/

theorem ends_structField (view : Viewpoint) (type : Ty) (owner : Ident) (f : FieldDecl) :
    g.Ends n (structField view type owner f) fun field => g.Sized field.type := by
  refine (ends_resolveType view f.type).bind fun ty _ => ends_guard fun _ => ends_guard fun _ => ?_
  refine (ends_requireSized ty _).bind fun _ hsized => ?_
  exact (ends_visibilityOf _ _ _).bind fun _ _ => .pure hsized

theorem ends_structFields (view : Viewpoint) (type : Ty) (owner : Ident) :
    ∀ (done : List FieldDef) (fs : List FieldDecl), (∀ f ∈ done, g.Sized f.type) →
      g.Ends n (structFields view type owner done fs) fun fields => ∀ f ∈ fields, g.Sized f.type
  | _, [], hdone => by
    unfold structFields
    exact .pure hdone
  | done, f :: fs, hdone => by
    unfold structFields
    split
    · exact ends_refuse _ _
    · refine (ends_structField view type owner f).bind fun field hfield => ?_
      refine ends_structFields view type owner _ fs fun f hf => ?_
      rcases List.mem_append.mp hf with hf | hf
      · exact hdone f hf
      · exact List.mem_singleton.mp hf ▸ hfield

theorem ends_mixPayload (view : Viewpoint) (type : Ty) (variant : Ident) (payload : TypeExpr) :
    g.Ends n (mixPayload view type variant payload) g.Sized := by
  refine (ends_resolveType view payload).bind fun ty _ => ends_guard fun _ => ?_
  exact (ends_requireSized ty _).bind fun _ hsized => .pure hsized

theorem ends_mixVariantList (view : Viewpoint) (type : Ty) (owner : Ident) :
    ∀ (done : List MixVariant) (vs : List MixVariantDecl),
      (∀ v ∈ done, ∀ ty, v.payload = some ty → g.Sized ty) →
      g.Ends n (mixVariantList view type owner done vs) fun variants =>
        ∀ v ∈ variants, ∀ ty, v.payload = some ty → g.Sized ty
  | _, [], hdone => by
    unfold mixVariantList
    exact .pure hdone
  | done, v :: vs, hdone => by
    have hrest (payload : Option Ty) (hpayload : ∀ ty, payload = some ty → g.Sized ty) :=
      ends_mixVariantList view type owner (done ++ [⟨v.name, payload⟩]) vs fun x hx => by
        rcases List.mem_append.mp hx with hx | hx
        · exact hdone x hx
        · exact List.mem_singleton.mp hx ▸ hpayload
    unfold mixVariantList
    split
    · exact ends_refuse _ _
    · dsimp only
      split
      · refine Ground.Ends.bind (Q := fun payload => ∀ ty, payload = some ty → g.Sized ty) ?_ hrest
        refine (ends_mixPayload view type v.name _).map fun ty hty ty' hty' => ?_
        cases hty'
        exact hty
      · exact hrest none fun ty hty => by cases hty

/-- The default of a mix is a position among its variants. -/
theorem ends_mixDefault (owner : Ident) (variants : List MixVariant) (name : Option Ident) :
    g.Ends n (mixDefault owner variants name) fun default =>
      ∀ i, default = some i → i < variants.length := by
  unfold mixDefault
  split
  · exact .pure nofun
  · refine (ends_require (Q := fun found => found.2 < variants.length) _ _ fun found hfound =>
      (List.mem_zipIdx' (List.mem_of_find?_eq_some hfound)).1).bind fun found hfound => ?_
    refine ends_guard fun _ => .pure fun i hi => ?_
    cases hi
    exact hfound

theorem ends_choiceUnderlying (view : Viewpoint) (ty : Option TypeExpr) :
    g.Ends n (choiceUnderlying view ty) fun written => ∀ ty info, written = some (ty, info) →
      ∃ t : TypeTable, t.isIntegral ty = true := by
  unfold choiceUnderlying
  split
  · exact .pure fun _ _ h => by cases h
  · refine (ends_resolveType view _).bind fun ty _ => ends_types.bind fun t _ => ?_
    refine (ends_require (Q := fun info => t.intInfo? ty = some info) _ _ fun info hinfo =>
      hinfo).bind fun info hinfo => .pure fun ty' info' h => ?_
    cases h
    exact ⟨t, Option.isSome_of_eq_some hinfo⟩

theorem ends_writtenNumber (view : Viewpoint) (expected : Option Ty) (v : ChoiceVariantDecl) :
    g.Ends n (writtenNumber view expected v) fun _ => True := by
  unfold writtenNumber
  split
  · exact .pure trivial
  · refine (ends_evaluate view _ expected).bind fun c _ => ends_types.bind fun t _ => ?_
    exact (ends_requireAny _ _ _).bind fun _ _ => .pure trivial

theorem ends_numberType (underlying : Option (Ty × IntInfo)) (variants : List ChoiceVariantDecl)
    (values : List Int) (h : ∀ ty info, underlying = some (ty, info) →
      ∃ t : TypeTable, t.isIntegral ty = true) :
    g.Ends n (numberType underlying variants values) fun ty =>
      ∃ t : TypeTable, t.isIntegral ty = true := by
  unfold numberType
  split
  · split
    · exact ends_refuse _ _
    · exact .pure (h _ _ rfl)
  · refine (ends_intern _).mono fun ty hty => ⟨.ofPointerWidth 0, ?_⟩
    subst hty
    split <;> rfl

theorem ends_choiceDefault (d : ChoiceDecl) : g.Ends n (choiceDefault d) fun _ => True := by
  unfold choiceDefault
  split
  · exact .pure trivial
  · exact (ends_requireAny _ _ _).bind fun _ _ => .pure trivial

/-! ## Skills -/

theorem ends_skillPrototype (view : Viewpoint) (skill : Ident) (p : PrototypeDecl) :
    g.Ends n (skillPrototype view skill p) fun _ => True :=
  (ends_paramTypes view _ p.args).bind fun _ _ =>
    (ends_resultTypeOf view p.result).bind fun _ _ => .pure trivial

theorem ends_skillTarget (view : Viewpoint) (d : DoSkillDecl) :
    g.Ends n (skillTarget view d) (·.isRef = false) := by
  refine (ends_resolveType view d.target).bind fun ty _ => ends_guard fun htarget => .pure ?_
  rw [Bool.or_eq_true, not_or] at htarget
  exact Bool.eq_false_iff.mpr htarget.2

theorem ends_skillNamed (view : Viewpoint) (name : Option QName) :
    g.Ends n (skillNamed view name) fun _ => True := by
  unfold skillNamed
  split
  · exact .pure trivial
  · refine (ends_resolved view _).bind fun found _ => ?_
    split
    · exact ends_refuse _ _
    · refine (ends_symbolOf _ _).bind fun y _ => ?_
      split
      · exact .pure trivial
      · exact ends_refuse _ _

theorem ends_checkProvided (skill : SkillDef) (target : Ty) (members : List MemberFunction)
    (range : Span) :
    ∀ ps : List SkillPrototype,
      g.Ends n (checkProvided skill target members range ps) fun _ => True
  | [] => by
    unfold checkProvided
    exact .pure trivial
  | p :: ps => by
    unfold checkProvided
    split
    · exact ends_refuse _ _
    · exact ends_unless fun _ => ends_checkProvided skill target members range ps

end Emit

end Staged
