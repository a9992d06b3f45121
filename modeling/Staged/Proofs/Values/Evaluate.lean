/-
  Staged.Proofs.Values.Evaluate — evaluation stays in its domain.

  Expressions are evaluated on a ground, given that calls stay on it. Every form of
  expression gives a value that one of the rules of the domain puts there, so by induction
  on the syntax, which runs over types and expressions together, all of them do.
-/

import Staged.Proofs.Values.Logic

namespace Staged

namespace Ground

def Calls (g : Ground) (call : Emit.Caller) : Prop :=
  ∀ n f args range, (∀ c ∈ args, g.holds c) → g.Ends n (call f args range) g.holds

end Ground

namespace Emit

variable {g : Ground} {n : Nat}

/-! ## Helpers -/

theorem ends_asCondition (c : Constant) (range : Span) :
    g.Ends n (asCondition c range) fun _ => True := by
  unfold asCondition
  split
  · exact .pure trivial
  · exact ends_mismatch _ _ _

theorem ends_literalType (suffix : Option (Ty × Span)) (expected : Option Ty) :
    g.Ends n (literalType suffix expected) fun _ => True := by
  unfold literalType
  split
  · exact ends_types.bind fun t _ => ends_unless fun _ => .pure trivial
  · exact ends_types.bind fun t _ => .pure trivial

theorem ends_intLiteral (value : Nat) (negative : Bool) (suffix : Option (Ty × Span))
    (expected : Option Ty) (range : Span) :
    g.Ends n (intLiteral value negative suffix expected range) g.holds := by
  refine (ends_literalType suffix expected).bind fun ty _ => ends_types.bind fun t ht => ?_
  exact ends_orRefuse range fun c hc => g.literal ht hc

theorem ends_floatLiteral (value : Binary64) (suffix : Option (Ty × Span))
    (expected : Option Ty) (range : Span) :
    g.Ends n (floatLiteral value suffix expected range) g.holds := by
  refine ends_types.bind fun t ht => ends_guard fun hkind => .pure (g.float value ht ?_)
  rw [Option.isNone_iff_eq_none] at hkind
  exact Option.isSome_iff_ne_none.mpr hkind

theorem ends_defineValue (d : Define) (hd : ∀ v, d = .int v → g.holds (.int (.int 64) v))
    (expected : Option Ty) : g.Ends n (defineValue d expected) g.holds := by
  unfold defineValue
  split
  · exact .pure (g.bool _)
  · exact .pure (g.str _)
  · refine ends_types.bind fun t ht => ?_
    split
    · rename_i ty hty
      obtain ⟨-, hfits⟩ := Option.filter_eq_some_iff.mp hty
      obtain ⟨info, hinfo, hfits⟩ := Option.any_eq_true _ _ |>.mp hfits
      exact .pure (g.int ht hinfo hfits)
    · refine (ends_intern _).bind fun ty hty => ?_
      subst hty
      exact .pure (hd _ rfl)

theorem ends_typeConstant (ty : Ty) : g.Ends n (typeConstant ty) g.holds :=
  (ends_intern _).bind fun _ _ => .pure (g.type ty)

theorem ends_definedAs (name : QName) (e : ResolveError) (expected : Option Ty) :
    g.Ends n (definedAs name e expected) g.holds := by
  unfold definedAs
  split
  · refine ends_read.bind fun o ho => ?_
    split
    · rename_i d hd
      exact ends_defineValue d (fun v hv => g.defines ho (hv ▸ hd)) expected
    · exact ends_refuseName e
  · exact ends_refuseName e

/-! ## Names -/

theorem ends_namedType (view : Viewpoint) (name : QName) :
    g.Ends n (namedType view name) fun _ => True := by
  refine ends_frame?.bind fun frame _ => ?_
  split
  · exact ends_require _ _ fun _ _ => trivial
  · refine (ends_resolved view name).bind fun found _ => ?_
    split
    · exact ends_refuse _ _
    · refine (ends_symbolOf _ name.range).bind fun y _ => ?_
      split
      · exact .pure trivial
      · exact ends_require _ _ fun _ _ => trivial
      · exact ends_refuse _ _

/-- The condition under which a name is taken apart. -/
theorem segments_ne_nil {name : QName} {c : Bool}
    (h : (c && decide (name.segments.length > 1)) = true) : name.segments ≠ [] := by
  rintro hnil
  rw [hnil, Bool.and_eq_true, decide_eq_true_eq] at h
  exact Nat.not_lt_zero _ h.2

theorem ends_typeMember (view : Viewpoint) {name : QName} (hname : name.segments ≠ []) :
    g.Ends n (typeMember view name) fun _ => True := by
  unfold typeMember
  split
  · rename_i hlast
    exact absurd (List.getLast?_eq_none_iff.mp hlast) hname
  · exact (ends_namedType view _).bind fun _ _ => .pure trivial

theorem ends_namedConstant (view : Viewpoint) (name : QName) (expected : Option Ty) :
    g.Ends n (namedConstant view name expected) g.holds := by
  refine ends_frame?.bind fun frame hframe => ?_
  split
  · rename_i l hl
    obtain ⟨f, hf, hl⟩ := Option.bind_eq_some_iff.mp hl
    obtain ⟨i, -, hl⟩ := Option.bind_eq_some_iff.mp hl
    exact .pure ((hframe f hf).get hl)
  · refine (ends_localOf name).bind fun found hfound => ?_
    split
    · rename_i v
      refine ends_require _ _ fun c hc => hfound v rfl c ?_
      split at hc
      · cases hc
      · exact hc
    · refine (ends_resolveName view name).bind fun r _ => ?_
      split
      · exact ends_refuse _ _
      · refine (ends_symbolOf _ name.range).bind fun y hy => ?_
        split
        · exact .pure (hy _ rfl)
        · exact .pure (hy _ rfl)
        · exact ends_typeConstant _
        · exact ends_refuse _ _
      · split
        · rename_i hmember
          refine (ends_typeMember view (segments_ne_nil hmember)).bind fun ⟨ty, member⟩ _ => ?_
          refine ends_types.bind fun t ht => ends_orRefuse _ fun c hc => ?_
          exact g.variant ht (fun c hc => by cases hc) hc
        · exact ends_definedAs name _ expected

theorem ends_calledFunction? (view : Viewpoint) (callee : Expr) :
    g.Ends n (calledFunction? view callee) fun _ => True := by
  unfold calledFunction?
  split
  · rename_i name
    refine (ends_resolved view name).bind fun found _ => ?_
    split
    · exact .pure trivial
    · refine (ends_symbolOf _ name.range).bind fun y _ => ?_
      split <;> exact .pure trivial
  · exact .pure trivial

theorem ends_checkArgCount (f : PrerunFunction) (given : Nat) (range : Span) :
    g.Ends n (checkArgCount f given range) fun _ => True := by
  unfold checkArgCount
  split
  · exact ends_refuse _ _
  · exact .pure trivial

/-! ## Structs -/

/-- A test on every item. -/
theorem ends_forIn {α : Type} {body : α → Emit (ForInStep PUnit)}
    (hbody : ∀ a, g.Ends n (body a) (· = .yield PUnit.unit)) :
    ∀ items : List α, g.Ends n (forIn items PUnit.unit fun a _ => body a) fun _ => True
  | [] => .pure trivial
  | a :: items => by
    rw [List.forIn_cons]
    refine (hbody a).bind fun r hr => ?_
    subst hr
    exact ends_forIn hbody items

theorem ends_fieldOrder (view : Viewpoint) (ty : Ty) (names : Option (List Ident))
    (count : Nat) (range : Span) : g.Ends n (fieldOrder view ty names count range)
      fun _ => ∃ t, g.knows t ∧ (t.structOf? ty).isSome = true := by
  unfold fieldOrder
  refine ends_types.bind fun t ht => ?_
  refine (ends_require (Q := fun d => t.structOf? ty = some d) _ _ fun d hd => hd).bind
    fun d hd => ends_unless fun _ => ?_
  split
  · exact ends_refuse _ _
  · refine (ends_forIn (fun i => ?_) _).bind fun _ _ =>
      .pure ⟨t, ht, Option.isSome_of_eq_some hd⟩
    split
    · refine (ends_isAccessible view _).bind fun _ _ => ?_
      exact ends_unless fun _ => .pure rfl
    · exact .pure rfl

end Emit

/-- The fields that are placed are the values given for them. -/
theorem Emit.forall₂_placed {P : Data → Ty → Prop} {tys : List Ty} {values : List (Nat × Data)}
    {ds : List Data} (hplaced : placed tys.length values = some ds)
    (h : ∀ p ∈ values, P p.2 (tys[p.1]?.getD .void)) : List.Forall₂ P ds tys := by
  have hds := mapM_eq_some_iff.mp hplaced
  have hlen : ds.length = tys.length := by
    rw [← hds.length_eq, List.length_range]
  refine List.forall₂_iff_get.mpr ⟨hlen, fun i hi hi' => ?_⟩
  have hlookup := (List.forall₂_iff_get.mp hds).2 i (by rw [List.length_range]; exact hi') hi
  simp only [List.get_eq_getElem, List.getElem_range] at hlookup ⊢
  have := h _ (mem_of_lookup hlookup)
  rwa [List.getElem?_eq_getElem hi', Option.getD_some] at this

namespace Emit

variable {g : Ground} {n : Nat} {call : Caller} {view : Viewpoint}

/-! ## Expressions -/

/-- Two operands that are checked and computed with. -/
theorem ends_foldOperands {l r : Constant} (op : BinaryOp) (range : Span) (hl : g.holds l)
    (hr : g.holds r) :
    g.Ends n (do
      orRefuse ((← types).checkOperands op l.type r.type) range
      orRefuseFold ((← types).foldBinary op l r) range) g.holds := by
  refine ends_types.bind fun t _ => ?_
  refine (ends_orRefuse (Q := fun _ => True) range fun _ _ => trivial).bind fun _ _ => ?_
  refine ends_types.bind fun t ht => ?_
  exact ends_orRefuseFold range fun c hc => g.binary ht hl hr hc

section

variable {range : Span} {expected : Option Ty}

theorem ends_unary {op : UnaryOp} {operand : Expr}
    (hsuffix : ∀ r v s, operand = .int r v s → g.Ends n (suffixWith call view s) fun _ => True)
    (hoperand : g.Ends n (evaluateWith call view operand expected) g.holds) :
    g.Ends n (evaluateWith call view (.unary range op operand) expected) g.holds := by
  obtain ⟨r, v, s, hliteral, heq⟩ | heq := evaluateWith_unary call view range op operand expected
  · rw [heq]
    exact (hsuffix r v s hliteral).bind fun _ _ => ends_intLiteral _ _ _ _ _
  · rw [heq]
    refine hoperand.bind fun v hv => ends_types.bind fun t ht => ?_
    exact ends_orRefuseFold range fun c hc => g.unary ht hv hc

/-- An operand without a type of its own is evaluated after the other one. -/
theorem ends_binary {op : BinaryOp} {lhs rhs : Expr}
    (hlhs : ∀ ty, g.Ends n (evaluateWith call view lhs ty) g.holds)
    (hrhs : ∀ ty, g.Ends n (evaluateWith call view rhs ty) g.holds) :
    g.Ends n (evaluateWith call view (.binary range op lhs rhs) expected) g.holds := by
  unfold evaluateWith
  split
  · refine (hlhs _).bind fun l _ => (ends_asCondition l _).bind fun left _ => ?_
    split
    · exact .pure (g.bool _)
    · refine (hrhs _).bind fun r _ => ?_
      exact (ends_asCondition r _).bind fun right _ => .pure (g.bool _)
  · split
    · exact (hrhs _).bind fun r hr => (hlhs _).bind fun l hl => ends_foldOperands op range hl hr
    · exact (hlhs _).bind fun l hl => (hrhs _).bind fun r hr => ends_foldOperands op range hl hr

theorem ends_call {callee : Expr} {args : List Expr} (hcall : g.Calls call)
    (hargs : ∀ hints, g.Ends n (evaluateEachWith call view args hints) fun vs =>
      ∀ v ∈ vs, g.holds v) :
    g.Ends n (evaluateWith call view (.call range callee args) expected) g.holds := by
  unfold evaluateWith
  refine (ends_calledFunction? view callee).bind fun _ _ => ?_
  refine (ends_require (Q := fun _ => True) _ _ fun _ _ => trivial).bind fun f _ => ?_
  refine (ends_checkArgCount f _ _).bind fun _ _ => ?_
  exact (hargs _).bind fun vs hvs => hcall n f vs range hvs

theorem ends_variant {type : TypeExpr} {name : Ident} {value : Option Expr}
    (htype : g.Ends n (resolveTypeWith call view type) fun _ => True)
    (hvalue : ∀ ty, g.Ends n (evaluateOptionWith call view value ty) fun r =>
      ∀ c, r = some c → g.holds c) :
    g.Ends n (evaluateWith call view (.variant range type name value) expected) g.holds := by
  unfold evaluateWith
  refine htype.bind fun ty _ => ends_types.bind fun _ _ => ?_
  refine (hvalue _).bind fun payload hpayload => ends_types.bind fun t ht => ?_
  exact ends_orRefuse _ fun c hc => g.variant ht hpayload hc

/-- The values of a struct are put in the order of its fields. -/
theorem ends_plain {type : TypeExpr} {fields : Option (List Ident)} {values : List Expr}
    (htype : g.Ends n (resolveTypeWith call view type) fun _ => True)
    (hvalues : ∀ tys order, g.Ends n (evaluateFieldsWith call view range values tys order)
      fun vs => ∀ p ∈ vs, g.holds ⟨p.2, tys[p.1]?.getD .void⟩) :
    g.Ends n (evaluateWith call view (.plain range type fields values) expected) g.holds := by
  unfold evaluateWith
  refine htype.bind fun ty _ => ends_types.bind fun _ _ => ends_unless fun _ => ?_
  refine (ends_fieldOrder view ty fields _ range).bind fun order ⟨t, ht, hstruct⟩ => ?_
  refine ends_types.bind fun t' ht' => (hvalues _ order).bind fun vs hvs => ?_
  refine (ends_require (Q := fun ds => placed _ vs = some ds) _ _ fun ds hds => hds).bind
    fun ds hds => ?_
  exact .pure (g.struct ht ht' hstruct (forall₂_placed hds hvs))

end

mutual

theorem ends_resolveTypeWith (hcall : g.Calls call) :
    ∀ ty : TypeExpr, g.Ends n (resolveTypeWith call view ty) fun _ => True
  | .int .. | .uint .. | .float .. | .native .. => by
    unfold resolveTypeWith
    exact (ends_intern _).mono fun _ _ => trivial
  | .bool _ | .char _ | .void _ | .str _ => by
    unfold resolveTypeWith
    exact .pure trivial
  | .named _ name => by
    unfold resolveTypeWith
    exact ends_namedType view name
  | .mark _ sub owner _ _ _ => by
    unfold resolveTypeWith
    refine (ends_resolveTypeWith hcall sub).bind fun _ _ => ?_
    refine (ends_resolveOwnerWith hcall owner).bind fun _ _ => ?_
    exact (ends_intern _).mono fun _ _ => trivial
  | .ref _ sub _ => by
    unfold resolveTypeWith
    refine (ends_resolveTypeWith hcall sub).bind fun _ _ => ends_guard fun _ => ?_
    exact (ends_intern _).mono fun _ _ => trivial
  | .array _ element length => by
    unfold resolveTypeWith
    refine (ends_resolveTypeWith hcall element).bind fun _ _ => ?_
    refine (ends_evaluateWith hcall length _).bind fun c _ => ?_
    split
    · refine ends_types.bind fun t _ => ?_
      split
      · exact (ends_intern _).mono fun _ _ => trivial
      · exact ends_refuse _ _
    · exact ends_refuse _ _
  | .vector _ element _ _ => by
    unfold resolveTypeWith
    refine (ends_resolveTypeWith hcall element).bind fun _ _ => ?_
    refine ends_types.bind fun t _ => ends_unless fun _ => ?_
    exact (ends_intern _).mono fun _ _ => trivial
  | .tuple _ members _ => by
    unfold resolveTypeWith
    refine (ends_resolveTypesWith hcall members).bind fun _ _ => ?_
    exact (ends_intern _).mono fun _ _ => trivial
  | .function _ result args _ => by
    unfold resolveTypeWith
    refine (ends_resolveTypeWith hcall result).bind fun _ _ => ?_
    refine (ends_resolveTypesWith hcall args).bind fun _ _ => ?_
    exact (ends_intern _).mono fun _ _ => trivial
  | .future _ sub _ | .maybe _ sub | .typed _ sub => by
    unfold resolveTypeWith
    refine (ends_resolveTypeWith hcall sub).bind fun _ _ => ?_
    exact (ends_intern _).mono fun _ _ => trivial

theorem ends_resolveOwnerWith (hcall : g.Calls call) :
    ∀ owner : Owner TypeExpr, g.Ends n (resolveOwnerWith call view owner) fun _ => True
  | .anonymous | .heap => by
    unfold resolveOwnerWith
    exact .pure trivial
  | .type owner => by
    unfold resolveOwnerWith
    exact (ends_resolveTypeWith hcall owner).bind fun _ _ => .pure trivial

theorem ends_resolveTypesWith (hcall : g.Calls call) :
    ∀ tys : List TypeExpr, g.Ends n (resolveTypesWith call view tys) fun _ => True
  | [] => by
    unfold resolveTypesWith
    exact .pure trivial
  | ty :: tys => by
    unfold resolveTypesWith
    refine (ends_resolveTypeWith hcall ty).bind fun _ _ => ?_
    exact (ends_resolveTypesWith hcall tys).bind fun _ _ => .pure trivial

theorem ends_suffixWith (hcall : g.Calls call) :
    ∀ suffix : Option TypeExpr, g.Ends n (suffixWith call view suffix) fun _ => True
  | none => by
    unfold suffixWith
    exact .pure trivial
  | some ty => by
    unfold suffixWith
    exact (ends_resolveTypeWith hcall ty).bind fun _ _ => .pure trivial

theorem ends_evaluateWith (hcall : g.Calls call) :
    ∀ (e : Expr) (expected : Option Ty), g.Ends n (evaluateWith call view e expected) g.holds
  | .int range value suffix, expected => by
    unfold evaluateWith
    exact (ends_suffixWith hcall suffix).bind fun _ _ => ends_intLiteral _ _ _ _ _
  | .float range value suffix, expected => by
    unfold evaluateWith
    exact (ends_suffixWith hcall suffix).bind fun _ _ => ends_floatLiteral _ _ _ _
  | .bool _ value, _ => by
    unfold evaluateWith
    exact .pure (g.bool value)
  | .char _ value, _ => by
    unfold evaluateWith
    exact .pure (g.char value)
  | .str _ value, _ => by
    unfold evaluateWith
    exact .pure (g.str value)
  | .null range, expected => by
    unfold evaluateWith
    refine (ends_require (Q := fun ty : Ty => ty.isMark = true) _ _ fun ty hty =>
      (Option.filter_eq_some_iff.mp hty).2).bind fun ty hty => ?_
    exact .pure (g.null hty)
  | .default range, expected => by
    unfold evaluateWith
    refine (ends_require (Q := fun _ => True) _ _ fun _ _ => trivial).bind fun ty _ => ?_
    refine ends_types.bind fun t ht => ?_
    exact ends_orRefuse _ fun c hc => g.default ht hc
  | .none range, expected => by
    unfold evaluateWith
    refine (ends_require (Q := fun ty : Ty => ty.maybe?.isSome = true) _ _ fun ty hty =>
      (Option.filter_eq_some_iff.mp hty).2).bind fun ty hty => ?_
    exact .pure (g.none hty)
  | .some _ inner, expected => by
    unfold evaluateWith
    refine (ends_evaluateWith hcall inner _).bind fun v hv => ?_
    refine (ends_intern _).bind fun ty hty => ?_
    subst hty
    exact .pure (g.some hv)
  | .tuple _ items, expected => by
    unfold evaluateWith
    refine (ends_evaluateEachWith hcall items _).bind fun vs hvs => ?_
    refine (ends_intern _).bind fun ty hty => ?_
    subst hty
    exact .pure (g.tuple hvs)
  | .array range items, expected => by
    unfold evaluateWith
    refine (ends_evaluateItemsWith hcall items _).bind fun ⟨element, vs⟩ hvs => ?_
    refine (ends_require (Q := fun ty => element = some ty) _ _ fun ty hty => hty).bind
      fun ty hty => ?_
    refine (ends_intern _).bind fun whole hwhole => ?_
    subst hwhole
    exact .pure (g.array fun d hd => hvs.2 d hd ty hty)
  | .entity _ name, expected => by
    unfold evaluateWith
    exact ends_namedConstant view name expected
  | .unary range op operand, expected => by
    refine ends_unary ?_ (ends_evaluateWith hcall operand expected)
    cases operand with
    | int range value suffix =>
      intro _ _ _ h
      cases h
      exact ends_suffixWith hcall suffix
    | _ => exact nofun
  | .binary range op lhs rhs, _ =>
    ends_binary (ends_evaluateWith hcall lhs) (ends_evaluateWith hcall rhs)
  | .index range base position, _ => by
    unfold evaluateWith
    refine (ends_evaluateWith hcall base _).bind fun b hb => ?_
    refine (ends_evaluateWith hcall position _).bind fun _ _ => ?_
    refine (ends_require (Q := fun _ => True) _ _ fun _ _ => trivial).bind fun i _ => ?_
    exact ends_orRefuse _ fun c hc => g.index hb hc
  | .member _ base name, _ => by
    unfold evaluateWith
    refine (ends_evaluateWith hcall base _).bind fun b hb => ends_types.bind fun t ht => ?_
    exact ends_orRefuse _ fun c hc => g.member ht hb hc
  | .call range callee args, _ => ends_call hcall (ends_evaluateEachWith hcall args)
  | .cast range value target, _ => by
    unfold evaluateWith
    refine (ends_resolveTypeWith hcall target).bind fun ty _ => ?_
    refine (ends_evaluateWith hcall value _).bind fun v hv => ends_types.bind fun t ht => ?_
    exact ends_orRefuseFold _ fun c hc => g.cast ht hv hc
  | .ifElse _ condition thenValue elseValue, expected => by
    unfold evaluateWith
    refine (ends_evaluateWith hcall condition _).bind fun c _ => ?_
    refine (ends_asCondition c _).bind fun holds _ => ?_
    split
    · exact ends_evaluateWith hcall thenValue expected
    · exact ends_evaluateWith hcall elseValue expected
  | .sizeOf range type, _ => by
    unfold evaluateWith
    refine (ends_resolveTypeWith hcall type).bind fun ty _ => ends_types.bind fun t _ => ?_
    refine (ends_require (Q := fun _ => True) _ _ fun _ _ => trivial).bind fun size _ => ?_
    exact .pure (g.usize _)
  | .typeValue _ type, _ => by
    unfold evaluateWith
    exact (ends_resolveTypeWith hcall type).bind fun ty _ => ends_typeConstant ty
  | .variant _ type name value, _ =>
    ends_variant (ends_resolveTypeWith hcall type) (ends_evaluateOptionWith hcall value)
  | .plain range type fields values, _ =>
    ends_plain (ends_resolveTypeWith hcall type) (ends_evaluateFieldsWith hcall range values)
  | .todo range message, _ => by
    unfold evaluateWith
    exact (ends_unfinished message range).bind fun _ _ => .pure g.void
  | .self _, _ | .selfMember .., _ | .deref .., _ | .addressOf .., _ | .copy .., _ | .move .., _
  | .methodCall .., _ | .construct .., _ | .heapGet .., _ | .heapPut .., _ | .heapGrow .., _
  | .await .., _ | .assembly .., _ => by
    unfold evaluateWith
    exact ends_refuse _ _

theorem ends_evaluateEachWith (hcall : g.Calls call) :
    ∀ (es : List Expr) (hints : List Ty),
      g.Ends n (evaluateEachWith call view es hints) fun vs => ∀ v ∈ vs, g.holds v
  | [], _ => by
    unfold evaluateEachWith
    exact .pure fun _ h => by cases h
  | e :: es, hints => by
    unfold evaluateEachWith
    refine (ends_evaluateWith hcall e _).bind fun v hv => ?_
    refine (ends_evaluateEachWith hcall es _).bind fun vs hvs => ?_
    exact .pure (List.forall_mem_cons.mpr ⟨hv, hvs⟩)

/-- The items have the type of the first, and the one that was asked for. -/
theorem ends_evaluateItemsWith (hcall : g.Calls call) :
    ∀ (es : List Expr) (element : Option Ty),
      g.Ends n (evaluateItemsWith call view es element) fun r =>
        (∀ ty, element = some ty → r.1 = some ty) ∧
          ∀ d ∈ r.2, ∀ ty, r.1 = some ty → g.holds ⟨d, ty⟩
  | [], element => by
    unfold evaluateItemsWith
    exact .pure ⟨fun _ h => h, fun _ h => by cases h⟩
  | e :: es, element => by
    have hrest (v : Constant) (hv : g.holds v) (helement : ∀ ty, element = some ty → ty = v.type) :
        g.Ends n (do
          let r ← evaluateItemsWith call view es (some v.type)
          return (r.1, v.data :: r.2)) fun r =>
        (∀ ty, element = some ty → r.1 = some ty) ∧
          ∀ d ∈ r.2, ∀ ty, r.1 = some ty → g.holds ⟨d, ty⟩ := by
      refine (ends_evaluateItemsWith hcall es _).bind fun r hr => .pure ⟨fun ty hty => ?_, ?_⟩
      · rw [helement ty hty]
        exact hr.1 v.type rfl
      · refine List.forall_mem_cons.mpr ⟨fun ty hty => ?_, hr.2⟩
        rw [hr.1 v.type rfl] at hty
        cases hty
        exact hv
    unfold evaluateItemsWith
    refine (ends_evaluateWith hcall e element).bind fun v hv => ?_
    cases element with
    | none => exact hrest v hv fun ty hty => by cases hty
    | some ty =>
      refine ends_guard fun hne => hrest v hv fun ty' hty' => ?_
      cases hty'
      exact Decidable.not_not.mp hne

theorem ends_evaluateOptionWith (hcall : g.Calls call) :
    ∀ (e : Option Expr) (expected : Option Ty),
      g.Ends n (evaluateOptionWith call view e expected) fun r => ∀ c, r = some c → g.holds c
  | none, _ => by
    unfold evaluateOptionWith
    exact .pure fun _ h => by cases h
  | some e, expected => by
    unfold evaluateOptionWith
    refine (ends_evaluateWith hcall e expected).bind fun v hv => .pure fun c hc => ?_
    cases hc
    exact hv

theorem ends_evaluateFieldsWith (hcall : g.Calls call) (range : Span) :
    ∀ (es : List Expr) (tys : List Ty) (order : List Nat),
      g.Ends n (evaluateFieldsWith call view range es tys order) fun vs =>
        ∀ p ∈ vs, g.holds ⟨p.2, tys[p.1]?.getD .void⟩
  | [], _, _ | _ :: _, _, [] => by
    unfold evaluateFieldsWith
    exact .pure fun _ h => by cases h
  | e :: es, tys, i :: order => by
    unfold evaluateFieldsWith
    refine (ends_evaluateWith hcall e _).bind fun v hv => ends_guard fun htype => ?_
    refine (ends_evaluateFieldsWith hcall range es tys order).bind fun vs hvs => ?_
    refine .pure (List.forall_mem_cons.mpr ⟨?_, hvs⟩)
    rw [← Decidable.not_not.mp htype]
    exact hv

end

end Emit

end Staged
