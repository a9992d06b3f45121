/-
  Staged.Proofs.Frames.Evaluate — expressions leave the running calls alone.

  Evaluating a name reads the frame of the running call, and nothing in an expression
  writes it: only sentences do, and an expression reaches them through calls. So if calls
  leave the frames as they are, whether they give a result or fail, then so do expressions
  and types (`LeavesFrames`), by induction on the syntax.
-/

import Staged.Known.Evaluate
import Staged.Proofs.Lowering.Logic

namespace Staged.Emit

variable {α β : Type} {a : Emit α} {k : α → Emit β}

/-- The frames of the running calls after an action, however it ends. -/
def framesAfter (a : Emit α) (o : Options) (s : Compiler) : List Frame :=
  match a o s with
  | .ok _ s' | .error _ s' => s'.frames

/-- The running calls are the same after the action, with the same locals. -/
def LeavesFrames (a : Emit α) : Prop := ∀ o s, framesAfter a o s = s.frames

theorem framesAfter_bind (a : Emit α) (k : α → Emit β) (o : Options) (s : Compiler) :
    framesAfter (a >>= k) o s = match a o s with
      | .ok v s' => framesAfter (k v) o s'
      | .error _ s' => s'.frames := by
  unfold framesAfter
  rw [bind_apply]
  cases a o s <;> rfl

/-! ## Actions on the state -/

namespace LeavesFrames

theorem pure (v : α) : LeavesFrames (pure v : Emit α) := fun _ _ => rfl

theorem bind (ha : LeavesFrames a) (hk : ∀ v, LeavesFrames (k v)) : LeavesFrames (a >>= k) := by
  intro o s
  have h := ha o s
  unfold framesAfter at h
  rw [framesAfter_bind]
  cases hr : a o s with
  | ok v s' =>
    rw [hr] at h
    exact (hk v o s').trans h
  | error f s' =>
    rw [hr] at h
    exact h

theorem map {f : α → β} (ha : LeavesFrames a) : LeavesFrames (f <$> a) := by
  rw [← bind_pure_comp]
  exact ha.bind fun v => .pure (f v)

theorem ite {c : Prop} [Decidable c] {a b : Emit α} (ha : LeavesFrames a) (hb : LeavesFrames b) :
    LeavesFrames (if c then a else b) := by
  split
  · exact ha
  · exact hb

end LeavesFrames

theorem leaves_refuse (f : Fault) (range : Span) : LeavesFrames (refuse f range : Emit α) :=
  fun _ _ => rfl

theorem leaves_breach (b : Breach) : LeavesFrames (breach b : Emit α) := fun _ _ => rfl

theorem leaves_mismatch (expected found : Ty) (range : Span) :
    LeavesFrames (mismatch expected found range : Emit α) := leaves_refuse _ _

theorem leaves_refuseName (e : ResolveError) : LeavesFrames (refuseName e : Emit α) :=
  leaves_refuse _ _

theorem leaves_require (value : Option α) (f : Fault) (range : Span) :
    LeavesFrames (require value f range) := by
  cases value with
  | none => exact leaves_refuse f range
  | some v => exact .pure v

theorem leaves_orRefuse (r : Except Fault α) (range : Span) : LeavesFrames (orRefuse r range) := by
  cases r with
  | ok v => exact .pure v
  | error f => exact leaves_refuse f range

theorem leaves_orRefuseFold (r : Except FoldError α) (range : Span) :
    LeavesFrames (orRefuseFold r range) := by
  cases r with
  | ok v => exact .pure v
  | error e => exact leaves_refuse _ range

/-- A test that stops everything. -/
theorem leaves_guard {c : Prop} [Decidable c] {f : Fault} {range : Span} {k : α → Emit β}
    {rest : Emit β} (h : LeavesFrames rest) :
    LeavesFrames (if c then refuse f range >>= k else rest) :=
  .ite (fun _ _ => rfl) h

/-- A test that everything depends on. -/
theorem leaves_unless {c : Prop} [Decidable c] {f : Fault} {range : Span} {k : α → Emit β}
    {rest : Emit β} (h : LeavesFrames rest) :
    LeavesFrames (if c then rest else refuse f range >>= k) :=
  .ite h fun _ _ => rfl

theorem leaves_read : LeavesFrames (read : Emit Options) := fun _ _ => rfl

theorem leaves_types : LeavesFrames types := fun _ _ => rfl

theorem leaves_intern (ty : Ty) : LeavesFrames (intern ty) := fun _ _ => rfl

theorem leaves_isAccessible (view : Viewpoint) (vis : Visibility) :
    LeavesFrames (isAccessible view vis) := fun _ _ => rfl

theorem leaves_resolveName (view : Viewpoint) (name : QName) :
    LeavesFrames (resolveName view name) := fun _ _ => rfl

theorem leaves_resolved (view : Viewpoint) (name : QName) : LeavesFrames (resolved view name) := by
  refine (leaves_resolveName view name).bind fun r => ?_
  cases r with
  | ok found => exact .pure found
  | error e => exact leaves_refuseName e

theorem leaves_symbolOf (id : EntityId) (range : Span) : LeavesFrames (symbolOf id range) := by
  have hget : LeavesFrames (get : Emit Compiler) := fun _ _ => rfl
  exact hget.bind fun s => leaves_require _ _ _

theorem leaves_localOf (name : QName) : LeavesFrames (localOf? name) := by
  unfold localOf?
  split
  · exact fun _ _ => rfl
  · exact .pure none

theorem leaves_frame? : LeavesFrames frame? := fun _ _ => rfl

theorem leaves_frame : LeavesFrames frame := by
  refine leaves_frame?.bind fun f => ?_
  cases f with
  | some f => exact .pure f
  | none => exact leaves_breach _

theorem leaves_unfinished (message : Option String) (range : Span) :
    LeavesFrames (unfinished message range) := by
  intro o s
  have h := unfinished_apply message range o s
  unfold framesAfter
  cases hr : unfinished message range o s with
  | ok v s' =>
    rw [hr] at h
    exact h.2.1
  | error f s' =>
    rw [hr] at h
    exact h.2.1

/-! ## Helpers -/

theorem leaves_asCondition (c : Constant) (range : Span) : LeavesFrames (asCondition c range) := by
  unfold asCondition
  split
  · exact .pure _
  · exact leaves_mismatch _ _ _

theorem leaves_literalType (suffix : Option (Ty × Span)) (expected : Option Ty) :
    LeavesFrames (literalType suffix expected) := by
  unfold literalType
  split
  · exact leaves_types.bind fun t => leaves_unless (.pure _)
  · exact leaves_types.bind fun t => .pure _

theorem leaves_intLiteral (value : Nat) (negative : Bool) (suffix : Option (Ty × Span))
    (expected : Option Ty) (range : Span) :
    LeavesFrames (intLiteral value negative suffix expected range) := by
  refine (leaves_literalType suffix expected).bind fun ty => leaves_types.bind fun t => ?_
  exact leaves_orRefuse _ range

theorem leaves_floatLiteral (value : Binary64) (suffix : Option (Ty × Span))
    (expected : Option Ty) (range : Span) :
    LeavesFrames (floatLiteral value suffix expected range) :=
  leaves_types.bind fun _ => leaves_guard (.pure _)

theorem leaves_defineValue (d : Define) (expected : Option Ty) :
    LeavesFrames (defineValue d expected) := by
  unfold defineValue
  split
  · exact .pure _
  · exact .pure _
  · refine leaves_types.bind fun t => ?_
    split
    · exact .pure _
    · exact (leaves_intern _).bind fun ty => .pure _

theorem leaves_typeConstant (ty : Ty) : LeavesFrames (typeConstant ty) :=
  (leaves_intern _).bind fun _ => .pure _

theorem leaves_definedAs (name : QName) (e : ResolveError) (expected : Option Ty) :
    LeavesFrames (definedAs name e expected) := by
  unfold definedAs
  split
  · refine leaves_read.bind fun o => ?_
    split
    · exact leaves_defineValue _ expected
    · exact leaves_refuseName e
  · exact leaves_refuseName e

/-! ## Names -/

theorem leaves_namedType (view : Viewpoint) (name : QName) :
    LeavesFrames (namedType view name) := by
  refine leaves_frame?.bind fun frame => ?_
  split
  · exact leaves_require _ _ _
  · refine (leaves_resolved view name).bind fun found => ?_
    split
    · exact leaves_refuse _ _
    · refine (leaves_symbolOf _ name.range).bind fun y => ?_
      split
      · exact .pure _
      · exact leaves_require _ _ _
      · exact leaves_refuse _ _

theorem leaves_typeMember (view : Viewpoint) (name : QName) :
    LeavesFrames (typeMember view name) := by
  unfold typeMember
  split
  · exact leaves_breach _
  · exact (leaves_namedType view _).bind fun _ => .pure _

theorem leaves_namedConstant (view : Viewpoint) (name : QName) (expected : Option Ty) :
    LeavesFrames (namedConstant view name expected) := by
  refine leaves_frame?.bind fun frame => ?_
  split
  · exact .pure _
  · refine (leaves_localOf name).bind fun found => ?_
    split
    · exact leaves_require _ _ _
    · refine (leaves_resolveName view name).bind fun r => ?_
      split
      · exact leaves_refuse _ _
      · refine (leaves_symbolOf _ name.range).bind fun y => ?_
        split
        · exact .pure _
        · exact .pure _
        · exact leaves_typeConstant _
        · exact leaves_refuse _ _
      · refine .ite ((leaves_typeMember view name).bind fun member => ?_)
          (leaves_definedAs name _ expected)
        exact leaves_types.bind fun t => leaves_orRefuse _ _

theorem leaves_calledFunction? (view : Viewpoint) (callee : Expr) :
    LeavesFrames (calledFunction? view callee) := by
  unfold calledFunction?
  split
  · rename_i name
    refine (leaves_resolved view name).bind fun found => ?_
    split
    · exact .pure _
    · refine (leaves_symbolOf _ name.range).bind fun y => ?_
      split <;> exact .pure _
  · exact .pure _

theorem leaves_checkArgCount (f : PrerunFunction) (given : Nat) (range : Span) :
    LeavesFrames (checkArgCount f given range) :=
  .ite (leaves_refuse _ _) (.pure _)

/-- A test on every item. -/
theorem leaves_forIn {body : α → Emit (ForInStep PUnit)} (hbody : ∀ a, LeavesFrames (body a)) :
    ∀ items : List α, LeavesFrames (forIn items PUnit.unit fun a _ => body a)
  | [] => .pure _
  | a :: items => by
    rw [List.forIn_cons]
    refine (hbody a).bind fun r => ?_
    cases r with
    | done _ => exact .pure _
    | yield _ => exact leaves_forIn hbody items

theorem leaves_fieldOrder (view : Viewpoint) (ty : Ty) (names : Option (List Ident))
    (count : Nat) (range : Span) : LeavesFrames (fieldOrder view ty names count range) := by
  unfold fieldOrder
  refine leaves_types.bind fun t => (leaves_require _ _ _).bind fun d => leaves_unless ?_
  split
  · exact leaves_refuse _ _
  · refine (leaves_forIn (fun i => ?_) _).bind fun _ => .pure _
    split
    · exact (leaves_isAccessible view _).bind fun _ => leaves_unless (.pure _)
    · exact .pure _

/-! ## Expressions -/

def LeavesCallers (call : Caller) : Prop := ∀ f args range, LeavesFrames (call f args range)

variable {call : Caller} {view : Viewpoint}

/-- Two operands that are checked and computed with. -/
theorem leaves_foldOperands (op : BinaryOp) (l r : Constant) (range : Span) :
    LeavesFrames (do
      orRefuse ((← types).checkOperands op l.type r.type) range
      orRefuseFold ((← types).foldBinary op l r) range) := by
  refine leaves_types.bind fun t => (leaves_orRefuse _ range).bind fun _ => ?_
  exact leaves_types.bind fun t => leaves_orRefuseFold _ range

section

variable {range : Span} {expected : Option Ty}

theorem leaves_unary {op : UnaryOp} {operand : Expr}
    (hsuffix : ∀ r v s, operand = .int r v s → LeavesFrames (suffixWith call view s))
    (hoperand : LeavesFrames (evaluateWith call view operand expected)) :
    LeavesFrames (evaluateWith call view (.unary range op operand) expected) := by
  obtain ⟨r, v, s, hliteral, heq⟩ | heq := evaluateWith_unary call view range op operand expected
  · rw [heq]
    exact (hsuffix r v s hliteral).bind fun _ => leaves_intLiteral _ _ _ _ _
  · rw [heq]
    exact hoperand.bind fun v => leaves_types.bind fun t => leaves_orRefuseFold _ range

theorem leaves_binary {op : BinaryOp} {lhs rhs : Expr}
    (hlhs : ∀ ty, LeavesFrames (evaluateWith call view lhs ty))
    (hrhs : ∀ ty, LeavesFrames (evaluateWith call view rhs ty)) :
    LeavesFrames (evaluateWith call view (.binary range op lhs rhs) expected) := by
  unfold evaluateWith
  split
  · refine (hlhs _).bind fun l => (leaves_asCondition l _).bind fun left => .ite (.pure _) ?_
    exact (hrhs _).bind fun r => (leaves_asCondition r _).bind fun right => .pure _
  · split
    · exact (hrhs _).bind fun r => (hlhs _).bind fun l => leaves_foldOperands op l r range
    · exact (hlhs _).bind fun l => (hrhs _).bind fun r => leaves_foldOperands op l r range

theorem leaves_call {callee : Expr} {args : List Expr} (hcall : LeavesCallers call)
    (hargs : ∀ hints, LeavesFrames (evaluateEachWith call view args hints)) :
    LeavesFrames (evaluateWith call view (.call range callee args) expected) := by
  unfold evaluateWith
  refine (leaves_calledFunction? view callee).bind fun _ => ?_
  refine (leaves_require _ _ _).bind fun f => (leaves_checkArgCount f _ _).bind fun _ => ?_
  exact (hargs _).bind fun vs => hcall f vs range

theorem leaves_variant {type : TypeExpr} {name : Ident} {value : Option Expr}
    (htype : LeavesFrames (resolveTypeWith call view type))
    (hvalue : ∀ ty, LeavesFrames (evaluateOptionWith call view value ty)) :
    LeavesFrames (evaluateWith call view (.variant range type name value) expected) := by
  unfold evaluateWith
  refine htype.bind fun ty => leaves_types.bind fun _ => (hvalue _).bind fun payload => ?_
  exact leaves_types.bind fun t => leaves_orRefuse _ _

theorem leaves_plain {type : TypeExpr} {fields : Option (List Ident)} {values : List Expr}
    (htype : LeavesFrames (resolveTypeWith call view type))
    (hvalues : ∀ tys order, LeavesFrames (evaluateFieldsWith call view range values tys order)) :
    LeavesFrames (evaluateWith call view (.plain range type fields values) expected) := by
  unfold evaluateWith
  refine htype.bind fun ty => leaves_types.bind fun _ => leaves_unless ?_
  refine (leaves_fieldOrder view ty fields _ range).bind fun order => leaves_types.bind fun t => ?_
  exact (hvalues _ order).bind fun vs => (leaves_require _ _ _).bind fun ds => .pure _

end

mutual

theorem leaves_resolveTypeWith (hcall : LeavesCallers call) :
    ∀ ty : TypeExpr, LeavesFrames (resolveTypeWith call view ty)
  | .int .. | .uint .. | .float .. | .native .. => by
    unfold resolveTypeWith
    exact leaves_intern _
  | .bool _ | .char _ | .void _ | .str _ => by
    unfold resolveTypeWith
    exact .pure _
  | .named _ name => by
    unfold resolveTypeWith
    exact leaves_namedType view name
  | .mark _ sub owner _ _ _ => by
    unfold resolveTypeWith
    refine (leaves_resolveTypeWith hcall sub).bind fun _ => ?_
    exact (leaves_resolveOwnerWith hcall owner).bind fun _ => leaves_intern _
  | .ref _ sub _ => by
    unfold resolveTypeWith
    exact (leaves_resolveTypeWith hcall sub).bind fun _ => leaves_guard (leaves_intern _)
  | .array _ element length => by
    unfold resolveTypeWith
    refine (leaves_resolveTypeWith hcall element).bind fun _ => ?_
    refine (leaves_evaluateWith hcall length _).bind fun c => ?_
    split
    · exact leaves_types.bind fun t => .ite (leaves_intern _) (leaves_refuse _ _)
    · exact leaves_refuse _ _
  | .vector _ element _ _ => by
    unfold resolveTypeWith
    refine (leaves_resolveTypeWith hcall element).bind fun _ => ?_
    exact leaves_types.bind fun t => leaves_unless (leaves_intern _)
  | .tuple _ members _ => by
    unfold resolveTypeWith
    exact (leaves_resolveTypesWith hcall members).bind fun _ => leaves_intern _
  | .function _ result args _ => by
    unfold resolveTypeWith
    refine (leaves_resolveTypeWith hcall result).bind fun _ => ?_
    exact (leaves_resolveTypesWith hcall args).bind fun _ => leaves_intern _
  | .future _ sub _ | .maybe _ sub | .typed _ sub => by
    unfold resolveTypeWith
    exact (leaves_resolveTypeWith hcall sub).bind fun _ => leaves_intern _

theorem leaves_resolveOwnerWith (hcall : LeavesCallers call) :
    ∀ owner : Owner TypeExpr, LeavesFrames (resolveOwnerWith call view owner)
  | .anonymous | .heap => by
    unfold resolveOwnerWith
    exact .pure _
  | .type owner => by
    unfold resolveOwnerWith
    exact (leaves_resolveTypeWith hcall owner).bind fun _ => .pure _

theorem leaves_resolveTypesWith (hcall : LeavesCallers call) :
    ∀ tys : List TypeExpr, LeavesFrames (resolveTypesWith call view tys)
  | [] => by
    unfold resolveTypesWith
    exact .pure _
  | ty :: tys => by
    unfold resolveTypesWith
    refine (leaves_resolveTypeWith hcall ty).bind fun _ => ?_
    exact (leaves_resolveTypesWith hcall tys).bind fun _ => .pure _

theorem leaves_suffixWith (hcall : LeavesCallers call) :
    ∀ suffix : Option TypeExpr, LeavesFrames (suffixWith call view suffix)
  | none => by
    unfold suffixWith
    exact .pure _
  | some ty => by
    unfold suffixWith
    exact (leaves_resolveTypeWith hcall ty).bind fun _ => .pure _

theorem leaves_evaluateWith (hcall : LeavesCallers call) :
    ∀ (e : Expr) (expected : Option Ty), LeavesFrames (evaluateWith call view e expected)
  | .int range value suffix, expected => by
    unfold evaluateWith
    exact (leaves_suffixWith hcall suffix).bind fun _ => leaves_intLiteral _ _ _ _ _
  | .float range value suffix, expected => by
    unfold evaluateWith
    exact (leaves_suffixWith hcall suffix).bind fun _ => leaves_floatLiteral _ _ _ _
  | .bool .., _ | .char .., _ | .str .., _ => by
    unfold evaluateWith
    exact .pure _
  | .null range, expected | .none range, expected => by
    unfold evaluateWith
    exact (leaves_require _ _ _).bind fun _ => .pure _
  | .default range, expected => by
    unfold evaluateWith
    refine (leaves_require _ _ _).bind fun ty => leaves_types.bind fun t => ?_
    exact leaves_orRefuse _ _
  | .some _ inner, expected => by
    unfold evaluateWith
    refine (leaves_evaluateWith hcall inner _).bind fun v => ?_
    exact (leaves_intern _).bind fun ty => .pure _
  | .tuple _ items, expected => by
    unfold evaluateWith
    refine (leaves_evaluateEachWith hcall items _).bind fun vs => ?_
    exact (leaves_intern _).bind fun ty => .pure _
  | .array range items, expected => by
    unfold evaluateWith
    refine (leaves_evaluateItemsWith hcall items _).bind fun vs => ?_
    refine (leaves_require _ _ _).bind fun element => ?_
    exact (leaves_intern _).bind fun ty => .pure _
  | .entity _ name, expected => by
    unfold evaluateWith
    exact leaves_namedConstant view name expected
  | .unary range op operand, expected => by
    refine leaves_unary ?_ (leaves_evaluateWith hcall operand expected)
    cases operand with
    | int range value suffix =>
      intro _ _ _ h
      cases h
      exact leaves_suffixWith hcall suffix
    | _ => exact nofun
  | .binary range op lhs rhs, _ =>
    leaves_binary (leaves_evaluateWith hcall lhs) (leaves_evaluateWith hcall rhs)
  | .index range base position, _ => by
    unfold evaluateWith
    refine (leaves_evaluateWith hcall base _).bind fun b => ?_
    refine (leaves_evaluateWith hcall position _).bind fun _ => ?_
    exact (leaves_require _ _ _).bind fun i => leaves_orRefuse _ _
  | .member _ base name, _ => by
    unfold evaluateWith
    refine (leaves_evaluateWith hcall base _).bind fun b => leaves_types.bind fun t => ?_
    exact leaves_orRefuse _ _
  | .call range callee args, _ => leaves_call hcall (leaves_evaluateEachWith hcall args)
  | .cast range value target, _ => by
    unfold evaluateWith
    refine (leaves_resolveTypeWith hcall target).bind fun ty => ?_
    refine (leaves_evaluateWith hcall value _).bind fun v => leaves_types.bind fun t => ?_
    exact leaves_orRefuseFold _ _
  | .ifElse _ condition thenValue elseValue, expected => by
    unfold evaluateWith
    refine (leaves_evaluateWith hcall condition _).bind fun c => ?_
    refine (leaves_asCondition c _).bind fun holds => .ite ?_ ?_
    · exact leaves_evaluateWith hcall thenValue expected
    · exact leaves_evaluateWith hcall elseValue expected
  | .sizeOf range type, _ => by
    unfold evaluateWith
    refine (leaves_resolveTypeWith hcall type).bind fun ty => leaves_types.bind fun t => ?_
    exact (leaves_require _ _ _).bind fun size => .pure _
  | .typeValue _ type, _ => by
    unfold evaluateWith
    exact (leaves_resolveTypeWith hcall type).bind fun ty => leaves_typeConstant ty
  | .variant _ type name value, _ =>
    leaves_variant (leaves_resolveTypeWith hcall type) (leaves_evaluateOptionWith hcall value)
  | .plain range type fields values, _ =>
    leaves_plain (leaves_resolveTypeWith hcall type) (leaves_evaluateFieldsWith hcall range values)
  | .todo range message, _ => by
    unfold evaluateWith
    exact (leaves_unfinished message range).bind fun _ => .pure _
  | .self _, _ | .selfMember .., _ | .deref .., _ | .addressOf .., _ | .copy .., _ | .move .., _
  | .methodCall .., _ | .construct .., _ | .heapGet .., _ | .heapPut .., _ | .heapGrow .., _
  | .await .., _ | .assembly .., _ => by
    unfold evaluateWith
    exact leaves_refuse _ _

theorem leaves_evaluateEachWith (hcall : LeavesCallers call) :
    ∀ (es : List Expr) (hints : List Ty), LeavesFrames (evaluateEachWith call view es hints)
  | [], _ => by
    unfold evaluateEachWith
    exact .pure _
  | e :: es, hints => by
    unfold evaluateEachWith
    refine (leaves_evaluateWith hcall e _).bind fun v => ?_
    exact (leaves_evaluateEachWith hcall es _).bind fun vs => .pure _

theorem leaves_evaluateItemsWith (hcall : LeavesCallers call) :
    ∀ (es : List Expr) (element : Option Ty),
      LeavesFrames (evaluateItemsWith call view es element)
  | [], element => by
    unfold evaluateItemsWith
    exact .pure _
  | e :: es, element => by
    have hrest (v : Constant) : LeavesFrames (do
        let r ← evaluateItemsWith call view es (some v.type)
        return (r.1, v.data :: r.2)) :=
      (leaves_evaluateItemsWith hcall es _).bind fun r => .pure _
    unfold evaluateItemsWith
    refine (leaves_evaluateWith hcall e element).bind fun v => ?_
    cases element with
    | none => exact hrest v
    | some ty => exact leaves_guard (hrest v)

theorem leaves_evaluateOptionWith (hcall : LeavesCallers call) :
    ∀ (e : Option Expr) (expected : Option Ty),
      LeavesFrames (evaluateOptionWith call view e expected)
  | none, _ => by
    unfold evaluateOptionWith
    exact .pure _
  | some e, expected => by
    unfold evaluateOptionWith
    exact (leaves_evaluateWith hcall e expected).bind fun v => .pure _

theorem leaves_evaluateFieldsWith (hcall : LeavesCallers call) (range : Span) :
    ∀ (es : List Expr) (tys : List Ty) (order : List Nat),
      LeavesFrames (evaluateFieldsWith call view range es tys order)
  | [], _, _ | _ :: _, _, [] => by
    unfold evaluateFieldsWith
    exact .pure _
  | e :: es, tys, i :: order => by
    unfold evaluateFieldsWith
    refine (leaves_evaluateWith hcall e _).bind fun v => leaves_guard ?_
    exact (leaves_evaluateFieldsWith hcall range es tys order).bind fun vs => .pure _

end

end Staged.Emit
