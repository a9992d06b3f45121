/-
  Staged.Proofs.Values.Unseen — what evaluation does not see of a state.

  From twins, evaluation gives the same value or the same failure, and leaves twins. Types that
  have been used, code and warnings are not seen, and neither is what has been lowered of the
  function under construction, nor any call below the innermost. A call sees not even that one,
  as it runs in a frame of its own; so by induction on the number of calls that may still nest,
  calls run alike above whatever others (`callKnown_sees`).

  What is left to see of the function under construction are its locals: a name in the body of
  a compile-time function means a local of whatever body the call stands in, if there is one of
  that name and nothing nearer. From a body without locals a call gives what it gives outside of
  bodies (`callKnown_lexical`). What evaluation does to a state leaves a twin, so a call that is
  made again gives what it gave (`callKnown_again`).
-/

import Staged.Proofs.Schedule.Run
import Staged.Proofs.Values.Twin

namespace Staged

namespace Emit

variable {k : Stacks} {α β : Type}

/-! ## Helpers -/

theorem alike_asCondition (c : Constant) (range : Span) : k.RunsAlike (asCondition c range) := by
  unfold asCondition
  split
  · exact .pure _
  · exact alike_refuse _ _

theorem alike_literalType (suffix : Option (Ty × Span)) (expected : Option Ty) :
    k.RunsAlike (literalType suffix expected) := by
  unfold literalType
  split
  · exact alike_types (fun t => alike_unless (.pure _)) fun _ _ _ => rfl
  · exact alike_types (fun _ => .pure _) fun _ _ _ => rfl

theorem alike_intLiteral (value : Nat) (negative : Bool) (suffix : Option (Ty × Span))
    (expected : Option Ty) (range : Span) :
    k.RunsAlike (intLiteral value negative suffix expected range) := by
  refine (alike_literalType suffix expected).bind fun ty => ?_
  exact alike_types (fun t => alike_orRefuse _ _) fun _ _ _ => rfl

theorem alike_floatLiteral (value : Binary64) (suffix : Option (Ty × Span))
    (expected : Option Ty) (range : Span) :
    k.RunsAlike (floatLiteral value suffix expected range) :=
  alike_types (fun _ => alike_guard (.pure _)) fun _ _ _ => rfl

theorem alike_defineValue (d : Define) (expected : Option Ty) :
    k.RunsAlike (defineValue d expected) := by
  unfold defineValue
  split
  · exact .pure _
  · exact .pure _
  · refine alike_types (fun t => ?_) fun _ _ _ => rfl
    split
    · exact .pure _
    · exact (alike_intern _).bind fun ty => .pure _

theorem alike_typeConstant (ty : Ty) : k.RunsAlike (typeConstant ty) :=
  (alike_intern _).bind fun _ => .pure _

theorem alike_definedAs (name : QName) (e : ResolveError) (expected : Option Ty) :
    k.RunsAlike (definedAs name e expected) := by
  unfold definedAs
  split
  · refine alike_read.bind fun o => ?_
    split
    · exact alike_defineValue _ expected
    · exact alike_refuse _ _
  · exact alike_refuse _ _

/-! ## Names -/

theorem alike_namedType (hk : k.Meets) (view : Viewpoint) (name : QName) :
    k.RunsAlike (namedType view name) := by
  refine (alike_frame? hk).bind fun frame => ?_
  split
  · exact alike_require _ _ _
  · refine (alike_resolved view name).bind fun found => ?_
    split
    · exact alike_refuse _ _
    · refine (alike_symbolOf _ name.range).bind fun y => ?_
      split
      · exact .pure _
      · exact alike_require _ _ _
      · exact alike_refuse _ _

theorem alike_typeMember (hk : k.Meets) (view : Viewpoint) (name : QName) :
    k.RunsAlike (typeMember view name) := by
  unfold typeMember
  split
  · exact fun _ _ _ hs => .error _ hs
  · exact (alike_namedType hk view _).bind fun _ => .pure _

theorem alike_namedConstant (hk : k.Meets) (view : Viewpoint) (name : QName)
    (expected : Option Ty) : k.RunsAlike (namedConstant view name expected) := by
  refine (alike_frame? hk).bind fun frame => ?_
  split
  · exact .pure _
  · refine alike_knownOf ?_ name
    refine (alike_resolveName view name).bind fun r => ?_
    split
    · exact alike_refuse _ _
    · refine (alike_symbolOf _ name.range).bind fun y => ?_
      split
      · exact .pure _
      · exact .pure _
      · exact alike_typeConstant _
      · exact alike_refuse _ _
    · split
      · refine (alike_typeMember hk view name).bind fun ⟨ty, member⟩ => ?_
        exact alike_types (fun t => alike_orRefuse _ _) fun _ _ _ => rfl
      · exact alike_definedAs name _ expected

theorem alike_calledFunction? (view : Viewpoint) (callee : Expr) :
    k.RunsAlike (calledFunction? view callee) := by
  unfold calledFunction?
  split
  · rename_i name
    refine (alike_resolved view name).bind fun found => ?_
    split
    · exact .pure _
    · refine (alike_symbolOf _ name.range).bind fun y => ?_
      split <;> exact .pure _
  · exact .pure _

theorem alike_checkArgCount (f : PrerunFunction) (given : Nat) (range : Span) :
    k.RunsAlike (checkArgCount f given range) := by
  unfold checkArgCount
  split
  · exact alike_refuse _ _
  · exact .pure _

/-- A test on every item. -/
theorem alike_forIn {body : α → Emit (ForInStep PUnit)} (hbody : ∀ a, k.RunsAlike (body a)) :
    ∀ items : List α, k.RunsAlike (forIn items PUnit.unit fun a _ => body a)
  | [] => .pure _
  | a :: items => by
    rw [List.forIn_cons]
    refine (hbody a).bind fun r => ?_
    cases r with
    | done _ => exact .pure _
    | yield _ => exact alike_forIn hbody items

theorem alike_fieldOrder (view : Viewpoint) (ty : Ty) (names : Option (List Ident))
    (count : Nat) (range : Span) : k.RunsAlike (fieldOrder view ty names count range) := by
  unfold fieldOrder
  refine alike_types (fun t => ?_) fun _ _ _ => rfl
  refine (alike_require _ _ _).bind fun d => alike_unless ?_
  split
  · exact alike_refuse _ _
  · refine (alike_forIn (fun i => ?_) _).bind fun _ => .pure _
    split
    · refine (alike_isAccessible view _).bind fun _ => ?_
      exact alike_unless (.pure _)
    · exact .pure _

/-! ## Expressions -/

def CallsAlike (call : Caller) : Prop :=
  ∀ k : Stacks, ∀ f args range, k.RunsAlike (call f args range)

variable {call : Caller} {view : Viewpoint}

theorem alike_foldOperands (op : BinaryOp) (range : Span) (l r : Constant) :
    k.RunsAlike (do
      orRefuse ((← types).checkOperands op l.type r.type) range
      orRefuseFold ((← types).foldBinary op l r) range) := by
  refine alike_types (fun t => ?_) fun _ _ _ => rfl
  refine (alike_orRefuse _ range).bind fun _ => ?_
  exact alike_types (fun t => alike_orRefuseFold _ _) fun _ _ _ => rfl

section

variable {range : Span} {expected : Option Ty}

theorem alike_unary {op : UnaryOp} {operand : Expr}
    (hsuffix : ∀ r v s, operand = .int r v s → k.RunsAlike (suffixWith call view s))
    (hoperand : k.RunsAlike (evaluateWith call view operand expected)) :
    k.RunsAlike (evaluateWith call view (.unary range op operand) expected) := by
  obtain ⟨r, v, s, hliteral, heq⟩ | heq := evaluateWith_unary call view range op operand expected
  · rw [heq]
    exact (hsuffix r v s hliteral).bind fun _ => alike_intLiteral _ _ _ _ _
  · rw [heq]
    exact hoperand.bind fun v => alike_types (fun t => alike_orRefuseFold _ _) fun _ _ _ => rfl

theorem alike_binary {op : BinaryOp} {lhs rhs : Expr}
    (hlhs : ∀ ty, k.RunsAlike (evaluateWith call view lhs ty))
    (hrhs : ∀ ty, k.RunsAlike (evaluateWith call view rhs ty)) :
    k.RunsAlike (evaluateWith call view (.binary range op lhs rhs) expected) := by
  unfold evaluateWith
  split
  · refine (hlhs _).bind fun l => (alike_asCondition l _).bind fun left => ?_
    split
    · exact .pure _
    · exact (hrhs _).bind fun r => (alike_asCondition r _).bind fun right => .pure _
  · split
    · exact (hrhs _).bind fun r => (hlhs _).bind fun l => alike_foldOperands op range l r
    · exact (hlhs _).bind fun l => (hrhs _).bind fun r => alike_foldOperands op range l r

theorem alike_call {callee : Expr} {args : List Expr} (hcall : CallsAlike call)
    (hargs : ∀ hints, k.RunsAlike (evaluateEachWith call view args hints)) :
    k.RunsAlike (evaluateWith call view (.call range callee args) expected) := by
  unfold evaluateWith
  refine (alike_calledFunction? view callee).bind fun _ => ?_
  refine (alike_require _ _ _).bind fun f => (alike_checkArgCount f _ _).bind fun _ => ?_
  exact (hargs _).bind fun vs => hcall k f vs range

/-- The payload's type and the variant depend on definitions alone. -/
theorem alike_variant {type : TypeExpr} {name : Ident} {value : Option Expr}
    (htype : k.RunsAlike (resolveTypeWith call view type))
    (hvalue : ∀ ty, k.RunsAlike (evaluateOptionWith call view value ty)) :
    k.RunsAlike (evaluateWith call view (.variant range type name value) expected) := by
  unfold evaluateWith
  refine htype.bind fun ty => alike_definitions (fun t => ?_) fun _ _ h => by rw [h.mixOf?]
  exact (hvalue _).bind fun payload => alike_types (fun t => alike_orRefuse _ _) fun _ _ _ => rfl

theorem alike_plain {type : TypeExpr} {fields : Option (List Ident)} {values : List Expr}
    (htype : k.RunsAlike (resolveTypeWith call view type))
    (hvalues : ∀ tys order, k.RunsAlike (evaluateFieldsWith call view range values tys order)) :
    k.RunsAlike (evaluateWith call view (.plain range type fields values) expected) := by
  unfold evaluateWith
  refine htype.bind fun ty => ?_
  refine alike_definitions (fun t => alike_unless ?_) fun _ _ h => by rw [h.canBePrerun]
  refine (alike_fieldOrder view ty fields _ range).bind fun order => ?_
  refine alike_definitions (fun t => ?_) fun _ _ h => by rw [h.structOf?]
  exact (hvalues _ order).bind fun vs => (alike_require _ _ _).bind fun ds => .pure _

end

mutual

theorem alike_resolveTypeWith (hcall : CallsAlike call) (hk : k.Meets) :
    ∀ ty : TypeExpr, k.RunsAlike (resolveTypeWith call view ty)
  | .int .. | .uint .. | .float .. | .native .. => by
    unfold resolveTypeWith
    exact alike_intern _
  | .bool _ | .char _ | .void _ | .str _ => by
    unfold resolveTypeWith
    exact .pure _
  | .named _ name => by
    unfold resolveTypeWith
    exact alike_namedType hk view name
  | .mark _ sub owner _ _ _ => by
    unfold resolveTypeWith
    refine (alike_resolveTypeWith hcall hk sub).bind fun _ => ?_
    exact (alike_resolveOwnerWith hcall hk owner).bind fun _ => alike_intern _
  | .ref _ sub _ => by
    unfold resolveTypeWith
    exact (alike_resolveTypeWith hcall hk sub).bind fun _ => alike_guard (alike_intern _)
  | .array _ element length => by
    unfold resolveTypeWith
    refine (alike_resolveTypeWith hcall hk element).bind fun _ => ?_
    refine (alike_evaluateWith hcall hk length _).bind fun c => ?_
    split
    · refine alike_types (fun t => ?_) fun _ _ _ => rfl
      split
      · exact alike_intern _
      · exact alike_refuse _ _
    · exact alike_refuse _ _
  | .vector _ element _ _ => by
    unfold resolveTypeWith
    refine (alike_resolveTypeWith hcall hk element).bind fun _ => ?_
    refine alike_types (fun t => ?_) fun _ _ _ => rfl
    exact alike_unless (alike_intern _)
  | .tuple _ members _ => by
    unfold resolveTypeWith
    exact (alike_resolveTypesWith hcall hk members).bind fun _ => alike_intern _
  | .function _ result args _ => by
    unfold resolveTypeWith
    refine (alike_resolveTypeWith hcall hk result).bind fun _ => ?_
    exact (alike_resolveTypesWith hcall hk args).bind fun _ => alike_intern _
  | .future _ sub _ | .maybe _ sub | .typed _ sub => by
    unfold resolveTypeWith
    exact (alike_resolveTypeWith hcall hk sub).bind fun _ => alike_intern _

theorem alike_resolveOwnerWith (hcall : CallsAlike call) (hk : k.Meets) :
    ∀ owner : Owner TypeExpr, k.RunsAlike (resolveOwnerWith call view owner)
  | .anonymous | .heap => by
    unfold resolveOwnerWith
    exact .pure _
  | .type owner => by
    unfold resolveOwnerWith
    exact (alike_resolveTypeWith hcall hk owner).bind fun _ => .pure _

theorem alike_resolveTypesWith (hcall : CallsAlike call) (hk : k.Meets) :
    ∀ tys : List TypeExpr, k.RunsAlike (resolveTypesWith call view tys)
  | [] => by
    unfold resolveTypesWith
    exact .pure _
  | ty :: tys => by
    unfold resolveTypesWith
    refine (alike_resolveTypeWith hcall hk ty).bind fun _ => ?_
    exact (alike_resolveTypesWith hcall hk tys).bind fun _ => .pure _

theorem alike_suffixWith (hcall : CallsAlike call) (hk : k.Meets) :
    ∀ suffix : Option TypeExpr, k.RunsAlike (suffixWith call view suffix)
  | none => by
    unfold suffixWith
    exact .pure _
  | some ty => by
    unfold suffixWith
    exact (alike_resolveTypeWith hcall hk ty).bind fun _ => .pure _

theorem alike_evaluateWith (hcall : CallsAlike call) (hk : k.Meets) :
    ∀ (e : Expr) (expected : Option Ty), k.RunsAlike (evaluateWith call view e expected)
  | .int range value suffix, expected => by
    unfold evaluateWith
    exact (alike_suffixWith hcall hk suffix).bind fun _ => alike_intLiteral _ _ _ _ _
  | .float range value suffix, expected => by
    unfold evaluateWith
    exact (alike_suffixWith hcall hk suffix).bind fun _ => alike_floatLiteral _ _ _ _
  | .bool .., _ | .char .., _ | .str .., _ => by
    unfold evaluateWith
    exact .pure _
  | .null range, expected | .none range, expected => by
    unfold evaluateWith
    exact (alike_require _ _ _).bind fun ty => .pure _
  | .default range, expected => by
    unfold evaluateWith
    refine (alike_require _ _ _).bind fun ty => ?_
    exact alike_definitions (fun t => alike_orRefuse _ _) fun _ _ h => by rw [h.default]
  | .some _ inner, expected => by
    unfold evaluateWith
    refine (alike_evaluateWith hcall hk inner _).bind fun v => ?_
    exact (alike_intern _).bind fun ty => .pure _
  | .tuple _ items, expected => by
    unfold evaluateWith
    refine (alike_evaluateEachWith hcall hk items _).bind fun vs => ?_
    exact (alike_intern _).bind fun ty => .pure _
  | .array range items, expected => by
    unfold evaluateWith
    refine (alike_evaluateItemsWith hcall hk items _).bind fun ⟨element, vs⟩ => ?_
    refine (alike_require _ _ _).bind fun ty => ?_
    exact (alike_intern _).bind fun whole => .pure _
  | .entity _ name, expected => by
    unfold evaluateWith
    exact alike_namedConstant hk view name expected
  | .unary range op operand, expected => by
    refine alike_unary ?_ (alike_evaluateWith hcall hk operand expected)
    cases operand with
    | int range value suffix =>
      intro _ _ _ h
      cases h
      exact alike_suffixWith hcall hk suffix
    | _ => exact nofun
  | .binary range op lhs rhs, _ =>
    alike_binary (alike_evaluateWith hcall hk lhs) (alike_evaluateWith hcall hk rhs)
  | .index range base position, _ => by
    unfold evaluateWith
    refine (alike_evaluateWith hcall hk base _).bind fun b => ?_
    refine (alike_evaluateWith hcall hk position _).bind fun _ => ?_
    exact (alike_require _ _ _).bind fun i => alike_orRefuse _ _
  | .member _ base name, _ => by
    unfold evaluateWith
    refine (alike_evaluateWith hcall hk base _).bind fun b => ?_
    exact alike_types (fun t => alike_orRefuse _ _) fun _ _ _ => rfl
  | .call range callee args, _ => alike_call hcall (alike_evaluateEachWith hcall hk args)
  | .cast range value target, _ => by
    unfold evaluateWith
    refine (alike_resolveTypeWith hcall hk target).bind fun ty => ?_
    refine (alike_evaluateWith hcall hk value _).bind fun v => ?_
    exact alike_types (fun t => alike_orRefuseFold _ _) fun _ _ _ => rfl
  | .ifElse _ condition thenValue elseValue, expected => by
    unfold evaluateWith
    refine (alike_evaluateWith hcall hk condition _).bind fun c => ?_
    refine (alike_asCondition c _).bind fun holds => ?_
    split
    · exact alike_evaluateWith hcall hk thenValue expected
    · exact alike_evaluateWith hcall hk elseValue expected
  | .sizeOf range type, _ => by
    unfold evaluateWith
    refine (alike_resolveTypeWith hcall hk type).bind fun ty => ?_
    refine alike_definitions (fun t => ?_) fun _ _ h => by rw [h.sizeInBytes?]
    exact (alike_require _ _ _).bind fun size => .pure _
  | .typeValue _ type, _ => by
    unfold evaluateWith
    exact (alike_resolveTypeWith hcall hk type).bind fun ty => alike_typeConstant ty
  | .variant _ type name value, _ =>
    alike_variant (alike_resolveTypeWith hcall hk type) (alike_evaluateOptionWith hcall hk value)
  | .plain range type fields values, _ =>
    alike_plain (alike_resolveTypeWith hcall hk type)
      (alike_evaluateFieldsWith hcall hk range values)
  | .todo range message, _ => by
    unfold evaluateWith
    exact (alike_unfinished message range).bind fun _ => .pure _
  | .self _, _ | .selfMember .., _ | .deref .., _ | .addressOf .., _ | .copy .., _ | .move .., _
  | .methodCall .., _ | .construct .., _ | .heapGet .., _ | .heapPut .., _ | .heapGrow .., _
  | .await .., _ | .assembly .., _ => by
    unfold evaluateWith
    exact alike_refuse _ _

theorem alike_evaluateEachWith (hcall : CallsAlike call) (hk : k.Meets) :
    ∀ (es : List Expr) (hints : List Ty), k.RunsAlike (evaluateEachWith call view es hints)
  | [], _ => by
    unfold evaluateEachWith
    exact .pure _
  | e :: es, hints => by
    unfold evaluateEachWith
    refine (alike_evaluateWith hcall hk e _).bind fun v => ?_
    exact (alike_evaluateEachWith hcall hk es _).bind fun vs => .pure _

theorem alike_evaluateItemsWith (hcall : CallsAlike call) (hk : k.Meets) :
    ∀ (es : List Expr) (element : Option Ty),
      k.RunsAlike (evaluateItemsWith call view es element)
  | [], element => by
    unfold evaluateItemsWith
    exact .pure _
  | e :: es, element => by
    unfold evaluateItemsWith
    refine (alike_evaluateWith hcall hk e element).bind fun v => ?_
    have hrest := (alike_evaluateItemsWith hcall hk es (some v.type)).bind
      fun r => .pure (r.1, v.data :: r.2)
    cases element with
    | none => exact hrest
    | some ty => exact alike_guard hrest

theorem alike_evaluateOptionWith (hcall : CallsAlike call) (hk : k.Meets) :
    ∀ (e : Option Expr) (expected : Option Ty),
      k.RunsAlike (evaluateOptionWith call view e expected)
  | none, _ => by
    unfold evaluateOptionWith
    exact .pure _
  | some e, expected => by
    unfold evaluateOptionWith
    exact (alike_evaluateWith hcall hk e expected).bind fun v => .pure _

theorem alike_evaluateFieldsWith (hcall : CallsAlike call) (hk : k.Meets) (range : Span) :
    ∀ (es : List Expr) (tys : List Ty) (order : List Nat),
      k.RunsAlike (evaluateFieldsWith call view range es tys order)
  | [], _, _ | _ :: _, _, [] => by
    unfold evaluateFieldsWith
    exact .pure _
  | e :: es, tys, i :: order => by
    unfold evaluateFieldsWith
    refine (alike_evaluateWith hcall hk e _).bind fun v => alike_guard ?_
    exact (alike_evaluateFieldsWith hcall hk range es tys order).bind fun vs => .pure _

end

/-! ## Sentences -/

theorem alike_declareKnown (name : String) (value : Constant) (isVar : Bool) :
    k.push.RunsAlike (declareKnown name value isVar) := by
  refine (alike_frame k.meets_push).bind fun f => ?_
  split
  · exact (alike_setFrame _).bind fun _ => .pure _
  · exact .pure _

theorem alike_assignedName (lhs : Expr) : k.RunsAlike (assignedName lhs) := by
  unfold assignedName
  split
  · exact alike_require _ _ _
  · exact alike_refuse _ _

theorem alike_assignedType (name : Ident) : k.push.RunsAlike (assignedType name) := by
  refine (alike_frame k.meets_push).bind fun f => ?_
  split
  · split
    · exact .pure _
    · exact alike_refuse _ _
  · exact alike_refuse _ _

theorem alike_assignKnown (name : Ident) (value : Constant) :
    k.push.RunsAlike (assignKnown name value) :=
  (alike_frame k.meets_push).bind fun _ => (alike_require _ _ _).bind fun f => alike_setFrame f

theorem alike_afterBody {next : Emit Flow} (tag : Option Ident) (flow : Flow)
    (hnext : k.RunsAlike next) : k.RunsAlike (afterBody tag flow next) := by
  unfold afterBody
  split
  · exact hnext
  · split <;> exact .pure _
  · split
    · exact hnext
    · exact .pure _
  · exact .pure _

theorem alike_refuseLoop (range : Span) : k.RunsAlike (refuseLoop range : Emit α) :=
  alike_read.bind fun _ => alike_refuse _ _

theorem alike_runWhile {condition : Emit Bool} {body : Emit Flow} (range : Span)
    (tag : Option Ident) (hcondition : k.RunsAlike condition) (hbody : k.RunsAlike body)
    (left : Nat) : k.RunsAlike (runWhile range tag condition body left) := by
  induction left with
  | zero => exact alike_refuseLoop range
  | succ left ih =>
    refine hcondition.bind fun holds => ?_
    split
    · exact hbody.bind fun flow => alike_afterBody tag flow ih
    · exact .pure _

theorem alike_runItems {body : Nat → Constant → Emit Flow} (range : Span) (tag : Option Ident)
    (item? : Nat → Option Constant) (hbody : ∀ i v, k.RunsAlike (body i v)) (left : Nat) :
    ∀ position, k.RunsAlike (runItems range tag item? body position left) := by
  induction left with
  | zero =>
    intro position
    unfold runItems
    split
    · exact .pure _
    · exact alike_refuseLoop range
  | succ left ih =>
    intro position
    unfold runItems
    split
    · exact .pure _
    · exact (hbody position _).bind fun flow => alike_afterBody tag flow (ih (position + 1))

theorem alike_loopItems (c : Constant) (range : Span) : k.RunsAlike (loopItems c range) := by
  unfold loopItems
  split
  · exact .pure _
  · exact .pure _
  · exact alike_refuse _ _

theorem alike_knownInitial (name : Ident) (declared : Option Ty) {value : Option (Emit Constant)}
    (range : Span) (hvalue : ∀ a, value = some a → k.RunsAlike a) :
    k.RunsAlike (knownInitial name declared value range) := by
  unfold knownInitial
  split
  · exact hvalue _ rfl
  · exact alike_definitions (fun t => alike_orRefuse _ _) fun _ _ h => by rw [h.default]
  · exact alike_refuse _ _

theorem alike_localVar (hcall : CallsAlike call) (range : Span) (name : Ident)
    (type : Option TypeExpr) (value : Option Expr) (isVar isRef : Bool) :
    k.push.RunsAlike (runSentenceWith call view (.localVar range name type value isVar isRef)) := by
  have hinitial (declared : Option Ty) : k.push.RunsAlike (knownInitial name declared
      (value.map (evaluateWith call view · declared)) range) := by
    refine alike_knownInitial name declared range fun a ha => ?_
    obtain ⟨e, -, rfl⟩ := Option.map_eq_some_iff.mp ha
    exact alike_evaluateWith hcall k.meets_push e declared
  have hdeclare (v : Constant) : k.push.RunsAlike (do
      unless ← declareKnown name.text v isVar do
        refuse (.duplicateLocal name.text none) name.range
      return Flow.normal) :=
    (alike_declareKnown name.text v isVar).bind fun _ => alike_unless (.pure _)
  unfold runSentenceWith
  refine alike_guard ?_
  cases type with
  | none => exact (hinitial none).bind hdeclare
  | some ty =>
    refine (alike_resolveTypeWith hcall k.meets_push ty).map.bind fun declared => ?_
    refine (hinitial declared).bind fun v => ?_
    cases declared with
    | none => exact hdeclare v
    | some ty => exact alike_guard (hdeclare v)

theorem alike_opAssign (hcall : CallsAlike call) (range : Span) (op : BinaryOp) (lhs rhs : Expr) :
    k.push.RunsAlike (runSentenceWith call view (.opAssign range op lhs rhs)) := by
  unfold runSentenceWith
  refine (alike_assignedName lhs).bind fun name => (alike_assignedType name).bind fun ty => ?_
  refine (alike_evaluateWith hcall k.meets_push lhs _).bind fun current => ?_
  refine (alike_evaluateWith hcall k.meets_push rhs _).bind fun v => ?_
  refine alike_types (fun t => ?_) fun _ _ _ => rfl
  refine (alike_orRefuse _ range).bind fun _ => ?_
  refine alike_types (fun t => ?_) fun _ _ _ => rfl
  refine (alike_orRefuseFold _ range).bind fun result => alike_guard ?_
  exact (alike_assignKnown name result).bind fun _ => .pure _

theorem alike_times (hcall : CallsAlike call) (range : Span) (count : Expr)
    (index : Option Ident) {body : List Sentence} (tag : Option Ident)
    (hbody : k.push.RunsAlike (runSentencesWith call view body)) :
    k.push.RunsAlike (runSentenceWith call view (.times range count index body tag)) := by
  unfold runSentenceWith
  refine (alike_evaluateWith hcall k.meets_push count _).bind fun c => ?_
  refine alike_types (fun t => alike_unless ?_) fun _ _ _ => rfl
  refine (alike_require _ _ _).bind fun total => ?_
  refine alike_read.bind fun o => alike_runItems range tag _ (fun i v => ?_) _ _
  refine alike_inFrameScope ?_
  cases index with
  | none => exact alike_inFrameScope hbody
  | some name =>
    refine (alike_declareKnown name.text v false).bind fun _ => ?_
    exact alike_inFrameScope hbody

theorem alike_eachOf (hcall : CallsAlike call) (range : Span) (iterable : Expr) (item : Ident)
    (index : Option Ident) {body : List Sentence} (tag : Option Ident)
    (hbody : k.push.RunsAlike (runSentencesWith call view body)) :
    k.push.RunsAlike (runSentenceWith call view (.forIn range iterable item index body tag)) := by
  unfold runSentenceWith
  refine (alike_evaluateWith hcall k.meets_push iterable _).bind fun c => ?_
  refine (alike_loopItems c range).bind fun items => ?_
  refine alike_read.bind fun o => alike_runItems range tag _ (fun i v => ?_) _ _
  refine alike_inFrameScope ((alike_declareKnown item.text v false).bind fun _ => ?_)
  cases index with
  | none => exact alike_inFrameScope hbody
  | some name =>
    refine (alike_declareKnown name.text _ false).bind fun _ => ?_
    exact alike_inFrameScope hbody

mutual

theorem alike_runSentencesWith (hcall : CallsAlike call) :
    ∀ body : List Sentence, k.push.RunsAlike (runSentencesWith call view body)
  | [] => by
    unfold runSentencesWith
    exact .pure _
  | s :: rest => by
    unfold runSentencesWith
    refine (alike_runSentenceWith hcall s).bind fun flow => ?_
    split
    · exact alike_runSentencesWith hcall rest
    · exact .pure _

theorem alike_runSentenceWith (hcall : CallsAlike call) :
    ∀ s : Sentence, k.push.RunsAlike (runSentenceWith call view s)
  | .localVar range name type value isVar isRef =>
    alike_localVar hcall range name type value isVar isRef
  | .assign _ lhs rhs => by
    unfold runSentenceWith
    refine (alike_assignedName lhs).bind fun name => (alike_assignedType name).bind fun ty => ?_
    refine (alike_evaluateWith hcall k.meets_push rhs _).bind fun v => alike_guard ?_
    exact (alike_assignKnown name v).bind fun _ => .pure _
  | .opAssign range op lhs rhs => alike_opAssign hcall range op lhs rhs
  | .expr _ e => by
    unfold runSentenceWith
    exact (alike_evaluateWith hcall k.meets_push e _).bind fun _ => .pure _
  | .cond _ branches otherwise => by
    unfold runSentenceWith
    refine alike_runBranchesWith hcall branches ?_
    cases otherwise with
    | none => exact .pure _
    | some body => exact alike_inFrameScope (alike_runSentencesWith hcall body)
  | .whileDo range condition body tag => by
    unfold runSentenceWith
    refine alike_read.bind fun o => alike_runWhile range tag ?_ ?_ _
    · exact (alike_evaluateWith hcall k.meets_push condition _).bind fun c => alike_asCondition c _
    · exact alike_inFrameScope (alike_runSentencesWith hcall body)
  | .loop range body tag => by
    unfold runSentenceWith
    refine alike_read.bind fun o => alike_runWhile range tag (.pure true) ?_ _
    exact alike_inFrameScope (alike_runSentencesWith hcall body)
  | .times range count index body tag =>
    alike_times hcall range count index tag (alike_runSentencesWith hcall body)
  | .forIn range iterable item index body tag =>
    alike_eachOf hcall range iterable item index tag (alike_runSentencesWith hcall body)
  | .breakLoop _ _ | .continueLoop _ _ => by
    unfold runSentenceWith
    exact .pure _
  | .give _ value => by
    unfold runSentenceWith
    refine (alike_frame k.meets_push).bind fun f => ?_
    cases value with
    | none => exact .pure _
    | some e => exact (alike_evaluateWith hcall k.meets_push e _).bind fun c => .pure _
  | .block _ body => by
    unfold runSentenceWith
    exact alike_inFrameScope (alike_runSentencesWith hcall body)
  | .todo range message => by
    unfold runSentenceWith
    exact (alike_unfinished message range).bind fun _ => .pure _

theorem alike_runBranchesWith (hcall : CallsAlike call) :
    ∀ (branches : List Branch) {otherwise : Emit Flow}, k.push.RunsAlike otherwise →
      k.push.RunsAlike (runBranchesWith call view branches otherwise)
  | [], otherwise, h => by
    unfold runBranchesWith
    exact h
  | .mk condition body :: rest, otherwise, h => by
    unfold runBranchesWith
    refine (alike_evaluateWith hcall k.meets_push condition _).bind fun c => ?_
    refine (alike_asCondition c _).bind fun holds => ?_
    split
    · exact alike_inFrameScope (alike_runSentencesWith hcall body)
    · exact alike_runBranchesWith hcall rest h

end

/-! ## Calls -/

theorem alike_bindArgs (f : PrerunFunction) (range : Span) :
    ∀ (params : List PrerunArg) (args : List Constant) (frame : Frame),
      k.RunsAlike (bindArgs f range frame params args)
  | [], _, _ | _ :: _, [], _ => by
    unfold bindArgs
    exact .pure _
  | p :: params, v :: args, frame => by
    unfold bindArgs
    exact alike_guard (alike_bindArgs f range params args _)

theorem alike_callResult (f : PrerunFunction) (range : Span) (flow : Flow) :
    k.RunsAlike (callResult f range flow) := by
  unfold callResult
  split
  · split
    · exact alike_refuse _ _
    · exact .pure _
  · split
    · exact .pure _
    · exact alike_refuse _ _
  · split
    · exact .pure _
    · exact alike_refuse _ _
  · exact alike_refuse _ _
  · exact alike_refuse _ _

theorem callsAlike_known (left : Nat) : CallsAlike (callKnown left) := by
  induction left with
  | zero => exact fun k f args range => alike_read.bind fun _ => alike_refuse _ _
  | succ left ih =>
    intro k f args range
    refine (alike_bindArgs f range f.args args _).bind fun frame => ?_
    refine (alike_inFrame frame (alike_inFrameScope (alike_runSentencesWith ih f.body))).bind
      fun flow => ?_
    exact alike_callResult f range flow

/-! ## Runs from two states -/

/-- From two states an action gives the same value or the same failure, and leaves states in
which nothing that evaluation sees differs. -/
def SameFrom (a : Emit α) (o : Options) (s s' : Compiler) : Prop :=
  match a o s, a o s' with
  | .ok v t, .ok v' t' => v' = v ∧ t.Twin t'
  | .error f t, .error f' t' => f' = f ∧ t.Twin t'
  | _, _ => False

theorem sameFrom_of_alike {a : Emit α} {o : Options} {s s' : Compiler} (ha : k.RunsAlike a)
    (hs : k.Twins s s') : a.SameFrom o s s' := by
  have h := ha o s s' hs
  unfold SameFrom
  generalize a o s = r, a o s' = r' at h
  cases h with
  | ok v ht => exact ⟨rfl, ht.toTwin⟩
  | error f ht => exact ⟨rfl, ht.toTwin⟩

/-- Whatever calls are running, a call gives the same in states that are alike: of the function
under construction it sees what locals are known to be, by their names, and no more. -/
theorem callKnown_sees (left : Nat) (f : PrerunFunction) (args : List Constant) (range : Span)
    (o : Options) {s s' : Compiler} (h : s.Twin s') :
    (callKnown left f args range).SameFrom o s s' :=
  sameFrom_of_alike (k := ⟨0, s.frames, s'.frames⟩) (callsAlike_known left _ f args range)
    ⟨h, [], rfl, rfl, rfl⟩

/-- What is evaluated outside of calls gives the same in states that are alike. Inside of calls
it also sees the innermost one. -/
theorem evaluation_sees (left : Nat) (view : Viewpoint) (o : Options) {s s' : Compiler}
    (h : s.Twin s') (hframe : s'.frames.head? = s.frames.head?) :
    (∀ e expected, (evaluateWith (callKnown left) view e expected).SameFrom o s s') ∧
    ∀ ty, (resolveTypeWith (callKnown left) view ty).SameFrom o s s' := by
  have hk : (Stacks.mk 0 s.frames s'.frames).Meets := fun _ => hframe
  have hs : (Stacks.mk 0 s.frames s'.frames).Twins s s' := ⟨h, [], rfl, rfl, rfl⟩
  exact ⟨fun e expected => sameFrom_of_alike
      (alike_evaluateWith (callsAlike_known left) hk e expected) hs,
    fun ty => sameFrom_of_alike (alike_resolveTypeWith (callsAlike_known left) hk ty) hs⟩

/-- From a body without locals, a call gives what it gives outside of bodies. -/
theorem callKnown_lexical (left : Nat) (f : PrerunFunction) (args : List Constant)
    (range : Span) (o : Options) {s : Compiler} (hs : s.isAdrift = false)
    (hlocals : ∀ name, s.knownLocal? name = none) :
    (callKnown left f args range).SameFrom o { s with func := none } s :=
  callKnown_sees left f args range o ⟨.refl _, rfl, rfl, rfl, hlocals, hs⟩

/-- A body with a local `n` that is five. -/
def sheltered : Compiler :=
  let n : LocalVar :=
    { name := ⟨"n", ⟨0, 0, 0⟩⟩
      address := Ir.Const.zero .i32
      type := .i32
      isVar := false
      isRef := false
      known := some (.int .i32 5) }
  { halfway with func := halfway.func.map fun f => { f with scopes := [[n]] } }

/-- A function that gives `n`. -/
def borrowing : PrerunFunction :=
  let n : QName := ⟨0, [⟨"n", ⟨0, 0, 0⟩⟩], ⟨0, 0, 0⟩⟩
  { unwritten with body := [.give ⟨0, 0, 0⟩ (some (.entity ⟨0, 0, 0⟩ n))] }

/-- Its `n` is the local of the body that calls it; from elsewhere the name means nothing. -/
theorem callKnown_sheltered :
    (∃ s', callKnown 1 borrowing [] ⟨0, 0, 0⟩ {} sheltered = .ok (.int .i32 5) s') ∧
    ¬(callKnown 1 borrowing [] ⟨0, 0, 0⟩).SameFrom {} halfway sheltered := by
  refine ⟨⟨_, rfl⟩, fun h => ?_⟩
  have hfails : (match callKnown 1 borrowing [] ⟨0, 0, 0⟩ {} halfway with
      | .ok .. => true
      | .error .. => false) = false := by decide +kernel
  unfold SameFrom at h
  cases hr : callKnown 1 borrowing [] ⟨0, 0, 0⟩ {} halfway with
  | ok v t =>
    rw [hr] at hfails
    cases hfails
  | error e t =>
    rw [hr] at h
    exact h

end Emit

/-! ## Running twice -/

/-- To evaluation, the state it leaves looks like the one it came to. -/
theorem Compiler.Spares.twin {s s' : Compiler} {mode : BuildMode} (h : s.Spares mode s')
    (hs : s.isAdrift = false) : s.Twin s' := by
  obtain ⟨used, hused⟩ := h.types
  obtain ⟨n, hn, -⟩ := h.func
  refine ⟨hused ▸ s.types.same_internAll used, congrArg Outer.modules h.outer,
    congrArg Outer.entities h.outer, congrArg Outer.symbols h.outer, knownLocal?_abandon hn, ?_⟩
  cases n with
  | zero =>
    rw [Function.iterate_zero, Option.map_id_fun] at hn
    unfold isAdrift
    rw [hn]
    rfl
  | succ n => exact (not_isAdrift_abandon hn).trans hs.symm

namespace Emit

/-- A call that is made again gives what it gave. -/
theorem callKnown_again (left : Nat) (f : PrerunFunction) (args : List Constant) (range : Span)
    (o : Options) {s : Compiler} (hs : s.isAdrift = false) :
    (callKnown left f args range).SameFrom o s (callKnown left f args range o s).state := by
  have hspares : (callKnown left f args range).Spares o s :=
    spares_of_ends (calls_known left _ f args range fun _ _ => trivial)
  refine callKnown_sees left f args range o ?_
  unfold Spares at hspares
  cases hr : callKnown left f args range o s with
  | ok v s' | error e s' =>
    rw [hr] at hspares
    exact hspares.twin hs

end Emit

end Staged
