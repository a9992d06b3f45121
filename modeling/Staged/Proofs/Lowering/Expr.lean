/-
  Staged.Proofs.Lowering.Expr — lowering expressions, once everything is ready.

  A setting is open when every name means something that may be asked for. Code is emitted
  in such settings only. Each construct keeps them if its operands do, and so by induction
  on the syntax does every expression.
-/

import Staged.Emit.Expr
import Staged.Proofs.Lowering.Calls

open Std.Do

set_option mvcgen.warning false

namespace Staged

namespace Setting

/-- Every name means something that may be asked for, and the jumps of a compile-time
function stay in its body, unless the setting allows that they do not. -/
structure Open (w : Setting) : Prop where
  finds : ∀ view name, w.Finds view name
  bounds : ∀ f, w.Callable f → w.Bounds f

def Lowers (w : Setting) (o : Operand) : Prop := ∀ expect, w.Keeps (o.lower expect)

variable {w : Setting}

theorem Open.coversAll (hw : w.Open) (view : Viewpoint) (us : List Use) :
    w.CoversAll view us := by
  intro u _ id hid
  unfold ModuleTree.meant? at hid
  split at hid
  · cases hid
  · split at hid
    · unfold ModuleTree.reached? at hid
      split at hid
      · cases hid
      · exact hw.finds _ _ _ hid
    · exact hw.finds _ _ _ hid

theorem Open.coversBody (hw : w.Open) {f : PrerunFunction} (hf : w.Bounds f)
    (locals : List String) : w.CoversBody f locals :=
  ⟨hw.coversAll _ _, hw.coversAll _ _, hf⟩

/-- Where every jump may stray, the bodies of compile-time functions are free. -/
theorem Open.of_strays (hf : ∀ view name, w.Finds view name) (hs : ∀ e, w.strays e) : w.Open :=
  ⟨hf, fun _ _ => .inr (hs _)⟩

theorem Open.sound (hw : w.Open) : w.Sound := fun f hf => hw.coversBody (hw.bounds f hf) _

end Setting

namespace Emit

variable {w : Setting}

/-! ## Evaluation -/

theorem keeps_resolveType_open (view : Viewpoint) (ty : TypeExpr) (hw : w.Open) :
    w.Keeps (resolveType view ty) :=
  @keeps_resolveType w view .one .complete ty hw.sound (hw.coversAll _ _)

theorem keeps_resolveTypeOption_open (view : Viewpoint) (ty : Option TypeExpr)
    (hw : w.Open) : w.Keeps (resolveType? view ty) := by
  mvcgen [resolveType?, keeps_resolveType_open]

theorem keeps_evaluate_open (view : Viewpoint) (e : Expr) (expected : Option Ty)
    (hw : w.Open) : w.Keeps (evaluate view e expected) :=
  @keeps_evaluate w view .one e hw.sound (hw.coversAll _ _) expected

theorem gives_evaluateEach_open (view : Viewpoint) (es : List Expr) (hints : List Ty)
    (hw : w.Open) : w.Gives (evaluateEach view es hints) (·.length = es.length) :=
  @gives_evaluateEach w view .one es hw.sound (hw.coversAll _ _) hints

theorem keeps_typeMember_open (view : Viewpoint) (name : QName) (hw : w.Open) :
    w.Keeps (typeMember view name) :=
  keeps_typeMember (.inr (hw.finds view name.owner))

theorem keeps_callPrerun_open {f : PrerunFunction} (args : List Constant) (range : Span)
    (hw : w.Open) (hf : w.Bounds f) : w.Keeps (callPrerun f args range) :=
  keeps_callPrerun args range hw.sound (hw.coversBody hf [])

/-! ## Operands -/

variable {w : TypeSetting}

@[spec] theorem keeps_lower {o : Operand} (expect : Expect) (ho : w.Lowers o) :
    w.Keeps (o.lower expect) := ho expect

@[spec] theorem keeps_operandRvalue {o : Operand} (expect : Expect) (ho : w.Lowers o) :
    w.Keeps (o.rvalue expect) := by
  mvcgen [Operand.rvalue]

@[spec] theorem keeps_condition {o : Operand} (ho : w.Lowers o) : w.Keeps o.condition := by
  mvcgen [Operand.condition]
  simp_all

@[spec] theorem keeps_passValue (v : Value) (target : Ty) (range : Span) :
    w.Keeps (passValue v target range) := by
  mvcgen [passValue] <;> simp_all

@[spec] theorem keeps_passValues (range : Span) :
    ∀ (vs : List Value) (tys : List Ty), w.Keeps (passValues range vs tys)
  | [], _ | _ :: _, [] => by mvcgen [passValues]
  | _ :: vs, _ :: tys => by
    have hrest := keeps_passValues range vs tys
    mvcgen [passValues, hrest]

/-! ## Calls -/

@[spec] theorem keeps_emitCall (callee : Ir.Callee) (args : List Ir.Value) (result : Ty)
    (range : Span) : w.Keeps (emitCall callee args result range) := by
  mvcgen [emitCall]

@[spec] theorem keeps_callMember (m : MemberFunction) (self : Option Ir.Value)
    (args : List Ir.Value) (range : Span) : w.Keeps (callMember m self args range) := by
  mvcgen [callMember]
  simp_all

theorem keeps_lowerArgsFrom (called : Called) :
    ∀ (i : Nat) (params : List Ty) (args : List Operand), (∀ a ∈ args, w.Lowers a) →
      w.Keeps (lowerArgsFrom called i params args)
  | _, _, [], _ => by mvcgen [lowerArgsFrom]
  | i, [], a :: args, ha => by
    have hfirst := ha a List.mem_cons_self
    have hrest := keeps_lowerArgsFrom called (i + 1) [] args fun x hx =>
      ha x (List.mem_cons_of_mem a hx)
    mvcgen [lowerArgsFrom, hrest]
  | i, _ :: params, a :: args, ha => by
    have hfirst := ha a List.mem_cons_self
    have hrest := keeps_lowerArgsFrom called (i + 1) params args fun x hx =>
      ha x (List.mem_cons_of_mem a hx)
    mvcgen [lowerArgsFrom, hrest]
    simp_all

@[spec] theorem keeps_lowerArgs (called : Called) (params : List Ty) (variadic : Bool)
    {args : List Operand} (range : Span) (ha : ∀ a ∈ args, w.Lowers a) :
    w.Keeps (lowerArgs called params variadic args range) := by
  have hargs := keeps_lowerArgsFrom called 0 params args ha
  mvcgen [lowerArgs, hargs]
  simp_all

@[spec] theorem keeps_callValue (f : Value) (called : Called) {args : List Operand}
    (range : Span) (ha : ∀ a ∈ args, w.Lowers a) :
    w.Keeps (callValue f called args range) := by
  mvcgen [callValue] <;> simp_all

@[spec] theorem keeps_checkMemberAccess (view : Viewpoint) (m : MemberFunction) (name : Ident) :
    w.Keeps (checkMemberAccess view m name) := by
  mvcgen [checkMemberAccess] <;> simp_all

@[spec] theorem keeps_methodInstance (v : Value) (name : String) (range : Span) :
    w.Keeps (methodInstance v name range) := by
  mvcgen [methodInstance]

@[spec] theorem keeps_lowerMethodCall (view : Viewpoint) (base : Value) (name : Ident)
    {args : List Operand} (variation : Bool) (range : Span) (ha : ∀ a ∈ args, w.Lowers a) :
    w.Keeps (lowerMethodCall view base name args variation range) := by
  mvcgen [lowerMethodCall]
  case vc6.hf => split <;> rfl
  all_goals simp_all

/-! ## Members and elements -/

@[spec] theorem keeps_memberAt (whole : Value) (aggregateType : Ty) (index : Nat) (type : Ty)
    (isVar : Bool) (range : Span) :
    w.Keeps (memberAt whole aggregateType index type isVar range) := by
  mvcgen [memberAt]

@[spec] theorem keeps_stringLength (v : Value) (range : Span) :
    w.Keeps (stringLength v range) := by
  mvcgen [stringLength]

@[spec] theorem keeps_lowerMember (view : Viewpoint) (whole : Value) (name : Ident)
    (range : Span) : w.Keeps (lowerMember view whole name range) := by
  mvcgen [lowerMember] <;> simp_all

@[spec] theorem keeps_tupleMember (view : Viewpoint) (whole : Value) (type : Ty)
    (members : List Ty) (position : Expr) (range : Span) (hw : w.Open) :
    w.Keeps (tupleMember view whole type members position range) := by
  mvcgen [tupleMember, keeps_evaluate_open]
  simp_all

@[spec] theorem keeps_arrayElement (whole : Value) (element : Ty) (length : Nat)
    (position : Value) (positionRange range : Span) :
    w.Keeps (arrayElement whole element length position positionRange range) := by
  mvcgen [arrayElement] <;> simp_all

@[spec] theorem keeps_stringElement (whole position : Value) (positionRange range : Span) :
    w.Keeps (stringElement whole position positionRange range) := by
  mvcgen [stringElement]
  simp_all

@[spec] theorem keeps_elementOf (whole position : Value) (wholeRange positionRange range : Span) :
    w.Keeps (elementOf whole position wholeRange positionRange range) := by
  mvcgen [elementOf] <;> simp_all

@[spec] theorem keeps_lowerIndex (view : Viewpoint) {base position : Operand} (range : Span)
    (hw : w.Open) (hb : w.Lowers base) (hp : w.Lowers position) :
    w.Keeps (lowerIndex view base position range) := by
  mvcgen [lowerIndex] <;> simp_all

/-! ## Aggregates -/

@[spec] theorem keeps_finishAggregate (type : Ty) (parts : List Value) (members : List Ty)
    (data : List Data → Data) (range : Span) :
    w.Keeps (finishAggregate type parts members data range) := by
  mvcgen [finishAggregate]

@[spec] theorem keeps_lowerSome {inner : Operand} (expect : Expect) (range : Span)
    (hi : w.Lowers inner) : w.Keeps (lowerSome inner expect range) := by
  mvcgen [lowerSome]

@[spec] theorem keeps_lowerEach :
    ∀ (items : List Operand) (hints : List Ty), (∀ o ∈ items, w.Lowers o) →
      w.Keeps (lowerEach items hints)
  | [], _, _ => by mvcgen [lowerEach]
  | o :: items, hints, ho => by
    have hfirst := ho o List.mem_cons_self
    have hrest := keeps_lowerEach items (hints.drop 1) fun x hx =>
      ho x (List.mem_cons_of_mem o hx)
    mvcgen [lowerEach, hrest]

@[spec] theorem keeps_lowerTuple {items : List Operand} (expect : Expect) (range : Span)
    (ho : ∀ o ∈ items, w.Lowers o) : w.Keeps (lowerTuple items expect range) := by
  mvcgen [lowerTuple]

@[spec] theorem keeps_lowerItems :
    ∀ (items : List Operand) (element : Option Ty), (∀ o ∈ items, w.Lowers o) →
      w.Keeps (lowerItems items element)
  | [], _, _ => by mvcgen [lowerItems]
  | o :: items, element, ho => by
    have hfirst := ho o List.mem_cons_self
    have hrest (element : Option Ty) := keeps_lowerItems items element fun x hx =>
      ho x (List.mem_cons_of_mem o hx)
    mvcgen [lowerItems, hrest]
    simp_all

@[spec] theorem keeps_lowerArray {items : List Operand} (expect : Expect) (range : Span)
    (ho : ∀ o ∈ items, w.Lowers o) : w.Keeps (lowerArray items expect range) := by
  mvcgen [lowerArray]
  simp_all

@[spec] theorem keeps_lowerIf {condition thenValue elseValue : Operand} (expect : Expect)
    (range : Span) (hc : w.Lowers condition) (ht : w.Lowers thenValue)
    (he : w.Lowers elseValue) :
    w.Keeps (lowerIf condition thenValue elseValue expect range) := by
  mvcgen [lowerIf] <;> simp_all

/-! ## Operators -/

@[spec] theorem keeps_nativeBinary (op : BinaryOp) (left right : Value) (range : Span) :
    w.Keeps (nativeBinary op left right range) := by
  mvcgen [nativeBinary] <;> simp_all

@[spec] theorem keeps_foldOrCompute (op : BinaryOp) (left right : Value) (range : Span) :
    w.Keeps (foldOrCompute op left right range) := by
  mvcgen [foldOrCompute]
  simp_all

@[spec] theorem keeps_lowerLogical (op : BinaryOp) {lhs rhs : Operand} (range : Span)
    (hl : w.Lowers lhs) (hr : w.Lowers rhs) : w.Keeps (lowerLogical op lhs rhs range) := by
  mvcgen [lowerLogical]
  simp_all

@[spec] theorem keeps_chooseOperator (op : BinaryOp) (ty : Ty) (left right : Value)
    (range : Span) : w.Keeps (chooseOperator op ty left right range) := by
  unfold chooseOperator
  refine Triple.bind _ _ keeps_types fun t => ?_
  dsimp only
  split
  · mvcgen
  · mvcgen <;> simp_all
  · exact (fails_refuse range rfl).keeps

@[spec] theorem keeps_lowerOperatorCall (op : BinaryOp) (left right : Value) (range : Span) :
    w.Keeps (lowerOperatorCall op left right range) := by
  mvcgen [lowerOperatorCall]

@[spec] theorem keeps_byteAt (data position : Ir.Value) : w.Keeps (byteAt data position) := by
  mvcgen [byteAt]

@[spec] theorem keeps_compareStrings (left right : Ir.Value) :
    w.Keeps (compareStrings left right) := by
  mvcgen [compareStrings]

@[spec] theorem keeps_lowerStringEquality (op : BinaryOp) (left right : Value) (range : Span) :
    w.Keeps (lowerStringEquality op left right range) := by
  mvcgen [lowerStringEquality]

@[spec] theorem keeps_lowerOperands {lhs rhs : Operand} (hl : w.Lowers lhs) (hr : w.Lowers rhs) :
    w.Keeps (lowerOperands lhs rhs) := by
  mvcgen [lowerOperands]

@[spec] theorem keeps_lowerBinary (op : BinaryOp) {lhs rhs : Operand} (range : Span)
    (hl : w.Lowers lhs) (hr : w.Lowers rhs) : w.Keeps (lowerBinary op lhs rhs range) := by
  mvcgen [lowerBinary] <;> simp_all

@[spec] theorem keeps_unaryOn (op : UnaryOp) (v : Value) (range : Span) :
    w.Keeps (unaryOn op v range) := by
  mvcgen [unaryOn]
  simp_all

@[spec] theorem keeps_lowerUnary (view : Viewpoint) (op : UnaryOp) {operand : Operand}
    (expect : Expect) (range : Span) (hw : w.Open) (ho : w.Lowers operand) :
    w.Keeps (lowerUnary view op operand expect range) := by
  mvcgen [lowerUnary, keeps_evaluate_open]

@[spec] theorem keeps_lowerDeref {operand : Operand} (range : Span) (ho : w.Lowers operand) :
    w.Keeps (lowerDeref operand range) := by
  mvcgen [lowerDeref] <;> simp_all

@[spec] theorem keeps_lowerAddressOf {operand : Operand} (isVar : Bool) (expect : Expect)
    (range : Span) (ho : w.Lowers operand) :
    w.Keeps (lowerAddressOf operand isVar expect range) := by
  mvcgen [lowerAddressOf] <;> simp_all

/-! ## Conversions and copies -/

@[spec] theorem keeps_convertInt (v : Value) (target : Ty) : w.Keeps (convertInt v target) := by
  mvcgen [convertInt]
  simp_all

@[spec] theorem keeps_castAtRuntime (v : Value) (target : Ty) (range : Span) :
    w.Keeps (castAtRuntime v target range) := by
  mvcgen [castAtRuntime] <;> simp_all

@[spec] theorem keeps_castValue (view : Viewpoint) (v : Value) (target : Ty) (range : Span) :
    w.Keeps (castValue view v target range) := by
  mvcgen [castValue]
  simp_all

@[spec] theorem keeps_lowerCast (view : Viewpoint) {value : Operand} (target : TypeExpr)
    (range : Span) (hw : w.Open) (hv : w.Lowers value) :
    w.Keeps (lowerCast view value target range) := by
  mvcgen [lowerCast, keeps_resolveType_open]

@[spec] theorem keeps_buildFrom (kind : MemberKind) (p : Value) {missing : Fault}
    (expect : Expect) (range : Span) (hm : missing.isPlain = true) :
    w.Keeps (buildFrom kind p missing expect range) := by
  mvcgen [buildFrom]
  simp_all

@[spec] theorem keeps_lowerCopy {inner : Operand} (expect : Expect) (range : Span)
    (hi : w.Lowers inner) : w.Keeps (lowerCopy inner expect range) := by
  mvcgen [lowerCopy]
  simp_all

@[spec] theorem keeps_warnReset (type : Ty) (range : Span) : w.Keeps (warnReset type range) := by
  mvcgen [warnReset]

@[spec] theorem keeps_moveBits (p : Value) (source range : Span) :
    w.Keeps (moveBits p source range) := by
  mvcgen [moveBits]

@[spec] theorem keeps_lowerMove {inner : Operand} (expect : Expect) (range : Span)
    (hi : w.Lowers inner) : w.Keeps (lowerMove inner expect range) := by
  mvcgen [lowerMove] <;> simp_all

/-! ## New values -/

@[spec] theorem keeps_constructorHidden {α : Type} (m : MemberFunction) (ty : Ty) (range : Span) :
    w.Keeps (constructorHidden m ty range : Emit α) := (fails_refuse range rfl).keeps

@[spec] theorem keeps_lowerDefault (view : Viewpoint) (ty : Ty) (expect : Expect)
    (range : Span) : w.Keeps (lowerDefault view ty expect range) := by
  mvcgen [lowerDefault]
  all_goals first
    | (simp_all; done)
    | exact TypeTable.plain_default _ _ _ ‹_›

theorem keeps_lowerHinted :
    ∀ (args : List Operand) (hints : List (Option Ty)), (∀ a ∈ args, w.Lowers a) →
      w.Keeps (lowerHinted args hints)
  | [], _, _ | _ :: _, [], _ => by mvcgen [lowerHinted]
  | a :: args, _ :: hints, ha => by
    have hfirst := ha a List.mem_cons_self
    have hrest := keeps_lowerHinted args hints fun x hx => ha x (List.mem_cons_of_mem a hx)
    mvcgen [lowerHinted, hrest]

@[spec] theorem keeps_passEach :
    ∀ (vs : List Value) (tys : List Ty), w.Keeps (passEach vs tys)
  | [], _ | _ :: _, [] => by mvcgen [passEach]
  | _ :: vs, _ :: tys => by
    have hrest := keeps_passEach vs tys
    mvcgen [passEach, hrest]

@[spec] theorem keeps_constructPlainly (ty : Ty) {args : List Operand} (range : Span)
    (ha : ∀ a ∈ args, w.Lowers a) : w.Keeps (constructPlainly ty args range) := by
  mvcgen [constructPlainly] <;> simp_all

@[spec] theorem keeps_construct (view : Viewpoint) (type : Ty) {args : List Operand}
    (expect : Expect) (range : Span) (ha : ∀ a ∈ args, w.Lowers a) :
    w.Keeps (construct view type args expect range) := by
  have hhinted (hints : List (Option Ty)) := keeps_lowerHinted args hints ha
  mvcgen [construct, hhinted] <;> simp_all

theorem keeps_lowerFields (fieldTypes : List Ty) :
    ∀ (values : List Operand) (order : List Nat), (∀ o ∈ values, w.Lowers o) →
      w.Keeps (lowerFields fieldTypes values order)
  | [], _, _ | _ :: _, [], _ => by mvcgen [lowerFields]
  | o :: values, _ :: order, ho => by
    have hfirst := ho o List.mem_cons_self
    have hrest := keeps_lowerFields fieldTypes values order fun x hx =>
      ho x (List.mem_cons_of_mem o hx)
    mvcgen [lowerFields, hrest]
    simp_all

@[spec] theorem keeps_storeFields (slot : Ir.Value) (type : Ty) :
    ∀ fields : List (Nat × Ty × Value), w.Keeps (storeFields slot type fields)
  | [] => by mvcgen [storeFields]
  | (_, _, _) :: rest => by
    have hrest := keeps_storeFields slot type rest
    mvcgen [storeFields, hrest]

@[spec] theorem keeps_lowerPlain (view : Viewpoint) (type : Ty) (names : Option (List Ident))
    {values : List Operand} (expect : Expect) (range : Span)
    (hv : ∀ o ∈ values, w.Lowers o) :
    w.Keeps (lowerPlain view type names values expect range) := by
  have hfields (fieldTypes : List Ty) (order : List Nat) :=
    keeps_lowerFields fieldTypes values order hv
  mvcgen [lowerPlain, hfields]

@[spec] theorem keeps_bareVariant (ty : Ty) (variant : Ident) (range : Span) :
    w.Keeps (bareVariant ty variant range) := by
  mvcgen [bareVariant]
  simp_all

@[spec] theorem keeps_lowerVariant (type : Ty) (variant : Ident) {value : Option Operand}
    (expect : Expect) (range : Span) (hv : ∀ o, value = some o → w.Lowers o) :
    w.Keeps (lowerVariant type variant value expect range) := by
  cases value with
  | none => mvcgen [lowerVariant] <;> simp_all
  | some o =>
    have ho := hv o rfl
    mvcgen [lowerVariant] <;> simp_all

/-! ## The heap, assembly and futures -/

@[spec] theorem keeps_elementSize (element : Ty) (range : Span) :
    w.Keeps (elementSize element range) := by
  mvcgen [elementSize]
  simp_all

@[spec] theorem keeps_lowerCount {count : Operand} (hc : w.Lowers count) :
    w.Keeps (lowerCount count) := by
  mvcgen [lowerCount]
  simp_all

@[spec] theorem keeps_byteCount (count : Value) (size : Nat) :
    w.Keeps (byteCount count size) := by
  mvcgen [byteCount]

@[spec] theorem keeps_bytePointer : w.Keeps bytePointer := keeps_intern _

@[spec] theorem keeps_declareExternal (name : String) (params : List Ty) (result : Ty)
    (variadic : Bool) : w.Keeps (declareExternal name params result variadic) := by
  mvcgen [declareExternal]
  rename_i h _
  exact h.recode rfl rfl rfl

@[spec] theorem keeps_callAllocator (name : String) (params : List Ty) (result : Ty)
    (args : List Ir.Value) : w.Keeps (callAllocator name params result args) := by
  mvcgen [callAllocator]

@[spec] theorem keeps_heapValue (raw : Ir.Value) (element : Ty) (count : Option Ir.Value)
    (range : Span) : w.Keeps (heapValue raw element count range) := by
  mvcgen [heapValue]

@[spec] theorem keeps_allocate (name : String) (params : List Ty) (args : List Ir.Value) :
    w.Keeps (allocate name params args) := by
  mvcgen [allocate]
  simp_all

@[spec] theorem keeps_lowerHeapGet (view : Viewpoint) (type : TypeExpr) {count : Option Operand}
    (range : Span) (hw : w.Open) (hc : ∀ o, count = some o → w.Lowers o) :
    w.Keeps (lowerHeapGet view type count range) := by
  cases count with
  | none => mvcgen [lowerHeapGet, keeps_resolveType_open]
  | some o =>
    have ho := hc o rfl
    mvcgen [lowerHeapGet, keeps_resolveType_open]

@[spec] theorem keeps_heapData (pointer : Value) (range : Span) :
    w.Keeps (heapData pointer range) := by
  mvcgen [heapData] <;> simp_all

@[spec] theorem keeps_lowerHeapPut {pointer : Operand} (range : Span)
    (hp : w.Lowers pointer) : w.Keeps (lowerHeapPut pointer range) := by
  mvcgen [lowerHeapPut]

@[spec] theorem keeps_lowerHeapGrow (view : Viewpoint) (type : TypeExpr)
    {pointer count : Operand} (range : Span) (hw : w.Open) (hp : w.Lowers pointer)
    (hc : w.Lowers count) : w.Keeps (lowerHeapGrow view type pointer count range) := by
  mvcgen [lowerHeapGrow, keeps_resolveType_open]
  simp_all

theorem keeps_lowerAssemblyArgs :
    ∀ args : List Operand, (∀ a ∈ args, w.Lowers a) → w.Keeps (lowerAssemblyArgs args)
  | [], _ => by mvcgen [lowerAssemblyArgs]
  | a :: args, ha => by
    have hfirst := ha a List.mem_cons_self
    have hrest := keeps_lowerAssemblyArgs args fun x hx => ha x (List.mem_cons_of_mem a hx)
    mvcgen [lowerAssemblyArgs, hrest]

@[spec] theorem keeps_lowerAssembly (view : Viewpoint) (template constraints : String)
    {args : List Operand} (result : TypeExpr) (volatile : Bool) (range : Span) (hw : w.Open)
    (ha : ∀ a ∈ args, w.Lowers a) :
    w.Keeps (lowerAssembly view template constraints args result volatile range) := by
  have hargs := keeps_lowerAssemblyArgs args ha
  mvcgen [lowerAssembly, hargs, keeps_resolveType_open] <;> simp_all

@[spec] theorem keeps_lowerAwait {inner : Operand} (range : Span) (hi : w.Lowers inner) :
    w.Keeps (lowerAwait inner range) := by
  mvcgen [lowerAwait] <;> simp_all

/-! ## Names -/

@[spec] theorem keeps_symbolValue (name : QName) (symbol : Symbol) :
    w.Keeps (symbolValue name symbol) := by
  mvcgen [symbolValue] <;> simp_all

@[spec] theorem keeps_lowerName (view : Viewpoint) (name : QName) (expect : Expect)
    (hw : w.Open) : w.Keeps (lowerName view name expect) := by
  mvcgen [lowerName, keeps_typeMember_open]
  case vc4.hid =>
    rename_i h
    exact (hw.finds view name).serves h.2.symm
  all_goals simp_all

@[spec] theorem keeps_lowerStaticCall (view : Viewpoint) (ty : Ty) (name : Ident)
    {args : List Operand} (expect : Expect) (range : Span) (ha : ∀ a ∈ args, w.Lowers a) :
    w.Keeps (lowerStaticCall view ty name args expect range) := by
  mvcgen [lowerStaticCall] <;> simp_all

@[spec] theorem keeps_callSymbol (view : Viewpoint) (name : QName) (symbol : Symbol)
    {callee : Operand} {args : List Operand} (expect : Expect) (range : Span) (hw : w.Open)
    (hs : ∀ f, symbol = .prerunFunction f → w.Callable f) (hc : w.Lowers callee)
    (ha : ∀ a ∈ args, w.Lowers a) :
    w.Keeps (callSymbol view name symbol callee args expect range) := by
  have hprerun (f : PrerunFunction) (vs : List Constant) (hf : w.Callable f) :
      w.Keeps (callPrerun f vs range) := keeps_callPrerun_open vs range hw (hw.bounds f hf)
  mvcgen [callSymbol, hprerun, gives_evaluateEach_open] <;> simp_all

@[spec] theorem keeps_callName (view : Viewpoint) (name : QName) {callee : Operand}
    {args : List Operand} (expect : Expect) (range : Span) (hw : w.Open)
    (hc : w.Lowers callee) (ha : ∀ a ∈ args, w.Lowers a) :
    w.Keeps (callName view name callee args expect range) := by
  mvcgen [callName, keeps_typeMember_open]
  case vc7.hid =>
    rename_i h
    exact (hw.finds view name).serves h.2.symm
  case vc11 => exact fun _ _ _ hy f hf => ⟨_, hf ▸ hy⟩
  all_goals simp_all

@[spec] theorem keeps_lowerCall (view : Viewpoint) {callee : Operand} {args : List Operand}
    (expect : Expect) (range : Span) (hw : w.Open) (hc : w.Lowers callee)
    (ha : ∀ a ∈ args, w.Lowers a) :
    w.Keeps (lowerCall view callee args expect range) := by
  mvcgen [lowerCall] <;> simp_all

/-! ## Expressions -/

@[spec] theorem keeps_lowerKnown (view : Viewpoint) (e : Expr) (expect : Expect) (hw : w.Open) :
    w.Keeps (lowerKnown view e expect) := by
  mvcgen [lowerKnown, keeps_evaluate_open]

mutual

theorem keeps_lowerExpr (hw : w.Open) (view : Viewpoint) :
    ∀ (e : Expr) (expect : Expect), w.Keeps (lowerExpr view e expect)
  | .int .., _ | .float .., _ | .bool .., _ | .char .., _ | .str .., _ | .null _, _
  | .none _, _ | .sizeOf .., _ | .typeValue .., _ => by
    unfold lowerExpr
    exact keeps_lowerKnown view _ _ hw
  | .default _, _ => by
    mvcgen [lowerExpr]
    simp_all
  | .some _ inner, _ => by
    unfold lowerExpr
    exact keeps_lowerSome _ _ (keeps_lowerExpr hw view inner)
  | .tuple _ items, _ => by
    unfold lowerExpr
    exact keeps_lowerTuple _ _ (lowers_operands hw view items)
  | .array _ items, _ => by
    unfold lowerExpr
    exact keeps_lowerArray _ _ (lowers_operands hw view items)
  | .entity _ name, _ => by
    unfold lowerExpr
    exact keeps_lowerName view name _ hw
  | .self _, _ | .selfMember .., _ => by
    mvcgen [lowerExpr]
  | .member _ base _, _ => by
    have hbase := keeps_lowerExpr hw view base
    mvcgen [lowerExpr, hbase]
  | .index _ base position, _ => by
    unfold lowerExpr
    exact keeps_lowerIndex view _ hw (keeps_lowerExpr hw view base)
      (keeps_lowerExpr hw view position)
  | .unary _ op operand, _ => by
    unfold lowerExpr
    exact keeps_lowerUnary view op _ _ hw (keeps_lowerExpr hw view operand)
  | .deref _ operand, _ => by
    unfold lowerExpr
    exact keeps_lowerDeref _ (keeps_lowerExpr hw view operand)
  | .addressOf _ target _, _ => by
    unfold lowerExpr
    exact keeps_lowerAddressOf _ _ _ (keeps_lowerExpr hw view target)
  | .copy _ inner, _ => by
    unfold lowerExpr
    exact keeps_lowerCopy _ _ (keeps_lowerExpr hw view inner)
  | .move _ inner, _ => by
    unfold lowerExpr
    exact keeps_lowerMove _ _ (keeps_lowerExpr hw view inner)
  | .binary _ op lhs rhs, _ => by
    unfold lowerExpr
    exact keeps_lowerBinary op _ (keeps_lowerExpr hw view lhs) (keeps_lowerExpr hw view rhs)
  | .call _ callee args, _ => by
    unfold lowerExpr
    exact keeps_lowerCall view _ _ hw (keeps_lowerExpr hw view callee)
      (lowers_operands hw view args)
  | .methodCall _ base _ args _, _ => by
    have hbase := keeps_lowerExpr hw view base
    have hargs := lowers_operands hw view args
    mvcgen [lowerExpr, hbase]
    simp_all
  | .construct _ _ args, _ => by
    have hargs := lowers_operands hw view args
    mvcgen [lowerExpr, keeps_resolveType_open]
    simp_all
  | .plain _ _ _ values, _ => by
    have hvalues := lowers_operands hw view values
    mvcgen [lowerExpr, keeps_resolveType_open]
    simp_all
  | .variant _ _ _ value, _ => by
    have hvalue := lowers_operand? hw view value
    mvcgen [lowerExpr, keeps_resolveType_open]
    simp_all
  | .heapGet _ type count, _ => by
    unfold lowerExpr
    exact keeps_lowerHeapGet view type _ hw (lowers_operand? hw view count)
  | .heapPut _ pointer, _ => by
    unfold lowerExpr
    exact keeps_lowerHeapPut _ (keeps_lowerExpr hw view pointer)
  | .heapGrow _ type pointer count, _ => by
    unfold lowerExpr
    exact keeps_lowerHeapGrow view type _ hw (keeps_lowerExpr hw view pointer)
      (keeps_lowerExpr hw view count)
  | .cast _ value target, _ => by
    unfold lowerExpr
    exact keeps_lowerCast view target _ hw (keeps_lowerExpr hw view value)
  | .await _ inner, _ => by
    unfold lowerExpr
    exact keeps_lowerAwait _ (keeps_lowerExpr hw view inner)
  | .assembly _ _ _ args result _, _ => by
    unfold lowerExpr
    exact keeps_lowerAssembly view _ _ result _ _ hw (lowers_operands hw view args)
  | .ifElse _ condition thenValue elseValue, _ => by
    unfold lowerExpr
    exact keeps_lowerIf _ _ (keeps_lowerExpr hw view condition)
      (keeps_lowerExpr hw view thenValue) (keeps_lowerExpr hw view elseValue)
  | .todo .., _ => by
    mvcgen [lowerExpr]

theorem lowers_operands (hw : w.Open) (view : Viewpoint) :
    ∀ (es : List Expr), ∀ o ∈ operands view es, w.Lowers o
  | [], _, ho => by cases ho
  | e :: es, o, ho => by
    unfold operands at ho
    rcases List.mem_cons.mp ho with rfl | ho
    · exact keeps_lowerExpr hw view e
    · exact lowers_operands hw view es o ho

theorem lowers_operand? (hw : w.Open) (view : Viewpoint) :
    ∀ (e : Option Expr) (o : Operand), operand? view e = some o → w.Lowers o
  | none, _, ho => by cases ho
  | some e, o, ho => by
    unfold operand? at ho
    cases ho
    exact keeps_lowerExpr hw view e

end

theorem lowers_operand (hw : w.Open) (view : Viewpoint) (e : Expr) :
    w.Lowers (operand view e) := keeps_lowerExpr hw view e

end Emit

end Staged
