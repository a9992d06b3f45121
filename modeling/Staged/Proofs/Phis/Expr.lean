/-
  Staged.Proofs.Phis.Expr — expressions draw on.

  Each construct draws on if its operands do, and so by induction on the syntax does every
  expression. Most write their code in line; a logical operator, a conditional value, an
  awaited future and the comparison of strings make blocks of their own.
-/

import Staged.Emit.Expr
import Staged.Proofs.Phis.Block

open Std.Do

set_option mvcgen.warning false

namespace Staged.Emit

open Ir (BlockId)

variable {b : FunctionState}

/-! ## Operands -/

@[spec high] theorem draws_lower {o : Operand} (expect : Expect) (ho : o.Draws) :
    Draws b (o.lower expect) := ho b expect

@[spec high] theorem draws_operandRvalue {o : Operand} (expect : Expect) (ho : o.Draws) :
    Draws b (o.rvalue expect) := by
  unfold Operand.rvalue
  mvcgen

@[spec high] theorem draws_condition {o : Operand} (ho : o.Draws) : Draws b o.condition := by
  unfold Operand.condition
  mvcgen

@[spec high] theorem draws_passValue (v : Value) (target : Ty) (range : Span) :
    Draws b (passValue v target range) := by
  unfold passValue
  mvcgen

@[spec high] theorem draws_passValues (range : Span) :
    ∀ (vs : List Value) (tys : List Ty), Draws b (passValues range vs tys)
  | [], _ | _ :: _, [] => by
    unfold passValues
    mvcgen
  | _ :: vs, _ :: tys => by
    have hrest := draws_passValues range vs tys
    unfold passValues
    mvcgen [-keeps_passValues, hrest]

/-! ## Calls -/

@[spec high] theorem draws_emitCall (callee : Ir.Callee) (args : List Ir.Value) (result : Ty)
    (range : Span) : Draws b (emitCall callee args result range) := by
  unfold emitCall
  mvcgen
  simp

@[spec high] theorem draws_callMember (m : MemberFunction) (self : Option Ir.Value)
    (args : List Ir.Value) (range : Span) : Draws b (callMember m self args range) := by
  unfold callMember
  mvcgen

theorem draws_lowerArgsFrom (called : Called) :
    ∀ (i : Nat) (params : List Ty) (args : List Operand), (∀ a ∈ args, a.Draws) →
      Draws b (lowerArgsFrom called i params args)
  | _, _, [], _ => by
    unfold lowerArgsFrom
    mvcgen
  | i, [], a :: args, ha => by
    have hfirst := ha a List.mem_cons_self
    have hrest := draws_lowerArgsFrom called (i + 1) [] args fun x hx =>
      ha x (List.mem_cons_of_mem a hx)
    unfold lowerArgsFrom
    mvcgen [hrest]
  | i, _ :: params, a :: args, ha => by
    have hfirst := ha a List.mem_cons_self
    have hrest := draws_lowerArgsFrom called (i + 1) params args fun x hx =>
      ha x (List.mem_cons_of_mem a hx)
    unfold lowerArgsFrom
    mvcgen [hrest]

@[spec high] theorem draws_lowerArgs (called : Called) (params : List Ty) (variadic : Bool)
    {args : List Operand} (range : Span) (ha : ∀ a ∈ args, a.Draws) :
    Draws b (lowerArgs called params variadic args range) := by
  have hargs (b : FunctionState) := draws_lowerArgsFrom (b := b) called 0 params args ha
  unfold lowerArgs
  mvcgen [hargs]

@[spec high] theorem draws_callValue (f : Value) (called : Called) {args : List Operand}
    (range : Span) (ha : ∀ a ∈ args, a.Draws) :
    Draws b (callValue f called args range) := by
  unfold callValue
  mvcgen

@[spec high] theorem draws_checkMemberAccess (view : Viewpoint) (m : MemberFunction) (name : Ident) :
    Draws b (checkMemberAccess view m name) := by
  unfold checkMemberAccess
  mvcgen

@[spec high] theorem draws_methodInstance (v : Value) (name : String) (range : Span) :
    Draws b (methodInstance v name range) := by
  unfold methodInstance
  mvcgen

@[spec high] theorem draws_lowerMethodCall (view : Viewpoint) (base : Value) (name : Ident)
    {args : List Operand} (variation : Bool) (range : Span) (ha : ∀ a ∈ args, a.Draws) :
    Draws b (lowerMethodCall view base name args variation range) := by
  unfold lowerMethodCall
  mvcgen

/-! ## Members and elements -/

@[spec high] theorem draws_memberAt (whole : Value) (aggregateType : Ty) (index : Nat) (type : Ty)
    (isVar : Bool) (range : Span) :
    Draws b (memberAt whole aggregateType index type isVar range) := by
  unfold memberAt
  mvcgen
  simp
  simp

@[spec high] theorem draws_stringLength (v : Value) (range : Span) :
    Draws b (stringLength v range) := by
  unfold stringLength
  mvcgen

@[spec high] theorem draws_lowerMember (view : Viewpoint) (whole : Value) (name : Ident)
    (range : Span) : Draws b (lowerMember view whole name range) := by
  unfold lowerMember
  mvcgen
  simp_all

@[spec high] theorem draws_tupleMember (view : Viewpoint) (whole : Value) (type : Ty)
    (members : List Ty) (position : Expr) (range : Span) :
    Draws b (tupleMember view whole type members position range) := by
  unfold tupleMember
  mvcgen

@[spec high] theorem draws_arrayElement (whole : Value) (element : Ty) (length : Nat)
    (position : Value) (positionRange range : Span) :
    Draws b (arrayElement whole element length position positionRange range) := by
  unfold arrayElement
  mvcgen

@[spec high] theorem draws_stringElement (whole position : Value) (positionRange range : Span) :
    Draws b (stringElement whole position positionRange range) := by
  unfold stringElement
  mvcgen

@[spec high] theorem draws_elementOf (whole position : Value) (wholeRange positionRange range : Span) :
    Draws b (elementOf whole position wholeRange positionRange range) := by
  unfold elementOf
  mvcgen

@[spec high] theorem draws_lowerIndex (view : Viewpoint) {base position : Operand} (range : Span) (hb : base.Draws) (hp : position.Draws) :
    Draws b (lowerIndex view base position range) := by
  unfold lowerIndex
  mvcgen

/-! ## Aggregates -/

@[spec high] theorem draws_finishAggregate (type : Ty) (parts : List Value) (members : List Ty)
    (data : List Data → Data) (range : Span) :
    Draws b (finishAggregate type parts members data range) := by
  unfold finishAggregate
  mvcgen

@[spec high] theorem draws_lowerSome {inner : Operand} (expect : Expect) (range : Span)
    (hi : inner.Draws) : Draws b (lowerSome inner expect range) := by
  unfold lowerSome
  mvcgen

@[spec high] theorem draws_lowerEach :
    ∀ (items : List Operand) (hints : List Ty), (∀ o ∈ items, o.Draws) →
      Draws b (lowerEach items hints)
  | [], _, _ => by
    unfold lowerEach
    mvcgen
  | o :: items, hints, ho => by
    have hfirst := ho o List.mem_cons_self
    have hrest := draws_lowerEach items (hints.drop 1) fun x hx =>
      ho x (List.mem_cons_of_mem o hx)
    unfold lowerEach
    mvcgen [-keeps_lowerEach, hrest]

@[spec high] theorem draws_lowerTuple {items : List Operand} (expect : Expect) (range : Span)
    (ho : ∀ o ∈ items, o.Draws) : Draws b (lowerTuple items expect range) := by
  unfold lowerTuple
  mvcgen

@[spec high] theorem draws_lowerItems :
    ∀ (items : List Operand) (element : Option Ty), (∀ o ∈ items, o.Draws) →
      Draws b (lowerItems items element)
  | [], _, _ => by
    unfold lowerItems
    mvcgen
  | o :: items, element, ho => by
    have hfirst := ho o List.mem_cons_self
    have hrest (element : Option Ty) := draws_lowerItems items element fun x hx =>
      ho x (List.mem_cons_of_mem o hx)
    unfold lowerItems
    mvcgen [-keeps_lowerItems, hrest]

@[spec high] theorem draws_lowerArray {items : List Operand} (expect : Expect) (range : Span)
    (ho : ∀ o ∈ items, o.Draws) : Draws b (lowerArray items expect range) := by
  unfold lowerArray
  mvcgen

@[spec high] theorem draws_lowerIf {condition thenValue elseValue : Operand} (expect : Expect)
    (range : Span) (hc : condition.Draws) (ht : thenValue.Draws) (he : elseValue.Draws) :
    Draws b (lowerIf condition thenValue elseValue expect range) := by
  unfold lowerIf
  refine Triple.bind _ _ (draws_condition hc) fun cond => ?_
  dsimp only
  split
  · exact draws_operandRvalue _ ht
  · exact draws_operandRvalue _ he
  · refine draws_of_takes fun b => ?_
    refine (takes_newBlock "if.then" [] []).bind fun thenBlock => ?_
    refine (takes_newBlock "if.else" [thenBlock] []).bind fun elseBlock => ?_
    refine (takes_newBlock_last "if.end" [thenBlock, elseBlock] []).bind fun endBlock => ?_
    refine (takes_terminate_past (by simp [Ir.Terminator.successors])
      (by simp [Ir.Terminator.successors]; grind)).bind fun _ => ?_
    refine takes_switchTo_joins.bind fun _ => ?_
    refine (takes_line_joins fun _ => draws_operandRvalue _ ht).bind fun thenResult => ?_
    refine takes_currentBlock.bind fun thenEnd => ?_
    refine (takes_terminate_last (by simp [Ir.Terminator.successors])
      (by simp [Ir.Terminator.successors])).bind fun _ => ?_
    refine takes_switchTo_joins.bind fun _ => ?_
    refine (takes_line_joins fun _ => draws_operandRvalue _ he).bind fun elseResult => ?_
    refine Takes.guard ?_
    refine takes_currentBlock.bind fun elseEnd => ?_
    refine (takes_terminate_last (by simp [Ir.Terminator.successors])
      (by simp [Ir.Terminator.successors])).bind fun _ => ?_
    refine takes_switchTo_last.bind fun _ => ?_
    split
    · exact .pure fun _ h => h.1.midst.draws
    · exact Takes.bind (Q := fun _ f => b.Draws f) (takes_phi _ rfl) fun _ => .pure fun _ h => h

/-! ## Operators -/

@[spec high] theorem draws_nativeBinary (op : BinaryOp) (left right : Value) (range : Span) :
    Draws b (nativeBinary op left right range) := by
  unfold nativeBinary
  mvcgen <;> simp_all

@[spec high] theorem draws_foldOrCompute (op : BinaryOp) (left right : Value) (range : Span) :
    Draws b (foldOrCompute op left right range) := by
  unfold foldOrCompute
  mvcgen

@[spec high] theorem draws_lowerLogical (op : BinaryOp) {lhs rhs : Operand} (range : Span)
    (hl : lhs.Draws) (hr : rhs.Draws) : Draws b (lowerLogical op lhs rhs range) := by
  unfold lowerLogical
  refine Triple.bind _ _ (draws_condition hl) fun left => ?_
  dsimp only
  split
  · split
    · exact draws_constant _ _
    · exact draws_condition hr
  · refine draws_of_takes fun b => ?_
    refine takes_currentBlock.bind fun before => ?_
    refine ((takes_newBlock "logic.rhs" [] []).and (takes_newBlock_current _)).bind
      fun rhsBlock => ?_
    refine ((takes_newBlock_last "logic.end" [rhsBlock] []).and (takes_newBlock_current _)).bind
      fun done => ?_
    have hbranch (j k : BlockId) (hj : j = rhsBlock ∧ k = done ∨ j = done ∧ k = rhsBlock) :
        Takes (fun f => b.Joins [done, rhsBlock] [rhsBlock, done] true done [] f ∧
            f.current = before) (terminate (.branch left.ir j k))
          fun _ => b.Joins [done, rhsBlock] [rhsBlock, done] false done [before] :=
      takes_terminate_last (by simp [Ir.Terminator.successors]; grind)
        (by simp [Ir.Terminator.successors]; grind)
    refine Takes.fork (hbranch _ _ (.inl ⟨rfl, rfl⟩)) (hbranch _ _ (.inr ⟨rfl, rfl⟩)) fun _ => ?_
    refine takes_switchTo_joins.bind fun _ => ?_
    refine (takes_line_joins fun _ => draws_condition hr).bind fun right => ?_
    refine takes_currentBlock.bind fun rhsEnd => ?_
    refine (takes_terminate_last (by simp [Ir.Terminator.successors])
      (by simp [Ir.Terminator.successors])).bind fun _ => ?_
    refine takes_switchTo_last.bind fun _ => ?_
    exact Takes.bind (Q := fun _ f => b.Draws f) (takes_phi .bool rfl) fun _ => .pure fun _ h => h

@[spec high] theorem draws_chooseOperator (op : BinaryOp) (ty : Ty) (left right : Value)
    (range : Span) : Draws b (chooseOperator op ty left right range) := by
  unfold chooseOperator
  refine Triple.bind _ _ draws_types fun t => ?_
  dsimp only
  split
  · mvcgen
  · mvcgen
  · exact draws_refuse _ _

@[spec high] theorem draws_lowerOperatorCall (op : BinaryOp) (left right : Value) (range : Span) :
    Draws b (lowerOperatorCall op left right range) := by
  unfold lowerOperatorCall
  mvcgen

@[spec high] theorem draws_byteAt (data position : Ir.Value) : Draws b (byteAt data position) := by
  unfold byteAt
  mvcgen

@[spec high] theorem draws_compareStrings (left right : Ir.Value) :
    Draws b (compareStrings left right) := by
  unfold compareStrings
  refine Triple.bind _ _ (draws_stringParts left) fun (leftData, leftLength) => ?_
  refine Triple.bind _ _ (draws_stringParts right) fun (rightData, rightLength) => ?_
  refine Triple.bind _ _ (draws_alloca _ _) fun result => ?_
  refine Triple.bind _ _ (draws_alloca _ _) fun index => ?_
  refine Triple.bind _ _ (draws_store _ _) fun _ => Triple.bind _ _ (draws_store _ _) fun _ => ?_
  refine draws_of_takes fun b => ?_
  refine (takes_newBlock "str.cmp.length" [] []).bind fun lengthBlock => ?_
  refine (takes_newBlock _ [lengthBlock] []).bind fun condBlock => ?_
  refine (takes_newBlock _ [lengthBlock, condBlock] []).bind fun bodyBlock => ?_
  refine (takes_newBlock _ [lengthBlock, condBlock, bodyBlock] []).bind fun nextBlock => ?_
  refine (takes_newBlock _ [lengthBlock, condBlock, bodyBlock, nextBlock] []).bind
    fun trueBlock => ?_
  refine (takes_newBlock _ [lengthBlock, condBlock, bodyBlock, nextBlock, trueBlock] []).bind
    fun endBlock => ?_
  refine (takes_jump (by simp)).bind fun _ => takes_switchTo.bind fun _ => ?_
  refine (takes_line fun _ => draws_compute _ fun _ => rfl).bind fun sameLength => ?_
  refine (takes_branch _ (by simp) (by simp)).bind fun _ => takes_switchTo.bind fun _ => ?_
  refine (takes_line fun _ => draws_load _ _).bind fun position => ?_
  refine (takes_line fun _ => draws_compute _ fun _ => rfl).bind fun inRange => ?_
  refine (takes_branch _ (by simp) (by simp)).bind fun _ => takes_switchTo.bind fun _ => ?_
  refine (takes_line fun _ => draws_load _ _).bind fun position => ?_
  refine (takes_line fun _ => draws_byteAt _ _).bind fun leftByte => ?_
  refine (takes_line fun _ => draws_byteAt _ _).bind fun rightByte => ?_
  refine (takes_line fun _ => draws_compute _ fun _ => rfl).bind fun sameByte => ?_
  refine (takes_branch _ (by simp) (by simp)).bind fun _ => takes_switchTo.bind fun _ => ?_
  refine (takes_line fun _ => draws_load _ _).bind fun position => ?_
  refine (takes_line fun _ => draws_compute _ fun _ => rfl).bind fun advanced => ?_
  refine (takes_line fun _ => draws_store _ _).bind fun _ => ?_
  refine (takes_jump (by simp)).bind fun _ => takes_switchTo.bind fun _ => ?_
  refine (takes_line fun _ => draws_store _ _).bind fun _ => ?_
  refine (takes_jump (by simp)).bind fun _ => takes_switchTo.bind fun _ => ?_
  exact (takes_line fun _ => draws_load _ _).mono (fun _ h => h) fun _ _ h => h.draws

@[spec high] theorem draws_lowerStringEquality (op : BinaryOp) (left right : Value) (range : Span) :
    Draws b (lowerStringEquality op left right range) := by
  unfold lowerStringEquality
  mvcgen
  simp

@[spec high] theorem draws_lowerOperands {lhs rhs : Operand} (hl : lhs.Draws) (hr : rhs.Draws) :
    Draws b (lowerOperands lhs rhs) := by
  unfold lowerOperands
  mvcgen

@[spec high] theorem draws_lowerBinary (op : BinaryOp) {lhs rhs : Operand} (range : Span)
    (hl : lhs.Draws) (hr : rhs.Draws) : Draws b (lowerBinary op lhs rhs range) := by
  unfold lowerBinary
  mvcgen <;> simp_all

theorem choices?_unaryInstr {t : TypeTable} {op : UnaryOp} {ty : Ty} {operand : Ir.Value}
    {dest : Ir.Register} {i : Ir.Instr} (h : unaryInstr? t op ty operand dest = some i) :
    i.choices? = none := by
  unfold unaryInstr? at h
  split at h
  · split at h
    · cases h
      rfl
    · split at h <;> cases h
      rfl
  · split at h <;> cases h
    rfl
  · obtain ⟨info, -, rfl⟩ := Option.map_eq_some_iff.mp h
    rfl

@[spec high] theorem draws_unaryOn (op : UnaryOp) (v : Value) (range : Span) :
    Draws b (unaryOn op v range) := by
  unfold unaryOn
  refine Triple.bind _ _ draws_types fun t => ?_
  split
  · mvcgen
  · refine Triple.bind _ _ (draws_rvalue v) fun v => ?_
    split
    · mvcgen
    · refine Triple.bind _ _ (draws_fresh _) fun r => Triple.bind _ _ draws_types fun t => ?_
      refine draws_required fun i hi => ?_
      exact Triple.bind _ _ (draws_push (choices?_unaryInstr hi)) fun _ => by mvcgen

@[spec high] theorem draws_lowerUnary (view : Viewpoint) (op : UnaryOp) {operand : Operand}
    (expect : Expect) (range : Span) (ho : operand.Draws) :
    Draws b (lowerUnary view op operand expect range) := by
  unfold lowerUnary
  mvcgen

@[spec high] theorem draws_lowerDeref {operand : Operand} (range : Span) (ho : operand.Draws) :
    Draws b (lowerDeref operand range) := by
  unfold lowerDeref
  mvcgen

@[spec high] theorem draws_lowerAddressOf {operand : Operand} (isVar : Bool) (expect : Expect)
    (range : Span) (ho : operand.Draws) :
    Draws b (lowerAddressOf operand isVar expect range) := by
  unfold lowerAddressOf
  mvcgen

/-! ## Conversions and copies -/

@[spec high] theorem draws_convertInt (v : Value) (target : Ty) : Draws b (convertInt v target) := by
  unfold convertInt
  mvcgen

@[spec high] theorem draws_castAtRuntime (v : Value) (target : Ty) (range : Span) :
    Draws b (castAtRuntime v target range) := by
  unfold castAtRuntime
  mvcgen <;> simp_all

@[spec high] theorem draws_castValue (view : Viewpoint) (v : Value) (target : Ty) (range : Span) :
    Draws b (castValue view v target range) := by
  unfold castValue
  mvcgen

@[spec high] theorem draws_lowerCast (view : Viewpoint) {value : Operand} (target : TypeExpr)
    (range : Span) (hv : value.Draws) :
    Draws b (lowerCast view value target range) := by
  unfold lowerCast
  mvcgen

@[spec high] theorem draws_buildFrom (kind : MemberKind) (p : Value) (missing : Fault)
    (expect : Expect) (range : Span) :
    Draws b (buildFrom kind p missing expect range) := by
  unfold buildFrom
  mvcgen

@[spec high] theorem draws_lowerCopy {inner : Operand} (expect : Expect) (range : Span)
    (hi : inner.Draws) : Draws b (lowerCopy inner expect range) := by
  unfold lowerCopy
  mvcgen

@[spec high] theorem draws_warnReset (type : Ty) (range : Span) : Draws b (warnReset type range) := by
  unfold warnReset
  mvcgen

@[spec high] theorem draws_moveBits (p : Value) (source range : Span) :
    Draws b (moveBits p source range) := by
  unfold moveBits
  mvcgen

@[spec high] theorem draws_lowerMove {inner : Operand} (expect : Expect) (range : Span)
    (hi : inner.Draws) : Draws b (lowerMove inner expect range) := by
  unfold lowerMove
  mvcgen

/-! ## New values -/

@[spec high] theorem draws_constructorHidden {α : Type} (m : MemberFunction) (ty : Ty) (range : Span) :
    Draws b (constructorHidden m ty range : Emit α) := draws_refuse _ _

@[spec high] theorem draws_lowerDefault (view : Viewpoint) (ty : Ty) (expect : Expect)
    (range : Span) : Draws b (lowerDefault view ty expect range) := by
  unfold lowerDefault
  mvcgen

theorem draws_lowerHinted :
    ∀ (args : List Operand) (hints : List (Option Ty)), (∀ a ∈ args, a.Draws) →
      Draws b (lowerHinted args hints)
  | [], _, _ | _ :: _, [], _ => by
    unfold lowerHinted
    mvcgen
  | a :: args, _ :: hints, ha => by
    have hfirst := ha a List.mem_cons_self
    have hrest := draws_lowerHinted args hints fun x hx => ha x (List.mem_cons_of_mem a hx)
    unfold lowerHinted
    mvcgen [hrest]

@[spec high] theorem draws_passEach :
    ∀ (vs : List Value) (tys : List Ty), Draws b (passEach vs tys)
  | [], _ | _ :: _, [] => by
    unfold passEach
    mvcgen
  | _ :: vs, _ :: tys => by
    have hrest := draws_passEach vs tys
    unfold passEach
    mvcgen [-keeps_passEach, hrest]

@[spec high] theorem draws_constructPlainly (ty : Ty) {args : List Operand} (range : Span)
    (ha : ∀ a ∈ args, a.Draws) : Draws b (constructPlainly ty args range) := by
  unfold constructPlainly
  dsimp only
  refine Triple.bind _ _ draws_types fun t => ?_
  split
  · have honly := ha _ List.mem_cons_self
    mvcgen
  · exact draws_refuse _ _

@[spec high] theorem draws_construct (view : Viewpoint) (type : Ty) {args : List Operand}
    (expect : Expect) (range : Span) (ha : ∀ a ∈ args, a.Draws) :
    Draws b (construct view type args expect range) := by
  have hhinted (hints : List (Option Ty)) := draws_lowerHinted (b := b) args hints ha
  unfold construct
  mvcgen [hhinted]
  simp_all

theorem draws_lowerFields (fieldTypes : List Ty) :
    ∀ (values : List Operand) (order : List Nat), (∀ o ∈ values, o.Draws) →
      Draws b (lowerFields fieldTypes values order)
  | [], _, _ | _ :: _, [], _ => by
    unfold lowerFields
    mvcgen
  | o :: values, _ :: order, ho => by
    have hfirst := ho o List.mem_cons_self
    have hrest := draws_lowerFields fieldTypes values order fun x hx =>
      ho x (List.mem_cons_of_mem o hx)
    unfold lowerFields
    mvcgen [hrest]

@[spec high] theorem draws_storeFields (slot : Ir.Value) (type : Ty) :
    ∀ fields : List (Nat × Ty × Value), Draws b (storeFields slot type fields)
  | [] => by
    unfold storeFields
    mvcgen
  | (_, _, _) :: rest => by
    have hrest := draws_storeFields slot type rest
    unfold storeFields
    mvcgen [-keeps_storeFields, hrest]

@[spec high] theorem draws_lowerPlain (view : Viewpoint) (type : Ty) (names : Option (List Ident))
    {values : List Operand} (expect : Expect) (range : Span)
    (hv : ∀ o ∈ values, o.Draws) :
    Draws b (lowerPlain view type names values expect range) := by
  have hfields (fieldTypes : List Ty) (order : List Nat) :=
    draws_lowerFields (b := b) fieldTypes values order hv
  unfold lowerPlain
  mvcgen [hfields]

@[spec high] theorem draws_bareVariant (ty : Ty) (variant : Ident) (range : Span) :
    Draws b (bareVariant ty variant range) := by
  unfold bareVariant
  mvcgen

@[spec high] theorem draws_lowerVariant (type : Ty) (variant : Ident) {value : Option Operand}
    (expect : Expect) (range : Span) (hv : ∀ o, value = some o → o.Draws) :
    Draws b (lowerVariant type variant value expect range) := by
  cases value with
  | none =>
    unfold lowerVariant
    mvcgen
  | some o =>
    have ho := hv o rfl
    unfold lowerVariant
    mvcgen
    simp_all

/-! ## The heap, assembly and futures -/

@[spec high] theorem draws_elementSize (element : Ty) (range : Span) :
    Draws b (elementSize element range) := by
  unfold elementSize
  mvcgen

@[spec high] theorem draws_lowerCount {count : Operand} (hc : count.Draws) :
    Draws b (lowerCount count) := by
  unfold lowerCount
  mvcgen

@[spec high] theorem draws_byteCount (count : Value) (size : Nat) :
    Draws b (byteCount count size) := by
  unfold byteCount
  mvcgen
  simp

@[spec high] theorem draws_bytePointer : Draws b bytePointer := draws_intern _

@[spec high] theorem draws_callAllocator (name : String) (params : List Ty) (result : Ty)
    (args : List Ir.Value) : Draws b (callAllocator name params result args) := by
  unfold callAllocator
  mvcgen

@[spec high] theorem draws_heapValue (raw : Ir.Value) (element : Ty) (count : Option Ir.Value)
    (range : Span) : Draws b (heapValue raw element count range) := by
  unfold heapValue
  refine Triple.bind _ _ (draws_intern _) fun single => ?_
  refine Triple.bind _ _ (draws_castTo _ _ _) fun data => ?_
  split
  · mvcgen
  · mvcgen

@[spec high] theorem draws_allocate (name : String) (params : List Ty) (args : List Ir.Value) :
    Draws b (allocate name params args) := by
  unfold allocate
  mvcgen

@[spec high] theorem draws_lowerHeapGet (view : Viewpoint) (type : TypeExpr) {count : Option Operand}
    (range : Span) (hc : ∀ o, count = some o → o.Draws) :
    Draws b (lowerHeapGet view type count range) := by
  cases count with
  | none =>
    unfold lowerHeapGet
    mvcgen
  | some o =>
    have ho := hc o rfl
    unfold lowerHeapGet
    mvcgen

@[spec high] theorem draws_heapData (pointer : Value) (range : Span) :
    Draws b (heapData pointer range) := by
  unfold heapData
  mvcgen

@[spec high] theorem draws_lowerHeapPut {pointer : Operand} (range : Span)
    (hp : pointer.Draws) : Draws b (lowerHeapPut pointer range) := by
  unfold lowerHeapPut
  mvcgen

@[spec high] theorem draws_lowerHeapGrow (view : Viewpoint) (type : TypeExpr)
    {pointer count : Operand} (range : Span) (hp : pointer.Draws)
    (hc : count.Draws) : Draws b (lowerHeapGrow view type pointer count range) := by
  unfold lowerHeapGrow
  mvcgen

theorem draws_lowerAssemblyArgs :
    ∀ args : List Operand, (∀ a ∈ args, a.Draws) → Draws b (lowerAssemblyArgs args)
  | [], _ => by
    unfold lowerAssemblyArgs
    mvcgen
  | a :: args, ha => by
    have hfirst := ha a List.mem_cons_self
    have hrest := draws_lowerAssemblyArgs args fun x hx => ha x (List.mem_cons_of_mem a hx)
    unfold lowerAssemblyArgs
    mvcgen [hrest]

@[spec high] theorem draws_lowerAssembly (view : Viewpoint) (template constraints : String)
    {args : List Operand} (result : TypeExpr) (volatile : Bool) (range : Span)
    (ha : ∀ a ∈ args, a.Draws) :
    Draws b (lowerAssembly view template constraints args result volatile range) := by
  have hargs := draws_lowerAssemblyArgs (b := b) args ha
  unfold lowerAssembly
  mvcgen [hargs] <;> simp_all

@[spec high] theorem draws_lowerAwait {inner : Operand} (range : Span) (hi : inner.Draws) :
    Draws b (lowerAwait inner range) := by
  unfold lowerAwait
  refine Triple.bind _ _ (draws_operandRvalue _ hi) fun future => ?_
  split
  · refine Triple.bind _ _ (draws_intern _) fun state => draws_of_takes fun b => ?_
    refine (takes_newBlock "await.poll" [] []).bind fun poll => ?_
    refine (takes_newBlock "await.done" [poll] []).bind fun done => ?_
    refine (takes_jump (by simp)).bind fun _ => takes_switchTo.bind fun _ => ?_
    refine (takes_line fun _ => draws_fieldPtr _ _ _ _).bind fun flagPtr => ?_
    refine (takes_line fun _ => draws_load _ _).bind fun flag => ?_
    refine (takes_branch _ (by simp) (by simp)).bind fun _ => takes_switchTo.bind fun _ => ?_
    split
    · exact .pure fun _ h => h.draws
    · refine (takes_line fun _ => draws_fieldPtr _ _ _ _).bind fun resultPtr => ?_
      exact (takes_line fun _ => draws_load _ _).bind fun r => .pure fun _ h => h.draws
  · exact draws_refuse _ _

/-! ## Names -/

@[spec high] theorem draws_symbolValue (name : QName) (symbol : Symbol) :
    Draws b (symbolValue name symbol) := by
  unfold symbolValue
  mvcgen

@[spec high] theorem draws_lowerName (view : Viewpoint) (name : QName) (expect : Expect) : Draws b (lowerName view name expect) := by
  unfold lowerName
  mvcgen
  simp

@[spec high] theorem draws_lowerStaticCall (view : Viewpoint) (ty : Ty) (name : Ident)
    {args : List Operand} (expect : Expect) (range : Span) (ha : ∀ a ∈ args, a.Draws) :
    Draws b (lowerStaticCall view ty name args expect range) := by
  unfold lowerStaticCall
  split
  · exact draws_construct view ty expect range ha
  · refine Triple.bind _ _ draws_types fun t => ?_
    split
    · mvcgen
    · refine Triple.bind _ _ draws_types fun t' => ?_
      dsimp only
      split
      · exact draws_lowerVariant _ _ _ _ fun o ho => ha o (by simp_all)
      · exact draws_refuse _ _

@[spec high] theorem draws_callSymbol (view : Viewpoint) (name : QName) (symbol : Symbol)
    {callee : Operand} {args : List Operand} (expect : Expect) (range : Span)
    (hc : callee.Draws) (ha : ∀ a ∈ args, a.Draws) :
    Draws b (callSymbol view name symbol callee args expect range) := by
  unfold callSymbol
  split
  · mvcgen
  · exact draws_breach _
  · rename_i f
    have h : Draws b _ := Triple.bind _ _
      (draws_prerunCall view f (args.map Operand.expr) range) fun c => draws_constant c range
    simpa only [List.length_map, bind_assoc] using h
  · exact draws_construct view _ expect range ha
  · exact Triple.bind _ _ (draws_operandRvalue _ hc) fun f => draws_callValue f _ range ha
  all_goals exact draws_refuse _ _

@[spec high] theorem draws_callName (view : Viewpoint) (name : QName) {callee : Operand}
    {args : List Operand} (expect : Expect) (range : Span)
    (hc : callee.Draws) (ha : ∀ a ∈ args, a.Draws) :
    Draws b (callName view name callee args expect range) := by
  unfold callName
  mvcgen <;> simp_all

@[spec high] theorem draws_lowerCall (view : Viewpoint) {callee : Operand} {args : List Operand}
    (expect : Expect) (range : Span) (hc : callee.Draws)
    (ha : ∀ a ∈ args, a.Draws) :
    Draws b (lowerCall view callee args expect range) := by
  unfold lowerCall
  mvcgen <;> simp_all

/-! ## Expressions -/

@[spec high] theorem draws_lowerKnown (view : Viewpoint) (e : Expr) (expect : Expect) :
    Draws b (lowerKnown view e expect) := by
  unfold lowerKnown
  mvcgen

mutual

theorem draws_lowerExpr (view : Viewpoint) :
    ∀ (e : Expr) (b : FunctionState) (expect : Expect), Draws b (lowerExpr view e expect)
  | .int .., _, _ | .float .., _, _ | .bool .., _, _ | .char .., _, _ | .str .., _, _
  | .null _, _, _ | .none _, _, _ | .sizeOf .., _, _ | .typeValue .., _, _ => by
    unfold lowerExpr
    exact draws_lowerKnown view _ _
  | .default _, _, _ => by
    unfold lowerExpr
    mvcgen
  | .some _ inner, _, _ => by
    unfold lowerExpr
    exact draws_lowerSome _ _ (draws_lowerExpr view inner)
  | .tuple _ items, _, _ => by
    unfold lowerExpr
    exact draws_lowerTuple _ _ (draws_operands view items)
  | .array _ items, _, _ => by
    unfold lowerExpr
    exact draws_lowerArray _ _ (draws_operands view items)
  | .entity _ name, _, _ => by
    unfold lowerExpr
    exact draws_lowerName view name _
  | .self _, _, _ | .selfMember .., _, _ => by
    unfold lowerExpr
    mvcgen
  | .member _ base _, _, _ => by
    have hbase := draws_lowerExpr view base
    unfold lowerExpr
    mvcgen [hbase]
  | .index _ base position, _, _ => by
    unfold lowerExpr
    exact draws_lowerIndex view _ (draws_lowerExpr view base)
      (draws_lowerExpr view position)
  | .unary _ op operand, _, _ => by
    unfold lowerExpr
    exact draws_lowerUnary view op _ _ (draws_lowerExpr view operand)
  | .deref _ operand, _, _ => by
    unfold lowerExpr
    exact draws_lowerDeref _ (draws_lowerExpr view operand)
  | .addressOf _ target _, _, _ => by
    unfold lowerExpr
    exact draws_lowerAddressOf _ _ _ (draws_lowerExpr view target)
  | .copy _ inner, _, _ => by
    unfold lowerExpr
    exact draws_lowerCopy _ _ (draws_lowerExpr view inner)
  | .move _ inner, _, _ => by
    unfold lowerExpr
    exact draws_lowerMove _ _ (draws_lowerExpr view inner)
  | .binary _ op lhs rhs, _, _ => by
    unfold lowerExpr
    exact draws_lowerBinary op _ (draws_lowerExpr view lhs) (draws_lowerExpr view rhs)
  | .call _ callee args, _, _ => by
    unfold lowerExpr
    exact draws_lowerCall view _ _ (draws_lowerExpr view callee)
      (draws_operands view args)
  | .methodCall _ base _ args _, _, _ => by
    have hbase := draws_lowerExpr view base
    have hargs := draws_operands view args
    unfold lowerExpr
    mvcgen [hbase]
    simp_all
  | .construct _ _ args, _, _ => by
    have hargs := draws_operands view args
    unfold lowerExpr
    mvcgen
    simp_all
  | .plain _ _ _ values, _, _ => by
    have hvalues := draws_operands view values
    unfold lowerExpr
    mvcgen
    simp_all
  | .variant _ _ _ value, _, _ => by
    have hvalue := draws_operand? view value
    unfold lowerExpr
    mvcgen
    simp_all
  | .heapGet _ type count, _, _ => by
    unfold lowerExpr
    exact draws_lowerHeapGet view type _ (draws_operand? view count)
  | .heapPut _ pointer, _, _ => by
    unfold lowerExpr
    exact draws_lowerHeapPut _ (draws_lowerExpr view pointer)
  | .heapGrow _ type pointer count, _, _ => by
    unfold lowerExpr
    exact draws_lowerHeapGrow view type _ (draws_lowerExpr view pointer)
      (draws_lowerExpr view count)
  | .cast _ value target, _, _ => by
    unfold lowerExpr
    exact draws_lowerCast view target _ (draws_lowerExpr view value)
  | .await _ inner, _, _ => by
    unfold lowerExpr
    exact draws_lowerAwait _ (draws_lowerExpr view inner)
  | .assembly _ _ _ args result _, _, _ => by
    unfold lowerExpr
    exact draws_lowerAssembly view _ _ result _ _ (draws_operands view args)
  | .ifElse _ condition thenValue elseValue, _, _ => by
    unfold lowerExpr
    exact draws_lowerIf _ _ (draws_lowerExpr view condition)
      (draws_lowerExpr view thenValue) (draws_lowerExpr view elseValue)
  | .todo .., _, _ => by
    unfold lowerExpr
    mvcgen

theorem draws_operands (view : Viewpoint) :
    ∀ (es : List Expr), ∀ o ∈ operands view es, o.Draws
  | [], _, ho => by cases ho
  | e :: es, o, ho => by
    unfold operands at ho
    rcases List.mem_cons.mp ho with rfl | ho
    · exact draws_lowerExpr view e
    · exact draws_operands view es o ho

theorem draws_operand? (view : Viewpoint) :
    ∀ (e : Option Expr) (o : Operand), operand? view e = some o → o.Draws
  | none, _, ho => by cases ho
  | some e, o, ho => by
    unfold operand? at ho
    cases ho
    exact draws_lowerExpr view e

end

theorem draws_operand (view : Viewpoint) (e : Expr) :
    (operand view e).Draws := draws_lowerExpr view e

end Staged.Emit
