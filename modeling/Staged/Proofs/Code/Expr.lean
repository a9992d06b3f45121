/-
  Staged.Proofs.Code.Expr — the code of expressions.

  Each construct writes sound code and gives a value that exists if its operands do. Where
  a part of a type is used, the function behind it exists because the types are sound;
  where a name is used, because what names have become is covered. By induction on the
  syntax every expression writes sound code.
-/

import Staged.Proofs.Code.Instr

open Std.Do

set_option mvcgen.warning false

namespace Staged

/-- An operand whose value exists, if the memory to build it in does. -/
def Operand.Sound (o : Operand) (E : Extent) : Prop :=
  ∀ (P : Prop) (expect : Expect), (P → expect.Within E) → Emits E P (o.lower expect) (·.Within E)

namespace Emit

variable {α β : Type} {E : Extent} {P : Prop} {v : Value} {o : Operand} {expect : Expect}

/-- A test that stops everything. -/
theorem emits_guard {c : Prop} [Decidable c] {R : β → Prop} {f : Fault} {range : Span}
    {k : α → Emit β} {rest : Emit β} (hrest : ¬c → Emits E P rest R) :
    Emits E P (if c then refuse f range >>= k else rest) R := by
  split
  · exact .fails fun _ s => ⟨_, s, rfl⟩
  · exact hrest ‹_›

/-- A test that everything depends on. -/
theorem emits_unless {c : Prop} [Decidable c] {R : β → Prop} {f : Fault} {range : Span}
    {k : α → Emit β} {rest : Emit β} (hrest : c → Emits E P rest R) :
    Emits E P (if c then rest else refuse f range >>= k) R := by
  split
  · exact hrest ‹_›
  · exact .fails fun _ s => ⟨_, s, rfl⟩

/-! ## Operands -/

theorem emits_operandRvalue (ho : o.Sound E) (he : P → expect.Within E) :
    Emits E P (o.rvalue expect) (·.Within E) :=
  (ho P expect he).bind fun _ => emits_rvalue And.right

theorem emits_condition (ho : o.Sound E) : Emits E P o.condition (·.Within E) := by
  unfold Operand.condition
  refine (emits_operandRvalue ho fun _ => Expect.within_of).bind fun v => ?_
  exact emits_guard fun _ => .pure And.right

theorem emits_passValue (target : Ty) (range : Span) (hv : P → v.Within E) :
    Emits E P (passValue v target range) (E.Covers ·.refs) := by
  unfold passValue
  split
  · refine emits_guard fun _ => emits_guard fun _ => ?_
    exact (emits_referenceAddress hv).bind fun _ => .pure And.right
  · refine emits_guard fun _ => (emits_placeOf hv).bind fun p => ?_
    refine (emits_require _ _ fun w hw h => h.2 w hw).bind fun w => ?_
    exact emits_guard fun _ => .pure And.right
  · refine emits_guard fun _ => ?_
    split
    · exact .pure hv
    · refine emits_types.step fun t => ?_
      split
      · exact (emits_rvalue hv).bind fun _ => .pure And.right
      · exact emits_refuse _ _

theorem emits_passValues (range : Span) :
    ∀ (vs : List Value) (tys : List Ty), (P → ∀ v ∈ vs, v.Within E) →
      Emits E P (passValues range vs tys) fun irs => ∀ ir ∈ irs, E.Covers ir.refs
  | [], _, _ | _ :: _, [], _ => by
    unfold passValues
    exact .pure fun _ _ h => by cases h
  | v :: vs, ty :: tys, hv => by
    unfold passValues
    refine (emits_passValue ty range fun hp => hv hp v List.mem_cons_self).bind fun ir => ?_
    refine ((emits_passValues range vs tys fun hp x hx =>
      hv hp x (List.mem_cons_of_mem v hx)).of And.left).bind fun irs => ?_
    exact .pure fun h => List.forall_mem_cons.mpr ⟨h.1.2, h.2⟩

/-! ## Calls -/

theorem emits_emitCall {callee : Ir.Callee} {args : List Ir.Value} (result : Ty) (range : Span)
    (hcallee : P → E.Covers callee.refs) (hargs : P → ∀ a ∈ args, E.Covers a.refs) :
    Emits E P (emitCall callee args result range) (·.Within E) := by
  have hrefs (hp : P) (r : Option Ir.Register) : E.Covers (Ir.Instr.call r callee args).refs := by
    simpa using ⟨hcallee hp, hargs hp⟩
  unfold emitCall
  split
  · exact (emits_push fun hp => hrefs hp none).step fun _ => .pure fun _ => Value.within_void
  · exact emits_temporary _ _ (emits_compute _ fun hp r => hrefs hp (some r))

theorem emits_callMember {m : MemberFunction} {self : Option Ir.Value} {args : List Ir.Value}
    (range : Span) (hm : P → m.function < E.functions)
    (hself : P → ∀ v, self = some v → E.Covers v.refs)
    (hargs : P → ∀ a ∈ args, E.Covers a.refs) :
    Emits E P (callMember m self args range) (·.Within E) := by
  have hcallee (hp : P) : E.Covers (Ir.Callee.function m.function).refs := by
    simpa using hm hp
  unfold callMember
  split
  · split
    · exact emits_emitCall _ _ hcallee fun hp =>
        List.forall_mem_cons.mpr ⟨hself hp _ rfl, hargs hp⟩
    · exact emits_breach _
  · exact emits_emitCall _ _ hcallee hargs

theorem emits_lowerArgsFrom (called : Called) :
    ∀ (i : Nat) (params : List Ty) (args : List Operand), (∀ a ∈ args, a.Sound E) →
      Emits E P (lowerArgsFrom called i params args) fun irs => ∀ ir ∈ irs, E.Covers ir.refs
  | _, _, [], _ => by
    unfold lowerArgsFrom
    exact .pure fun _ _ h => by cases h
  | i, [], a :: args, ha => by
    obtain ⟨ha, hargs⟩ := List.forall_mem_cons.mp ha
    unfold lowerArgsFrom
    refine (emits_operandRvalue ha fun _ => Expect.within_nothing).bind fun v => ?_
    refine ((emits_lowerArgsFrom called (i + 1) [] args hargs).of And.left).bind fun irs => ?_
    exact .pure fun h => List.forall_mem_cons.mpr ⟨h.1.2, h.2⟩
  | i, param :: params, a :: args, ha => by
    obtain ⟨ha, hargs⟩ := List.forall_mem_cons.mp ha
    unfold lowerArgsFrom
    refine (ha P _ fun _ => Expect.within_of).bind fun v => emits_guard fun _ => ?_
    refine (emits_passValue param a.range And.right).bind fun ir => ?_
    refine ((emits_lowerArgsFrom called (i + 1) params args hargs).of (·.1.1)).bind fun irs => ?_
    exact .pure fun h => List.forall_mem_cons.mpr ⟨h.1.2, h.2⟩

theorem emits_lowerArgs (called : Called) (params : List Ty) (variadic : Bool)
    {args : List Operand} (range : Span) (ha : ∀ a ∈ args, a.Sound E) :
    Emits E P (lowerArgs called params variadic args range)
      fun irs => ∀ ir ∈ irs, E.Covers ir.refs :=
  emits_guard fun _ => emits_lowerArgsFrom called 0 params args ha

theorem emits_callValue {f : Value} (called : Called) {args : List Operand} (range : Span)
    (hf : P → f.Within E) (ha : ∀ a ∈ args, a.Sound E) :
    Emits E P (callValue f called args range) (·.Within E) := by
  unfold callValue
  split
  · refine (emits_lowerArgs called _ _ range ha).bind fun irs => ?_
    exact emits_emitCall _ _ (fun h => hf h.1) And.right
  · exact emits_refuse _ _

theorem emits_checkMemberAccess (view : Viewpoint) (m : MemberFunction) (name : Ident) :
    Emits E P (checkMemberAccess view m name) fun _ => True := by
  refine (emits_isAccessible view m.vis).step fun accessible => ?_
  split
  · exact .pure fun _ => trivial
  · exact emits_refuse _ _

theorem emits_methodInstance (name : String) (range : Span) (hv : P → v.Within E) :
    Emits E P (methodInstance v name range) (·.1.Within E) := by
  unfold methodInstance
  split
  · refine emits_types.step fun t => ?_
    split
    · exact .pure hv
    · exact (emits_rvalue hv).bind fun _ => .pure And.right
  · exact .pure hv

/-- A member is called on arguments that are lowered first. -/
theorem emits_callOn {m : MemberFunction} (called : Called) {self : Option Ir.Value}
    {args : List Operand} (range : Span) (hm : P → m.function < E.functions)
    (hself : P → ∀ v, self = some v → E.Covers v.refs) (ha : ∀ a ∈ args, a.Sound E) :
    Emits E P (do callMember m self (← lowerArgs called m.argTypes false args range) range)
      (·.Within E) := by
  refine (emits_lowerArgs called _ _ range ha).bind fun irs => ?_
  exact emits_callMember range (fun h => hm h.1) (fun h => hself h.1) And.right

theorem emits_lowerMethodCall (view : Viewpoint) {base : Value} (name : Ident)
    {args : List Operand} (variation : Bool) (range : Span) (hb : P → base.Within E)
    (ha : ∀ a ∈ args, a.Sound E) :
    Emits E P (lowerMethodCall view base name args variation range) (·.Within E) := by
  unfold lowerMethodCall
  refine (emits_methodInstance name.text range hb).bind fun ⟨self, ty⟩ => ?_
  refine emits_types.bind fun t => ?_
  refine (emits_require _ _ fun m hm h =>
    h.2.membersOf (List.mem_of_find?_eq_some hm)).bind fun m => ?_
  refine (emits_checkMemberAccess view m name).step fun _ => emits_guard fun _ => ?_
  split
  · refine (emits_placeOf fun h => h.1.1.2).bind fun p => ?_
    refine (emits_require (Q := (·.Within E)) _ _ fun w hw h =>
      h.2 w (Option.filter_eq_some_iff.mp hw).1).bind fun p => ?_
    exact emits_callOn _ range (fun h => h.1.1.2) (fun h w hw => by cases hw; exact h.2) ha
  · refine (emits_place fun h => h.1.1.2).bind fun p => ?_
    exact emits_callOn _ range (fun h => h.1.2) (fun h w hw => by cases hw; exact h.2) ha

/-! ## Members and elements -/

theorem emits_memberAt {whole : Value} (aggregateType : Ty) (index : Nat) (type : Ty)
    (isVar : Bool) (range : Span) (hv : P → whole.Within E) :
    Emits E P (memberAt whole aggregateType index type isVar range) (·.Within E) := by
  unfold memberAt
  split
  · exact emits_constant _ _
  · refine (emits_placeOf hv).bind fun p => ?_
    split
    · refine (emits_intern _).step fun ty => ?_
      exact (emits_compute ty fun h _ => h.2 _ rfl).step fun _ => .pure fun _ => Extent.covers_nil
    · exact emits_temporary _ _ (emits_compute type fun h _ => hv h.1)

theorem emits_stringLength (range : Span) (hv : P → v.Within E) :
    Emits E P (stringLength v range) (·.Within E) := by
  refine (emits_rvalue hv).bind fun w => ?_
  split
  · exact emits_constant _ _
  · exact (emits_stringParts And.right).step fun _ => .pure fun _ => Extent.covers_nil

theorem emits_lowerMember (view : Viewpoint) {whole : Value} (name : Ident) (range : Span)
    (hv : P → whole.Within E) : Emits E P (lowerMember view whole name range) (·.Within E) := by
  unfold lowerMember
  dsimp only
  split
  · exact emits_constant _ _
  · exact emits_stringLength range hv
  · exact (emits_rvalue hv).bind fun w => emits_temporary _ _ (emits_compute _ fun h _ => h.2)
  · refine emits_types.step fun t => (emits_required _ _ _).step fun ⟨index, field⟩ => ?_
    refine (emits_isAccessible view field.vis).step fun _ => emits_unless fun _ => ?_
    exact emits_memberAt _ _ _ _ range hv
  · refine (emits_required _ _ _).step fun index => ?_
    refine (emits_required _ _ _).step fun type => ?_
    exact emits_memberAt _ _ _ _ range hv
  · exact emits_refuse _ _

theorem emits_evaluate (view : Viewpoint) (e : Expr) (expected : Option Ty) :
    Emits E P (evaluate view e expected) fun _ => True :=
  emits_of_keeps fun _ hw => keeps_evaluate_open view e expected hw

theorem emits_resolveType (view : Viewpoint) (ty : TypeExpr) :
    Emits E P (resolveType view ty) fun _ => True :=
  emits_of_keeps fun _ hw => keeps_resolveType_open view ty hw

theorem emits_tupleMember (view : Viewpoint) {whole : Value} (type : Ty) (members : List Ty)
    (position : Expr) (range : Span) (hv : P → whole.Within E) :
    Emits E P (tupleMember view whole type members position range) (·.Within E) := by
  refine (emits_evaluate view position _).step fun c => emits_types.step fun t => ?_
  refine (emits_required _ _ _).step fun ⟨index, member⟩ => ?_
  exact emits_memberAt _ _ _ _ range hv

theorem emits_arrayElement {whole position : Value} (element : Ty) (length : Nat)
    (positionRange range : Span) (hv : P → whole.Within E) (hp : P → position.Within E) :
    Emits E P (arrayElement whole element length position positionRange range) (·.Within E) := by
  have hrest : Emits E P (do
      let p ← place whole
      let ptr ← elementPtr p.ir element p.isVar position.ir
      return Value.stored ptr element p.isVar (partStorage p.storage) range) (·.Within E) := by
    refine (emits_place hv).bind fun p => ?_
    refine (emits_elementPtr element _ fun h => ⟨h.2, hp h.1⟩).step fun _ => ?_
    exact .pure fun _ => Extent.covers_nil
  unfold arrayElement
  dsimp only
  split
  · refine emits_guard fun _ => ?_
    split
    · exact emits_constant _ _
    · exact hrest
  · split
    · exact emits_constant _ _
    · exact hrest

theorem emits_stringElement {whole position : Value} (positionRange range : Span)
    (hv : P → whole.Within E) (hp : P → position.Within E) :
    Emits E P (stringElement whole position positionRange range) (·.Within E) := by
  refine (emits_rvalue hv).bind fun w => ?_
  split
  · refine (emits_required _ _ _).step fun byte => ?_
    exact emits_constant _ _
  · refine (emits_stringParts And.right).step fun ⟨data, _⟩ => ?_
    refine (emits_elementPtr _ _ fun h => ⟨Extent.covers_nil, hp h.1⟩).step fun ptr => ?_
    exact emits_temporary _ _ (emits_load _ fun _ => Extent.covers_nil)

theorem emits_elementOf {whole position : Value} (wholeRange positionRange range : Span)
    (hv : P → whole.Within E) (hp : P → position.Within E) :
    Emits E P (elementOf whole position wholeRange positionRange range) (·.Within E) := by
  unfold elementOf
  split
  · exact emits_arrayElement _ _ positionRange range hv hp
  · refine (emits_place hv).bind fun p => ?_
    refine (emits_elementPtr _ _ fun h => ⟨h.2, hp h.1⟩).step fun _ => ?_
    exact .pure fun _ => Extent.covers_nil
  · refine (emits_rvalue hv).bind fun pointer => ?_
    split
    · refine (emits_register (emits_sliceData _ _ And.right)).bind fun data => ?_
      refine (emits_elementPtr _ _ fun h => ⟨h.2, hp h.1.1⟩).step fun _ => ?_
      exact .pure fun _ => Extent.covers_nil
    · refine (emits_elementPtr _ _ fun h => ⟨h.2, hp h.1⟩).step fun _ => ?_
      exact .pure fun _ => Extent.covers_nil
  · exact emits_stringElement positionRange range hv hp
  · refine (emits_rvalue hv).bind fun pointer => ?_
    refine (emits_elementPtr _ _ fun h => ⟨h.2, hp h.1⟩).step fun ptr => ?_
    exact emits_temporary _ _ (emits_load _ fun _ => Extent.covers_nil)
  · exact emits_refuse _ _

theorem emits_lowerIndex (view : Viewpoint) {base position : Operand} (range : Span)
    (hb : base.Sound E) (hp : position.Sound E) :
    Emits E P (lowerIndex view base position range) (·.Within E) := by
  refine (hb P _ fun _ => Expect.within_nothing).bind fun whole => ?_
  split
  · exact emits_tupleMember view _ _ _ range And.right
  · refine (emits_operandRvalue hp fun _ => Expect.within_of).bind fun at_ => ?_
    refine emits_types.step fun t => emits_unless fun _ => ?_
    exact emits_elementOf _ _ range (fun h => h.1.2) And.right

/-! ## Aggregates -/

theorem emits_finishAggregate (type : Ty) {parts : List Value} (members : List Ty)
    (data : List Data → Data) (range : Span) (hparts : P → ∀ v ∈ parts, v.Within E) :
    Emits E P (finishAggregate type parts members data range) (·.Within E) := by
  unfold finishAggregate
  split
  · exact emits_constant _ _
  · refine (emits_passValues range parts members hparts).bind fun irs => ?_
    exact emits_aggregate _ _ And.right

theorem emits_lowerSome {inner : Operand} (range : Span) (hi : inner.Sound E) :
    Emits E P (lowerSome inner expect range) (·.Within E) := by
  refine (hi P _ fun _ => Expect.within_maybe).bind fun v => (emits_intern _).step fun type => ?_
  split
  · exact emits_constant _ _
  · refine (emits_passValue _ range And.right).bind fun payload => ?_
    exact emits_aggregate _ _ fun h => by simpa using h.2

theorem emits_lowerEach :
    ∀ (items : List Operand) (hints : List Ty), (∀ o ∈ items, o.Sound E) →
      Emits E P (lowerEach items hints) fun vs => ∀ v ∈ vs, v.Within E
  | [], _, _ => by
    unfold lowerEach
    exact .pure fun _ _ h => by cases h
  | o :: items, hints, ho => by
    obtain ⟨ho, hitems⟩ := List.forall_mem_cons.mp ho
    unfold lowerEach
    refine (ho P _ fun _ => Expect.within_maybe).bind fun v => ?_
    refine ((emits_lowerEach items (hints.drop 1) hitems).of And.left).bind fun vs => ?_
    exact .pure fun h => List.forall_mem_cons.mpr ⟨h.1.2, h.2⟩

theorem emits_lowerTuple {items : List Operand} (range : Span) (ho : ∀ o ∈ items, o.Sound E) :
    Emits E P (lowerTuple items expect range) (·.Within E) := by
  refine (emits_lowerEach items _ ho).bind fun vs => (emits_intern _).step fun type => ?_
  exact emits_finishAggregate _ _ _ range And.right

theorem emits_lowerItems :
    ∀ (items : List Operand) (element : Option Ty), (∀ o ∈ items, o.Sound E) →
      Emits E P (lowerItems items element) fun r => ∀ v ∈ r.2, v.Within E
  | [], _, _ => by
    unfold lowerItems
    exact .pure fun _ _ h => by cases h
  | o :: items, element, ho => by
    obtain ⟨ho, hitems⟩ := List.forall_mem_cons.mp ho
    have hrest (v : Value) : Emits E (P ∧ v.Within E) (do
        let r ← lowerItems items (some v.type.value)
        return (r.1, v :: r.2)) fun r => ∀ v ∈ r.2, v.Within E := by
      refine ((emits_lowerItems items _ hitems).of And.left).bind fun r => ?_
      exact .pure fun h => List.forall_mem_cons.mpr ⟨h.1.2, h.2⟩
    unfold lowerItems
    refine (ho P _ fun _ => Expect.within_maybe).bind fun v => ?_
    cases element with
    | none => exact hrest v
    | some ty => exact emits_guard fun _ => hrest v

theorem emits_lowerArray {items : List Operand} (range : Span) (ho : ∀ o ∈ items, o.Sound E) :
    Emits E P (lowerArray items expect range) (·.Within E) := by
  refine (emits_lowerItems items _ ho).bind fun ⟨element, vs⟩ => ?_
  refine (emits_required _ _ _).step fun element => (emits_intern _).step fun type => ?_
  exact emits_finishAggregate _ _ _ range And.right

theorem emits_lowerIf {condition thenValue elseValue : Operand} (range : Span)
    (hc : condition.Sound E) (ht : thenValue.Sound E) (he : elseValue.Sound E) :
    Emits E P (lowerIf condition thenValue elseValue expect range) (·.Within E) := by
  refine (emits_condition hc).bind fun cond => ?_
  split
  · exact emits_operandRvalue ht fun _ => Expect.within_hint
  · exact emits_operandRvalue he fun _ => Expect.within_hint
  · refine (emits_newBlock _).bind fun thenBlock => (emits_newBlock _).bind fun elseBlock =>
      (emits_newBlock _).bind fun endBlock => ?_
    refine (emits_branch fun ⟨⟨⟨⟨_, hcond⟩, hthen⟩, helse⟩, _⟩ => ⟨hcond, hthen, helse⟩).step
      fun _ => ?_
    refine (emits_switchTo thenBlock).step fun _ => ?_
    refine (emits_operandRvalue ht fun _ => Expect.within_hint).bind fun thenResult => ?_
    refine emits_currentBlock.step fun thenEnd => (emits_jump fun h => h.1.2).step fun _ => ?_
    refine (emits_switchTo elseBlock).step fun _ => ?_
    refine (emits_operandRvalue he fun _ => Expect.within_of).bind fun elseResult => ?_
    refine emits_guard fun _ => emits_currentBlock.step fun elseEnd =>
      (emits_jump fun h => h.1.1.2).step fun _ => (emits_switchTo endBlock).step fun _ => ?_
    split
    · exact .pure fun _ => Value.within_void
    · exact emits_temporary _ _ (emits_compute _ fun ⟨⟨_, hthen⟩, helse⟩ _ => by
        simpa using ⟨hthen, helse⟩)

/-! ## Operators -/

theorem emits_orRefuse {α : Type} (r : Except Fault α) (range : Span) :
    Emits E P (orRefuse r range) fun _ => True := by
  cases r with
  | ok v => exact .pure fun _ => trivial
  | error f => exact emits_refuse f range

theorem emits_orRefuseFold {α : Type} (r : Except FoldError α) (range : Span) :
    Emits E P (orRefuseFold r range) fun _ => True := by
  cases r with
  | ok v => exact .pure fun _ => trivial
  | error e => exact emits_refuse _ range

theorem emits_nativeBinary (op : BinaryOp) {left right : Value} (range : Span)
    (hl : P → left.Within E) (hr : P → right.Within E) :
    Emits E P (nativeBinary op left right range) (·.Within E) := by
  have hrefs (hp : P) : E.Covers (left.ir.refs ++ right.ir.refs) :=
    Extent.covers_append.mpr ⟨hl hp, hr hp⟩
  refine emits_types.step fun t => (emits_required _ _ _).step fun class_ => ?_
  split
  · refine (emits_required _ _ _).step fun pred => ?_
    exact emits_temporary _ _ (emits_compute _ fun hp _ => hrefs hp)
  · refine (emits_required _ _ _).step fun arith => ?_
    exact emits_temporary _ _ (emits_compute _ fun hp _ => hrefs hp)

theorem emits_foldOrCompute (op : BinaryOp) {left right : Value} (range : Span)
    (hl : P → left.Within E) (hr : P → right.Within E) :
    Emits E P (foldOrCompute op left right range) (·.Within E) := by
  refine emits_types.step fun t => (emits_orRefuse _ _).step fun _ => ?_
  split
  · refine emits_types.step fun t => (emits_orRefuseFold _ _).step fun c => ?_
    exact emits_constant _ _
  · exact emits_nativeBinary op range hl hr

theorem emits_lowerLogical (op : BinaryOp) {lhs rhs : Operand} (range : Span)
    (hl : lhs.Sound E) (hr : rhs.Sound E) :
    Emits E P (lowerLogical op lhs rhs range) (·.Within E) := by
  have hrest (left : Value) (before rhsBlock done : Ir.BlockId) (short : Bool) :
      Emits E ((P ∧ left.Within E) ∧ rhsBlock < E.blocks ∧ done < E.blocks) (do
        switchTo rhsBlock
        let right ← rhs.condition
        let rhsEnd ← currentBlock
        jump done
        switchTo done
        let r ← compute .bool
          (.phi · [(Ir.Const.bool .bool short, before), (right.ir, rhsEnd)])
        return Value.temporary r .bool range) (·.Within E) := by
    refine (emits_switchTo rhsBlock).step fun _ => (emits_condition hr).bind fun right => ?_
    refine emits_currentBlock.step fun rhsEnd => (emits_jump fun h => h.1.2.2).step fun _ => ?_
    refine (emits_switchTo done).step fun _ => ?_
    exact emits_temporary _ _ (emits_compute _ fun h _ => by simpa [Value.Within] using h.2)
  refine (emits_condition hl).bind fun left => ?_
  dsimp only
  split
  · split
    · exact emits_constant _ _
    · exact emits_condition hr
  · refine emits_currentBlock.step fun before => (emits_newBlock _).bind fun rhsBlock =>
      (emits_newBlock _).bind fun done => ?_
    split
    · refine (emits_branch fun h => ⟨h.1.1.2, h.1.2, h.2⟩).step fun _ => ?_
      exact (hrest left before rhsBlock done _).of fun h => ⟨h.1.1, h.1.2, h.2⟩
    · refine (emits_branch fun h => ⟨h.1.1.2, h.2, h.1.2⟩).step fun _ => ?_
      exact (hrest left before rhsBlock done _).of fun h => ⟨h.1.1, h.1.2, h.2⟩

theorem emits_chooseOperator (op : BinaryOp) (ty : Ty) (left right : Value) (range : Span) :
    Emits E P (chooseOperator op ty left right range) (·.function < E.functions) := by
  have hmem {t : TypeTable} (ht : t.Sound E) {p : MemberFunction → Bool} {m : MemberFunction}
      (hm : m ∈ (t.operators ty op).filter p) : m.function < E.functions :=
    ht.membersOf (List.mem_filter.mp (List.mem_filter.mp hm).1).1
  refine emits_types.bind fun t => ?_
  dsimp only
  split
  · rename_i m hfind
    exact .pure fun h => hmem h.2 (List.mem_of_find?_eq_some hfind)
  · rename_i m rest _ hlist
    split
    · exact .pure fun h => hmem h.2 (hlist ▸ List.mem_cons_self)
    · exact emits_refuse _ _
  · exact emits_refuse _ _

theorem emits_lowerOperatorCall (op : BinaryOp) {left right : Value} (range : Span)
    (hl : P → left.Within E) (hr : P → right.Within E) :
    Emits E P (lowerOperatorCall op left right range) (·.Within E) := by
  refine (emits_chooseOperator op _ left right range).bind fun m => ?_
  refine (emits_place fun h => hl h.1).bind fun self => ?_
  refine (emits_passValues range [right] m.argTypes fun h x hx =>
    List.mem_singleton.mp hx ▸ hr h.1.1).bind fun args => ?_
  exact emits_callMember range (fun h => h.1.1.2) (fun h w hw => by cases hw; exact h.1.2) And.right

theorem emits_byteAt {data position : Ir.Value}
    (h : P → E.Covers data.refs ∧ E.Covers position.refs) :
    Emits E P (byteAt data position) fun _ => True :=
  (emits_elementPtr _ _ h).step fun _ => emits_load _ fun _ => Extent.covers_nil

theorem emits_compareStrings {left right : Ir.Value} (hl : P → E.Covers left.refs)
    (hr : P → E.Covers right.refs) : Emits E P (compareStrings left right) fun _ => True := by
  refine (emits_stringParts hl).step fun ⟨leftData, leftLength⟩ => ?_
  refine (emits_stringParts hr).step fun ⟨rightData, rightLength⟩ => ?_
  refine (emits_alloca _ _).step fun result => (emits_alloca _ _).step fun index => ?_
  -- from here on only registers and plain constants are used
  have hnil : E.Covers [] := Extent.covers_nil
  refine (emits_store fun _ => ⟨hnil, hnil⟩).step fun _ => ?_
  refine (emits_store fun _ => ⟨hnil, hnil⟩).step fun _ => ?_
  refine (emits_newBlock _).bind fun lengthBlock => (emits_newBlock _).bind fun condBlock =>
    (emits_newBlock _).bind fun bodyBlock => (emits_newBlock _).bind fun nextBlock =>
    (emits_newBlock _).bind fun trueBlock => (emits_newBlock _).bind fun endBlock => ?_
  refine Emits.of (P := lengthBlock < E.blocks ∧ condBlock < E.blocks ∧ bodyBlock < E.blocks ∧
    nextBlock < E.blocks ∧ trueBlock < E.blocks ∧ endBlock < E.blocks) ?_
    fun ⟨⟨⟨⟨⟨⟨_, h1⟩, h2⟩, h3⟩, h4⟩, h5⟩, h6⟩ => ⟨h1, h2, h3, h4, h5, h6⟩
  refine (emits_jump fun h => h.1).step fun _ => (emits_switchTo _).step fun _ => ?_
  refine (emits_compute _ fun _ _ => hnil).step fun sameLength => ?_
  refine (emits_branch fun ⟨_, hcond, _, _, _, hend⟩ => ⟨hnil, hcond, hend⟩).step fun _ => ?_
  refine (emits_switchTo _).step fun _ => (emits_load _ fun _ => hnil).step fun position => ?_
  refine (emits_compute _ fun _ _ => hnil).step fun inRange => ?_
  refine (emits_branch fun ⟨_, _, hbody, _, htrue, _⟩ => ⟨hnil, hbody, htrue⟩).step fun _ => ?_
  refine (emits_switchTo _).step fun _ => (emits_load _ fun _ => hnil).step fun position => ?_
  refine (emits_byteAt fun _ => ⟨hnil, hnil⟩).step fun leftByte => ?_
  refine (emits_byteAt fun _ => ⟨hnil, hnil⟩).step fun rightByte => ?_
  refine (emits_compute _ fun _ _ => hnil).step fun sameByte => ?_
  refine (emits_branch fun ⟨_, _, _, hnext, _, hend⟩ => ⟨hnil, hnext, hend⟩).step fun _ => ?_
  refine (emits_switchTo _).step fun _ => (emits_load _ fun _ => hnil).step fun position => ?_
  refine (emits_compute _ fun _ _ => hnil).step fun advanced => ?_
  refine (emits_store fun _ => ⟨hnil, hnil⟩).step fun _ => ?_
  refine (emits_jump fun h => h.2.1).step fun _ => (emits_switchTo _).step fun _ => ?_
  refine (emits_store fun _ => ⟨hnil, hnil⟩).step fun _ => ?_
  refine (emits_jump fun h => h.2.2.2.2.2).step fun _ => (emits_switchTo _).step fun _ => ?_
  exact emits_load _ fun _ => hnil

theorem emits_lowerStringEquality (op : BinaryOp) {left right : Value} (range : Span)
    (hl : P → left.Within E) (hr : P → right.Within E) :
    Emits E P (lowerStringEquality op left right range) (·.Within E) := by
  unfold lowerStringEquality
  dsimp only
  split
  · exact emits_constant _ _
  · refine (emits_compareStrings hl hr).step fun equal => ?_
    split
    · exact emits_temporary _ _ (emits_compute _ fun _ _ => Extent.covers_nil)
    · exact .pure fun _ => Extent.covers_nil

theorem emits_lowerOperands {lhs rhs : Operand} (hl : lhs.Sound E) (hr : rhs.Sound E) :
    Emits E P (lowerOperands lhs rhs) fun r => r.1.Within E ∧ r.2.Within E := by
  unfold lowerOperands
  split
  · refine (hr P _ fun _ => Expect.within_nothing).bind fun right => ?_
    exact (hl _ _ fun _ => Expect.within_of).bind fun left => .pure fun h => ⟨h.2, h.1.2⟩
  · refine (hl P _ fun _ => Expect.within_nothing).bind fun left => ?_
    exact (hr _ _ fun _ => Expect.within_of).bind fun right => .pure fun h => ⟨h.1.2, h.2⟩

theorem emits_lowerBinary (op : BinaryOp) {lhs rhs : Operand} (range : Span)
    (hl : lhs.Sound E) (hr : rhs.Sound E) :
    Emits E P (lowerBinary op lhs rhs range) (·.Within E) := by
  unfold lowerBinary
  split
  · exact emits_lowerLogical op range hl hr
  · refine (emits_lowerOperands hl hr).bind fun ⟨left, right⟩ => ?_
    refine emits_types.step fun t => emits_types.step fun t' => ?_
    split
    · exact emits_lowerOperatorCall op range (fun h => h.2.1) fun h => h.2.2
    · refine (emits_rvalue fun h => h.2.1).bind fun left => ?_
      refine (emits_rvalue fun h => h.1.2.2).bind fun right => ?_
      split
      · exact emits_lowerStringEquality op range (fun h => h.1.2) And.right
      · exact emits_foldOrCompute op range (fun h => h.1.2) And.right

theorem covers_unaryInstr {t : TypeTable} {op : UnaryOp} {ty : Ty} {operand : Ir.Value}
    {dest : Ir.Register} {i : Ir.Instr} (hi : unaryInstr? t op ty operand dest = some i)
    (ho : E.Covers operand.refs) : E.Covers i.refs := by
  unfold unaryInstr? at hi
  split at hi
  · split at hi
    · cases hi
      exact ho
    · split at hi
      · cases hi
        exact ho
      · cases hi
  · split at hi
    · cases hi
      simpa using ho
    · cases hi
  · obtain ⟨info, -, rfl⟩ := Option.map_eq_some_iff.mp hi
    simpa using ho

theorem emits_unaryOn (op : UnaryOp) (range : Span) (hv : P → v.Within E) :
    Emits E P (unaryOn op v range) (·.Within E) := by
  refine emits_types.bind fun t => ?_
  split
  · rename_i m hm
    refine (emits_place fun h => hv h.1).bind fun self => ?_
    exact emits_callMember range (fun h => h.1.2.membersOf (List.mem_of_find?_eq_some hm))
      (fun h w hw => by cases hw; exact h.2) fun _ _ h => by cases h
  · refine (emits_rvalue fun h => hv h.1).bind fun w => ?_
    split
    · refine emits_types.step fun t => (emits_orRefuseFold _ _).step fun c => ?_
      exact emits_constant _ _
    · refine (emits_fresh _).step fun r => emits_types.step fun t => ?_
      refine (emits_require _ _ fun i hi h => covers_unaryInstr hi h.2).bind fun i => ?_
      exact (emits_push And.right).step fun _ => .pure fun _ => Extent.covers_nil

theorem emits_lowerUnary (view : Viewpoint) (op : UnaryOp) {operand : Operand} (range : Span)
    (ho : operand.Sound E) : Emits E P (lowerUnary view op operand expect range) (·.Within E) := by
  unfold lowerUnary
  split
  · exact (emits_evaluate view _ _).step fun c => emits_constant _ _
  · exact (ho P _ fun _ => Expect.within_hint).bind fun v => emits_unaryOn _ range And.right

theorem emits_lowerDeref {operand : Operand} (range : Span) (ho : operand.Sound E) :
    Emits E P (lowerDeref operand range) (·.Within E) := by
  refine (emits_operandRvalue ho fun _ => Expect.within_nothing).bind fun pointer => ?_
  split
  · exact emits_refuse _ _
  · exact .pure And.right
  · exact emits_refuse _ _

theorem emits_lowerAddressOf {operand : Operand} (isVar : Bool) (range : Span)
    (ho : operand.Sound E) :
    Emits E P (lowerAddressOf operand isVar expect range) (·.Within E) := by
  refine (ho P _ fun _ => Expect.within_nothing).bind fun v => ?_
  refine (emits_placeOf And.right).bind fun p => ?_
  refine (emits_require _ _ fun w hw h => h.2 w hw).bind fun p => emits_guard fun _ => ?_
  split
  · exact emits_guard fun _ => (emits_intern _).step fun ty => .pure And.right
  · exact (emits_intern _).step fun ty => .pure And.right

/-! ## Conversions and copies -/

theorem emits_convertInt (target : Ty) (hv : P → v.Within E) :
    Emits E P (convertInt v target) (·.Within E) := by
  refine emits_types.step fun t => ?_
  split
  · exact .pure hv
  · split
    · split
      · exact emits_constant _ _
      · exact emits_temporary _ _ (emits_castTo _ _ hv)
    · exact emits_mismatch _ _ _

theorem emits_castAtRuntime (target : Ty) (range : Span) (hv : P → v.Within E) :
    Emits E P (castAtRuntime v target range) (·.Within E) := by
  refine emits_types.step fun t => ?_
  dsimp only
  split
  · refine emits_unless fun _ => ?_
    exact emits_temporary _ _ (emits_compute _ fun hp _ => by simpa [Value.Within] using hv hp)
  · split
    · exact emits_refuse _ _
    · refine (emits_required _ _ _).step fun op => ?_
      split
      · refine Emits.bind (Q := (E.Covers ·.refs)) ?_ fun operand => ?_
        · exact (emits_stringParts hv).step fun _ => .pure fun _ => Extent.covers_nil
        · exact emits_temporary _ _ (emits_castTo _ _ And.right)
      · exact emits_temporary _ _ (emits_castTo _ _ hv)

theorem emits_castValue (view : Viewpoint) (target : Ty) (range : Span) (hv : P → v.Within E) :
    Emits E P (castValue view v target range) (·.Within E) := by
  refine emits_types.bind fun t => ?_
  dsimp only
  split
  · rename_i m hm
    refine (emits_isAccessible view m.vis).step fun _ => emits_unless fun _ => ?_
    refine (emits_place fun h => hv h.1).bind fun self => ?_
    exact emits_callMember range (fun h => h.1.2.membersOf (List.mem_of_find?_eq_some hm))
      (fun h w hw => by cases hw; exact h.2) fun _ _ h => by cases h
  · refine (emits_rvalue fun h => hv h.1).bind fun w => ?_
    split
    · exact .pure And.right
    · refine emits_types.step fun t => ?_
      split
      · exact emits_constant _ _
      · exact emits_castAtRuntime target range And.right

theorem emits_lowerCast (view : Viewpoint) {value : Operand} (target : TypeExpr) (range : Span)
    (hv : value.Sound E) : Emits E P (lowerCast view value target range) (·.Within E) := by
  refine (emits_resolveType view target).step fun ty => ?_
  exact (hv P _ fun _ => Expect.within_nothing).bind fun v =>
    emits_castValue view ty range And.right

theorem emits_buildFrom (kind : MemberKind) {p : Value} (missing : Fault) (range : Span)
    (hp : P → p.Within E) (he : P → expect.Within E) :
    Emits E P (buildFrom kind p missing expect range) (·.Within E) := by
  refine emits_types.bind fun t => ?_
  refine (emits_require _ _ fun m hm h =>
    h.2.membersOf (List.mem_of_find?_eq_some hm)).bind fun m => ?_
  refine (emits_targetSlot _ _ fun h => he h.1.1).bind fun slot => ?_
  refine (emits_callMember range (fun h => h.1.2) (fun h w hw => by cases hw; exact h.2)
    fun h a ha => List.mem_singleton.mp ha ▸ hp h.1.1.1).step fun _ => ?_
  exact .pure And.right

theorem emits_lowerCopy {inner : Operand} (range : Span) (hi : inner.Sound E)
    (he : P → expect.Within E) : Emits E P (lowerCopy inner expect range) (·.Within E) := by
  refine (hi P _ fun _ => Expect.within_hint).bind fun v => ?_
  refine (emits_placeOf And.right).bind fun p => ?_
  split
  · exact .pure fun h => h.1.2
  · refine emits_types.step fun t => ?_
    split
    · exact emits_rvalue fun h => h.2 _ rfl
    · exact emits_buildFrom _ _ range (fun h => h.2 _ rfl) fun h => he h.1.1

theorem emits_warnReset (type : Ty) (range : Span) :
    Emits E P (warnReset type range) fun _ => True :=
  emits_types.step fun _ => emits_warn _

theorem emits_moveBits {p : Value} (source range : Span) (hp : P → p.Within E) :
    Emits E P (moveBits p source range) (·.Within E) := by
  refine (emits_load _ hp).step fun r => emits_types.step fun t => ?_
  dsimp only
  split
  · exact .pure fun _ => Extent.covers_nil
  · refine (emits_store fun h => ⟨Extent.covers_nil, hp h⟩).step fun _ => ?_
    exact (emits_warnReset _ _).step fun _ => .pure fun _ => Extent.covers_nil

theorem emits_lowerMove {inner : Operand} (range : Span) (hi : inner.Sound E)
    (he : P → expect.Within E) : Emits E P (lowerMove inner expect range) (·.Within E) := by
  refine (hi P _ fun _ => Expect.within_hint).bind fun v => ?_
  split
  · exact .pure And.right
  · refine (emits_placeOf And.right).bind fun p => ?_
    split
    · exact .pure fun h => h.1.2
    · refine emits_unless fun _ => emits_types.step fun t => ?_
      split
      · exact emits_moveBits _ range fun h => h.2 _ rfl
      · exact emits_buildFrom _ _ range (fun h => h.2 _ rfl) fun h => he h.1.1

/-! ## New values -/

theorem emits_lowerDefault (view : Viewpoint) (ty : Ty) (range : Span)
    (he : P → expect.Within E) : Emits E P (lowerDefault view ty expect range) (·.Within E) := by
  refine emits_types.bind fun t => ?_
  split
  · rename_i m hm
    refine (emits_isAccessible view m.vis).step fun _ => emits_unless fun _ => ?_
    refine (emits_targetSlot ty range fun h => he h.1).bind fun slot => ?_
    refine (emits_callMember range (fun h => h.1.2.membersOf (List.mem_of_find?_eq_some hm))
      (fun h w hw => by cases hw; exact h.2) fun _ _ h => by cases h).step fun _ => ?_
    exact .pure And.right
  · refine emits_types.step fun t => ?_
    split
    · exact emits_constant _ _
    · refine emits_types.step fun t => emits_unless fun _ => ?_
      refine (emits_targetSlot ty range fun h => he h.1).bind fun slot => ?_
      exact (emits_store fun h => ⟨Extent.covers_nil, h.2⟩).step fun _ => .pure And.right

theorem emits_lowerHinted :
    ∀ (args : List Operand) (hints : List (Option Ty)), (∀ a ∈ args, a.Sound E) →
      Emits E P (lowerHinted args hints) fun vs => ∀ v ∈ vs, v.Within E
  | [], _, _ | _ :: _, [], _ => by
    unfold lowerHinted
    exact .pure fun _ _ h => by cases h
  | a :: args, _ :: hints, ha => by
    obtain ⟨ha, hargs⟩ := List.forall_mem_cons.mp ha
    unfold lowerHinted
    refine (ha P _ fun _ => Expect.within_maybe).bind fun v => ?_
    refine ((emits_lowerHinted args hints hargs).of And.left).bind fun vs => ?_
    exact .pure fun h => List.forall_mem_cons.mpr ⟨h.1.2, h.2⟩

theorem emits_passEach :
    ∀ (vs : List Value) (tys : List Ty), (P → ∀ v ∈ vs, v.Within E) →
      Emits E P (passEach vs tys) fun irs => ∀ ir ∈ irs, E.Covers ir.refs
  | [], _, _ | _ :: _, [], _ => by
    unfold passEach
    exact .pure fun _ _ h => by cases h
  | v :: vs, ty :: tys, hv => by
    unfold passEach
    refine (emits_passValue ty _ fun hp => hv hp v List.mem_cons_self).bind fun ir => ?_
    refine ((emits_passEach vs tys fun hp x hx =>
      hv hp x (List.mem_cons_of_mem v hx)).of And.left).bind fun irs => ?_
    exact .pure fun h => List.forall_mem_cons.mpr ⟨h.1.2, h.2⟩

theorem emits_constructPlainly (ty : Ty) {args : List Operand} (range : Span)
    (ha : ∀ a ∈ args, a.Sound E) :
    Emits E P (constructPlainly ty args range) (·.Within E) := by
  refine emits_types.step fun t => ?_
  split
  · rename_i only _
    refine (ha only List.mem_cons_self P _ fun _ => Expect.within_of).bind fun v => ?_
    split
    · exact emits_rvalue And.right
    · exact emits_refuse _ _
  · exact emits_refuse _ _

theorem mem_membersOf_of_constructors {t : TypeTable} {ty : Ty} {count : Nat}
    {m : MemberFunction} (hm : m ∈ constructors t ty count) : m ∈ t.membersOf ty := by
  rcases List.mem_append.mp hm with hm | hm
  · exact (List.mem_filter.mp (List.mem_filter.mp hm).1).1
  · exact (List.mem_filter.mp (List.mem_filter.mp hm).1).1

theorem emits_construct (view : Viewpoint) (type : Ty) {args : List Operand} (range : Span)
    (ha : ∀ a ∈ args, a.Sound E) (he : P → expect.Within E) :
    Emits E P (construct view type args expect range) (·.Within E) := by
  unfold construct
  dsimp only
  split
  · exact emits_lowerDefault view _ range he
  · refine emits_types.bind fun t => ?_
    split
    · exact emits_constructPlainly _ range ha
    · rename_i first others hlist
      refine (emits_lowerHinted args _ ha).bind fun vs => ?_
      refine (emits_require _ _ fun m hm h => h.1.2.membersOf (mem_membersOf_of_constructors
        (hlist ▸ List.mem_of_find?_eq_some hm))).bind fun m => ?_
      refine (emits_isAccessible view m.vis).step fun _ => emits_unless fun _ => ?_
      refine (emits_passEach vs m.argTypes fun h => h.1.2).bind fun operands => ?_
      refine (emits_targetSlot _ range fun h => he h.1.1.1.1).bind fun slot => ?_
      refine (emits_callMember range (fun h => h.1.1.2) (fun h w hw => by cases hw; exact h.2)
        fun h => h.1.2).step fun _ => ?_
      exact .pure And.right

theorem emits_lowerFields (fieldTypes : List Ty) :
    ∀ (values : List Operand) (order : List Nat), (∀ o ∈ values, o.Sound E) →
      Emits E P (lowerFields fieldTypes values order) fun fs => ∀ f ∈ fs, f.2.2.Within E
  | [], _, _ | _ :: _, [], _ => by
    unfold lowerFields
    exact .pure fun _ _ h => by cases h
  | o :: values, _ :: order, ho => by
    obtain ⟨ho, hvalues⟩ := List.forall_mem_cons.mp ho
    unfold lowerFields
    refine (ho P _ fun _ => Expect.within_of).bind fun v => emits_guard fun _ => ?_
    refine ((emits_lowerFields fieldTypes values order hvalues).of And.left).bind fun fs => ?_
    exact .pure fun h => List.forall_mem_cons.mpr ⟨h.1.2, h.2⟩

theorem emits_storeFields {slot : Ir.Value} (type : Ty) :
    ∀ fields : List (Nat × Ty × Value),
      (P → E.Covers slot.refs ∧ ∀ f ∈ fields, f.2.2.Within E) →
      Emits E P (storeFields slot type fields) fun _ => True
  | [], _ => by
    unfold storeFields
    exact .pure fun _ => trivial
  | (i, ty, v) :: rest, h => by
    unfold storeFields
    refine (emits_passValue ty _ fun hp => (h hp).2 _ List.mem_cons_self).bind fun operand => ?_
    refine (emits_fieldPtr _ _ _ fun hp => (h hp.1).1).step fun ptr => ?_
    refine (emits_store fun hp => ⟨hp.2, Extent.covers_nil⟩).step fun _ => ?_
    exact (emits_storeFields type rest fun hp =>
      ⟨(h hp).1, fun f hf => (h hp).2 f (List.mem_cons_of_mem _ hf)⟩).of And.left

theorem emits_fieldOrder (view : Viewpoint) (ty : Ty) (names : Option (List Ident)) (count : Nat)
    (range : Span) : Emits E P (fieldOrder view ty names count range) fun _ => True :=
  emits_of_keeps fun _ _ => keeps_fieldOrder view ty names count range

theorem emits_lowerPlain (view : Viewpoint) (type : Ty) (names : Option (List Ident))
    {values : List Operand} (range : Span) (hv : ∀ o ∈ values, o.Sound E)
    (he : P → expect.Within E) :
    Emits E P (lowerPlain view type names values expect range) (·.Within E) := by
  refine (emits_fieldOrder view _ names _ range).step fun order => emits_types.step fun t => ?_
  refine (emits_lowerFields _ values order hv).bind fun fields => emits_types.step fun t => ?_
  dsimp only
  split
  · exact emits_constant _ _
  · refine (emits_targetSlot _ range fun h => he h.1).bind fun slot => ?_
    refine (emits_storeFields _ fields fun h => ⟨h.2, h.1.2⟩).step fun _ => ?_
    exact .pure And.right

theorem emits_bareVariant (ty : Ty) (variant : Ident) (range : Span) :
    Emits E P (bareVariant ty variant range) (·.Within E) :=
  emits_types.step fun _ => (emits_orRefuse _ _).step fun _ => emits_constant _ _

theorem emits_lowerVariant (type : Ty) (variant : Ident) {value : Option Operand} (range : Span)
    (hv : ∀ o, value = some o → o.Sound E) (he : P → expect.Within E) :
    Emits E P (lowerVariant type variant value expect range) (·.Within E) := by
  refine emits_types.step fun t => ?_
  dsimp only
  split
  · refine emits_types.step fun t => emits_guard fun _ => ?_
    split
    · exact .fails fun _ s => ⟨_, s, rfl⟩
    · exact emits_bareVariant _ variant range
  · refine (emits_required _ _ _).step fun found => ?_
    obtain ⟨index, v⟩ := found
    dsimp only
    split
    · exact emits_bareVariant _ variant range
    · exact emits_refuse _ _
    · rename_i payloadType o hvalue
      refine (hv o rfl P _ fun _ => Expect.within_of).bind fun payload => ?_
      refine emits_guard fun _ => emits_types.step fun t => ?_
      split
      · refine emits_types.step fun t => (emits_orRefuse _ _).step fun c => ?_
        exact emits_constant _ _
      · refine (emits_passValue _ _ And.right).bind fun operand => ?_
        refine (emits_targetSlot _ range fun h => he h.1.1).bind fun slot => ?_
        refine (emits_intern _).step fun tag => (emits_fieldPtr _ _ _ And.right).step fun ptr => ?_
        refine (emits_store fun h => ⟨Extent.covers_nil, Extent.covers_nil⟩).step fun _ => ?_
        refine (emits_fieldPtr _ _ _ And.right).step fun payloadPtr => ?_
        refine (emits_store fun h => ⟨h.1.2, Extent.covers_nil⟩).step fun _ => ?_
        exact .pure And.right

/-! ## The heap, assembly and futures -/

theorem emits_elementSize (element : Ty) (range : Span) :
    Emits E P (elementSize element range) fun _ => True := by
  refine (emits_requireSized element range).step fun _ => emits_types.step fun t => ?_
  split
  · exact .pure fun _ => trivial
  · exact emits_types.step fun _ => .fails fun _ s => ⟨_, s, rfl⟩

theorem emits_lowerCount {count : Operand} (hc : count.Sound E) :
    Emits E P (lowerCount count) (·.Within E) := by
  refine (emits_operandRvalue hc fun _ => Expect.within_of).bind fun v => ?_
  exact emits_types.step fun t => emits_unless fun _ => emits_convertInt _ And.right

theorem emits_byteCount {count : Value} (size : Nat) (hc : P → count.Within E) :
    Emits E P (byteCount count size) (E.Covers ·.refs) := by
  unfold byteCount
  split
  · exact .pure fun _ => Extent.covers_nil
  · exact emits_register (emits_compute _ fun hp _ => by simpa [Value.Within] using hc hp)

theorem functionNamed?_lt {m : Ir.Module} {name : String} {id : Ir.FunctionId}
    (h : m.functionNamed? name = some id) : id < m.functions.size := by
  obtain ⟨⟨f, i⟩, hfind, rfl⟩ := Option.map_eq_some_iff.mp h
  have hmem := List.mem_reverse.mp (List.mem_of_find?_eq_some hfind)
  simpa using List.snd_lt_of_mem_zipIdx hmem

theorem emits_declareExternal (name : String) (params : List Ty) (result : Ty) (variadic : Bool) :
    Emits E P (declareExternal name params result variadic) (· < E.functions) := by
  intro o s v s' h
  have hrun : declareExternal name params result variadic o s =
      .ok (s.ir.declareExternal name params result variadic).2
        { s with ir := (s.ir.declareExternal name params result variadic).1 } := rfl
  rw [hrun] at h
  unfold Ir.Module.declareExternal at h
  split at h
  · rename_i id hid
    cases h
    exact ⟨rfl, .refl _, fun hfits _ _ hs =>
      ⟨hs, (functionNamed?_lt hid).trans_le hfits.functions⟩⟩
  · cases h
    have hnew : (Ir.Function.ofExternal name params result variadic).blocks = #[] := rfl
    refine ⟨rfl, { Core.Grows.refl s.core with functions := ⟨#[_], Array.push_eq_append, ?_⟩ },
      fun hfits _ _ hs => ⟨{ hs with functions := fun f hf => ?_ }, ?_⟩⟩
    · intro f hf
      rw [Array.mem_singleton] at hf
      subst hf
      exact ⟨rfl, hnew⟩
    · rcases Array.mem_push.mp hf with hf | rfl
      · exact hs.functions f hf
      · exact ⟨by simp [Ir.Function.refs, hnew], by simp [hnew], by simp [hnew], fun _ => hnew⟩
    · have := hfits.functions
      simp only [Ir.Module.addFunction, Compiler.core, Array.size_push] at this
      exact this

theorem emits_callAllocator (name : String) (params : List Ty) (result : Ty)
    {args : List Ir.Value} (ha : P → ∀ a ∈ args, E.Covers a.refs) :
    Emits E P (callAllocator name params result args) fun r =>
      ∀ v, r = some v → E.Covers v.refs := by
  refine (emits_declareExternal name params result false).bind fun f => ?_
  refine (emits_emitCall result default (fun h => ?_) fun h => ha h.1).bind fun v => ?_
  · simpa using h.2
  · refine .pure fun h w hw => ?_
    split at hw
    · cases hw
    · cases hw
      exact h.2

theorem emits_allocate (name : String) (params : List Ty) {args : List Ir.Value}
    (ha : P → ∀ a ∈ args, E.Covers a.refs) :
    Emits E P (allocate name params args) (E.Covers ·.refs) := by
  refine (emits_intern _).step fun bytePtr => (emits_callAllocator _ _ _ ha).bind fun r => ?_
  split
  · exact .pure fun h => h.2 _ rfl
  · exact .fails fun _ s => ⟨_, s, rfl⟩

theorem emits_heapValue {raw : Ir.Value} (element : Ty) {count : Option Ir.Value} (range : Span)
    (hraw : P → E.Covers raw.refs) (hc : P → ∀ n, count = some n → E.Covers n.refs) :
    Emits E P (heapValue raw element count range) (·.Within E) := by
  refine (emits_intern _).step fun single => (emits_castTo _ _ hraw).step fun data => ?_
  split
  · exact .pure fun _ => Extent.covers_nil
  · refine (emits_intern _).step fun ty => emits_aggregate _ _ fun hp => ?_
    simpa using hc hp _ rfl

theorem emits_lowerHeapGet (view : Viewpoint) (type : TypeExpr) {count : Option Operand}
    (range : Span) (hc : ∀ o, count = some o → o.Sound E) :
    Emits E P (lowerHeapGet view type count range) (·.Within E) := by
  refine (emits_resolveType view type).step fun element => ?_
  refine (emits_elementSize element _).step fun size => ?_
  split
  · refine (emits_allocate _ _ fun _ a ha => ?_).bind fun raw => ?_
    · rw [List.mem_singleton.mp ha]
      exact Extent.covers_nil
    · exact emits_heapValue _ range And.right fun _ _ h => by cases h
  · rename_i o
    refine (emits_lowerCount (hc o rfl)).bind fun count => ?_
    refine (emits_byteCount size And.right).bind fun bytes => ?_
    refine (emits_allocate _ _ fun h a ha => List.mem_singleton.mp ha ▸ h.2).bind fun raw => ?_
    exact emits_heapValue _ range And.right fun h n hn => by cases hn; exact h.1.1.2

theorem emits_heapData {pointer : Value} (range : Span) (hp : P → pointer.Within E) :
    Emits E P (heapData pointer range) fun r => E.Covers r.1.refs := by
  unfold heapData
  split
  · split
    · exact (emits_sliceData _ _ hp).step fun _ => .pure fun _ => Extent.covers_nil
    · exact .pure hp
  · exact emits_refuse _ _

theorem emits_lowerHeapPut {pointer : Operand} (range : Span) (hp : pointer.Sound E) :
    Emits E P (lowerHeapPut pointer range) (·.Within E) := by
  refine (emits_operandRvalue hp fun _ => Expect.within_nothing).bind fun v => ?_
  refine (emits_heapData _ And.right).bind fun ⟨data, _⟩ => (emits_intern _).step fun bytePtr => ?_
  refine (emits_castTo _ _ And.right).step fun raw => ?_
  refine (emits_callAllocator _ _ _ fun _ a ha => ?_).step fun _ => ?_
  · rw [List.mem_singleton.mp ha]
    exact Extent.covers_nil
  · exact .pure fun _ => Value.within_void

theorem emits_lowerHeapGrow (view : Viewpoint) (type : TypeExpr) {pointer count : Operand}
    (range : Span) (hp : pointer.Sound E) (hc : count.Sound E) :
    Emits E P (lowerHeapGrow view type pointer count range) (·.Within E) := by
  refine (emits_resolveType view type).step fun element => ?_
  refine (emits_elementSize element _).step fun size => ?_
  refine (emits_operandRvalue hp fun _ => Expect.within_nothing).bind fun v => ?_
  refine (emits_heapData _ And.right).bind fun ⟨data, sub, slice⟩ => emits_guard fun _ => ?_
  refine (emits_lowerCount hc).bind fun count => (emits_byteCount size And.right).bind fun bytes => ?_
  refine (emits_intern _).step fun bytePtr => ?_
  refine (emits_castTo _ _ fun h => h.1.1.2).step fun raw => ?_
  refine (emits_allocate _ _ fun h a ha => ?_).bind fun grown => ?_
  · rcases List.mem_cons.mp ha with rfl | ha
    · exact Extent.covers_nil
    · exact List.mem_singleton.mp ha ▸ h.2
  · exact emits_heapValue _ range And.right fun h n hn => by cases hn; exact h.1.1.2

theorem emits_lowerAssemblyArgs :
    ∀ args : List Operand, (∀ a ∈ args, a.Sound E) →
      Emits E P (lowerAssemblyArgs args) fun irs => ∀ ir ∈ irs, E.Covers ir.refs
  | [], _ => by
    unfold lowerAssemblyArgs
    exact .pure fun _ _ h => by cases h
  | a :: args, ha => by
    obtain ⟨ha, hargs⟩ := List.forall_mem_cons.mp ha
    unfold lowerAssemblyArgs
    refine (emits_operandRvalue ha fun _ => Expect.within_nothing).bind fun v => ?_
    refine (emits_requireSized _ _).step fun _ => ?_
    refine ((emits_lowerAssemblyArgs args hargs).of And.left).bind fun irs => ?_
    exact .pure fun h => List.forall_mem_cons.mpr ⟨h.1.2, h.2⟩

theorem emits_lowerAssembly (view : Viewpoint) (template constraints : String)
    {args : List Operand} (result : TypeExpr) (volatile : Bool) (range : Span)
    (ha : ∀ a ∈ args, a.Sound E) :
    Emits E P (lowerAssembly view template constraints args result volatile range) (·.Within E) := by
  refine (emits_resolveType view result).step fun ty => ?_
  refine emits_guard fun _ => emits_guard fun _ => ?_
  refine (emits_lowerAssemblyArgs args ha).bind fun operands => ?_
  split
  · refine (emits_push fun h => ?_).step fun _ => .pure fun _ => Value.within_void
    simpa using h.2
  · exact emits_temporary _ _ (emits_compute _ fun h _ => by simpa using h.2)

theorem emits_lowerAwait {inner : Operand} (range : Span) (hi : inner.Sound E) :
    Emits E P (lowerAwait inner range) (·.Within E) := by
  refine (emits_operandRvalue hi fun _ => Expect.within_nothing).bind fun future => ?_
  split
  · refine (emits_intern _).step fun state => (emits_newBlock _).bind fun poll =>
      (emits_newBlock _).bind fun done => ?_
    refine (emits_jump fun h => h.1.2).step fun _ => (emits_switchTo poll).step fun _ => ?_
    refine (emits_fieldPtr _ _ _ fun h => h.1.1.2).step fun flagPtr => ?_
    refine (emits_load _ fun _ => Extent.covers_nil).step fun flag => ?_
    refine (emits_branch fun h => ⟨Extent.covers_nil, h.2, h.1.2⟩).step fun _ => ?_
    refine (emits_switchTo done).step fun _ => ?_
    split
    · exact .pure fun _ => Value.within_void
    · refine (emits_fieldPtr _ _ _ fun h => h.1.1.2).step fun resultPtr => ?_
      exact emits_temporary _ _ (emits_load _ fun _ => Extent.covers_nil)
  · exact emits_refuse _ _

/-! ## Names -/

theorem emits_typeConstant (ty : Ty) : Emits E P (typeConstant ty) fun _ => True :=
  emits_of_keeps fun _ _ => keeps_typeConstant ty

theorem emits_definedAs (name : QName) (e : ResolveError) (expected : Option Ty) :
    Emits E P (definedAs name e expected) fun _ => True :=
  emits_of_keeps fun _ _ => keeps_definedAs name e expected

theorem emits_typeMember (view : Viewpoint) (name : QName) :
    Emits E P (typeMember view name) fun _ => True :=
  emits_of_keeps fun _ hw => keeps_typeMember_open view name hw

theorem emits_symbolValue (name : QName) {symbol : Symbol} (hs : P → E.Covers symbol.refs) :
    Emits E P (symbolValue name symbol) (·.Within E) := by
  unfold symbolValue
  dsimp only
  split
  · exact .pure fun hp => by simpa [Value.Within, Value.temporary] using hs hp
  · refine (emits_intern _).step fun ty => .pure fun hp => ?_
    simpa [Value.Within, Value.stored] using hs hp
  · exact emits_constant _ _
  · exact (emits_typeConstant _).step fun c => emits_constant _ _
  · exact emits_refuse _ _
  · exact emits_refuse _ _
  · exact emits_refuse _ _
  · exact emits_refuse _ _

theorem emits_lowerName (view : Viewpoint) (name : QName) (he : P → expect.Within E) :
    Emits E P (lowerName view name expect) (·.Within E) := by
  refine (emits_localOf name).bind fun found => ?_
  split
  · exact .pure fun h => within_localValue (h.2 _ rfl) _
  · refine (emits_resolveName view name).step fun r => ?_
    split
    · exact (emits_symbolOf _ _).bind fun symbol => emits_symbolValue name And.right
    · exact emits_refuse _ _
    · split
      · refine (emits_typeMember view name).step fun r => ?_
        exact emits_lowerVariant r.1 r.2 _ (fun _ h => by cases h) fun h => he h.1
      · exact (emits_definedAs _ _ _).step fun c => emits_constant _ _

theorem emits_lowerStaticCall (view : Viewpoint) (ty : Ty) (name : Ident) {args : List Operand}
    (range : Span) (ha : ∀ a ∈ args, a.Sound E) (he : P → expect.Within E) :
    Emits E P (lowerStaticCall view ty name args expect range) (·.Within E) := by
  unfold lowerStaticCall
  split
  · exact emits_construct view ty range ha he
  · refine emits_types.bind fun t => ?_
    split
    · rename_i m hm
      refine (emits_checkMemberAccess view m name).step fun _ => ?_
      exact emits_callOn _ range (fun h => h.2.membersOf (List.mem_of_find?_eq_some hm))
        (fun _ _ h => by cases h) ha
    · refine emits_types.step fun t => ?_
      dsimp only
      split
      · rename_i arg
        exact emits_lowerVariant ty name range
          (fun o h => by cases h; exact ha _ List.mem_cons_self) fun h => he h.1
      · exact emits_refuse _ _

/-- A call of a compile-time function as code. -/
theorem emits_prerunCall (view : Viewpoint) (f : PrerunFunction) (args : List Expr)
    (range : Span) :
    Emits E P (do
      checkArgCount f args.length range
      let vs ← evaluateEach view args (f.args.map PrerunArg.type)
      callPrerun f vs range) fun _ => True := by
  refine emits_of_keeps_free fun w hw hs => ?_
  have hcall (vs : List Constant) : w.Keeps (callPrerun f vs range) :=
    keeps_callPrerun_open vs range hw (.inr (hs _))
  mvcgen [hcall, gives_evaluateEach_open] <;> simp_all

theorem emits_callSymbol (view : Viewpoint) (name : QName) {symbol : Symbol} {callee : Operand}
    {args : List Operand} (range : Span) (hs : P → E.Covers symbol.refs)
    (hc : callee.Sound E) (ha : ∀ a ∈ args, a.Sound E) (he : P → expect.Within E) :
    Emits E P (callSymbol view name symbol callee args expect range) (·.Within E) := by
  unfold callSymbol
  split
  · refine (emits_lowerArgs _ _ _ range ha).bind fun irs => ?_
    exact emits_emitCall _ range (fun h => by simpa using hs h.1) And.right
  · exact emits_breach _
  · rename_i f
    have h := (emits_prerunCall (E := E) (P := P) view f (args.map Operand.expr) range).step
      fun c => emits_constant c range
    simpa only [List.length_map, bind_assoc] using h
  · exact emits_construct view _ range ha he
  · refine (emits_operandRvalue hc fun _ => Expect.within_nothing).bind fun f => ?_
    exact emits_callValue _ range And.right ha
  · exact emits_refuse _ _
  · exact emits_refuse _ _
  · exact emits_refuse _ _
  · exact emits_refuse _ _

theorem emits_callName (view : Viewpoint) (name : QName) {callee : Operand} {args : List Operand}
    (range : Span) (hc : callee.Sound E) (ha : ∀ a ∈ args, a.Sound E)
    (he : P → expect.Within E) :
    Emits E P (callName view name callee args expect range) (·.Within E) := by
  refine (emits_localOf name).step fun found => ?_
  split
  · refine (emits_operandRvalue hc fun _ => Expect.within_nothing).bind fun f => ?_
    exact emits_callValue _ range And.right ha
  · refine (emits_resolveName view name).step fun r => ?_
    split
    · refine (emits_symbolOf _ _).bind fun symbol => ?_
      exact emits_callSymbol view name range And.right hc ha fun h => he h.1
    · exact emits_refuse _ _
    · split
      · refine (emits_typeMember view name).step fun r => ?_
        exact emits_lowerStaticCall view r.1 r.2 range ha he
      · exact emits_refuseName _

theorem emits_lowerCall (view : Viewpoint) {callee : Operand} {args : List Operand}
    (range : Span) (hc : callee.Sound E) (ha : ∀ a ∈ args, a.Sound E)
    (he : P → expect.Within E) :
    Emits E P (lowerCall view callee args expect range) (·.Within E) := by
  unfold lowerCall
  split
  · exact emits_callName view _ range hc ha he
  · refine (emits_operandRvalue hc fun _ => Expect.within_nothing).bind fun f => ?_
    exact emits_callValue _ range And.right ha

/-! ## Expressions -/

theorem emits_lowerKnown (view : Viewpoint) (e : Expr) :
    Emits E P (lowerKnown view e expect) (·.Within E) :=
  (emits_evaluate view e _).step fun _ => emits_constant _ _

mutual

theorem sound_lowerExpr (view : Viewpoint) :
    ∀ (e : Expr) (P : Prop) (expect : Expect), (P → expect.Within E) →
      Emits E P (lowerExpr view e expect) (·.Within E)
  | .int .., _, _, _ | .float .., _, _, _ | .bool .., _, _, _ | .char .., _, _, _
  | .str .., _, _, _ | .null _, _, _, _ | .none _, _, _, _ | .sizeOf .., _, _, _
  | .typeValue .., _, _, _ => by
    unfold lowerExpr
    exact emits_lowerKnown view _
  | .default range, _, _, he => by
    unfold lowerExpr
    exact (emits_required _ _ _).step fun ty => emits_lowerDefault view ty range he
  | .some range inner, _, _, _ => by
    unfold lowerExpr
    exact emits_lowerSome range (sound_lowerExpr view inner)
  | .tuple range items, _, _, _ => by
    unfold lowerExpr
    exact emits_lowerTuple range (sound_operands view items)
  | .array range items, _, _, _ => by
    unfold lowerExpr
    exact emits_lowerArray range (sound_operands view items)
  | .entity _ name, _, _, he => by
    unfold lowerExpr
    exact emits_lowerName view name he
  | .self range, _, _, _ => by
    unfold lowerExpr
    exact emits_selfValue range
  | .selfMember range name, _, _, _ => by
    unfold lowerExpr
    exact (emits_selfValue range).bind fun v => emits_lowerMember view name range And.right
  | .member range base name, P, _, _ => by
    unfold lowerExpr
    exact (sound_lowerExpr view base P _ fun _ => Expect.within_nothing).bind fun v =>
      emits_lowerMember view name range And.right
  | .index range base position, _, _, _ => by
    unfold lowerExpr
    exact emits_lowerIndex view range (sound_lowerExpr view base) (sound_lowerExpr view position)
  | .unary range op operand, _, _, _ => by
    unfold lowerExpr
    exact emits_lowerUnary view op range (sound_lowerExpr view operand)
  | .deref range operand, _, _, _ => by
    unfold lowerExpr
    exact emits_lowerDeref range (sound_lowerExpr view operand)
  | .addressOf range target isVar, _, _, _ => by
    unfold lowerExpr
    exact emits_lowerAddressOf isVar range (sound_lowerExpr view target)
  | .copy range inner, _, _, he => by
    unfold lowerExpr
    exact emits_lowerCopy range (sound_lowerExpr view inner) he
  | .move range inner, _, _, he => by
    unfold lowerExpr
    exact emits_lowerMove range (sound_lowerExpr view inner) he
  | .binary range op lhs rhs, _, _, _ => by
    unfold lowerExpr
    exact emits_lowerBinary op range (sound_lowerExpr view lhs) (sound_lowerExpr view rhs)
  | .call range callee args, _, _, he => by
    unfold lowerExpr
    exact emits_lowerCall view range (sound_lowerExpr view callee) (sound_operands view args) he
  | .methodCall range base name args variation, P, _, _ => by
    unfold lowerExpr
    exact (sound_lowerExpr view base P _ fun _ => Expect.within_nothing).bind fun v =>
      emits_lowerMethodCall view name variation range And.right (sound_operands view args)
  | .construct range type args, _, _, he => by
    unfold lowerExpr
    exact (emits_resolveType view type).step fun ty =>
      emits_construct view ty range (sound_operands view args) he
  | .plain range type fields values, _, _, he => by
    unfold lowerExpr
    exact (emits_resolveType view type).step fun ty =>
      emits_lowerPlain view ty fields range (sound_operands view values) he
  | .variant range type name value, _, _, he => by
    unfold lowerExpr
    exact (emits_resolveType view type).step fun ty =>
      emits_lowerVariant ty name range (sound_operand? view value) he
  | .heapGet range type count, _, _, _ => by
    unfold lowerExpr
    exact emits_lowerHeapGet view type range (sound_operand? view count)
  | .heapPut range pointer, _, _, _ => by
    unfold lowerExpr
    exact emits_lowerHeapPut range (sound_lowerExpr view pointer)
  | .heapGrow range type pointer count, _, _, _ => by
    unfold lowerExpr
    exact emits_lowerHeapGrow view type range (sound_lowerExpr view pointer)
      (sound_lowerExpr view count)
  | .cast range value target, _, _, _ => by
    unfold lowerExpr
    exact emits_lowerCast view target range (sound_lowerExpr view value)
  | .await range inner, _, _, _ => by
    unfold lowerExpr
    exact emits_lowerAwait range (sound_lowerExpr view inner)
  | .assembly range template constraints args result volatile, _, _, _ => by
    unfold lowerExpr
    exact emits_lowerAssembly view template constraints result volatile range
      (sound_operands view args)
  | .ifElse range condition thenValue elseValue, _, _, _ => by
    unfold lowerExpr
    exact emits_lowerIf range (sound_lowerExpr view condition) (sound_lowerExpr view thenValue)
      (sound_lowerExpr view elseValue)
  | .todo range message, _, _, _ => by
    unfold lowerExpr
    exact (emits_unfinished message range).step fun _ => .pure fun _ => Value.within_void

theorem sound_operands (view : Viewpoint) :
    ∀ (es : List Expr), ∀ o ∈ operands view es, Operand.Sound o E
  | [], _, ho => by cases ho
  | e :: es, o, ho => by
    unfold operands at ho
    rcases List.mem_cons.mp ho with rfl | ho
    · exact sound_lowerExpr view e
    · exact sound_operands view es o ho

theorem sound_operand? (view : Viewpoint) :
    ∀ (e : Option Expr) (o : Operand), operand? view e = some o → Operand.Sound o E
  | none, _, ho => by cases ho
  | some e, o, ho => by
    unfold operand? at ho
    cases ho
    exact sound_lowerExpr view e

end

theorem sound_operand (view : Viewpoint) (e : Expr) : Operand.Sound (operand view e) E :=
  sound_lowerExpr view e

end Emit

end Staged
