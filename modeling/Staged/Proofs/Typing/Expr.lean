/-
  Staged.Proofs.Typing.Expr — expressions are lowered to typed values.

  Each construct gives a typed value if its operands do. What is known of a part follows
  from what is known of the whole, since known values that stand for themselves are solid
  values of their types; the rest is in the code that the construct writes.
-/

import Staged.Emit.Expr
import Staged.Proofs.Typing.Call

namespace Staged.Emit

variable {b : Basis} {v : Value} {expect : Expect}

/-- A register as a value that nothing is known of. -/
theorem ends_temporary {a : Emit Ir.Register} {type : Ty} (range : Span)
    (ha : b.Ends a (·.type = type)) :
    b.Ends (do return Value.temporary (.reg (← a)) type range) (·.Typed b.table) :=
  ha.bind fun _ hr => .pure (Value.typed_temporary (.inl hr))

/-- A constant as a value. -/
theorem ends_known {c : Constant} (range : Span) (hc : c.Solid b.table) :
    b.Ends (constant c range) (·.Typed b.table) := (ends_constant range hc).mono fun _ h => h.1

/-- The place at an address that was computed. -/
theorem ends_pointed {a : Emit Ir.Register} {type : Ty} {isVar pointsVar : Bool} {storage : Storage}
    (range : Span) (hs : storage ≠ .temporary) (ha : b.Ends a (·.type = .markTo type pointsVar)) :
    b.Ends (do return Value.stored (.reg (← a)) type isVar storage range) (·.Typed b.table) :=
  ha.bind fun _ hr => .pure (Value.typed_stored hs (congrArg Ty.target? hr))

/-! ## Members -/

theorem partStorage_ne (whole : Storage) : partStorage whole ≠ .temporary := by
  cases whole <;> decide

/-- A part of a known value is solid if it is one where the whole is known. -/
theorem ends_memberAt {whole : Value} (aggregateType : Ty) {index : Nat} {type : Ty}
    (isVar : Bool) (range : Span) (hw : whole.Typed b.table)
    (hpart : ∀ (c : Constant) (items : List Data) (d : Data), c.type = whole.type.value →
      c.Solid b.table → c.data.parts? = some items → items[index]? = some d →
      d.Solid b.table type) :
    b.Ends (memberAt whole aggregateType index type isVar range) (·.Typed b.table) := by
  unfold memberAt
  split
  · rename_i d hd
    obtain ⟨items, hitems, hd⟩ := Option.bind_eq_some_iff.mp hd
    obtain ⟨c, hc, hitems⟩ := Option.bind_eq_some_iff.mp hitems
    obtain ⟨htype, hsolid⟩ := hw.fixed hc
    exact ends_known range (hpart c items d htype hsolid hitems hd)
  · refine (ends_placeOf hw).bind fun r hr => ?_
    split
    · rename_i p
      refine (ends_intern _).bind fun ty hty => ?_
      have hptr : b.Ends (compute ty (.fieldPtr · p.ir aggregateType index))
          (·.type = .markTo type (p.isVar && isVar)) :=
        (ends_compute ty fun _ _ _ _ h => by cases h).mono fun _ hr => hr.trans hty
      exact ends_pointed range (partStorage_ne _) hptr
    · exact ends_temporary range (ends_compute type fun _ _ _ _ h => by cases h)

theorem ends_stringLength (range : Span) (hv : v.Typed b.table) :
    b.Ends (stringLength v range) (·.Typed b.table) := by
  refine (ends_rvalue hv).bind fun w hw => ?_
  split
  · exact ends_known range (.whole rfl rfl)
  · exact (ends_stringParts w.ir).bind fun _ hr => .pure (Value.typed_temporary (.inl hr))

theorem ends_lowerMember (view : Viewpoint) {whole : Value} (name : Ident) (range : Span)
    (hw : whole.Typed b.table) :
    b.Ends (lowerMember view whole name range) (·.Typed b.table) := by
  unfold lowerMember
  dsimp only
  split
  · exact ends_known range (.whole rfl rfl)
  · exact ends_stringLength range hw
  · exact (ends_rvalue hw).bind fun w _ =>
      ends_temporary range (ends_compute _ fun _ _ _ _ h => by cases h)
  · rename_i id hty
    refine ends_types.bind fun t ht => (ends_require _ _ fun r hr => hr).bind ?_
    rintro ⟨i, f⟩ hf
    refine (ends_isAccessible view f.vis).bind fun _ _ => ends_unless fun _ => ?_
    obtain ⟨d, hd, hfield⟩ := Option.bind_eq_some_iff.mp hf
    refine ends_memberAt _ _ range hw fun c items x htype hsolid hitems hx => ?_
    have hdef : b.table.structOf? c.type = some d := by
      rw [htype, hty, ← ht.structOf?]
      exact hd
    exact Data.Solid.field hsolid hdef hitems hx (TypeTable.fieldTypes_of_field hfield)
  · rename_i members packed hty
    refine (ends_require (Q := fun _ => True) _ _ fun _ _ => trivial).bind fun i _ =>
      (ends_require _ _ fun ty hmember => hmember).bind fun ty hmember => ?_
    refine ends_memberAt _ _ range hw fun c items x htype hsolid hitems hx => ?_
    exact (hsolid.of_type (htype.trans hty)).member hitems hx hmember
  · exact ends_refuse _ _

/-! ## Elements -/

theorem getElem?_of_itemAt {α : Type} {items : List α} {i : Int} {a : α}
    (h : itemAt? items i = some a) : items[i.toNat]? = some a := by
  unfold itemAt? at h
  split at h
  · exact h
  · cases h

theorem ends_tupleMember (view : Viewpoint) {whole : Value} {members : List Ty} {packed : Bool}
    (position : Expr) (range : Span) (hw : whole.Typed b.table)
    (hty : whole.type.value = .tuple members packed) :
    b.Ends (tupleMember view whole (.tuple members packed) members position range)
      (·.Typed b.table) := by
  refine (ends_evaluate view position _).bind fun c _ => ends_types.bind fun t _ => ?_
  refine (ends_require _ _ fun r hr => hr).bind ?_
  rintro ⟨index, member⟩ hfound
  obtain ⟨i, -, hfound⟩ := Option.bind_eq_some_iff.mp hfound
  obtain ⟨ty, hitem, heq⟩ := Option.map_eq_some_iff.mp hfound
  cases heq
  refine ends_memberAt _ _ range hw fun c items x htype hsolid hitems hx => ?_
  exact (hsolid.of_type (htype.trans hty)).member hitems hx (getElem?_of_itemAt hitem)

theorem ends_arrayElement {whole : Value} {element : Ty} {length : Nat} (position : Value)
    (positionRange range : Span) (hw : whole.Typed b.table)
    (hty : whole.type.value = .array element length) :
    b.Ends (arrayElement whole element length position positionRange range)
      (·.Typed b.table) := by
  have hsolid {d : Data} (hd : ((position.known.bind Constant.asInt?).bind fun i =>
      (whole.fixed?.bind (·.data.items?)).bind (itemAt? · i)) = some d) :
      Constant.Solid ⟨d, element⟩ b.table := by
    obtain ⟨i, -, hd⟩ := Option.bind_eq_some_iff.mp hd
    obtain ⟨items, hitems, hd⟩ := Option.bind_eq_some_iff.mp hd
    obtain ⟨c, hc, hitems⟩ := Option.bind_eq_some_iff.mp hitems
    obtain ⟨htype, hsolid⟩ := hw.fixed hc
    exact (hsolid.of_type (htype.trans hty)).item hitems (mem_of_itemAt hd)
  have hplaced : b.Ends (do
      let p ← place whole
      let ptr ← elementPtr p.ir element p.isVar position.ir
      return Value.stored ptr element p.isVar (partStorage p.storage) range) (·.Typed b.table) :=
    (ends_place hw).bind fun p _ =>
      ends_pointed range (partStorage_ne _) (ends_elementPtr _ _ _ _)
  unfold arrayElement
  dsimp only
  split
  · refine ends_guard fun _ => ?_
    split
    · exact ends_known range (hsolid ‹_›)
    · exact hplaced
  · split
    · exact ends_known range (hsolid ‹_›)
    · exact hplaced

theorem ends_stringElement {whole : Value} (position : Value) (positionRange range : Span)
    (hw : whole.Typed b.table) :
    b.Ends (stringElement whole position positionRange range) (·.Typed b.table) := by
  refine (ends_rvalue hw).bind fun w _ => ?_
  split
  · exact (ends_requireAny _ _ _).bind fun _ _ => ends_known range (.whole rfl rfl)
  · exact (ends_stringParts w.ir).bind fun _ _ => (ends_elementPtr _ _ _ _).bind fun _ _ =>
      ends_temporary range (ends_load _ _)

theorem ends_elementOf {whole : Value} (position : Value) (wholeRange positionRange range : Span)
    (hw : whole.Typed b.table) :
    b.Ends (elementOf whole position wholeRange positionRange range) (·.Typed b.table) := by
  unfold elementOf
  split
  · exact ends_arrayElement position positionRange range hw ‹_›
  · exact (ends_place hw).bind fun p _ =>
      ends_pointed range (by decide) (ends_elementPtr _ _ _ _)
  · rename_i sub owner nullable slice isVar _
    refine (ends_rvalue hw).bind fun pointer _ => ?_
    have hptr (data : Ir.Value) : b.Ends (do
        let ptr ← elementPtr data sub isVar position.ir
        return Value.stored ptr sub isVar .pointee range) (·.Typed b.table) :=
      ends_pointed range (by decide) (ends_elementPtr data _ _ _)
    dsimp only
    split
    · exact Ground.Ends.bind ((ends_sliceData _ _ _).bind fun _ _ => .pure trivial)
        fun data (_ : True) => hptr data
    · exact hptr _
  · exact ends_stringElement position positionRange range hw
  · exact (ends_rvalue hw).bind fun _ _ => (ends_elementPtr _ _ _ _).bind fun _ _ =>
      ends_temporary range (ends_load _ _)
  · exact ends_refuse _ _

theorem ends_lowerIndex (view : Viewpoint) {base position : Operand} (range : Span)
    (hb : base.Typed b) (hp : position.Typed b) :
    b.Ends (lowerIndex view base position range) (·.Typed b.table) := by
  refine (hb _ Expect.typed_nothing).bind fun whole hw => ?_
  split
  · exact ends_tupleMember view position.expr range hw ‹_›
  · refine (ends_operandRvalue hp Expect.typed_of).bind fun at_ _ => ends_types.bind fun t _ =>
      ends_unless fun _ => ends_elementOf at_ base.range position.range range hw

/-! ## Aggregates -/

/-- What is known of several values are solid values of the types they are used at. -/
theorem solid_fixedData {t : TypeTable} {vs : List Value} {ds : List Data}
    (h : fixedData? vs = some ds) (hvs : ∀ v ∈ vs, v.Typed t) :
    List.Forall₂ (fun d ty => d.Solid t ty) ds (vs.map (·.type.value)) := by
  have hds := mapM_eq_some_iff.mp h
  rw [List.forall₂_map_right_iff]
  induction hds with
  | nil => exact .nil
  | @cons v d vs ds hd _ ih =>
    rw [List.forall_mem_cons] at hvs
    obtain ⟨c, hc, rfl⟩ := Option.map_eq_some_iff.mp hd
    obtain ⟨htype, hsolid⟩ := hvs.1.fixed hc
    exact .cons (htype ▸ hsolid) (ih (mapM_eq_some_iff.mpr ‹_›) hvs.2)

theorem ends_finishAggregate (type : Ty) {parts : List Value} {members : List Ty}
    {data : List Data → Data} (range : Span) (hlen : parts.length = members.length)
    (hparts : ∀ v ∈ parts, v.Typed b.table)
    (hdata : ∀ ds, fixedData? parts = some ds → (data ds).Solid b.table type) :
    b.Ends (finishAggregate type parts members data range) (·.Typed b.table) := by
  unfold finishAggregate
  split
  · exact ends_known range (hdata _ ‹_›)
  · exact (ends_passValues range parts members hlen hparts).bind fun _ _ =>
      ends_aggregate type _ range

theorem ends_lowerSome {inner : Operand} (range : Span) (hi : inner.Typed b) :
    b.Ends (lowerSome inner expect range) (·.Typed b.table) := by
  refine (hi _ Expect.typed_maybe).bind fun v hv => (ends_intern _).bind fun type htype => ?_
  cases htype
  split
  · exact ends_known range (.whole rfl rfl)
  · exact (ends_passValue _ range hv).bind fun _ _ => ends_aggregate _ _ range

theorem ends_lowerEach :
    ∀ (items : List Operand) (hints : List Ty), (∀ o ∈ items, o.Typed b) →
      b.Ends (lowerEach items hints) fun vs => ∀ v ∈ vs, v.Typed b.table
  | [], _, _ => .pure fun _ h => by cases h
  | o :: os, hints, ho => by
    rw [List.forall_mem_cons] at ho
    exact (ho.1 _ Expect.typed_maybe).bind fun v hv =>
      (ends_lowerEach os (hints.drop 1) ho.2).bind fun vs hvs =>
        .pure (List.forall_mem_cons.mpr ⟨hv, hvs⟩)

theorem ends_lowerTuple {items : List Operand} (range : Span) (ho : ∀ o ∈ items, o.Typed b) :
    b.Ends (lowerTuple items expect range) (·.Typed b.table) := by
  unfold lowerTuple
  split
  all_goals
    refine (ends_lowerEach items _ ho).bind fun vs hvs => (ends_intern _).bind fun type htype => ?_
    cases htype
    exact ends_finishAggregate _ range (by simp) hvs fun ds hds =>
      Data.solid_tuple (solid_fixedData hds hvs)

theorem ends_lowerItems :
    ∀ (items : List Operand) (element : Option Ty), (∀ o ∈ items, o.Typed b) →
      b.Ends (lowerItems items element) fun r =>
        (∀ ty, element = some ty → r.1 = some ty) ∧
          ∀ v ∈ r.2, v.Typed b.table ∧ r.1 = some v.type.value
  | [], element, _ => .pure ⟨fun _ h => h, fun _ h => by cases h⟩
  | o :: os, element, ho => by
    rw [List.forall_mem_cons] at ho
    refine (ho.1 _ Expect.typed_maybe).bind fun v hv => ?_
    cases element with
    | some ty =>
      refine ends_guard fun hty => (ends_lowerItems os _ ho.2).bind ?_
      rintro ⟨element', vs⟩ ⟨hsome, hvs⟩
      have helement : ty = v.type.value := not_not.mp hty
      refine .pure ⟨fun ty' hty' => ?_, List.forall_mem_cons.mpr ⟨⟨hv, hsome _ rfl⟩, hvs⟩⟩
      rw [← Option.some.inj hty', helement]
      exact hsome _ rfl
    | none =>
      refine (ends_lowerItems os _ ho.2).bind ?_
      rintro ⟨element', vs⟩ ⟨hsome, hvs⟩
      exact .pure ⟨fun _ h => (by cases h), List.forall_mem_cons.mpr ⟨⟨hv, hsome _ rfl⟩, hvs⟩⟩

theorem ends_lowerArray {items : List Operand} (range : Span) (ho : ∀ o ∈ items, o.Typed b) :
    b.Ends (lowerArray items expect range) (·.Typed b.table) := by
  refine (ends_lowerItems items _ ho).bind ?_
  rintro ⟨element?, vs⟩ ⟨-, hvs⟩
  refine (ends_require _ _ fun ty hty => hty).bind fun element helement =>
    (ends_intern _).bind fun type htype => ?_
  cases htype
  refine ends_finishAggregate _ range (by simp) (fun v hv => (hvs v hv).1) fun ds hds => ?_
  have hsolid := solid_fixedData hds fun v hv => (hvs v hv).1
  refine .array fun d hd => ?_
  obtain ⟨i, hi, hget⟩ := List.mem_iff_getElem.mp hd
  rw [List.forall₂_map_right_iff] at hsolid
  have hi' : i < vs.length := hsolid.length_eq ▸ hi
  have htype : some element = some vs[i].type.value :=
    helement.symm.trans (hvs _ (List.getElem_mem hi')).2
  rw [Option.some.inj htype, ← hget]
  exact hsolid.get hi hi'

theorem ends_lowerIf {condition thenValue elseValue : Operand} (range : Span)
    (hc : condition.Typed b) (ht : thenValue.Typed b) (he : elseValue.Typed b) :
    b.Ends (lowerIf condition thenValue elseValue expect range) (·.Typed b.table) := by
  refine (ends_condition hc).bind fun cond _ => ?_
  split
  · exact (ends_operandRvalue ht Expect.typed_hint).mono fun _ h => h.typed
  · exact (ends_operandRvalue he Expect.typed_hint).mono fun _ h => h.typed
  · refine (ends_newBlock _).bind fun _ _ => (ends_newBlock _).bind fun _ _ =>
      (ends_newBlock _).bind fun _ _ => (ends_branch _ _ _).bind fun _ _ =>
      (ends_switchTo _).bind fun _ _ => ?_
    refine (ends_operandRvalue ht Expect.typed_hint).bind fun thenResult _ =>
      ends_currentBlock.bind fun _ _ => (ends_jump _).bind fun _ _ =>
      (ends_switchTo _).bind fun _ _ => ?_
    refine (ends_operandRvalue he Expect.typed_of).bind fun elseResult _ =>
      ends_guard fun _ => ends_currentBlock.bind fun _ _ => (ends_jump _).bind fun _ _ =>
      (ends_switchTo _).bind fun _ _ => ?_
    split
    · exact .pure Value.typed_void
    · exact ends_temporary range (ends_compute _ fun _ _ _ _ h => by cases h)

/-! ## Assembly and futures -/

theorem ends_lowerAssemblyArgs :
    ∀ args : List Operand, (∀ a ∈ args, a.Typed b) →
      b.Ends (lowerAssemblyArgs args) fun _ => True
  | [], _ => .pure trivial
  | a :: args, ha => by
    rw [List.forall_mem_cons] at ha
    exact (ends_operandRvalue ha.1 Expect.typed_nothing).bind fun _ _ =>
      (ends_requireSized _ _).bind fun _ _ => (ends_lowerAssemblyArgs args ha.2).bind fun _ _ =>
        .pure trivial

theorem ends_lowerAssembly (view : Viewpoint) (template constraints : String)
    {args : List Operand} (result : TypeExpr) (volatile : Bool) (range : Span)
    (ha : ∀ a ∈ args, a.Typed b) :
    b.Ends (lowerAssembly view template constraints args result volatile range)
      (·.Typed b.table) := by
  refine (ends_resolveType view result).bind fun result _ => ends_guard fun _ =>
    ends_guard fun _ => (ends_lowerAssemblyArgs args ha).bind fun operands _ => ?_
  split
  · exact (ends_write fun _ _ _ h => by cases h).bind fun _ _ => .pure Value.typed_void
  · exact ends_temporary range (ends_compute _ fun _ _ _ _ h => by cases h)

theorem ends_lowerAwait {inner : Operand} (range : Span) (hi : inner.Typed b) :
    b.Ends (lowerAwait inner range) (·.Typed b.table) := by
  refine (ends_operandRvalue hi Expect.typed_nothing).bind fun future _ => ?_
  split
  · refine (ends_intern _).bind fun _ _ => (ends_newBlock _).bind fun _ _ =>
      (ends_newBlock _).bind fun _ _ => (ends_jump _).bind fun _ _ =>
      (ends_switchTo _).bind fun _ _ => (ends_fieldPtr _ _ _ _).bind fun _ _ =>
      (ends_load _ _).bind fun _ _ => (ends_branch _ _ _).bind fun _ _ =>
      (ends_switchTo _).bind fun _ _ => ?_
    split
    · exact .pure Value.typed_void
    · exact (ends_fieldPtr _ _ _ _).bind fun _ _ => ends_temporary range (ends_load _ _)
  · exact ends_refuse _ _

/-! ## Operators -/

theorem ends_nativeBinary (op : BinaryOp) (left right : Value) (range : Span) :
    b.Ends (nativeBinary op left right range) (·.Typed b.table) := by
  refine ends_types.bind fun t _ => (ends_requireAny _ _ _).bind fun class_ _ => ?_
  split
  · exact (ends_requireAny _ _ _).bind fun _ _ =>
      ends_temporary range (ends_compute _ fun _ _ _ _ h => by cases h)
  · exact (ends_requireAny _ _ _).bind fun _ _ =>
      ends_temporary range (ends_compute _ fun _ _ _ _ h => by cases h)

theorem ends_foldOrCompute (op : BinaryOp) {left right : Value} (range : Span)
    (hl : left.Typed b.table) (hr : right.Typed b.table) :
    b.Ends (foldOrCompute op left right range) (·.Typed b.table) := by
  refine ends_types.bind fun t _ => (ends_orRefuse (Q := fun _ => True) range fun _ _ =>
    trivial).bind fun _ _ => ?_
  split
  · rename_i l r hknown hknown'
    refine ends_types.bind fun t ht => (ends_orRefuseFold (Q := fun c => c.Solid b.table) range
      fun c hc => ?_).bind fun c hc => ends_known range hc
    exact b.ground.binary ht (hl.known l hknown).2 (hr.known r hknown').2 hc
  · exact ends_nativeBinary op left right range

theorem ends_lowerLogical (op : BinaryOp) {lhs rhs : Operand} (range : Span)
    (hl : lhs.Typed b) (hr : rhs.Typed b) :
    b.Ends (lowerLogical op lhs rhs range) (·.Typed b.table) := by
  refine (ends_condition hl).bind fun left _ => ?_
  dsimp only
  split
  · split
    · exact ends_known range (.whole rfl rfl)
    · exact (ends_condition hr).mono fun _ h => h.typed
  · refine ends_currentBlock.bind fun before _ => (ends_newBlock _).bind fun rhsBlock _ =>
      (ends_newBlock _).bind fun done _ => ?_
    have hrest : b.Ends (do
        switchTo rhsBlock
        let right ← rhs.condition
        let rhsEnd ← currentBlock
        jump done
        switchTo done
        let r ← compute .bool
          (.phi · [(Ir.Const.bool .bool (op == .or), before), (right.ir, rhsEnd)])
        return Value.temporary r .bool range) (·.Typed b.table) :=
      (ends_switchTo _).bind fun _ _ => (ends_condition hr).bind fun _ _ =>
        ends_currentBlock.bind fun _ _ => (ends_jump _).bind fun _ _ =>
        (ends_switchTo _).bind fun _ _ =>
          ends_temporary range (ends_compute _ fun _ _ _ _ h => by cases h)
    split
    · exact (ends_branch _ _ _).bind fun _ _ => hrest
    · exact (ends_branch _ _ _).bind fun _ _ => hrest

/-- An operator that is chosen takes one argument. -/
theorem has_of_operator {t : TypeTable} (ht : b.table.SameDefinitions t) {op : BinaryOp} {ty : Ty}
    {right : Value} {m : MemberFunction} (hm : m ∈ (t.operators ty op).filter fun m =>
      match m.argTypes with
      | [param] => accepts param right
      | _ => false) : b.Has m ty ∧ m.argTypes.length = 1 := by
  obtain ⟨hm, haccepts⟩ := List.mem_filter.mp hm
  refine ⟨Basis.has_of_mem ht (List.mem_filter.mp hm).1, ?_⟩
  split at haccepts
  · rename_i hargs
    rw [hargs]
    rfl
  · cases haccepts

theorem ends_chooseOperator (op : BinaryOp) (ty : Ty) (left right : Value) (range : Span) :
    b.Ends (chooseOperator op ty left right range) fun m =>
      b.Has m ty ∧ m.argTypes.length = 1 := by
  refine ends_types.bind fun t ht => ?_
  dsimp only
  split
  · exact .pure (has_of_operator ht (List.mem_of_find?_eq_some ‹_›))
  · rename_i hcandidates
    split
    · exact .pure (has_of_operator ht (hcandidates ▸ List.mem_cons_self))
    · exact ends_refuse _ _
  · exact ends_refuse _ _

theorem ends_lowerOperatorCall (op : BinaryOp) {left right : Value} (range : Span)
    (hl : left.Typed b.table) (hr : right.Typed b.table) :
    b.Ends (lowerOperatorCall op left right range) (·.Typed b.table) := by
  refine (ends_chooseOperator op _ left right range).bind ?_
  rintro m ⟨hm, hone⟩
  refine (ends_place hl).bind fun self hself => ?_
  refine (ends_passValues range [right] m.argTypes hone.symm (by simpa using hr)).bind
    fun args hargs => ?_
  exact (ends_callMember range hm (fun _ h => Option.some.inj h ▸ hself.target) hargs).mono
    fun _ hv => hv.typed

theorem ends_byteAt (data position : Ir.Value) : b.Ends (byteAt data position) fun _ => True :=
  (ends_elementPtr _ _ _ _).bind fun _ _ => (ends_load _ _).mono fun _ _ => trivial

theorem ends_compareStrings (left right : Ir.Value) :
    b.Ends (compareStrings left right) (·.type = .bool) := by
  refine (ends_stringParts left).bind fun leftParts _ => (ends_stringParts right).bind
    fun rightParts _ => (ends_alloca _ _).bind fun result _ => (ends_alloca _ _).bind
    fun index _ => (ends_store _ _).bind fun _ _ => (ends_store _ _).bind fun _ _ => ?_
  refine (ends_newBlock _).bind fun lengthBlock _ => (ends_newBlock _).bind fun condBlock _ =>
    (ends_newBlock _).bind fun bodyBlock _ => (ends_newBlock _).bind fun nextBlock _ =>
    (ends_newBlock _).bind fun trueBlock _ => (ends_newBlock _).bind fun endBlock _ => ?_
  -- the lengths, and then whether a byte is left
  refine (ends_jump _).bind fun _ _ => (ends_switchTo _).bind fun _ _ =>
    (ends_compute _ fun _ _ _ _ h => by cases h).bind fun _ _ => (ends_branch _ _ _).bind
    fun _ _ => (ends_switchTo _).bind fun _ _ => (ends_load _ _).bind fun _ _ =>
    (ends_compute _ fun _ _ _ _ h => by cases h).bind fun _ _ => (ends_branch _ _ _).bind
    fun _ _ => ?_
  -- the bytes at a position
  refine (ends_switchTo _).bind fun _ _ => (ends_load _ _).bind fun _ _ =>
    (ends_byteAt _ _).bind fun _ _ => (ends_byteAt _ _).bind fun _ _ =>
    (ends_compute _ fun _ _ _ _ h => by cases h).bind fun _ _ => (ends_branch _ _ _).bind
    fun _ _ => ?_
  -- the next position
  refine (ends_switchTo _).bind fun _ _ => (ends_load _ _).bind fun _ _ =>
    (ends_compute _ fun _ _ _ _ h => by cases h).bind fun _ _ => (ends_store _ _).bind
    fun _ _ => (ends_jump _).bind fun _ _ => ?_
  exact (ends_switchTo _).bind fun _ _ => (ends_store _ _).bind fun _ _ =>
    (ends_jump _).bind fun _ _ => (ends_switchTo _).bind fun _ _ => ends_load _ _

theorem ends_lowerStringEquality (op : BinaryOp) (left right : Value) (range : Span) :
    b.Ends (lowerStringEquality op left right range) (·.Typed b.table) := by
  unfold lowerStringEquality
  dsimp only
  split
  · exact ends_known range (.whole rfl rfl)
  · refine (ends_compareStrings _ _).bind fun equal hequal => ?_
    split
    · exact ends_temporary range (ends_compute _ fun _ _ _ _ h => by cases h)
    · exact .pure (Value.typed_temporary (.inl hequal))

theorem ends_lowerOperands {lhs rhs : Operand} (hl : lhs.Typed b) (hr : rhs.Typed b) :
    b.Ends (lowerOperands lhs rhs) fun r => r.1.Typed b.table ∧ r.2.Typed b.table := by
  unfold lowerOperands
  split
  · exact (hr _ Expect.typed_nothing).bind fun _ hright => (hl _ Expect.typed_of).bind
      fun _ hleft => .pure ⟨hleft, hright⟩
  · exact (hl _ Expect.typed_nothing).bind fun _ hleft => (hr _ Expect.typed_of).bind
      fun _ hright => .pure ⟨hleft, hright⟩

theorem ends_lowerBinary (op : BinaryOp) {lhs rhs : Operand} (range : Span)
    (hl : lhs.Typed b) (hr : rhs.Typed b) :
    b.Ends (lowerBinary op lhs rhs range) (·.Typed b.table) := by
  unfold lowerBinary
  split
  · exact ends_lowerLogical op range hl hr
  · refine (ends_lowerOperands hl hr).bind ?_
    rintro ⟨left, right⟩ ⟨hleft, hright⟩
    refine ends_types.bind fun _ _ => ends_types.bind fun _ _ => ?_
    split
    · exact ends_lowerOperatorCall op range hleft hright
    · refine (ends_rvalue hleft).bind fun left hleft => (ends_rvalue hright).bind
        fun right hright => ?_
      split
      · exact ends_lowerStringEquality op left right range
      · exact ends_foldOrCompute op range hleft.typed hright.typed

theorem unaryInstr_ne_call {t : TypeTable} {op : UnaryOp} {ty : Ty} {operand : Ir.Value}
    {r : Ir.Register} {i : Ir.Instr} (h : unaryInstr? t op ty operand r = some i)
    (dest : Option Ir.Register) (callee : Ir.Callee) (args : List Ir.Value) :
    i ≠ .call dest callee args := by
  rintro rfl
  cases op with
  | negate =>
    unfold unaryInstr? at h
    dsimp only at h
    split at h
    · cases h
    · split at h <;> cases h
  | not =>
    unfold unaryInstr? at h
    dsimp only at h
    split at h <;> cases h
  | bitNot =>
    obtain ⟨info, -, h⟩ := Option.map_eq_some_iff.mp h
    cases h

theorem ends_unaryOn (op : UnaryOp) (range : Span) (hv : v.Typed b.table) :
    b.Ends (unaryOn op v range) (·.Typed b.table) := by
  refine ends_types.bind fun t ht => ?_
  split
  · rename_i m hm
    obtain ⟨hmem, hkind⟩ := TypeTable.mem_of_member hm
    refine (ends_place hv).bind fun p hp => ?_
    exact (ends_callBare range (Basis.has_of_mem ht hmem) (by rw [hkind]; rfl) (by rw [hkind]; rfl)
      hp.target).mono fun _ h => h.typed
  · refine (ends_rvalue hv).bind fun w hw => ?_
    split
    · rename_i c hknown
      refine ends_types.bind fun t ht => (ends_orRefuseFold (Q := fun c => c.Solid b.table) range
        fun d hd => ?_).bind fun c hc => ends_known range hc
      exact b.ground.unary ht (hw.typed.known c hknown).2 hd
    · refine (ends_fresh _).bind fun r hr => ends_types.bind fun t _ =>
        (ends_require _ _ fun i hi => hi).bind fun i hi =>
          (ends_write (unaryInstr_ne_call hi)).bind fun _ _ => .pure ?_
      exact Value.typed_temporary (.inl hr)

theorem ends_lowerUnary (view : Viewpoint) (op : UnaryOp) {operand : Operand} (range : Span)
    (ho : operand.Typed b) :
    b.Ends (lowerUnary view op operand expect range) (·.Typed b.table) := by
  unfold lowerUnary
  split
  · exact (ends_evaluate view _ _).bind fun _ hc => ends_known range hc
  · exact (ho _ Expect.typed_hint).bind fun _ hv => ends_unaryOn _ range hv

theorem ends_lowerDeref {operand : Operand} (range : Span) (ho : operand.Typed b) :
    b.Ends (lowerDeref operand range) (·.Typed b.table) := by
  refine (ends_operandRvalue ho Expect.typed_nothing).bind fun pointer hp => ?_
  have hlike := hp.alike
  split
  · exact ends_refuse _ _
  · rename_i hty
    rw [hty] at hlike
    exact .pure (Value.typed_stored (by decide) (hlike.target rfl))
  · exact ends_refuse _ _

theorem target_of_expectedMark {ty mark : Ty} {markVar : Bool}
    (h : expectedMark? expect ty = some (mark, markVar)) : mark.target? = some ty := by
  unfold expectedMark? at h
  split at h
  · split at h
    · cases h
      exact congrArg some ‹_›
    · cases h
  · cases h

theorem ends_lowerAddressOf {operand : Operand} (isVar : Bool) (range : Span)
    (ho : operand.Typed b) :
    b.Ends (lowerAddressOf operand isVar expect range) (·.Typed b.table) := by
  refine (ho _ Expect.typed_nothing).bind fun v hv => (ends_placeOf hv).bind fun r hr =>
    (ends_require _ _ hr.1).bind fun p hp => ends_guard fun _ => ?_
  have htarget : p.ir.type.target? = some p.type := hp.typed.stored hp.stored
  split
  · rename_i mark markVar hmark
    refine ends_guard fun _ => (ends_intern mark).bind fun ty hty => .pure ?_
    cases hty
    exact Value.typed_temporary (Ty.alike_of_targets htarget (target_of_expectedMark hmark))
  · refine (ends_intern _).bind fun ty hty => .pure ?_
    cases hty
    exact Value.typed_temporary (Ty.alike_of_targets htarget rfl)

/-! ## Conversions and copies -/

theorem solid_foldedCast {t : TypeTable} {target : Ty} {c : Constant} (ht : b.ground.knows t)
    (hv : v.Typed b.table) (hc : foldedCast? t v target = some c) : c.Solid b.table := by
  obtain ⟨k, hk, hc⟩ := Option.bind_eq_some_iff.mp hc
  cases hcast : t.foldCast k target with
  | ok d =>
    rw [hcast] at hc
    cases hc
    exact b.ground.cast ht (hv.known k hk).2 hcast
  | error e =>
    rw [hcast] at hc
    cases hc

theorem ends_convertInt (target : Ty) (hv : v.Typed b.table) :
    b.Ends (convertInt v target) (·.Typed b.table) := by
  refine ends_types.bind fun t ht => ?_
  split
  · exact .pure hv
  · split
    · split
      · exact ends_known _ (solid_foldedCast ht hv ‹_›)
      · exact ends_temporary _ (ends_castTo _ _ _)
    · exact ends_mismatch _ _ _

theorem ends_castAtRuntime (v : Value) (target : Ty) (range : Span) :
    b.Ends (castAtRuntime v target range) (·.Typed b.table) := by
  refine ends_types.bind fun t _ => ?_
  dsimp only
  split
  · exact ends_unless fun _ => ends_temporary range (ends_compute _ fun _ _ _ _ h => by cases h)
  · split
    · exact ends_refuse _ _
    · refine (ends_requireAny _ _ _).bind fun op _ => ?_
      split
      · exact ((ends_stringParts v.ir).bind fun _ _ => .pure trivial).bind fun _ (_ : True) =>
          ends_temporary range (ends_castTo _ _ _)
      · exact ends_temporary range (ends_castTo _ _ _)

theorem ends_castValue (view : Viewpoint) (target : Ty) (range : Span) (hv : v.Typed b.table) :
    b.Ends (castValue view v target range) (·.Typed b.table) := by
  refine ends_types.bind fun t ht => ?_
  split
  · rename_i m hm
    have hkind : m.kind = .toConvertor := by
      have hfound := List.find?_some hm
      rw [Bool.and_eq_true] at hfound
      exact eq_of_beq hfound.1
    refine (ends_isAccessible view m.vis).bind fun _ _ => ends_unless fun _ =>
      (ends_place hv).bind fun p hp => ?_
    exact (ends_callBare range (Basis.has_of_mem ht (List.mem_of_find?_eq_some hm))
      (by rw [hkind]; rfl) (by rw [hkind]; rfl) hp.target).mono fun _ h => h.typed
  · refine (ends_rvalue hv).bind fun w hw => ?_
    split
    · exact .pure hw.typed
    · refine ends_types.bind fun t ht => ?_
      split
      · exact ends_known range (solid_foldedCast ht hw.typed ‹_›)
      · exact ends_castAtRuntime w target range

theorem ends_lowerCast (view : Viewpoint) {value : Operand} (target : TypeExpr) (range : Span)
    (hv : value.Typed b) : b.Ends (lowerCast view value target range) (·.Typed b.table) :=
  (ends_resolveType view target).bind fun ty _ => (hv _ Expect.typed_nothing).bind fun _ hv =>
    ends_castValue view ty range hv

/-- A copy or move constructor builds a value from another one. -/
theorem ends_buildFrom {kind : MemberKind} {p : Value} {ty : Ty} {isVar : Bool} (missing : Fault)
    (range : Span) (hkind : kind.fixedArity? = some 0) (hother : kind.otherIsVar? = some isVar)
    (hp : p.Placed b.table ty) (he : expect.Typed b.table) :
    b.Ends (buildFrom kind p missing expect range) (·.Typed b.table) := by
  have hty := hp.type
  subst hty
  refine ends_types.bind fun t ht => (ends_require _ _ fun m hm => hm).bind fun m hm => ?_
  obtain ⟨hmem, rfl⟩ := TypeTable.mem_of_member hm
  have hhas := Basis.has_of_mem ht hmem
  refine (ends_targetSlot _ range he).bind fun slot hslot => ?_
  refine (ends_callMember range hhas (fun _ h => Option.some.inj h ▸ hslot.target)
    (hhas.other hkind hother hp.target)).bind fun _ _ => .pure hslot.typed

theorem ends_lowerCopy {inner : Operand} (range : Span) (hi : inner.Typed b)
    (he : expect.Typed b.table) :
    b.Ends (lowerCopy inner expect range) (·.Typed b.table) := by
  refine (hi _ Expect.typed_hint).bind fun v hv => (ends_placeOf hv).bind fun r hr => ?_
  split
  · exact .pure hv
  · have hp := hr.1 _ rfl
    refine ends_types.bind fun t _ => ?_
    split
    · exact (ends_rvalue hp.typed).mono fun _ h => h.typed
    · exact ends_buildFrom _ range rfl rfl hp he

theorem ends_warnReset (type : Ty) (range : Span) : b.Ends (warnReset type range) fun _ => True :=
  ends_types.bind fun _ _ => ends_warn _

theorem ends_moveBits (p : Value) (source range : Span) :
    b.Ends (moveBits p source range) (·.Typed b.table) := by
  refine (ends_load p.ir p.type).bind fun r hr => ends_types.bind fun t _ => ?_
  have hdone : b.Ends (pure (Value.temporary (.reg r) p.type range)) (·.Typed b.table) :=
    .pure (Value.typed_temporary (.inl hr))
  dsimp only
  split
  · exact hdone
  · exact (ends_store _ _).bind fun _ _ => (ends_warnReset _ _).bind fun _ _ => hdone

theorem ends_lowerMove {inner : Operand} (range : Span) (hi : inner.Typed b)
    (he : expect.Typed b.table) :
    b.Ends (lowerMove inner expect range) (·.Typed b.table) := by
  refine (hi _ Expect.typed_hint).bind fun v hv => ?_
  split
  · exact .pure hv
  · refine (ends_placeOf hv).bind fun r hr => ?_
    split
    · exact .pure hv
    · have hp := hr.1 _ rfl
      refine ends_unless fun _ => ends_types.bind fun t _ => ?_
      split
      · exact ends_moveBits _ _ range
      · exact ends_buildFrom _ range rfl rfl hp he

/-! ## New values -/

theorem type_of_default {t : TypeTable} {ty : Ty} {c : Constant} (h : t.default ty = .ok c) :
    c.type = ty := by
  obtain ⟨d, -, h⟩ := ok_of_bind h
  cases h
  rfl

theorem ends_lowerDefault (view : Viewpoint) (ty : Ty) (range : Span)
    (he : expect.Typed b.table) :
    b.Ends (lowerDefault view ty expect range) fun v => v.Typed b.table ∧ v.type = ty := by
  refine ends_types.bind fun t ht => ?_
  split
  · rename_i m hm
    obtain ⟨hmem, hkind⟩ := TypeTable.mem_of_member hm
    refine (ends_isAccessible view m.vis).bind fun _ _ => ends_unless fun _ =>
      (ends_targetSlot ty range he).bind fun slot hslot => ?_
    exact (ends_callBare range (Basis.has_of_mem ht hmem) (by rw [hkind]; rfl) (by rw [hkind]; rfl)
      hslot.target).bind fun _ _ => .pure ⟨hslot.typed, hslot.type⟩
  · refine ends_types.bind fun t ht => ?_
    split
    · rename_i c hc
      exact (ends_constant range (b.ground.default ht hc)).mono fun v hv =>
        ⟨hv.1, hv.2.2.trans (type_of_default hc)⟩
    · refine ends_types.bind fun _ _ => ends_unless fun _ =>
        (ends_targetSlot ty range he).bind fun slot hslot => ?_
      exact (ends_store _ _).bind fun _ _ => .pure ⟨hslot.typed, hslot.type⟩

theorem mem_of_constructors {t : TypeTable} {ty : Ty} {count : Nat} {m : MemberFunction}
    (h : m ∈ constructors t ty count) : m ∈ t.membersOf ty ∧ m.argTypes.length = count := by
  have hfit : m ∈ (t.membersOf ty).filter (·.args.length == count) := by
    rcases List.mem_append.mp h with h | h <;> exact (List.mem_filter.mp h).1
  obtain ⟨hmem, hcount⟩ := List.mem_filter.mp hfit
  exact ⟨hmem, (List.length_map _).trans (eq_of_beq hcount)⟩

theorem ends_lowerHinted :
    ∀ (args : List Operand) (hints : List (Option Ty)), args.length = hints.length →
      (∀ a ∈ args, a.Typed b) →
      b.Ends (lowerHinted args hints) fun vs =>
        vs.length = args.length ∧ ∀ v ∈ vs, v.Typed b.table
  | [], [], _, _ => .pure ⟨rfl, fun _ h => by cases h⟩
  | [], _ :: _, h, _ => by cases h
  | _ :: _, [], h, _ => by cases h
  | a :: args, hint :: hints, h, ha => by
    rw [List.forall_mem_cons] at ha
    unfold lowerHinted
    exact (ha.1 _ Expect.typed_maybe).bind fun v hv =>
      (ends_lowerHinted args hints (Nat.succ.inj h) ha.2).bind fun vs hvs =>
        .pure ⟨congrArg (· + 1) hvs.1, List.forall_mem_cons.mpr ⟨hv, hvs.2⟩⟩

theorem ends_passEach :
    ∀ (vs : List Value) (tys : List Ty), vs.length = tys.length → (∀ v ∈ vs, v.Typed b.table) →
      b.Ends (passEach vs tys) fun operands => Suits operands tys false
  | [], [], _, _ => .pure .nil
  | [], _ :: _, h, _ => by cases h
  | _ :: _, [], h, _ => by cases h
  | v :: vs, ty :: tys, h, hvs => by
    rw [List.forall_mem_cons] at hvs
    unfold passEach
    exact (ends_passValue ty v.range hvs.1).bind fun _ hv =>
      (ends_passEach vs tys (Nat.succ.inj h) hvs.2).bind fun _ hrest => .pure (.cons hv hrest)

theorem ends_constructPlainly (ty : Ty) {args : List Operand} (range : Span)
    (ha : ∀ a ∈ args, a.Typed b) :
    b.Ends (constructPlainly ty args range) (·.Typed b.table) := by
  refine ends_types.bind fun t _ => ?_
  split
  · refine (ha _ List.mem_cons_self _ Expect.typed_of).bind fun v hv => ?_
    split
    · exact (ends_rvalue hv).mono fun _ h => h.typed
    · exact ends_refuse _ _
  · exact ends_refuse _ _

theorem ends_construct (view : Viewpoint) (type : Ty) {args : List Operand} (range : Span)
    (ha : ∀ a ∈ args, a.Typed b) (he : expect.Typed b.table) :
    b.Ends (construct view type args expect range) (·.Typed b.table) := by
  unfold construct
  dsimp only
  split
  · exact (ends_lowerDefault view _ range he).mono fun _ h => h.1
  · refine ends_types.bind fun t ht => ?_
    split
    · exact ends_constructPlainly _ range ha
    · rename_i first others hfound
      have hcandidate {m : MemberFunction} (hm : m ∈ first :: others) :
          b.Has m type.value ∧ m.argTypes.length = args.length := by
        obtain ⟨hmem, hcount⟩ := mem_of_constructors (hfound ▸ hm)
        exact ⟨Basis.has_of_mem ht hmem, hcount⟩
      have hhints : args.length = (if others.isEmpty then first.argTypes.map (some ·.value)
          else List.replicate args.length none).length := by
        split
        · exact ((List.length_map _).trans (hcandidate List.mem_cons_self).2).symm
        · exact List.length_replicate.symm
      refine (ends_lowerHinted args _ hhints ha).bind fun vs ⟨hlen, hvs⟩ =>
        (ends_require _ _ fun m hm => hm).bind fun m hm =>
        (ends_isAccessible view m.vis).bind fun _ _ => ends_unless fun _ => ?_
      obtain ⟨hhas, hcount⟩ := hcandidate (List.mem_of_find?_eq_some hm)
      refine (ends_passEach vs m.argTypes (hlen.trans hcount.symm) hvs).bind fun operands hsuits =>
        (ends_targetSlot _ range he).bind fun slot hslot => ?_
      exact (ends_callMember range hhas (fun _ h => Option.some.inj h ▸ hslot.target)
        hsuits).bind fun _ _ => .pure hslot.typed

/-! ## Plain initializers and variants -/

/-- The value of a field has the type of the field. -/
theorem ends_lowerFields (fieldTypes : List Ty) :
    ∀ (os : List Operand) (order : List Nat), (∀ o ∈ os, o.Typed b) →
      b.Ends (lowerFields fieldTypes os order) fun fields => ∀ f ∈ fields,
        f.2.2.Typed b.table ∧ f.2.2.type.value = fieldTypes[f.1]?.getD .void
  | [], _, _ => .pure fun _ h => by cases h
  | _ :: _, [], _ => .pure fun _ h => by cases h
  | o :: os, i :: order, ho => by
    rw [List.forall_mem_cons] at ho
    unfold lowerFields
    refine (ho.1 _ Expect.typed_of).bind fun v hv => ends_guard fun hty =>
      (ends_lowerFields fieldTypes os order ho.2).bind fun rest hrest => .pure ?_
    exact List.forall_mem_cons.mpr ⟨⟨hv, not_not.mp hty⟩, hrest⟩

theorem ends_storeFields (slot : Ir.Value) (type : Ty) :
    ∀ fields : List (Nat × Ty × Value), (∀ f ∈ fields, f.2.2.Typed b.table) →
      b.Ends (storeFields slot type fields) fun _ => True
  | [], _ => .pure trivial
  | (i, ty, v) :: rest, h => by
    rw [List.forall_mem_cons] at h
    exact (ends_passValue ty v.range h.1).bind fun _ _ => (ends_fieldPtr _ _ _ _).bind fun _ _ =>
      (ends_store _ _).bind fun _ _ => ends_storeFields slot type rest h.2

theorem solid_knownFields {t : TypeTable} {tys : List Ty} {fields : List (Nat × Ty × Value)}
    {items : List Data} (h : knownFields? tys.length fields = some items)
    (hfields : ∀ f ∈ fields, f.2.2.Typed t ∧ f.2.2.type.value = tys[f.1]?.getD .void) :
    List.Forall₂ (fun d ty => d.Solid t ty) items tys := by
  obtain ⟨known, hknown, hplaced⟩ := Option.bind_eq_some_iff.mp h
  refine forall₂_placed hplaced fun p hp => ?_
  obtain ⟨i, hi, rfl⟩ := List.mem_iff_getElem.mp hp
  have hknown := mapM_eq_some_iff.mp hknown
  have hi' : i < fields.length := hknown.length_eq ▸ hi
  obtain ⟨c, hc, heq⟩ := Option.map_eq_some_iff.mp (hknown.get hi' hi)
  obtain ⟨hv, hty⟩ := hfields _ (List.getElem_mem hi')
  obtain ⟨htype, hsolid⟩ := hv.fixed hc
  have hp : known[i] = ((fields[i]).1, c.data) := heq.symm
  rw [hp]
  exact hsolid.of_type (htype.trans hty)

theorem ends_lowerPlain (view : Viewpoint) (type : Ty) (names : Option (List Ident))
    {values : List Operand} (range : Span) (hv : ∀ o ∈ values, o.Typed b)
    (he : expect.Typed b.table) :
    b.Ends (lowerPlain view type names values expect range) (·.Typed b.table) := by
  unfold lowerPlain
  dsimp only
  refine (ends_fieldOrder view _ names values.length range).bind fun order ⟨t₀, ht₀, hstruct⟩ =>
    ends_types.bind fun t ht => (ends_lowerFields _ values order hv).bind fun fields hfields =>
    ends_types.bind fun _ _ => ?_
  split
  · rename_i items hitems
    split at hitems
    · exact ends_known range
        (b.ground.struct ht₀ ht hstruct (solid_knownFields hitems hfields))
    · cases hitems
  · exact (ends_targetSlot _ range he).bind fun slot hslot =>
      (ends_storeFields _ _ fields fun f hf => (hfields f hf).1).bind fun _ _ =>
        .pure hslot.typed

theorem ends_knownVariant (ty : Ty) (variant : Ident) {payload : Option Constant} (range : Span)
    {t : TypeTable} (ht : b.ground.knows t) (hp : ∀ c, payload = some c → c.Solid b.table) :
    b.Ends (do constant (← orRefuse (t.knownVariant ty variant.text payload) variant.range) range)
      (·.Typed b.table) :=
  (ends_orRefuse (Q := fun c => c.Solid b.table) _ fun _ hc => b.ground.variant ht hp hc).bind
    fun _ hc => ends_known range hc

theorem ends_bareVariant (ty : Ty) (variant : Ident) (range : Span) :
    b.Ends (bareVariant ty variant range) (·.Typed b.table) :=
  ends_types.bind fun _ ht => ends_knownVariant ty variant range ht fun _ h => by cases h

theorem ends_lowerVariant (type : Ty) (variant : Ident) {value : Option Operand} (range : Span)
    (hv : ∀ o, value = some o → o.Typed b) (he : expect.Typed b.table) :
    b.Ends (lowerVariant type variant value expect range) (·.Typed b.table) := by
  refine ends_types.bind fun t _ => ?_
  split
  · refine ends_types.bind fun t _ => ends_guard fun _ => ?_
    dsimp only
    split
    · exact (ends_refuse (Q := fun _ => False) _ _).bind fun _ h => h.elim
    · exact ends_bareVariant _ variant range
  · refine (ends_requireAny _ _ _).bind ?_
    rintro ⟨index, v⟩ -
    dsimp only
    split
    · exact ends_bareVariant _ variant range
    · exact ends_refuse _ _
    · refine (hv _ rfl _ Expect.typed_of).bind fun payload hpayload => ends_guard fun _ =>
        ends_types.bind fun t _ => ?_
      split
      · rename_i c hc
        have hsolid : c.Solid b.table := by
          split at hc
          · exact (hpayload.fixed hc).2
          · cases hc
        refine ends_types.bind fun _ ht => ends_knownVariant _ variant range ht fun c' hc' => ?_
        cases hc'
        exact hsolid
      · exact (ends_passValue _ _ hpayload).bind fun _ _ =>
          (ends_targetSlot _ range he).bind fun slot hslot => (ends_intern _).bind fun _ _ =>
          (ends_fieldPtr _ _ _ _).bind fun _ _ => (ends_store _ _).bind fun _ _ =>
          (ends_fieldPtr _ _ _ _).bind fun _ _ => (ends_store _ _).bind fun _ _ =>
            .pure hslot.typed

/-! ## The heap -/

theorem ends_elementSize (element : Ty) (range : Span) :
    b.Ends (elementSize element range) fun _ => True := by
  refine (ends_requireSized element range).bind fun _ _ => ends_types.bind fun t _ => ?_
  split
  · exact .pure trivial
  · exact ends_types.bind fun _ _ => ends_breach _

theorem ends_lowerCount {count : Operand} (hc : count.Typed b) :
    b.Ends (lowerCount count) (·.Typed b.table) :=
  (ends_operandRvalue hc Expect.typed_of).bind fun _ hv => ends_types.bind fun _ _ =>
    ends_unless fun _ => ends_convertInt _ hv.typed

theorem ends_byteCount (count : Value) (size : Nat) :
    b.Ends (byteCount count size) (·.type = .usize) := by
  unfold byteCount
  split
  · exact .pure rfl
  · exact (ends_compute _ fun _ _ _ _ h => by cases h).bind fun _ hr => .pure hr

theorem ends_bytePointer : b.Ends bytePointer (· = .markTo .u8 true) := ends_intern _

theorem ends_allocate {name : String} {params : List Ty} {operands : List Ir.Value}
    (hname : allocator? name = some ⟨params, .markTo .u8 true, false⟩)
    (h : Suits operands params false) :
    b.Ends (allocate name params operands) fun _ => True := by
  refine ends_bytePointer.bind fun ty hty => ?_
  cases hty
  refine (ends_callAllocator hname h).bind fun r _ => ?_
  split
  · exact .pure trivial
  · exact ends_breach _

theorem ends_malloc {bytes : Ir.Value} (hb : bytes.type = .usize) :
    b.Ends (allocate "malloc" [.usize] [bytes]) fun _ => True :=
  ends_allocate rfl (.cons (.inl hb) .nil)

theorem ends_heapValue (raw : Ir.Value) (element : Ty) (count : Option Ir.Value) (range : Span) :
    b.Ends (heapValue raw element count range) (·.Typed b.table) := by
  refine (ends_intern _).bind fun single _ => (ends_castTo _ _ _).bind fun data hdata => ?_
  split
  · exact .pure (Value.typed_temporary (.inl hdata))
  · exact (ends_intern _).bind fun _ _ => ends_aggregate _ _ range

theorem ends_lowerHeapGet (view : Viewpoint) (type : TypeExpr) {count : Option Operand}
    (range : Span) (hc : ∀ o, count = some o → o.Typed b) :
    b.Ends (lowerHeapGet view type count range) (·.Typed b.table) := by
  refine (ends_resolveType view type).bind fun element _ =>
    (ends_elementSize element _).bind fun size _ => ?_
  split
  · exact (ends_malloc rfl).bind fun _ _ => ends_heapValue _ _ _ range
  · exact (ends_lowerCount (hc _ rfl)).bind fun count _ => (ends_byteCount count size).bind
      fun _ hbytes => (ends_malloc hbytes).bind fun _ _ => ends_heapValue _ _ _ range

theorem ends_heapData (pointer : Value) (range : Span) :
    b.Ends (heapData pointer range) fun _ => True := by
  unfold heapData
  split
  · split
    · exact (ends_sliceData _ _ _).bind fun _ _ => .pure trivial
    · exact .pure trivial
  · exact ends_refuse _ _

theorem ends_lowerHeapPut {pointer : Operand} (range : Span) (hp : pointer.Typed b) :
    b.Ends (lowerHeapPut pointer range) (·.Typed b.table) := by
  refine (ends_operandRvalue hp Expect.typed_nothing).bind fun v _ =>
    (ends_heapData v _).bind fun _ _ => ends_bytePointer.bind fun ty hty => ?_
  cases hty
  refine (ends_castTo _ _ _).bind fun raw hraw => ?_
  exact (ends_callAllocator rfl (.cons_register hraw .nil)).bind fun _ _ => .pure Value.typed_void

theorem ends_lowerHeapGrow (view : Viewpoint) (type : TypeExpr) {pointer count : Operand}
    (range : Span) (hp : pointer.Typed b) (hc : count.Typed b) :
    b.Ends (lowerHeapGrow view type pointer count range) (·.Typed b.table) := by
  refine (ends_resolveType view type).bind fun element _ =>
    (ends_elementSize element _).bind fun size _ =>
    (ends_operandRvalue hp Expect.typed_nothing).bind fun v _ =>
    (ends_heapData v _).bind fun _ _ => ends_guard fun _ =>
    (ends_lowerCount hc).bind fun count _ => (ends_byteCount count size).bind fun bytes hbytes =>
    ends_bytePointer.bind fun ty hty => ?_
  cases hty
  refine (ends_castTo _ _ _).bind fun raw hraw => ?_
  exact (ends_allocate rfl (.cons_register hraw (.cons (.inl hbytes) .nil))).bind fun _ _ =>
    ends_heapValue _ _ _ range

/-! ## Names -/

/-- What an entity has become, as the symbols say. -/
theorem ends_lookup (id : EntityId) (range : Span) :
    b.Ends (symbolOf id range) fun y => b.outer.symbols.lookup id = some y := by
  intro o _ s hs
  have hsymbols : s.symbols = b.outer.symbols := congrArg Outer.symbols hs.outer
  have hrun : symbolOf id range o s =
      require (s.symbols.lookup id) (.notReady (s.entities.displayName id)) range o s := rfl
  rw [hrun, hsymbols]
  cases hl : b.outer.symbols.lookup id with
  | some y => exact ⟨hs, rfl⟩
  | none => exact ⟨hs.toStops, trivial⟩

theorem ends_symbolValue (name : QName) {id : EntityId} {symbol : Symbol}
    (h : b.outer.symbols.lookup id = some symbol) :
    b.Ends (symbolValue name symbol) (·.Typed b.table) := by
  unfold symbolValue
  dsimp only
  split
  · exact .pure (Value.typed_temporary (.refl _))
  · rename_i i type isVar value
    refine (ends_intern _).bind fun ty hty => .pure ⟨fun h => (by cases h), fun _ => ?_, ?_⟩
    · exact congrArg Ty.target? hty
    · intro c hc
      dsimp only at hc
      split at hc
      · cases hc
      · cases hc
        exact ⟨b.globals h, b.known h rfl⟩
  · exact ends_known _ (b.known h rfl)
  · exact (ends_typeConstant _).bind fun _ hc => ends_known _ hc
  · exact ends_refuse _ _
  · exact ends_refuse _ _
  · exact ends_refuse _ _
  · exact ends_refuse _ _

theorem ends_lowerName (view : Viewpoint) (name : QName) (he : expect.Typed b.table) :
    b.Ends (lowerName view name expect) (·.Typed b.table) := by
  refine (ends_localNamed name).bind fun found hfound => ?_
  split
  · exact .pure (typed_localValue (hfound _ rfl) _)
  · refine (ends_resolveName view name).bind fun r _ => ?_
    split
    · exact (ends_lookup _ _).bind fun symbol hsymbol => ends_symbolValue name hsymbol
    · exact ends_refuse _ _
    · split
      · rename_i hsegments
        exact (ends_typeMember view (segments_ne_nil hsegments)).bind fun r _ =>
          ends_lowerVariant r.1 r.2 _ (fun _ h => by cases h) he
      · exact (ends_definedAs _ _ _).bind fun _ hc => ends_known _ hc

/-! ## Callees -/

theorem ends_lowerStaticCall (view : Viewpoint) (ty : Ty) (name : Ident) {args : List Operand}
    (range : Span) (ha : ∀ a ∈ args, a.Typed b) (he : expect.Typed b.table) :
    b.Ends (lowerStaticCall view ty name args expect range) (·.Typed b.table) := by
  unfold lowerStaticCall
  split
  · exact ends_construct view ty range ha he
  · refine ends_types.bind fun t ht => ?_
    split
    · rename_i m hm
      have hhas := Basis.has_of_mem ht (List.mem_of_find?_eq_some hm)
      refine (ends_checkMemberAccess view m name).bind fun _ _ =>
        (ends_lowerArgs _ m.argTypes false range ha).bind fun _ hargs => ?_
      exact (ends_callMember range hhas (fun _ h => by cases h) hargs).mono fun _ h => h.typed
    · refine ends_types.bind fun t _ => ?_
      dsimp only
      split
      · exact ends_lowerVariant ty name range
          (fun o ho => Option.some.inj ho ▸ ha _ List.mem_cons_self) he
      · exact ends_refuse _ _

/-- The symbol of a function says with which prototype it is called. -/
theorem ends_callSymbol (view : Viewpoint) (name : QName) {id : EntityId} {symbol : Symbol}
    {callee : Operand} {args : List Operand} (range : Span)
    (h : b.outer.symbols.lookup id = some symbol) (hc : callee.Typed b)
    (ha : ∀ a ∈ args, a.Typed b) (he : expect.Typed b.table) :
    b.Ends (callSymbol view name symbol callee args expect range) (·.Typed b.table) := by
  unfold callSymbol
  split
  · rename_i f result params variadic
    refine (ends_lowerArgs _ params variadic range ha).bind fun operands hsuits => ?_
    have hdeclared : b.declares b.functions f ⟨params, result, variadic⟩ :=
      .function (mem_of_lookup h)
    exact (ends_callDeclared range hdeclared hsuits).mono fun _ hv => hv.typed
  · exact ends_breach _
  · rename_i f
    exact (ends_checkArgCount f _ range).bind fun _ _ => (ends_evaluateEach view _ _).bind
      fun vs hvs => (ends_callPrerun f range hvs).bind fun _ hc => ends_known range hc
  · exact ends_construct view _ range ha he
  · exact (ends_operandRvalue hc Expect.typed_nothing).bind fun f _ => ends_callValue f _ range ha
  · exact ends_refuse _ _
  · exact ends_refuse _ _
  · exact ends_refuse _ _
  · exact ends_refuse _ _

theorem ends_callName (view : Viewpoint) (name : QName) {callee : Operand} {args : List Operand}
    (range : Span) (hc : callee.Typed b) (ha : ∀ a ∈ args, a.Typed b)
    (he : expect.Typed b.table) :
    b.Ends (callName view name callee args expect range) (·.Typed b.table) := by
  refine (ends_localNamed name).bind fun found _ => ?_
  split
  · exact (ends_operandRvalue hc Expect.typed_nothing).bind fun f _ => ends_callValue f _ range ha
  · refine (ends_resolveName view name).bind fun r _ => ?_
    split
    · exact (ends_lookup _ _).bind fun symbol hsymbol =>
        ends_callSymbol view name range hsymbol hc ha he
    · exact ends_refuse _ _
    · split
      · rename_i hsegments
        exact (ends_typeMember view (segments_ne_nil hsegments)).bind fun r _ =>
          ends_lowerStaticCall view r.1 r.2 range ha he
      · exact ends_refuseName _

theorem ends_lowerCall (view : Viewpoint) {callee : Operand} {args : List Operand} (range : Span)
    (hc : callee.Typed b) (ha : ∀ a ∈ args, a.Typed b) (he : expect.Typed b.table) :
    b.Ends (lowerCall view callee args expect range) (·.Typed b.table) := by
  unfold lowerCall
  split
  · exact ends_callName view _ range hc ha he
  · exact (ends_operandRvalue hc Expect.typed_nothing).bind fun f _ => ends_callValue f _ range ha

/-! ## Expressions -/

theorem ends_lowerKnown (view : Viewpoint) (e : Expr) (expect : Expect) :
    b.Ends (lowerKnown view e expect) (·.Typed b.table) :=
  (ends_evaluate view e _).bind fun _ hc => ends_known _ hc

mutual

theorem ends_lowerExpr (view : Viewpoint) :
    ∀ (e : Expr) (expect : Expect), expect.Typed b.table →
      b.Ends (lowerExpr view e expect) (·.Typed b.table)
  | .int .., _, _ | .float .., _, _ | .bool .., _, _ | .char .., _, _
  | .str .., _, _ | .null _, _, _ | .none _, _, _ | .sizeOf .., _, _
  | .typeValue .., _, _ => by
    unfold lowerExpr
    exact ends_lowerKnown view _ _
  | .default range, _, he => by
    unfold lowerExpr
    exact (ends_requireAny _ _ _).bind fun ty _ =>
      (ends_lowerDefault view ty range he).mono fun _ h => h.1
  | .some range inner, _, _ => by
    unfold lowerExpr
    exact ends_lowerSome range (ends_lowerExpr view inner)
  | .tuple range items, _, _ => by
    unfold lowerExpr
    exact ends_lowerTuple range (typed_operands view items)
  | .array range items, _, _ => by
    unfold lowerExpr
    exact ends_lowerArray range (typed_operands view items)
  | .entity _ name, _, he => by
    unfold lowerExpr
    exact ends_lowerName view name he
  | .self range, _, _ => by
    unfold lowerExpr
    exact ends_selfValue range
  | .selfMember range name, _, _ => by
    unfold lowerExpr
    exact (ends_selfValue range).bind fun _ hv => ends_lowerMember view name range hv
  | .member range base name, _, _ => by
    unfold lowerExpr
    exact (ends_lowerExpr view base _ Expect.typed_nothing).bind fun _ hv =>
      ends_lowerMember view name range hv
  | .index range base position, _, _ => by
    unfold lowerExpr
    exact ends_lowerIndex view range (ends_lowerExpr view base) (ends_lowerExpr view position)
  | .unary range op operand, _, _ => by
    unfold lowerExpr
    exact ends_lowerUnary view op range (ends_lowerExpr view operand)
  | .deref range operand, _, _ => by
    unfold lowerExpr
    exact ends_lowerDeref range (ends_lowerExpr view operand)
  | .addressOf range target isVar, _, _ => by
    unfold lowerExpr
    exact ends_lowerAddressOf isVar range (ends_lowerExpr view target)
  | .copy range inner, _, he => by
    unfold lowerExpr
    exact ends_lowerCopy range (ends_lowerExpr view inner) he
  | .move range inner, _, he => by
    unfold lowerExpr
    exact ends_lowerMove range (ends_lowerExpr view inner) he
  | .binary range op lhs rhs, _, _ => by
    unfold lowerExpr
    exact ends_lowerBinary op range (ends_lowerExpr view lhs) (ends_lowerExpr view rhs)
  | .call range callee args, _, he => by
    unfold lowerExpr
    exact ends_lowerCall view range (ends_lowerExpr view callee) (typed_operands view args) he
  | .methodCall range base name args variation, _, _ => by
    unfold lowerExpr
    exact (ends_lowerExpr view base _ Expect.typed_nothing).bind fun _ hv =>
      ends_lowerMethodCall view name variation range hv (typed_operands view args)
  | .construct range type args, _, he => by
    unfold lowerExpr
    exact (ends_resolveType view type).bind fun ty _ =>
      ends_construct view ty range (typed_operands view args) he
  | .plain range type fields values, _, he => by
    unfold lowerExpr
    exact (ends_resolveType view type).bind fun ty _ =>
      ends_lowerPlain view ty fields range (typed_operands view values) he
  | .variant range type name value, _, he => by
    unfold lowerExpr
    exact (ends_resolveType view type).bind fun ty _ =>
      ends_lowerVariant ty name range (typed_operandOf view value) he
  | .heapGet range type count, _, _ => by
    unfold lowerExpr
    exact ends_lowerHeapGet view type range (typed_operandOf view count)
  | .heapPut range pointer, _, _ => by
    unfold lowerExpr
    exact ends_lowerHeapPut range (ends_lowerExpr view pointer)
  | .heapGrow range type pointer count, _, _ => by
    unfold lowerExpr
    exact ends_lowerHeapGrow view type range (ends_lowerExpr view pointer)
      (ends_lowerExpr view count)
  | .cast range value target, _, _ => by
    unfold lowerExpr
    exact ends_lowerCast view target range (ends_lowerExpr view value)
  | .await range inner, _, _ => by
    unfold lowerExpr
    exact ends_lowerAwait range (ends_lowerExpr view inner)
  | .assembly range template constraints args result volatile, _, _ => by
    unfold lowerExpr
    exact ends_lowerAssembly view template constraints result volatile range
      (typed_operands view args)
  | .ifElse range condition thenValue elseValue, _, _ => by
    unfold lowerExpr
    exact ends_lowerIf range (ends_lowerExpr view condition) (ends_lowerExpr view thenValue)
      (ends_lowerExpr view elseValue)
  | .todo range message, _, _ => by
    unfold lowerExpr
    exact (ends_unfinished message range).bind fun _ _ => .pure Value.typed_void

theorem typed_operands (view : Viewpoint) :
    ∀ (es : List Expr), ∀ o ∈ operands view es, o.Typed b
  | [], _, ho => by cases ho
  | e :: es, o, ho => by
    unfold operands at ho
    rcases List.mem_cons.mp ho with rfl | ho
    · exact ends_lowerExpr view e
    · exact typed_operands view es o ho

theorem typed_operandOf (view : Viewpoint) :
    ∀ (e : Option Expr) (o : Operand), operand? view e = some o → o.Typed b
  | none, _, ho => by cases ho
  | some e, o, ho => by
    unfold operand? at ho
    cases ho
    exact ends_lowerExpr view e

end

theorem typed_operand (view : Viewpoint) (e : Expr) : (operand view e).Typed b :=
  ends_lowerExpr view e

end Staged.Emit
