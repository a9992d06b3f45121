/-
  Staged.Proofs.Ssa.Expr — the registers of expressions.

  Each construct finds the registers it uses and gives a value that is at hand where it
  ends. Constructs that go on in other blocks are judged from the point where these blocks
  were made: what was at hand there is at hand in all of them, and a value of one branch
  reaches the common end only through a phi. By induction on the syntax this holds of every
  expression.
-/

import Staged.Proofs.Code.Expr
import Staged.Proofs.Ssa.Instr

namespace Staged

open Ir (Register BlockId)

/-- An operand whose value is at hand, if the memory to build it in is. -/
def Operand.Lands (o : Operand) (w : Backdrop) : Prop :=
  ∀ (x : Point) (expect : Expect), expect.At x → w.Lands x (o.lower expect) fun v x' => v.At x'

namespace Emit

variable {w : Backdrop} {α β : Type} {x : Point} {v : Value} {o : Operand} {expect : Expect}

/-- Values that are at hand stay so. -/
theorem at_all_mono {vs : List Value} {x' : Point} (h : ∀ v ∈ vs, v.At x) (hx : x.Leads x') :
    ∀ v ∈ vs, v.At x' := fun v hv => (h v hv).mono hx

/-! ## Operands -/

theorem lands_operandRvalue (ho : o.Lands w) (he : expect.At x) :
    w.Lands x (o.rvalue expect) fun v x' => v.At x' :=
  (ho x expect he).bind fun _ _ _ hv => lands_rvalue hv

theorem lands_condition (ho : o.Lands w) : w.Lands x o.condition fun v x' => v.At x' := by
  unfold Operand.condition
  refine (lands_operandRvalue ho Expect.at_of).bind fun v x₁ _ hv => ?_
  exact lands_guard fun _ => .pure (.refl x₁) hv

theorem lands_passValue (target : Ty) (range : Span) (hv : v.At x) :
    w.Lands x (passValue v target range) fun ir x' => ir.At x' := by
  unfold passValue
  split
  · refine lands_guard fun _ => lands_guard fun _ => ?_
    exact (lands_referenceAddress hv).bind fun _ _ _ ha => .pure ha
  · refine lands_guard fun _ => (lands_placeOf hv).bind fun p x₁ _ hp => ?_
    refine (lands_require _ _ hp).bind fun p x₂ _ hp => ?_
    exact lands_guard fun _ => .pure (.refl x₂) hp
  · refine lands_guard fun _ => ?_
    split
    · exact .pure (.refl x) hv
    · refine lands_types.bind fun t x₁ hx₁ _ => ?_
      split
      · exact (lands_rvalue (hv.mono hx₁)).bind fun _ _ _ hr => .pure hr
      · exact lands_refuse _ _

theorem lands_passValues (range : Span) :
    ∀ (vs : List Value) (tys : List Ty) {x : Point}, (∀ v ∈ vs, v.At x) →
      w.Lands x (passValues range vs tys) fun irs x' => ∀ ir ∈ irs, ir.At x'
  | [], _, _, _ | _ :: _, [], _, _ => by
    unfold passValues
    exact .pure fun _ h => by cases h
  | v :: vs, ty :: tys, _, hv => by
    obtain ⟨hv, hvs⟩ := List.forall_mem_cons.mp hv
    unfold passValues
    refine (lands_passValue ty range hv).bind fun ir x₁ hx₁ hir => ?_
    refine (lands_passValues range vs tys (at_all_mono hvs hx₁)).bind fun irs x₂ hx₂ hirs => ?_
    exact .pure (List.forall_mem_cons.mpr ⟨hir.mono hx₂, hirs⟩)

/-! ## Calls -/

theorem lands_emitCall {callee : Ir.Callee} {args : List Ir.Value} (result : Ty) (range : Span)
    (hcallee : ∀ r ∈ callee.regs, r ∈ x.here) (hargs : ∀ a ∈ args, a.At x) :
    w.Lands x (emitCall callee args result range) fun v x' => v.At x' := by
  have hcall (x' : Point) (hx : x.Leads x') (dest : Option Register) :
      (Ir.Instr.call dest callee args).At x' :=
    Ir.Instr.at_call (fun r hr => hx.here (hcallee r hr)) fun a ha => (hargs a ha).mono hx
  unfold emitCall
  split
  · exact (lands_push (hcall x (.refl x) none) rfl).bind fun _ _ _ _ => .pure Value.at_void
  · exact lands_temporary _ _ (lands_compute _ (fun r x' hx => hcall x' hx (some r)) fun _ => rfl)

theorem lands_callMember {m : MemberFunction} {self : Option Ir.Value} {args : List Ir.Value}
    (range : Span) (hsome : m.kind.hasSelf = true → self ≠ none)
    (hself : ∀ v, self = some v → v.At x) (hargs : ∀ a ∈ args, a.At x) :
    w.Lands x (callMember m self args range) fun v x' => v.At x' := by
  have hcallee : ∀ r ∈ (Ir.Callee.function m.function).regs, r ∈ x.here := fun _ h => by cases h
  unfold callMember
  split
  · rename_i hkind
    split
    · exact lands_emitCall _ _ hcallee (List.forall_mem_cons.mpr ⟨hself _ rfl, hargs⟩)
    · exact absurd rfl (hsome hkind)
  · exact lands_emitCall _ _ hcallee hargs

/-- A member is called on an instance that is at hand. -/
theorem lands_callMemberOn {m : MemberFunction} {self : Value} {args : List Ir.Value}
    (range : Span) (hself : self.At x) (hargs : ∀ a ∈ args, a.At x) :
    w.Lands x (callMember m (some self.ir) args range) fun v x' => v.At x' :=
  lands_callMember range (fun _ h => by cases h) (fun v hv => by cases hv; exact hself) hargs

theorem lands_lowerArgsFrom (called : Called) :
    ∀ (i : Nat) (params : List Ty) (args : List Operand) {x : Point}, (∀ a ∈ args, a.Lands w) →
      w.Lands x (lowerArgsFrom called i params args) fun irs x' => ∀ ir ∈ irs, ir.At x'
  | _, _, [], _, _ => by
    unfold lowerArgsFrom
    exact .pure fun _ h => by cases h
  | i, [], a :: args, _, ha => by
    obtain ⟨ha, hargs⟩ := List.forall_mem_cons.mp ha
    unfold lowerArgsFrom
    refine (lands_operandRvalue ha Expect.at_nothing).bind fun v x₁ _ hv => ?_
    refine (lands_lowerArgsFrom called (i + 1) [] args hargs).bind fun irs x₂ hx₂ hirs => ?_
    exact .pure (List.forall_mem_cons.mpr ⟨hv.mono hx₂, hirs⟩)
  | i, param :: params, a :: args, x, ha => by
    obtain ⟨ha, hargs⟩ := List.forall_mem_cons.mp ha
    unfold lowerArgsFrom
    refine (ha x _ Expect.at_of).bind fun v x₁ _ hv => lands_guard fun _ => ?_
    refine (lands_passValue param a.range hv).bind fun ir x₂ _ hir => ?_
    refine (lands_lowerArgsFrom called (i + 1) params args hargs).bind fun irs x₃ hx₃ hirs => ?_
    exact .pure (List.forall_mem_cons.mpr ⟨hir.mono hx₃, hirs⟩)

theorem lands_lowerArgs (called : Called) (params : List Ty) (variadic : Bool)
    {args : List Operand} (range : Span) (ha : ∀ a ∈ args, a.Lands w) :
    w.Lands x (lowerArgs called params variadic args range) fun irs x' => ∀ ir ∈ irs, ir.At x' :=
  lands_guard fun _ => lands_lowerArgsFrom called 0 params args ha

theorem lands_callValue {f : Value} (called : Called) {args : List Operand} (range : Span)
    (hf : f.At x) (ha : ∀ a ∈ args, a.Lands w) :
    w.Lands x (callValue f called args range) fun v x' => v.At x' := by
  unfold callValue
  split
  · refine (lands_lowerArgs called _ _ range ha).bind fun irs x₁ hx₁ hirs => ?_
    exact lands_emitCall _ _ (hf.mono hx₁) hirs
  · exact lands_refuse _ _

theorem lands_checkMemberAccess (view : Viewpoint) (m : MemberFunction) (name : Ident) :
    w.Lands x (checkMemberAccess view m name) fun _ _ => True := by
  refine (lands_isAccessible view m.vis).bind fun accessible x₁ _ _ => ?_
  split
  · exact .pure trivial
  · exact lands_refuse _ _

theorem lands_methodInstance (name : String) (range : Span) (hv : v.At x) :
    w.Lands x (methodInstance v name range) fun r x' => r.1.At x' := by
  unfold methodInstance
  split
  · refine lands_types.bind fun t x₁ hx₁ _ => ?_
    split
    · exact .pure (hv.mono hx₁)
    · exact (lands_rvalue (hv.mono hx₁)).bind fun _ _ _ hr => .pure hr
  · exact .pure hv

/-- A member is called on arguments that are lowered first. -/
theorem lands_callOn {m : MemberFunction} (called : Called) {self : Value} {args : List Operand}
    (range : Span) (hself : self.At x) (ha : ∀ a ∈ args, a.Lands w) :
    w.Lands x (do
      callMember m (some self.ir) (← lowerArgs called m.argTypes false args range) range)
      fun v x' => v.At x' := by
  refine (lands_lowerArgs called _ _ range ha).bind fun irs x₁ hx₁ hirs => ?_
  exact lands_callMemberOn range (hself.mono hx₁) hirs

theorem lands_lowerMethodCall (view : Viewpoint) {base : Value} (name : Ident)
    {args : List Operand} (variation : Bool) (range : Span) (hb : base.At x)
    (ha : ∀ a ∈ args, a.Lands w) :
    w.Lands x (lowerMethodCall view base name args variation range) fun v x' => v.At x' := by
  unfold lowerMethodCall
  refine (lands_methodInstance name.text range hb).bind fun ⟨self, ty⟩ x₁ _ hself => ?_
  refine lands_types.bind fun t x₂ hx₂ _ => (lands_required _ _ _).bind fun m x₃ hx₃ _ => ?_
  refine (lands_checkMemberAccess view m name).bind fun _ x₄ hx₄ _ => lands_guard fun _ => ?_
  have hself : self.At x₄ := hself.mono ((hx₂.trans hx₃).trans hx₄)
  split
  · refine (lands_placeOf hself).bind fun p x₅ _ hp => ?_
    refine (lands_require (Q := fun p x' => p.At x') _ _ fun q hq =>
      hp q (Option.filter_eq_some_iff.mp hq).1).bind fun p x₆ _ hp => ?_
    exact lands_callOn _ range hp ha
  · exact (lands_place hself).bind fun p x₅ _ hp => lands_callOn _ range hp ha

/-! ## Members and elements -/

theorem lands_memberAt {whole : Value} (aggregateType : Ty) (index : Nat) (type : Ty)
    (isVar : Bool) (range : Span) (hv : whole.At x) :
    w.Lands x (memberAt whole aggregateType index type isVar range) fun v x' => v.At x' := by
  unfold memberAt
  split
  · exact lands_constant _ _
  · refine (lands_placeOf hv).bind fun p x₁ hx₁ hp => ?_
    split
    · refine (lands_intern _).bind fun ty x₂ hx₂ _ => ?_
      refine (lands_compute ty (fun _ _ hx => Ir.Instr.at_fieldPtr _ _
        ((hp _ rfl).mono (hx₂.trans hx))) fun _ => rfl).bind fun r x₃ _ hr => ?_
      exact .pure (Ir.Value.at_reg hr)
    · exact lands_temporary _ _ (lands_extract _ _ (hv.mono hx₁))

theorem lands_stringLength (range : Span) (hv : v.At x) :
    w.Lands x (stringLength v range) fun v x' => v.At x' := by
  refine (lands_rvalue hv).bind fun v x₁ _ hv => ?_
  split
  · exact lands_constant _ _
  · exact (lands_stringParts hv).bind fun _ _ _ hr => .pure (Ir.Value.at_reg hr.2)

theorem lands_lowerMember (view : Viewpoint) {whole : Value} (name : Ident) (range : Span)
    (hv : whole.At x) : w.Lands x (lowerMember view whole name range) fun v x' => v.At x' := by
  unfold lowerMember
  dsimp only
  split
  · exact lands_constant _ _
  · exact lands_stringLength range hv
  · exact (lands_rvalue hv).bind fun v x₁ _ hv => lands_temporary _ _ (lands_extract _ _ hv)
  · refine lands_types.bind fun t x₁ hx₁ _ => ?_
    refine (lands_required _ _ _).bind fun ⟨index, field⟩ x₂ hx₂ _ => ?_
    refine (lands_isAccessible view field.vis).bind fun _ x₃ hx₃ _ => lands_unless fun _ => ?_
    exact lands_memberAt _ _ _ _ range (hv.mono ((hx₁.trans hx₂).trans hx₃))
  · refine (lands_required _ _ _).bind fun index x₁ hx₁ _ => ?_
    refine (lands_required _ _ _).bind fun type x₂ hx₂ _ => ?_
    exact lands_memberAt _ _ _ _ range (hv.mono (hx₁.trans hx₂))
  · exact lands_refuse _ _

theorem lands_tupleMember (view : Viewpoint) {whole : Value} (type : Ty) (members : List Ty)
    (position : Expr) (range : Span) (hv : whole.At x) :
    w.Lands x (tupleMember view whole type members position range) fun v x' => v.At x' := by
  refine (lands_evaluate view position _).bind fun c x₁ hx₁ _ => ?_
  refine lands_types.bind fun t x₂ hx₂ _ => ?_
  refine (lands_required _ _ _).bind fun ⟨index, member⟩ x₃ hx₃ _ => ?_
  exact lands_memberAt _ _ _ _ range (hv.mono ((hx₁.trans hx₂).trans hx₃))

/-- The address of an element is a place. -/
theorem lands_storedElement {base index : Ir.Value} (element : Ty) (isVar isVar' : Bool)
    (storage : Storage) (range : Span) (hb : base.At x) (hi : index.At x) :
    w.Lands x (do
      let ptr ← elementPtr base element isVar index
      return Value.stored ptr element isVar' storage range) fun v x' => v.At x' :=
  (lands_elementPtr element isVar hb hi).bind fun _ _ _ hr => .pure (Ir.Value.at_reg hr)

/-- A byte of a text is loaded. -/
theorem lands_loadedByte {base index : Ir.Value} (range : Span) (hb : base.At x)
    (hi : index.At x) :
    w.Lands x (do
      let ptr ← elementPtr base .u8 false index
      return Value.temporary (.reg (← load ptr .u8)) .u8 range) fun v x' => v.At x' := by
  refine (lands_elementPtr _ _ hb hi).bind fun ptr x₁ _ hptr => ?_
  exact lands_temporary _ _ (lands_load _ (Ir.Value.at_reg hptr))

theorem lands_arrayElement {whole position : Value} (element : Ty) (length : Nat)
    (positionRange range : Span) (hv : whole.At x) (hp : position.At x) :
    w.Lands x (arrayElement whole element length position positionRange range)
      fun v x' => v.At x' := by
  have hrest : w.Lands x (do
      let p ← place whole
      let ptr ← elementPtr p.ir element p.isVar position.ir
      return Value.stored ptr element p.isVar (partStorage p.storage) range)
      fun v x' => v.At x' := by
    refine (lands_place hv).bind fun p x₁ hx₁ hplace => ?_
    exact lands_storedElement _ _ _ _ _ hplace (hp.mono hx₁)
  unfold arrayElement
  dsimp only
  split
  · refine lands_guard fun _ => ?_
    split
    · exact lands_constant _ _
    · exact hrest
  · split
    · exact lands_constant _ _
    · exact hrest

theorem lands_stringElement {whole position : Value} (positionRange range : Span)
    (hv : whole.At x) (hp : position.At x) :
    w.Lands x (stringElement whole position positionRange range) fun v x' => v.At x' := by
  refine (lands_rvalue hv).bind fun v x₁ hx₁ hv => ?_
  split
  · exact (lands_required _ _ _).bind fun byte x₂ _ _ => lands_constant _ _
  · refine (lands_stringParts hv).bind fun ⟨data, _⟩ x₂ hx₂ hdata => ?_
    exact lands_loadedByte range (Ir.Value.at_reg hdata.1) (hp.mono (hx₁.trans hx₂))

theorem lands_elementOf {whole position : Value} (wholeRange positionRange range : Span)
    (hv : whole.At x) (hp : position.At x) :
    w.Lands x (elementOf whole position wholeRange positionRange range) fun v x' => v.At x' := by
  unfold elementOf
  split
  · exact lands_arrayElement _ _ positionRange range hv hp
  · refine (lands_place hv).bind fun p x₁ hx₁ hplace => ?_
    exact lands_storedElement _ _ _ _ _ hplace (hp.mono hx₁)
  · refine (lands_rvalue hv).bind fun pointer x₁ hx₁ hpointer => ?_
    split
    · refine (lands_register (lands_sliceData _ _ hpointer)).bind fun data x₂ hx₂ hdata => ?_
      exact lands_storedElement _ _ _ _ _ hdata (hp.mono (hx₁.trans hx₂))
    · exact lands_storedElement _ _ _ _ _ hpointer (hp.mono hx₁)
  · exact lands_stringElement positionRange range hv hp
  · refine (lands_rvalue hv).bind fun pointer x₁ hx₁ hpointer => ?_
    exact lands_loadedByte range hpointer (hp.mono hx₁)
  · exact lands_refuse _ _

theorem lands_lowerIndex (view : Viewpoint) {base position : Operand} (range : Span)
    (hb : base.Lands w) (hp : position.Lands w) :
    w.Lands x (lowerIndex view base position range) fun v x' => v.At x' := by
  refine (hb x _ Expect.at_nothing).bind fun whole x₁ _ hwhole => ?_
  split
  · exact lands_tupleMember view _ _ _ range hwhole
  · refine (lands_operandRvalue hp Expect.at_of).bind fun at_ x₂ hx₂ hat => ?_
    refine lands_types.bind fun t x₃ hx₃ _ => lands_unless fun _ => ?_
    exact lands_elementOf _ _ range (hwhole.mono (hx₂.trans hx₃)) (hat.mono hx₃)

/-! ## Aggregates -/

theorem lands_finishAggregate (type : Ty) {parts : List Value} (members : List Ty)
    (data : List Data → Data) (range : Span) (hparts : ∀ v ∈ parts, v.At x) :
    w.Lands x (finishAggregate type parts members data range) fun v x' => v.At x' := by
  unfold finishAggregate
  split
  · exact lands_constant _ _
  · exact (lands_passValues range parts members hparts).bind fun irs x₁ _ hirs =>
      lands_aggregate _ _ hirs

theorem lands_lowerSome {inner : Operand} (range : Span) (hi : inner.Lands w) :
    w.Lands x (lowerSome inner expect range) fun v x' => v.At x' := by
  refine (hi x _ Expect.at_maybe).bind fun v x₁ _ hv => (lands_intern _).bind fun type x₂ hx₂ _ => ?_
  split
  · exact lands_constant _ _
  · refine (lands_passValue _ range (hv.mono hx₂)).bind fun payload x₃ _ hpayload => ?_
    exact lands_aggregate _ _ (by simpa using hpayload)

theorem lands_lowerEach :
    ∀ (items : List Operand) (hints : List Ty) {x : Point}, (∀ o ∈ items, o.Lands w) →
      w.Lands x (lowerEach items hints) fun vs x' => ∀ v ∈ vs, v.At x'
  | [], _, _, _ => by
    unfold lowerEach
    exact .pure fun _ h => by cases h
  | o :: items, hints, x, ho => by
    obtain ⟨ho, hitems⟩ := List.forall_mem_cons.mp ho
    unfold lowerEach
    refine (ho x _ Expect.at_maybe).bind fun v x₁ _ hv => ?_
    refine (lands_lowerEach items (hints.drop 1) hitems).bind fun vs x₂ hx₂ hvs => ?_
    exact .pure (List.forall_mem_cons.mpr ⟨hv.mono hx₂, hvs⟩)

theorem lands_lowerTuple {items : List Operand} (range : Span) (ho : ∀ o ∈ items, o.Lands w) :
    w.Lands x (lowerTuple items expect range) fun v x' => v.At x' := by
  refine (lands_lowerEach items _ ho).bind fun vs x₁ _ hvs => ?_
  refine (lands_intern _).bind fun type x₂ hx₂ _ => ?_
  exact lands_finishAggregate _ _ _ range (at_all_mono hvs hx₂)

theorem lands_lowerItems :
    ∀ (items : List Operand) (element : Option Ty) {x : Point}, (∀ o ∈ items, o.Lands w) →
      w.Lands x (lowerItems items element) fun r x' => ∀ v ∈ r.2, v.At x'
  | [], _, _, _ => by
    unfold lowerItems
    exact .pure fun _ h => by cases h
  | o :: items, element, x, ho => by
    obtain ⟨ho, hitems⟩ := List.forall_mem_cons.mp ho
    have hrest (v : Value) (x' : Point) (hv : v.At x') : w.Lands x' (do
        let r ← lowerItems items (some v.type.value)
        return (r.1, v :: r.2)) fun r x' => ∀ v ∈ r.2, v.At x' := by
      refine (lands_lowerItems items _ hitems).bind fun r x₁ hx₁ hr => ?_
      exact .pure (List.forall_mem_cons.mpr ⟨hv.mono hx₁, hr⟩)
    unfold lowerItems
    refine (ho x _ Expect.at_maybe).bind fun v x₁ _ hv => ?_
    cases element with
    | none => exact hrest v x₁ hv
    | some ty => exact lands_guard fun _ => hrest v x₁ hv

theorem lands_lowerArray {items : List Operand} (range : Span) (ho : ∀ o ∈ items, o.Lands w) :
    w.Lands x (lowerArray items expect range) fun v x' => v.At x' := by
  refine (lands_lowerItems items _ ho).bind fun ⟨element, vs⟩ x₁ _ hvs => ?_
  refine (lands_required _ _ _).bind fun element x₂ hx₂ _ => ?_
  refine (lands_intern _).bind fun type x₃ hx₃ _ => ?_
  exact lands_finishAggregate _ _ _ range (at_all_mono hvs (hx₂.trans hx₃))

/-- A phi joins what two blocks end with. -/
theorem lands_phi {a a' : Ir.Value} {b b' : BlockId} (type : Ty) (range : Span)
    (h : a.Leaves b x) (h' : a'.Leaves b' x) :
    w.Lands x (do
      let r ← compute type (.phi · [(a, b), (a', b')])
      return Value.temporary r type range) fun v x' => v.At x' :=
  lands_temporary _ _ (lands_compute _ (fun _ _ hx =>
    Ir.Instr.at_phi (h.grows hx.toGrows) (h'.grows hx.toGrows)) fun _ => rfl)

theorem lands_lowerIf {condition thenValue elseValue : Operand} (range : Span)
    (hc : condition.Lands w) (ht : thenValue.Lands w) (he : elseValue.Lands w) :
    w.Lands x (lowerIf condition thenValue elseValue expect range) fun v x' => v.At x' := by
  refine (lands_condition hc).bind fun cond x₁ _ hcond => ?_
  split
  · exact lands_operandRvalue ht Expect.at_hint
  · exact lands_operandRvalue he Expect.at_hint
  · refine (lands_newBlock _).bind fun thenBlock x₂ hx₂ ⟨hthen, h₂⟩ => ?_
    refine (lands_newBlock _).bind fun elseBlock x₃ hx₃ ⟨helse, h₃⟩ => ?_
    refine (lands_newBlock _).bind fun endBlock y hy ⟨hend, h₄⟩ => ?_
    -- all three blocks start with what is at hand here
    have hthen := (hthen.carry hx₃ h₃).carry hy h₄
    have helse := helse.carry hy h₄
    have hy₀ := Point.Leads.refl y
    refine (lands_branch (hcond.mono ((hx₂.trans hx₃).trans hy)) (hy₀.reaches hthen)
      (hy₀.reaches helse)).then hy₀ fun _ x hx _ _ => ?_
    refine (arrives_enter hx hthen).bind fun _ x hx _ _ => ?_
    refine (lands_operandRvalue ht Expect.at_hint).then hx fun thenResult x hx _ hthenResult => ?_
    refine lands_currentBlock.then hx fun thenEnd x₅ hx hx₅ hthenEnd => ?_
    have hthenResult : thenResult.ir.Leaves thenEnd x₅ :=
      hthenEnd ▸ (hthenResult.mono hx₅).leaves
    refine (lands_jump (hx.reaches hend)).then hx fun _ x hx hg₆ _ => ?_
    refine (arrives_enter hx helse).bind fun _ x hx hg₇ _ => ?_
    refine (lands_operandRvalue he Expect.at_of).then hx fun elseResult x hx hg₈ helseResult => ?_
    refine lands_guard fun _ => lands_currentBlock.then hx fun elseEnd x₉ hx hx₉ helseEnd => ?_
    have helseResult : elseResult.ir.Leaves elseEnd x₉ :=
      helseEnd ▸ (helseResult.mono hx₉).leaves
    have hthenResult : thenResult.ir.Leaves thenEnd x₉ :=
      hthenResult.grows (((hg₆.toGrows.trans hg₇).trans hg₈.toGrows).trans hx₉.toGrows)
    refine (lands_jump (hx.reaches hend)).then hx fun _ x hx hg₁₀ _ => ?_
    refine (arrives_enter hx hend).bind fun _ x hx hg₁₁ _ => ?_
    have hg := hg₁₀.toGrows.trans hg₁₁
    split
    · exact .pure hx Value.at_void
    · exact (lands_phi _ range (hthenResult.grows hg) (helseResult.grows hg)).arrives hx

/-! ## Operators -/

theorem lands_nativeBinary (op : BinaryOp) {left right : Value} (range : Span)
    (hl : left.At x) (hr : right.At x) :
    w.Lands x (nativeBinary op left right range) fun v x' => v.At x' := by
  refine lands_types.bind fun t x₁ hx₁ _ => (lands_required _ _ _).bind fun class_ x₂ hx₂ _ => ?_
  have hx := hx₁.trans hx₂
  split
  · refine (lands_required _ _ _).bind fun pred x₃ hx₃ _ => ?_
    have hx := hx.trans hx₃
    exact lands_temporary _ _ (lands_compute _ (fun _ _ hx' => Ir.Instr.at_compare _
      (hl.mono (hx.trans hx')) (hr.mono (hx.trans hx'))) fun _ => rfl)
  · refine (lands_required _ _ _).bind fun arith x₃ hx₃ _ => ?_
    have hx := hx.trans hx₃
    exact lands_temporary _ _ (lands_compute _ (fun _ _ hx' => Ir.Instr.at_arith _
      (hl.mono (hx.trans hx')) (hr.mono (hx.trans hx'))) fun _ => rfl)

theorem lands_foldOrCompute (op : BinaryOp) {left right : Value} (range : Span)
    (hl : left.At x) (hr : right.At x) :
    w.Lands x (foldOrCompute op left right range) fun v x' => v.At x' := by
  refine lands_types.bind fun t x₁ hx₁ _ => (lands_orRefuse _ _).bind fun _ x₂ hx₂ _ => ?_
  split
  · refine lands_types.bind fun t x₃ _ _ => (lands_orRefuseFold _ _).bind fun c x₄ _ _ => ?_
    exact lands_constant _ _
  · exact lands_nativeBinary op range (hl.mono (hx₁.trans hx₂)) (hr.mono (hx₁.trans hx₂))

theorem lands_lowerLogical (op : BinaryOp) {lhs rhs : Operand} (range : Span)
    (hl : lhs.Lands w) (hr : rhs.Lands w) :
    w.Lands x (lowerLogical op lhs rhs range) fun v x' => v.At x' := by
  -- the right side in a block of its own, and the phi that joins it with the short cut
  have hrest (y x : Point) (before rhsBlock done : BlockId) (short : Bool) (hx : y.Leads x)
      (hbefore : before < y.state.function.blocks.size) (hrhs : y.Opens rhsBlock y.here)
      (hdone : y.Opens done y.here) : w.Arrives y x (do
        switchTo rhsBlock
        let right ← rhs.condition
        let rhsEnd ← currentBlock
        jump done
        switchTo done
        let r ← compute .bool
          (.phi · [(Ir.Const.bool .bool short, before), (right.ir, rhsEnd)])
        return Value.temporary r .bool range) fun v x' => v.At x' := by
    refine (arrives_enter hx hrhs).bind fun _ x hx _ _ => ?_
    refine (lands_condition hr).then hx fun right x hx _ hright => ?_
    refine lands_currentBlock.then hx fun rhsEnd x₃ hx hx₃ hrhsEnd => ?_
    have hright : right.ir.Leaves rhsEnd x₃ := hrhsEnd ▸ (hright.mono hx₃).leaves
    refine (lands_jump (hx.reaches hdone)).then hx fun _ x hx hg₄ _ => ?_
    refine (arrives_enter hx hdone).bind fun _ x hx hg₅ _ => ?_
    exact (lands_phi _ range ⟨hbefore.trans_le hx.function.blocks, fun _ h => by cases h⟩
      (hright.grows (hg₄.toGrows.trans hg₅))).arrives hx
  refine (lands_condition hl).bind fun left x₁ _ hleft => ?_
  dsimp only
  split
  · split
    · exact lands_constant _ _
    · exact lands_condition hr
  · refine lands_currentBlock.bind fun before x₂ hx₂ hbefore => ?_
    refine (lands_newBlock _).bind fun rhsBlock x₃ hx₃ ⟨hrhs, h₃⟩ => ?_
    refine (lands_newBlock _).bind fun done y hy ⟨hdone, h₄⟩ => ?_
    have hrhs := hrhs.carry hy h₄
    have hbefore : before < y.state.function.blocks.size :=
      hbefore ▸ x₂.current.trans_le (hx₃.trans hy).function.blocks
    have hy₀ := Point.Leads.refl y
    have hleft := hleft.mono ((hx₂.trans hx₃).trans hy)
    split
    · refine (lands_branch hleft (hy₀.reaches hrhs) (hy₀.reaches hdone)).then hy₀
        fun _ x hx _ _ => ?_
      exact hrest y x before rhsBlock done _ hx hbefore hrhs hdone
    · refine (lands_branch hleft (hy₀.reaches hdone) (hy₀.reaches hrhs)).then hy₀
        fun _ x hx _ _ => ?_
      exact hrest y x before rhsBlock done _ hx hbefore hrhs hdone

theorem lands_chooseOperator (op : BinaryOp) (ty : Ty) (left right : Value) (range : Span) :
    w.Lands x (chooseOperator op ty left right range) fun _ _ => True := by
  refine lands_types.bind fun t x₁ _ _ => ?_
  dsimp only
  split
  · exact .pure trivial
  · split
    · exact .pure trivial
    · exact lands_refuse _ _
  · exact lands_refuse _ _

theorem lands_lowerOperatorCall (op : BinaryOp) {left right : Value} (range : Span)
    (hl : left.At x) (hr : right.At x) :
    w.Lands x (lowerOperatorCall op left right range) fun v x' => v.At x' := by
  refine (lands_chooseOperator op _ left right range).bind fun m x₁ hx₁ _ => ?_
  refine (lands_place (hl.mono hx₁)).bind fun self x₂ hx₂ hself => ?_
  refine (lands_passValues range [right] m.argTypes fun v hv =>
    List.mem_singleton.mp hv ▸ hr.mono (hx₁.trans hx₂)).bind fun args x₃ hx₃ hargs => ?_
  exact lands_callMemberOn range (hself.mono hx₃) hargs

theorem lands_byteAt {data position : Ir.Value} (hd : data.At x) (hp : position.At x) :
    w.Lands x (byteAt data position) fun r x' => r ∈ x'.here :=
  (lands_elementPtr _ _ hd hp).bind fun _ _ _ hr => lands_load _ (Ir.Value.at_reg hr)

/-- Two registers are compared, or computed with, where they are at hand. -/
theorem lands_compareRegs (pred : Ir.Pred) {r r' : Register} (h : r ∈ x.here) (h' : r' ∈ x.here) :
    w.Lands x (compute .bool (.compare · pred r r')) fun r x' => r ∈ x'.here :=
  lands_compute _ (fun _ _ hx => Ir.Instr.at_compare _ (Ir.Value.at_reg (hx.here h))
    (Ir.Value.at_reg (hx.here h'))) fun _ => rfl

theorem lands_compareStrings {left right : Ir.Value} (hl : left.At x) (hr : right.At x) :
    w.Lands x (compareStrings left right) fun r x' => r ∈ x'.here := by
  refine (lands_stringParts hl).bind fun ⟨leftData, leftLength⟩ x₁ hx₁ ⟨hld, hll⟩ => ?_
  refine (lands_stringParts (hr.mono hx₁)).bind fun ⟨rightData, rightLength⟩ x₂ hx₂ ⟨hrd, hrl⟩ => ?_
  refine (lands_alloca _ _).bind fun result x₃ hx₃ hresult => ?_
  refine (lands_alloca _ _).bind fun index x₄ hx₄ hindex => ?_
  have hresult := hx₄.here hresult
  refine (lands_store (Ir.Value.at_const _) (Ir.Value.at_reg hresult)).bind fun _ x₅ hx₅ _ => ?_
  refine (lands_store (Ir.Value.at_const _)
    (Ir.Value.at_reg (hx₅.here hindex))).bind fun _ x₆ hx₆ _ => ?_
  refine (lands_newBlock _).bind fun lengthBlock x₇ hx₇ ⟨hlength, h₇⟩ => ?_
  refine (lands_newBlock _).bind fun condBlock x₈ hx₈ ⟨hcond, h₈⟩ => ?_
  refine (lands_newBlock _).bind fun bodyBlock x₉ hx₉ ⟨hbody, h₉⟩ => ?_
  refine (lands_newBlock _).bind fun nextBlock x₁₀ hx₁₀ ⟨hnext, h₁₀⟩ => ?_
  refine (lands_newBlock _).bind fun trueBlock x₁₁ hx₁₁ ⟨htrue, h₁₁⟩ => ?_
  refine (lands_newBlock _).bind fun endBlock y hy ⟨hend, h₁₂⟩ => ?_
  -- all blocks start with what is at hand here: the parts of the strings and both slots
  have htrue := htrue.carry hy h₁₂
  have hnext := (hnext.carry hx₁₁ h₁₁).carry hy h₁₂
  have hbody := ((hbody.carry hx₁₀ h₁₀).carry hx₁₁ h₁₁).carry hy h₁₂
  have hcond := (((hcond.carry hx₉ h₉).carry hx₁₀ h₁₀).carry hx₁₁ h₁₁).carry hy h₁₂
  have hlength := ((((hlength.carry hx₈ h₈).carry hx₉ h₉).carry hx₁₀ h₁₀).carry hx₁₁ h₁₁).carry
    hy h₁₂
  have hx₆ := (((((hx₆.trans hx₇).trans hx₈).trans hx₉).trans hx₁₀).trans hx₁₁).trans hy
  have hx₅ := hx₅.trans hx₆
  have hx₃ := (hx₃.trans hx₄).trans hx₅
  have hx₂ := hx₂.trans hx₃
  have hresult := hx₅.here hresult
  have hindex := hx₅.here hindex
  have hindexAt {x : Point} (hx : y.Leads x) := Ir.Value.at_reg (hx.here hindex)
  have hy₀ := Point.Leads.refl y
  refine (lands_jump (hy₀.reaches hlength)).then hy₀ fun _ x hx _ _ => ?_
  refine (arrives_enter hx hlength).bind fun _ x hx _ _ => ?_
  refine (lands_compareRegs _ (hx.here (hx₂.here hll)) (hx.here (hx₃.here hrl))).then hx
    fun sameLength x hx _ hsame => ?_
  refine (lands_branch (Ir.Value.at_reg hsame) (hx.reaches hcond) (hx.reaches hend)).then hx
    fun _ x hx _ _ => ?_
  refine (arrives_enter hx hcond).bind fun _ x hx _ _ => ?_
  refine (lands_load _ (hindexAt hx)).then hx fun position x hx _ hposition => ?_
  refine (lands_compareRegs _ hposition (hx.here (hx₂.here hll))).then hx
    fun inRange x hx _ hin => ?_
  refine (lands_branch (Ir.Value.at_reg hin) (hx.reaches hbody) (hx.reaches htrue)).then hx
    fun _ x hx _ _ => ?_
  refine (arrives_enter hx hbody).bind fun _ x hx _ _ => ?_
  refine (lands_load _ (hindexAt hx)).then hx fun position x hx _ hposition => ?_
  refine (lands_byteAt (Ir.Value.at_reg (hx.here (hx₂.here hld)))
    (Ir.Value.at_reg hposition)).then hx fun leftByte x hx hx' hleftByte => ?_
  refine (lands_byteAt (Ir.Value.at_reg (hx.here (hx₃.here hrd)))
    (Ir.Value.at_reg (hx'.here hposition))).then hx fun rightByte x hx hx' hrightByte => ?_
  refine (lands_compareRegs _ (hx'.here hleftByte) hrightByte).then hx
    fun sameByte x hx _ hsame => ?_
  refine (lands_branch (Ir.Value.at_reg hsame) (hx.reaches hnext) (hx.reaches hend)).then hx
    fun _ x hx _ _ => ?_
  refine (arrives_enter hx hnext).bind fun _ x hx _ _ => ?_
  refine (lands_load _ (hindexAt hx)).then hx fun position x hx _ hposition => ?_
  refine (lands_compute _ (fun _ _ hx => Ir.Instr.at_arith _ (Ir.Value.at_reg (hx.here hposition))
    (Ir.Value.at_const _)) fun _ => rfl).then hx fun advanced x hx _ hadvanced => ?_
  refine (lands_store (Ir.Value.at_reg hadvanced) (hindexAt hx)).then hx fun _ x hx _ _ => ?_
  refine (lands_jump (hx.reaches hcond)).then hx fun _ x hx _ _ => ?_
  refine (arrives_enter hx htrue).bind fun _ x hx _ _ => ?_
  refine (lands_store (Ir.Value.at_const _) (Ir.Value.at_reg (hx.here hresult))).then hx
    fun _ x hx _ _ => ?_
  refine (lands_jump (hx.reaches hend)).then hx fun _ x hx _ _ => ?_
  refine (arrives_enter hx hend).bind fun _ x hx _ _ => ?_
  exact (lands_load _ (Ir.Value.at_reg (hx.here hresult))).arrives hx

theorem lands_lowerStringEquality (op : BinaryOp) {left right : Value} (range : Span)
    (hl : left.At x) (hr : right.At x) :
    w.Lands x (lowerStringEquality op left right range) fun v x' => v.At x' := by
  unfold lowerStringEquality
  dsimp only
  split
  · exact lands_constant _ _
  · refine (lands_compareStrings hl hr).bind fun equal x₁ _ hequal => ?_
    split
    · exact lands_temporary _ _ (lands_compute _ (fun _ _ hx => Ir.Instr.at_arith _
        (Ir.Value.at_reg (hx.here hequal)) (Ir.Value.at_const _)) fun _ => rfl)
    · exact .pure (Ir.Value.at_reg hequal)

theorem lands_lowerOperands {lhs rhs : Operand} (hl : lhs.Lands w) (hr : rhs.Lands w) :
    w.Lands x (lowerOperands lhs rhs) fun r x' => r.1.At x' ∧ r.2.At x' := by
  unfold lowerOperands
  split
  · refine (hr x _ Expect.at_nothing).bind fun right x₁ _ hright => ?_
    exact (hl x₁ _ Expect.at_of).bind fun left x₂ hx₂ hleft => .pure ⟨hleft, hright.mono hx₂⟩
  · refine (hl x _ Expect.at_nothing).bind fun left x₁ _ hleft => ?_
    exact (hr x₁ _ Expect.at_of).bind fun right x₂ hx₂ hright => .pure ⟨hleft.mono hx₂, hright⟩

theorem lands_lowerBinary (op : BinaryOp) {lhs rhs : Operand} (range : Span)
    (hl : lhs.Lands w) (hr : rhs.Lands w) :
    w.Lands x (lowerBinary op lhs rhs range) fun v x' => v.At x' := by
  unfold lowerBinary
  split
  · exact lands_lowerLogical op range hl hr
  · refine (lands_lowerOperands hl hr).bind fun ⟨left, right⟩ x₁ _ ⟨hleft, hright⟩ => ?_
    refine lands_types.bind fun t x₂ hx₂ _ => lands_types.bind fun t' x₃ hx₃ _ => ?_
    have hleft := hleft.mono (hx₂.trans hx₃)
    have hright := hright.mono (hx₂.trans hx₃)
    split
    · exact lands_lowerOperatorCall op range hleft hright
    · refine (lands_rvalue hleft).bind fun left x₄ hx₄ hleft => ?_
      refine (lands_rvalue (hright.mono hx₄)).bind fun right x₅ hx₅ hright => ?_
      split
      · exact lands_lowerStringEquality op range (hleft.mono hx₅) hright
      · exact lands_foldOrCompute op range (hleft.mono hx₅) hright

theorem at_unaryInstr {t : TypeTable} {op : UnaryOp} {ty : Ty} {operand : Ir.Value}
    {dest : Register} {i : Ir.Instr} (hi : unaryInstr? t op ty operand dest = some i)
    (ho : operand.At x) : i.At x ∧ i.dest? = some dest := by
  unfold unaryInstr? at hi
  split at hi
  · split at hi
    · cases hi
      exact ⟨Ir.Instr.at_of_uses rfl rfl ho, rfl⟩
    · split at hi
      · cases hi
        exact ⟨Ir.Instr.at_arith _ (Ir.Value.at_const _) ho, rfl⟩
      · cases hi
  · split at hi
    · cases hi
      exact ⟨Ir.Instr.at_arith _ ho (Ir.Value.at_const _), rfl⟩
    · cases hi
  · obtain ⟨info, -, rfl⟩ := Option.map_eq_some_iff.mp hi
    exact ⟨Ir.Instr.at_arith _ ho (Ir.Value.at_const _), rfl⟩

theorem lands_unaryOn (op : UnaryOp) (range : Span) (hv : v.At x) :
    w.Lands x (unaryOn op v range) fun v x' => v.At x' := by
  refine lands_types.bind fun t x₁ hx₁ _ => ?_
  split
  · refine (lands_place (hv.mono hx₁)).bind fun self x₂ _ hself => ?_
    exact lands_callMemberOn range hself fun _ h => by cases h
  · refine (lands_rvalue (hv.mono hx₁)).bind fun v x₂ _ hv => ?_
    split
    · refine lands_types.bind fun t x₃ _ _ => (lands_orRefuseFold _ _).bind fun c x₄ _ _ => ?_
      exact lands_constant _ _
    · -- the register is taken before it is known whether there is an instruction
      refine (lands_fresh _).then (.refl x₂) fun r x₃ hx₃ _ ⟨hpending, hnew⟩ => ?_
      refine lands_types.then hx₃ fun t x₄ hx₄ hx₄' _ => ?_
      refine (lands_required _ _ _).then hx₄ fun i x₅ hx₅ hx₅' hi => ?_
      obtain ⟨hat, hdest⟩ := at_unaryInstr hi (hv.mono hx₅)
      refine (arrives_push hx₅ hat fun r' hr' => ?_).bind fun _ x₆ hx₆ _ hdests => ?_
      · cases hdest.symm.trans hr'
        exact ⟨(hx₄'.trans hx₅').pending hpending, hnew⟩
      · exact .pure hx₆ (Ir.Value.at_reg (hdests r hdest))

theorem lands_lowerUnary (view : Viewpoint) (op : UnaryOp) {operand : Operand} (range : Span)
    (ho : operand.Lands w) :
    w.Lands x (lowerUnary view op operand expect range) fun v x' => v.At x' := by
  unfold lowerUnary
  split
  · exact (lands_evaluate view _ _).bind fun c _ _ _ => lands_constant _ _
  · exact (ho x _ Expect.at_hint).bind fun v _ _ hv => lands_unaryOn _ range hv

theorem lands_lowerDeref {operand : Operand} (range : Span) (ho : operand.Lands w) :
    w.Lands x (lowerDeref operand range) fun v x' => v.At x' := by
  refine (lands_operandRvalue ho Expect.at_nothing).bind fun pointer x₁ _ hpointer => ?_
  split
  · exact lands_refuse _ _
  · exact .pure hpointer
  · exact lands_refuse _ _

theorem lands_lowerAddressOf {operand : Operand} (isVar : Bool) (range : Span)
    (ho : operand.Lands w) :
    w.Lands x (lowerAddressOf operand isVar expect range) fun v x' => v.At x' := by
  refine (ho x _ Expect.at_nothing).bind fun v x₁ _ hv => ?_
  refine (lands_placeOf hv).bind fun p x₂ _ hp => ?_
  refine (lands_require _ _ hp).bind fun p x₃ _ hp => lands_guard fun _ => ?_
  split
  · exact lands_guard fun _ => (lands_intern _).bind fun ty x₄ hx₄ _ => .pure (hp.mono hx₄)
  · exact (lands_intern _).bind fun ty x₄ hx₄ _ => .pure (hp.mono hx₄)

/-! ## Conversions and copies -/

theorem lands_convertInt (target : Ty) (hv : v.At x) :
    w.Lands x (convertInt v target) fun v x' => v.At x' := by
  refine lands_types.bind fun t x₁ hx₁ _ => ?_
  split
  · exact .pure (hv.mono hx₁)
  · split
    · split
      · exact lands_constant _ _
      · exact lands_temporary _ _ (lands_castTo _ _ (hv.mono hx₁))
    · exact lands_mismatch _ _ _

theorem lands_castAtRuntime (target : Ty) (range : Span) (hv : v.At x) :
    w.Lands x (castAtRuntime v target range) fun v x' => v.At x' := by
  refine lands_types.bind fun t x₁ hx₁ _ => ?_
  dsimp only
  split
  · refine lands_unless fun _ => ?_
    exact lands_temporary _ _ (lands_compute _ (fun _ _ hx =>
      Ir.Instr.at_compare _ (hv.mono (hx₁.trans hx)) (Ir.Value.at_const _)) fun _ => rfl)
  · split
    · exact lands_refuse _ _
    · refine (lands_required _ _ _).bind fun op x₂ hx₂ _ => ?_
      have hv := hv.mono (hx₁.trans hx₂)
      split
      · refine Backdrop.Lands.bind (Q := fun ir x' => ir.At x') ?_ fun operand x₃ _ hoperand => ?_
        · exact (lands_stringParts hv).bind fun _ _ _ h => .pure (Ir.Value.at_reg h.1)
        · exact lands_temporary _ _ (lands_castTo _ _ hoperand)
      · exact lands_temporary _ _ (lands_castTo _ _ hv)

theorem lands_castValue (view : Viewpoint) (target : Ty) (range : Span) (hv : v.At x) :
    w.Lands x (castValue view v target range) fun v x' => v.At x' := by
  refine lands_types.bind fun t x₁ hx₁ _ => ?_
  dsimp only
  split
  · rename_i m _
    refine (lands_isAccessible view m.vis).bind fun _ x₂ hx₂ _ => lands_unless fun _ => ?_
    refine (lands_place (hv.mono (hx₁.trans hx₂))).bind fun self x₃ _ hself => ?_
    exact lands_callMemberOn range hself fun _ h => by cases h
  · refine (lands_rvalue (hv.mono hx₁)).bind fun v x₂ _ hv => ?_
    split
    · exact .pure hv
    · refine lands_types.bind fun t x₃ hx₃ _ => ?_
      split
      · exact lands_constant _ _
      · exact lands_castAtRuntime target range (hv.mono hx₃)

theorem lands_lowerCast (view : Viewpoint) {value : Operand} (target : TypeExpr) (range : Span)
    (hv : value.Lands w) :
    w.Lands x (lowerCast view value target range) fun v x' => v.At x' := by
  refine (lands_resolveType view target).bind fun ty x₁ _ _ => ?_
  exact (hv x₁ _ Expect.at_nothing).bind fun v _ _ hv => lands_castValue view ty range hv

/-- A member builds a value in memory that is at hand. -/
theorem lands_callInto {m : MemberFunction} {slot : Value} {args : List Ir.Value} (range : Span)
    (hslot : slot.At x) (hargs : ∀ a ∈ args, a.At x) :
    w.Lands x (do
      let _ ← callMember m (some slot.ir) args range
      return slot) fun v x' => v.At x' :=
  (lands_callMemberOn range hslot hargs).bind fun _ _ hx _ => .pure (hslot.mono hx)

theorem lands_buildFrom (kind : MemberKind) {p : Value} (missing : Fault) (range : Span)
    (hp : p.At x) (he : expect.At x) :
    w.Lands x (buildFrom kind p missing expect range) fun v x' => v.At x' := by
  refine lands_types.bind fun t x₁ hx₁ _ => (lands_required _ _ _).bind fun m x₂ hx₂ _ => ?_
  have hx := hx₁.trans hx₂
  refine (lands_targetSlot _ _ (he.mono hx)).bind fun slot x₃ hx₃ hslot => ?_
  exact lands_callInto range hslot fun a ha =>
    List.mem_singleton.mp ha ▸ hp.mono (hx.trans hx₃)

theorem lands_lowerCopy {inner : Operand} (range : Span) (hi : inner.Lands w)
    (he : expect.At x) : w.Lands x (lowerCopy inner expect range) fun v x' => v.At x' := by
  refine (hi x _ Expect.at_hint).bind fun v x₁ hx₁ hv => ?_
  refine (lands_placeOf hv).bind fun p x₂ hx₂ hp => ?_
  split
  · exact .pure (hv.mono hx₂)
  · refine lands_types.bind fun t x₃ hx₃ _ => ?_
    have hp := (hp _ rfl).mono hx₃
    split
    · exact lands_rvalue hp
    · exact lands_buildFrom _ _ range hp (he.mono ((hx₁.trans hx₂).trans hx₃))

theorem lands_warnReset (type : Ty) (range : Span) :
    w.Lands x (warnReset type range) fun _ _ => True :=
  lands_types.bind fun _ _ _ _ => lands_warn _

theorem lands_moveBits {p : Value} (source range : Span) (hp : p.At x) :
    w.Lands x (moveBits p source range) fun v x' => v.At x' := by
  refine (lands_load _ hp).bind fun r x₁ hx₁ hr => lands_types.bind fun t x₂ hx₂ _ => ?_
  have hr := hx₂.here hr
  dsimp only
  split
  · exact .pure (Ir.Value.at_reg hr)
  · refine (lands_store (Ir.Value.at_const _) (hp.mono (hx₁.trans hx₂))).bind fun _ x₃ hx₃ _ => ?_
    refine (lands_warnReset _ _).bind fun _ x₄ hx₄ _ => ?_
    exact .pure (Ir.Value.at_reg (hx₄.here (hx₃.here hr)))

theorem lands_lowerMove {inner : Operand} (range : Span) (hi : inner.Lands w)
    (he : expect.At x) : w.Lands x (lowerMove inner expect range) fun v x' => v.At x' := by
  refine (hi x _ Expect.at_hint).bind fun v x₁ hx₁ hv => ?_
  split
  · exact .pure hv
  · refine (lands_placeOf hv).bind fun p x₂ hx₂ hp => ?_
    split
    · exact .pure (hv.mono hx₂)
    · refine lands_unless fun _ => lands_types.bind fun t x₃ hx₃ _ => ?_
      have hp := (hp _ rfl).mono hx₃
      split
      · exact lands_moveBits _ range hp
      · exact lands_buildFrom _ _ range hp (he.mono ((hx₁.trans hx₂).trans hx₃))

/-! ## New values -/

theorem lands_lowerDefault (view : Viewpoint) (ty : Ty) (range : Span) (he : expect.At x) :
    w.Lands x (lowerDefault view ty expect range) fun v x' => v.At x' := by
  refine lands_types.bind fun t x₁ hx₁ _ => ?_
  split
  · rename_i m _
    refine (lands_isAccessible view m.vis).bind fun _ x₂ hx₂ _ => lands_unless fun _ => ?_
    refine (lands_targetSlot ty range (he.mono (hx₁.trans hx₂))).bind fun slot x₃ _ hslot => ?_
    exact lands_callInto range hslot fun _ h => by cases h
  · refine lands_types.bind fun t x₂ hx₂ _ => ?_
    split
    · exact lands_constant _ _
    · refine lands_types.bind fun t x₃ hx₃ _ => lands_unless fun _ => ?_
      refine (lands_targetSlot ty range (he.mono ((hx₁.trans hx₂).trans hx₃))).bind
        fun slot x₄ _ hslot => ?_
      exact (lands_store (Ir.Value.at_const _) hslot).bind fun _ _ hx _ => .pure (hslot.mono hx)

theorem lands_lowerHinted :
    ∀ (args : List Operand) (hints : List (Option Ty)) {x : Point}, (∀ a ∈ args, a.Lands w) →
      w.Lands x (lowerHinted args hints) fun vs x' => ∀ v ∈ vs, v.At x'
  | [], _, _, _ | _ :: _, [], _, _ => by
    unfold lowerHinted
    exact .pure fun _ h => by cases h
  | a :: args, _ :: hints, x, ha => by
    obtain ⟨ha, hargs⟩ := List.forall_mem_cons.mp ha
    unfold lowerHinted
    refine (ha x _ Expect.at_maybe).bind fun v x₁ _ hv => ?_
    refine (lands_lowerHinted args hints hargs).bind fun vs x₂ hx₂ hvs => ?_
    exact .pure (List.forall_mem_cons.mpr ⟨hv.mono hx₂, hvs⟩)

theorem lands_passEach :
    ∀ (vs : List Value) (tys : List Ty) {x : Point}, (∀ v ∈ vs, v.At x) →
      w.Lands x (passEach vs tys) fun irs x' => ∀ ir ∈ irs, ir.At x'
  | [], _, _, _ | _ :: _, [], _, _ => by
    unfold passEach
    exact .pure fun _ h => by cases h
  | v :: vs, ty :: tys, _, hv => by
    obtain ⟨hv, hvs⟩ := List.forall_mem_cons.mp hv
    unfold passEach
    refine (lands_passValue ty _ hv).bind fun ir x₁ hx₁ hir => ?_
    refine (lands_passEach vs tys (at_all_mono hvs hx₁)).bind fun irs x₂ hx₂ hirs => ?_
    exact .pure (List.forall_mem_cons.mpr ⟨hir.mono hx₂, hirs⟩)

theorem lands_constructPlainly (ty : Ty) {args : List Operand} (range : Span)
    (ha : ∀ a ∈ args, a.Lands w) :
    w.Lands x (constructPlainly ty args range) fun v x' => v.At x' := by
  refine lands_types.bind fun t x₁ _ _ => ?_
  split
  · rename_i only _
    refine (ha only List.mem_cons_self x₁ _ Expect.at_of).bind fun v x₂ _ hv => ?_
    split
    · exact lands_rvalue hv
    · exact lands_refuse _ _
  · exact lands_refuse _ _

theorem lands_construct (view : Viewpoint) (type : Ty) {args : List Operand} (range : Span)
    (ha : ∀ a ∈ args, a.Lands w) (he : expect.At x) :
    w.Lands x (construct view type args expect range) fun v x' => v.At x' := by
  unfold construct
  dsimp only
  split
  · exact lands_lowerDefault view _ range he
  · refine lands_types.bind fun t x₁ hx₁ _ => ?_
    split
    · exact lands_constructPlainly _ range ha
    · refine (lands_lowerHinted args _ ha).bind fun vs x₂ hx₂ hvs => ?_
      refine (lands_required _ _ _).bind fun m x₃ hx₃ _ => ?_
      refine (lands_isAccessible view m.vis).bind fun _ x₄ hx₄ _ => lands_unless fun _ => ?_
      refine (lands_passEach vs m.argTypes (at_all_mono hvs (hx₃.trans hx₄))).bind
        fun operands x₅ hx₅ hoperands => ?_
      have he := he.mono ((((hx₁.trans hx₂).trans hx₃).trans hx₄).trans hx₅)
      refine (lands_targetSlot _ range he).bind fun slot x₆ hx₆ hslot => ?_
      exact lands_callInto range hslot fun a ha => (hoperands a ha).mono hx₆

theorem lands_lowerFields (fieldTypes : List Ty) :
    ∀ (values : List Operand) (order : List Nat) {x : Point}, (∀ o ∈ values, o.Lands w) →
      w.Lands x (lowerFields fieldTypes values order) fun fs x' => ∀ f ∈ fs, f.2.2.At x'
  | [], _, _, _ | _ :: _, [], _, _ => by
    unfold lowerFields
    exact .pure fun _ h => by cases h
  | o :: values, _ :: order, x, ho => by
    obtain ⟨ho, hvalues⟩ := List.forall_mem_cons.mp ho
    unfold lowerFields
    refine (ho x _ Expect.at_of).bind fun v x₁ _ hv => lands_guard fun _ => ?_
    refine (lands_lowerFields fieldTypes values order hvalues).bind fun fs x₂ hx₂ hfs => ?_
    exact .pure (List.forall_mem_cons.mpr ⟨hv.mono hx₂, hfs⟩)

theorem lands_storeFields {slot : Ir.Value} (type : Ty) :
    ∀ (fields : List (Nat × Ty × Value)) {x : Point}, slot.At x → (∀ f ∈ fields, f.2.2.At x) →
      w.Lands x (storeFields slot type fields) fun _ _ => True
  | [], _, _, _ => by
    unfold storeFields
    exact .pure trivial
  | (i, ty, v) :: rest, _, hslot, hfields => by
    obtain ⟨hv, hrest⟩ := List.forall_mem_cons.mp hfields
    unfold storeFields
    refine (lands_passValue ty _ hv).bind fun operand x₁ hx₁ hoperand => ?_
    refine (lands_fieldPtr _ _ _ (hslot.mono hx₁)).bind fun ptr x₂ hx₂ hptr => ?_
    refine (lands_store (hoperand.mono hx₂) (Ir.Value.at_reg hptr)).bind fun _ x₃ hx₃ _ => ?_
    have hx := (hx₁.trans hx₂).trans hx₃
    exact lands_storeFields type rest (hslot.mono hx) fun f hf => (hrest f hf).mono hx

theorem lands_fieldOrder (view : Viewpoint) (ty : Ty) (names : Option (List Ident)) (count : Nat)
    (range : Span) : w.Lands x (fieldOrder view ty names count range) fun _ _ => True :=
  Backdrop.lands_of_ends ((ends_fieldOrder view ty names count range).mono fun _ _ => trivial)

theorem lands_lowerPlain (view : Viewpoint) (type : Ty) (names : Option (List Ident))
    {values : List Operand} (range : Span) (hv : ∀ o ∈ values, o.Lands w) (he : expect.At x) :
    w.Lands x (lowerPlain view type names values expect range) fun v x' => v.At x' := by
  refine (lands_fieldOrder view _ names _ range).bind fun order x₁ hx₁ _ => ?_
  refine lands_types.bind fun t x₂ hx₂ _ => ?_
  refine (lands_lowerFields _ values order hv).bind fun fields x₃ hx₃ hfields => ?_
  refine lands_types.bind fun t x₄ hx₄ _ => ?_
  have he := he.mono (((hx₁.trans hx₂).trans hx₃).trans hx₄)
  dsimp only
  split
  · exact lands_constant _ _
  · refine (lands_targetSlot _ range he).bind fun slot x₅ hx₅ hslot => ?_
    refine (lands_storeFields _ fields hslot fun f hf =>
      (hfields f hf).mono (hx₄.trans hx₅)).bind fun _ x₆ hx₆ _ => ?_
    exact .pure (hslot.mono hx₆)

theorem lands_bareVariant (ty : Ty) (variant : Ident) (range : Span) :
    w.Lands x (bareVariant ty variant range) fun v x' => v.At x' :=
  lands_types.bind fun _ _ _ _ => (lands_orRefuse _ _).bind fun _ _ _ _ => lands_constant _ _

theorem lands_lowerVariant (type : Ty) (variant : Ident) {value : Option Operand} (range : Span)
    (hv : ∀ o, value = some o → o.Lands w) (he : expect.At x) :
    w.Lands x (lowerVariant type variant value expect range) fun v x' => v.At x' := by
  refine lands_types.bind fun t x₁ hx₁ _ => ?_
  dsimp only
  split
  · refine lands_types.bind fun t x₂ _ _ => lands_guard fun _ => ?_
    split
    · exact lands_refuse _ _
    · exact lands_bareVariant _ variant range
  · refine (lands_required _ _ _).bind fun found x₂ hx₂ _ => ?_
    obtain ⟨index, v⟩ := found
    dsimp only
    split
    · exact lands_bareVariant _ variant range
    · exact lands_refuse _ _
    · rename_i payloadType o hvalue
      refine (hv o rfl x₂ _ Expect.at_of).bind fun payload x₃ hx₃ hpayload => ?_
      refine lands_guard fun _ => lands_types.bind fun t x₄ hx₄ _ => ?_
      split
      · refine lands_types.bind fun t x₅ _ _ => (lands_orRefuse _ _).bind fun c x₆ _ _ => ?_
        exact lands_constant _ _
      · refine (lands_passValue _ _ (hpayload.mono hx₄)).bind fun operand x₅ hx₅ hoperand => ?_
        have he := he.mono ((((hx₁.trans hx₂).trans hx₃).trans hx₄).trans hx₅)
        refine (lands_targetSlot _ range he).bind fun slot x₆ hx₆ hslot => ?_
        refine (lands_intern _).bind fun tag x₇ hx₇ _ => ?_
        refine (lands_fieldPtr _ _ _ (hslot.mono hx₇)).bind fun ptr x₈ hx₈ hptr => ?_
        refine (lands_store (Ir.Value.at_const _) (Ir.Value.at_reg hptr)).bind fun _ x₉ hx₉ _ => ?_
        have hslot := hslot.mono ((hx₇.trans hx₈).trans hx₉)
        have hoperand := hoperand.mono (((hx₆.trans hx₇).trans hx₈).trans hx₉)
        refine (lands_fieldPtr _ _ _ hslot).bind fun payloadPtr x₁₀ hx₁₀ hptr => ?_
        refine (lands_store (hoperand.mono hx₁₀) (Ir.Value.at_reg hptr)).bind
          fun _ x₁₁ hx₁₁ _ => ?_
        exact .pure (hslot.mono (hx₁₀.trans hx₁₁))

/-! ## The heap, assembly and futures -/

/-- What has a size has one in bytes. -/
theorem lands_elementSize (element : Ty) (range : Span) :
    w.Lands x (elementSize element range) fun _ _ => True := by
  refine lands_same fun o s _ => ?_
  have hrequire : requireSized element range o s =
      if s.types.isSized element then .ok () s else .error (.fault (.unsized element) range) s := by
    show (if s.types.isSized element = true then pure () else _ : Emit Unit) o s = _
    split <;> rfl
  have htypes : types o s = .ok s.types s := rfl
  unfold elementSize
  rw [bind_apply, hrequire, TypeTable.isSized]
  cases hlayout : s.types.layout? element with
  | none => rfl
  | some layout =>
    rw [Option.isSome_some, if_pos rfl]
    dsimp only
    rw [bind_apply, htypes]
    simp only [TypeTable.sizeInBytes?, hlayout, Option.map_some]
    exact ⟨rfl, rfl, rfl, rfl, trivial⟩

theorem lands_lowerCount {count : Operand} (hc : count.Lands w) :
    w.Lands x (lowerCount count) fun v x' => v.At x' := by
  refine (lands_operandRvalue hc Expect.at_of).bind fun v x₁ _ hv => ?_
  exact lands_types.bind fun t x₂ hx₂ _ => lands_unless fun _ => lands_convertInt _ (hv.mono hx₂)

theorem lands_byteCount {count : Value} (size : Nat) (hc : count.At x) :
    w.Lands x (byteCount count size) fun ir x' => ir.At x' := by
  unfold byteCount
  split
  · exact .pure (Ir.Value.at_const _)
  · exact lands_register (lands_compute _ (fun _ _ hx =>
      Ir.Instr.at_arith _ (Ir.Value.At.mono hc hx) (Ir.Value.at_const _)) fun _ => rfl)

theorem isCertified_ofExternal (name : String) (params : List Ty) (result : Ty)
    (variadic : Bool) : (Ir.Function.ofExternal name params result variadic).IsCertified := by
  have h := Ir.Function.certified_ofSignature name params result
  exact ⟨_, ⟨h.once, h.below, h.first, h.uses, h.ends, h.incoming, h.edges, h.allocas⟩,
    Ir.Function.exactPhis_of_blocks rfl⟩

theorem lands_declareExternal (name : String) (params : List Ty) (result : Ty) (variadic : Bool) :
    w.Lands x (declareExternal name params result variadic) fun _ _ => True := by
  intro o s hs
  have hrun : declareExternal name params result variadic o s =
      .ok (s.ir.declareExternal name params result variadic).2
        { s with ir := (s.ir.declareExternal name params result variadic).1 } := rfl
  rw [hrun]
  obtain ⟨hfunc, hown, added, hadded, hcert⟩ := hs.code
  refine ⟨x, .refl x, .refl x, ⟨hs.outer, hs.frames, hfunc, hown, ?_⟩, trivial⟩
  show ∃ added', (s.ir.declareExternal name params result variadic).1.functions = _ ∧ _
  unfold Ir.Module.declareExternal
  split
  · exact ⟨added, hadded, hcert⟩
  · refine ⟨added.push (.ofExternal name params result variadic), ?_, fun f hf => ?_⟩
    · show s.core.ir.functions.push _ = _
      rw [hadded, Array.push_append]
    · rcases Array.mem_push.mp hf with hf | rfl
      · exact hcert f hf
      · exact ⟨isCertified_ofExternal _ _ _ _, rfl⟩

theorem lands_callAllocator (name : String) (params : List Ty) (result : Ty)
    {args : List Ir.Value} (ha : ∀ a ∈ args, a.At x) :
    w.Lands x (callAllocator name params result args) fun r x' =>
      (result ≠ .void → r ≠ none) ∧ ∀ v, r = some v → v.At x' := by
  refine (lands_declareExternal name params result false).bind fun f x₁ hx₁ _ => ?_
  refine (lands_emitCall result default (fun _ h => by cases h) fun a h =>
    (ha a h).mono hx₁).bind fun v x₂ _ hv => ?_
  refine .pure ⟨fun hresult => ?_, fun v' hv' => ?_⟩
  · rw [if_neg hresult]
    exact Option.some_ne_none _
  · split at hv'
    · cases hv'
    · cases hv'
      exact hv

/-- The functions that give memory have a result. -/
theorem lands_allocate (name : String) (params : List Ty) {args : List Ir.Value}
    (ha : ∀ a ∈ args, a.At x) :
    w.Lands x (allocate name params args) fun ir x' => ir.At x' := by
  have hptr : w.Lands x bytePointer fun ty _ => ty ≠ .void :=
    lands_same fun o s _ => ⟨rfl, rfl, rfl, rfl, fun h => by cases h⟩
  refine hptr.bind fun bytePtr x₁ hx₁ hvoid => ?_
  refine (lands_callAllocator name params bytePtr fun a h => (ha a h).mono hx₁).bind
    fun r x₂ _ ⟨hsome, hr⟩ => ?_
  cases r with
  | none => exact absurd rfl (hsome hvoid)
  | some raw => exact .pure (hr raw rfl)

theorem lands_heapValue {raw : Ir.Value} (element : Ty) {count : Option Ir.Value} (range : Span)
    (hraw : raw.At x) (hc : ∀ n, count = some n → n.At x) :
    w.Lands x (heapValue raw element count range) fun v x' => v.At x' := by
  refine (lands_intern _).bind fun single x₁ hx₁ _ => ?_
  refine (lands_castTo _ _ (hraw.mono hx₁)).bind fun data x₂ hx₂ hdata => ?_
  split
  · exact .pure (Ir.Value.at_reg hdata)
  · refine (lands_intern _).bind fun ty x₃ hx₃ _ => lands_aggregate _ _ ?_
    simp only [List.forall_mem_cons, List.not_mem_nil, false_imp_iff, implies_true, and_true]
    exact ⟨Ir.Value.at_reg (hx₃.here hdata), (hc _ rfl).mono ((hx₁.trans hx₂).trans hx₃)⟩

theorem lands_lowerHeapGet (view : Viewpoint) (type : TypeExpr) {count : Option Operand}
    (range : Span) (hc : ∀ o, count = some o → o.Lands w) :
    w.Lands x (lowerHeapGet view type count range) fun v x' => v.At x' := by
  refine (lands_resolveType view type).bind fun element x₁ _ _ => ?_
  refine (lands_elementSize element _).bind fun size x₂ _ _ => ?_
  split
  · refine (lands_allocate _ _ fun a ha => List.mem_singleton.mp ha ▸ Ir.Value.at_const _).bind
      fun raw x₃ _ hraw => ?_
    exact lands_heapValue _ range hraw fun _ h => by cases h
  · rename_i o
    refine (lands_lowerCount (hc o rfl)).bind fun count x₃ _ hcount => ?_
    refine (lands_byteCount size hcount).bind fun bytes x₄ hx₄ hbytes => ?_
    refine (lands_allocate _ _ fun a ha => List.mem_singleton.mp ha ▸ hbytes).bind
      fun raw x₅ hx₅ hraw => ?_
    exact lands_heapValue _ range hraw fun n hn => by
      cases hn
      exact hcount.mono (hx₄.trans hx₅)

theorem lands_heapData {pointer : Value} (range : Span) (hp : pointer.At x) :
    w.Lands x (heapData pointer range) fun r x' => r.1.At x' := by
  unfold heapData
  split
  · split
    · exact (lands_sliceData _ _ hp).bind fun _ _ _ hr => .pure (Ir.Value.at_reg hr)
    · exact .pure hp
  · exact lands_refuse _ _

theorem lands_lowerHeapPut {pointer : Operand} (range : Span) (hp : pointer.Lands w) :
    w.Lands x (lowerHeapPut pointer range) fun v x' => v.At x' := by
  refine (lands_operandRvalue hp Expect.at_nothing).bind fun v x₁ _ hv => ?_
  refine (lands_heapData _ hv).bind fun ⟨data, _⟩ x₂ _ hdata => ?_
  refine (lands_intern _).bind fun bytePtr x₃ hx₃ _ => ?_
  refine (lands_castTo _ _ (hdata.mono hx₃)).bind fun raw x₄ _ hraw => ?_
  refine (lands_callAllocator _ _ _ fun a ha => ?_).bind fun _ _ _ _ => .pure Value.at_void
  exact List.mem_singleton.mp ha ▸ Ir.Value.at_reg hraw

theorem lands_lowerHeapGrow (view : Viewpoint) (type : TypeExpr) {pointer count : Operand}
    (range : Span) (hp : pointer.Lands w) (hc : count.Lands w) :
    w.Lands x (lowerHeapGrow view type pointer count range) fun v x' => v.At x' := by
  refine (lands_resolveType view type).bind fun element x₁ _ _ => ?_
  refine (lands_elementSize element _).bind fun size x₂ _ _ => ?_
  refine (lands_operandRvalue hp Expect.at_nothing).bind fun v x₃ _ hv => ?_
  refine (lands_heapData _ hv).bind fun ⟨data, sub, slice⟩ x₄ _ hdata => lands_guard fun _ => ?_
  refine (lands_lowerCount hc).bind fun count x₅ hx₅ hcount => ?_
  refine (lands_byteCount size hcount).bind fun bytes x₆ hx₆ hbytes => ?_
  refine (lands_intern _).bind fun bytePtr x₇ hx₇ _ => ?_
  refine (lands_castTo _ _ (hdata.mono ((hx₅.trans hx₆).trans hx₇))).bind
    fun raw x₈ hx₈ hraw => ?_
  refine (lands_allocate _ _ fun a ha => ?_).bind fun grown x₉ hx₉ hgrown => ?_
  · rcases List.mem_cons.mp ha with rfl | ha
    · exact Ir.Value.at_reg hraw
    · exact List.mem_singleton.mp ha ▸ hbytes.mono (hx₇.trans hx₈)
  · refine lands_heapValue _ range hgrown fun n hn => ?_
    cases hn
    exact hcount.mono (((hx₆.trans hx₇).trans hx₈).trans hx₉)

theorem lands_lowerAssemblyArgs :
    ∀ (args : List Operand) {x : Point}, (∀ a ∈ args, a.Lands w) →
      w.Lands x (lowerAssemblyArgs args) fun irs x' => ∀ ir ∈ irs, ir.At x'
  | [], _, _ => by
    unfold lowerAssemblyArgs
    exact .pure fun _ h => by cases h
  | a :: args, _, ha => by
    obtain ⟨ha, hargs⟩ := List.forall_mem_cons.mp ha
    unfold lowerAssemblyArgs
    refine (lands_operandRvalue ha Expect.at_nothing).bind fun v x₁ _ hv => ?_
    refine (lands_requireSized _ _).bind fun _ x₂ hx₂ _ => ?_
    refine (lands_lowerAssemblyArgs args hargs).bind fun irs x₃ hx₃ hirs => ?_
    exact .pure (List.forall_mem_cons.mpr ⟨hv.mono (hx₂.trans hx₃), hirs⟩)

theorem lands_lowerAssembly (view : Viewpoint) (template constraints : String)
    {args : List Operand} (result : TypeExpr) (volatile : Bool) (range : Span)
    (ha : ∀ a ∈ args, a.Lands w) :
    w.Lands x (lowerAssembly view template constraints args result volatile range)
      fun v x' => v.At x' := by
  refine (lands_resolveType view result).bind fun ty x₁ _ _ => ?_
  refine lands_guard fun _ => lands_guard fun _ => ?_
  refine (lands_lowerAssemblyArgs args ha).bind fun operands x₂ _ hoperands => ?_
  split
  · exact (lands_push (Ir.Instr.at_asm hoperands) rfl).bind fun _ _ _ _ => .pure Value.at_void
  · exact lands_temporary _ _ (lands_compute _ (fun _ _ hx =>
      Ir.Instr.at_asm fun a ha => (hoperands a ha).mono hx) fun _ => rfl)

theorem lands_lowerAwait {inner : Operand} (range : Span) (hi : inner.Lands w) :
    w.Lands x (lowerAwait inner range) fun v x' => v.At x' := by
  refine (lands_operandRvalue hi Expect.at_nothing).bind fun future x₁ _ hfuture => ?_
  split
  · refine (lands_intern _).bind fun state x₂ hx₂ _ => ?_
    refine (lands_newBlock _).bind fun poll x₃ hx₃ ⟨hpoll, _⟩ => ?_
    refine (lands_newBlock _).bind fun done y hy ⟨hdone, h₄⟩ => ?_
    have hpoll := hpoll.carry hy h₄
    have hfuture := hfuture.mono ((hx₂.trans hx₃).trans hy)
    have hy₀ := Point.Leads.refl y
    refine (lands_jump (hy₀.reaches hpoll)).then hy₀ fun _ x hx _ _ => ?_
    refine (arrives_enter hx hpoll).bind fun _ x hx _ _ => ?_
    refine (lands_fieldPtr _ _ _ (hfuture.mono hx)).then hx fun flagPtr x hx _ hptr => ?_
    refine (lands_load _ (Ir.Value.at_reg hptr)).then hx fun flag x hx _ hflag => ?_
    refine (lands_branch (Ir.Value.at_reg hflag) (hx.reaches hdone) (hx.reaches hpoll)).then hx
      fun _ x hx _ _ => ?_
    refine (arrives_enter hx hdone).bind fun _ x hx _ _ => ?_
    split
    · exact .pure hx Value.at_void
    · refine (lands_fieldPtr _ _ _ (hfuture.mono hx)).then hx fun resultPtr x hx _ hptr => ?_
      exact (lands_temporary _ _ (lands_load _ (Ir.Value.at_reg hptr))).arrives hx
  · exact lands_refuse _ _

/-! ## Names -/

theorem lands_typeConstant (ty : Ty) : w.Lands x (typeConstant ty) fun _ _ => True :=
  Backdrop.lands_of_ends ((ends_typeConstant ty).mono fun _ _ => trivial)

theorem lands_definedAs (name : QName) (e : ResolveError) (expected : Option Ty) :
    w.Lands x (definedAs name e expected) fun _ _ => True :=
  Backdrop.lands_of_ends ((ends_definedAs name e expected).mono fun _ _ => trivial)

theorem lands_typeMember (view : Viewpoint) {name : QName} (h : name.segments ≠ []) :
    w.Lands x (typeMember view name) fun _ _ => True :=
  Backdrop.lands_of_ends (ends_typeMember view h)

/-- Only a name of several parts is taken for a member of a type. -/
theorem lands_symbolValue (name : QName) (symbol : Symbol) :
    w.Lands x (symbolValue name symbol) fun v x' => v.At x' := by
  unfold symbolValue
  dsimp only
  split
  · exact .pure (Ir.Value.at_const _)
  · exact (lands_intern _).bind fun ty _ _ _ => .pure (Ir.Value.at_const _)
  · exact lands_constant _ _
  · exact (lands_typeConstant _).bind fun c _ _ _ => lands_constant _ _
  · exact lands_refuse _ _
  · exact lands_refuse _ _
  · exact lands_refuse _ _
  · exact lands_refuse _ _

theorem lands_lowerName (view : Viewpoint) (name : QName) (he : expect.At x) :
    w.Lands x (lowerName view name expect) fun v x' => v.At x' := by
  refine (lands_localOf name).bind fun found x₁ hx₁ hfound => ?_
  split
  · exact .pure (at_localValue _ (hfound _ rfl))
  · refine (lands_resolveName view name).bind fun r x₂ hx₂ _ => ?_
    split
    · exact (lands_symbolOf _ _).bind fun symbol _ _ _ => lands_symbolValue name symbol
    · exact lands_refuse _ _
    · split
      · refine (lands_typeMember view (segments_ne_nil ‹_›)).bind fun r x₃ hx₃ _ => ?_
        exact lands_lowerVariant r.1 r.2 _ (fun _ h => by cases h)
          (he.mono ((hx₁.trans hx₂).trans hx₃))
      · exact (lands_definedAs _ _ _).bind fun c _ _ _ => lands_constant _ _

theorem lands_lowerStaticCall (view : Viewpoint) (ty : Ty) (name : Ident) {args : List Operand}
    (range : Span) (ha : ∀ a ∈ args, a.Lands w) (he : expect.At x) :
    w.Lands x (lowerStaticCall view ty name args expect range) fun v x' => v.At x' := by
  unfold lowerStaticCall
  split
  · exact lands_construct view ty range ha he
  · refine lands_types.bind fun t x₁ hx₁ _ => ?_
    split
    · rename_i m hm
      have hkind : m.kind = .static := by
        have h := List.find?_some hm
        rw [Bool.and_eq_true, beq_iff_eq] at h
        exact h.1
      refine (lands_checkMemberAccess view m name).bind fun _ x₂ _ _ => ?_
      refine (lands_lowerArgs _ _ _ range ha).bind fun irs x₃ _ hirs => ?_
      exact lands_callMember range (fun h => by rw [hkind] at h; cases h)
        (fun _ h => by cases h) hirs
    · refine lands_types.bind fun t x₂ hx₂ _ => ?_
      dsimp only
      split
      · exact lands_lowerVariant ty name range
          (fun o h => by cases h; exact ha _ List.mem_cons_self) (he.mono (hx₁.trans hx₂))
      · exact lands_refuse _ _

theorem lands_checkArgCount (f : PrerunFunction) (given : Nat) (range : Span) :
    w.Lands x (checkArgCount f given range) fun _ _ => True :=
  Backdrop.lands_of_ends (ends_checkArgCount f given range)

theorem lands_callSymbol (view : Viewpoint) (name : QName) {symbol : Symbol} {callee : Operand}
    {args : List Operand} (range : Span)
    (hs : ∀ i ty, symbol = .function i ty →
      ∃ result params variadic, ty = .function result params variadic)
    (hc : callee.Lands w) (ha : ∀ a ∈ args, a.Lands w) (he : expect.At x) :
    w.Lands x (callSymbol view name symbol callee args expect range) fun v x' => v.At x' := by
  unfold callSymbol
  split
  · refine (lands_lowerArgs _ _ _ range ha).bind fun irs x₁ _ hirs => ?_
    exact lands_emitCall _ range (fun _ h => by cases h) hirs
  · rename_i i ty hne
    obtain ⟨result, params, variadic, rfl⟩ := hs i ty rfl
    exact absurd rfl (hne result params variadic)
  · refine (lands_checkArgCount _ _ range).bind fun _ x₁ _ _ => ?_
    refine (lands_evaluateEach view _ _).bind fun vs x₂ _ _ => ?_
    exact (lands_callPrerun _ vs range).bind fun c _ _ _ => lands_constant c range
  · exact lands_construct view _ range ha he
  · refine (lands_operandRvalue hc Expect.at_nothing).bind fun f x₁ _ hf => ?_
    exact lands_callValue _ range hf ha
  · exact lands_refuse _ _
  · exact lands_refuse _ _
  · exact lands_refuse _ _
  · exact lands_refuse _ _

theorem lands_callName (view : Viewpoint) (name : QName) {callee : Operand} {args : List Operand}
    (range : Span) (hc : callee.Lands w) (ha : ∀ a ∈ args, a.Lands w) (he : expect.At x) :
    w.Lands x (callName view name callee args expect range) fun v x' => v.At x' := by
  refine (lands_localOf name).bind fun found x₁ hx₁ _ => ?_
  split
  · refine (lands_operandRvalue hc Expect.at_nothing).bind fun f x₂ _ hf => ?_
    exact lands_callValue _ range hf ha
  · refine (lands_resolveName view name).bind fun r x₂ hx₂ _ => ?_
    have he := he.mono (hx₁.trans hx₂)
    split
    · refine (lands_symbolOf _ _).bind fun symbol x₃ hx₃ hsymbol => ?_
      exact lands_callSymbol view name range hsymbol hc ha (he.mono hx₃)
    · exact lands_refuse _ _
    · split
      · refine (lands_typeMember view (segments_ne_nil ‹_›)).bind fun r x₃ hx₃ _ => ?_
        exact lands_lowerStaticCall view r.1 r.2 range ha (he.mono hx₃)
      · exact lands_refuse _ _

theorem lands_lowerCall (view : Viewpoint) {callee : Operand} {args : List Operand}
    (range : Span) (hc : callee.Lands w) (ha : ∀ a ∈ args, a.Lands w) (he : expect.At x) :
    w.Lands x (lowerCall view callee args expect range) fun v x' => v.At x' := by
  unfold lowerCall
  split
  · exact lands_callName view _ range hc ha he
  · refine (lands_operandRvalue hc Expect.at_nothing).bind fun f x₁ _ hf => ?_
    exact lands_callValue _ range hf ha

/-! ## Expressions -/

theorem lands_lowerKnown (view : Viewpoint) (e : Expr) :
    w.Lands x (lowerKnown view e expect) fun v x' => v.At x' :=
  (lands_evaluate view e _).bind fun _ _ _ _ => lands_constant _ _

mutual

theorem lands_lowerExpr (view : Viewpoint) :
    ∀ (e : Expr) (x : Point) (expect : Expect), expect.At x →
      w.Lands x (lowerExpr view e expect) fun v x' => v.At x'
  | .int .., _, _, _ | .float .., _, _, _ | .bool .., _, _, _ | .char .., _, _, _
  | .str .., _, _, _ | .null _, _, _, _ | .none _, _, _, _ | .sizeOf .., _, _, _
  | .typeValue .., _, _, _ => by
    unfold lowerExpr
    exact lands_lowerKnown view _
  | .default range, _, _, he => by
    unfold lowerExpr
    exact (lands_required _ _ _).bind fun ty _ hx _ => lands_lowerDefault view ty range (he.mono hx)
  | .some range inner, _, _, _ => by
    unfold lowerExpr
    exact lands_lowerSome range (lands_lowerExpr view inner)
  | .tuple range items, _, _, _ => by
    unfold lowerExpr
    exact lands_lowerTuple range (lands_operands view items)
  | .array range items, _, _, _ => by
    unfold lowerExpr
    exact lands_lowerArray range (lands_operands view items)
  | .entity _ name, _, _, he => by
    unfold lowerExpr
    exact lands_lowerName view name he
  | .self range, _, _, _ => by
    unfold lowerExpr
    exact lands_selfValue range
  | .selfMember range name, _, _, _ => by
    unfold lowerExpr
    exact (lands_selfValue range).bind fun v _ _ hv => lands_lowerMember view name range hv
  | .member range base name, x, _, _ => by
    unfold lowerExpr
    exact (lands_lowerExpr view base x _ Expect.at_nothing).bind fun v _ _ hv =>
      lands_lowerMember view name range hv
  | .index range base position, _, _, _ => by
    unfold lowerExpr
    exact lands_lowerIndex view range (lands_lowerExpr view base) (lands_lowerExpr view position)
  | .unary range op operand, _, _, _ => by
    unfold lowerExpr
    exact lands_lowerUnary view op range (lands_lowerExpr view operand)
  | .deref range operand, _, _, _ => by
    unfold lowerExpr
    exact lands_lowerDeref range (lands_lowerExpr view operand)
  | .addressOf range target isVar, _, _, _ => by
    unfold lowerExpr
    exact lands_lowerAddressOf isVar range (lands_lowerExpr view target)
  | .copy range inner, _, _, he => by
    unfold lowerExpr
    exact lands_lowerCopy range (lands_lowerExpr view inner) he
  | .move range inner, _, _, he => by
    unfold lowerExpr
    exact lands_lowerMove range (lands_lowerExpr view inner) he
  | .binary range op lhs rhs, _, _, _ => by
    unfold lowerExpr
    exact lands_lowerBinary op range (lands_lowerExpr view lhs) (lands_lowerExpr view rhs)
  | .call range callee args, _, _, he => by
    unfold lowerExpr
    exact lands_lowerCall view range (lands_lowerExpr view callee) (lands_operands view args) he
  | .methodCall range base name args variation, x, _, _ => by
    unfold lowerExpr
    exact (lands_lowerExpr view base x _ Expect.at_nothing).bind fun v _ _ hv =>
      lands_lowerMethodCall view name variation range hv (lands_operands view args)
  | .construct range type args, _, _, he => by
    unfold lowerExpr
    exact (lands_resolveType view type).bind fun ty _ hx _ =>
      lands_construct view ty range (lands_operands view args) (he.mono hx)
  | .plain range type fields values, _, _, he => by
    unfold lowerExpr
    exact (lands_resolveType view type).bind fun ty _ hx _ =>
      lands_lowerPlain view ty fields range (lands_operands view values) (he.mono hx)
  | .variant range type name value, _, _, he => by
    unfold lowerExpr
    exact (lands_resolveType view type).bind fun ty _ hx _ =>
      lands_lowerVariant ty name range (lands_operand? view value) (he.mono hx)
  | .heapGet range type count, _, _, _ => by
    unfold lowerExpr
    exact lands_lowerHeapGet view type range (lands_operand? view count)
  | .heapPut range pointer, _, _, _ => by
    unfold lowerExpr
    exact lands_lowerHeapPut range (lands_lowerExpr view pointer)
  | .heapGrow range type pointer count, _, _, _ => by
    unfold lowerExpr
    exact lands_lowerHeapGrow view type range (lands_lowerExpr view pointer)
      (lands_lowerExpr view count)
  | .cast range value target, _, _, _ => by
    unfold lowerExpr
    exact lands_lowerCast view target range (lands_lowerExpr view value)
  | .await range inner, _, _, _ => by
    unfold lowerExpr
    exact lands_lowerAwait range (lands_lowerExpr view inner)
  | .assembly range template constraints args result volatile, _, _, _ => by
    unfold lowerExpr
    exact lands_lowerAssembly view template constraints result volatile range
      (lands_operands view args)
  | .ifElse range condition thenValue elseValue, _, _, _ => by
    unfold lowerExpr
    exact lands_lowerIf range (lands_lowerExpr view condition) (lands_lowerExpr view thenValue)
      (lands_lowerExpr view elseValue)
  | .todo range message, _, _, _ => by
    unfold lowerExpr
    exact (lands_unfinished message range).bind fun _ _ _ _ => .pure Value.at_void

theorem lands_operands (view : Viewpoint) :
    ∀ (es : List Expr), ∀ o ∈ operands view es, Operand.Lands o w
  | [], _, ho => by cases ho
  | e :: es, o, ho => by
    unfold operands at ho
    rcases List.mem_cons.mp ho with rfl | ho
    · exact lands_lowerExpr view e
    · exact lands_operands view es o ho

theorem lands_operand? (view : Viewpoint) :
    ∀ (e : Option Expr) (o : Operand), operand? view e = some o → Operand.Lands o w
  | none, _, ho => by cases ho
  | some e, o, ho => by
    unfold operand? at ho
    cases ho
    exact lands_lowerExpr view e

end

theorem lands_operand (view : Viewpoint) (e : Expr) : Operand.Lands (operand view e) w :=
  lands_lowerExpr view e

end Emit

end Staged
