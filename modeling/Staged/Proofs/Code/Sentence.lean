/-
  Staged.Proofs.Code.Sentence — the code of bodies.

  The blocks of a loop exist for as long as the loop is entered, so a jump out of it goes
  to a block that exists. The locals of a body are places that exist. By induction on the
  syntax every body writes sound code.
-/

import Staged.Emit.Sentence
import Staged.Proofs.Code.Expr

namespace Staged.Emit

variable {E : Extent} {P : Prop} {v : Value}

def Writes (E : Extent) (a : Emit Unit) : Prop := ∀ P : Prop, Emits E P a fun _ => True

/-! ## Assignments -/

theorem emits_assignedPlace {lhs : Operand} (hl : lhs.Sound E) :
    Emits E P (assignedPlace lhs) (·.Within E) := by
  refine (hl P _ fun _ => Expect.within_nothing).bind fun v => ?_
  refine (emits_placeOf And.right).bind fun p => ?_
  refine (emits_require _ _ fun w hw h => h.2 w hw).bind fun p => ?_
  exact emits_unless fun _ => .pure And.right

theorem mem_membersOf_of_assignMember {t : TypeTable} {ty : Ty} {m : MemberFunction}
    (hm : assignMember? t ty v = some m) : m ∈ t.membersOf ty := by
  unfold assignMember? at hm
  split at hm
  · cases hm
  · exact List.mem_of_find?_eq_some hm

theorem emits_lowerAssign {lhs rhs : Operand} (range : Span) (hl : lhs.Sound E)
    (hr : rhs.Sound E) : Emits E P (lowerAssign lhs rhs range) fun _ => True := by
  refine (emits_assignedPlace hl).bind fun p => ?_
  refine (hr _ _ fun _ => Expect.within_of).bind fun v => emits_guard fun _ => ?_
  refine emits_types.bind fun t => ?_
  split
  · rename_i m hm
    refine (emits_place fun h => h.1.2).bind fun source => ?_
    refine (emits_callMember range (fun h => h.1.2.membersOf (mem_membersOf_of_assignMember hm))
      (fun h w hw => by cases hw; exact h.1.1.1.2)
      fun h a ha => List.mem_singleton.mp ha ▸ h.2).step fun _ => ?_
    exact .pure fun _ => trivial
  · refine (emits_passValue _ _ fun h => h.1.2).bind fun ir => ?_
    exact emits_store fun h => ⟨h.2, h.1.1.1.2⟩

theorem emits_assignByMember (op : BinaryOp) {p : Value} {members : List MemberFunction}
    {rhs : Operand} (range : Span) (hp : P → p.Within E)
    (hm : P → ∀ m ∈ members, m.function < E.functions) (hr : rhs.Sound E) :
    Emits E P (assignByMember op p members rhs range) fun _ => True := by
  refine (hr P _ fun _ => Expect.within_maybe).bind fun v => ?_
  refine (emits_require _ _ fun m h hp =>
    hm hp.1 m (List.mem_of_find?_eq_some h)).bind fun m => ?_
  refine (emits_passValues _ [v] m.argTypes fun h x hx =>
    List.mem_singleton.mp hx ▸ h.1.2).bind fun args => ?_
  refine (emits_callMember range (fun h => h.1.2)
    (fun h w hw => by cases hw; exact hp h.1.1.1) And.right).step fun _ => ?_
  exact .pure fun _ => trivial

theorem emits_lowerOpAssign (op : BinaryOp) {lhs rhs : Operand} (range : Span)
    (hl : lhs.Sound E) (hr : rhs.Sound E) :
    Emits E P (lowerOpAssign op lhs rhs range) fun _ => True := by
  refine (emits_assignedPlace hl).bind fun p => emits_types.bind fun t => ?_
  dsimp only
  split
  · refine emits_assignByMember op range (fun h => h.1.2) (fun h m hm => ?_) hr
    exact h.2.membersOf (List.mem_filter.mp (List.mem_filter.mp hm).1).1
  · refine emits_types.step fun t => emits_guard fun _ => ?_
    refine (emits_rvalue fun h => h.1.2).bind fun current => ?_
    refine (emits_operandRvalue hr fun _ => Expect.within_of).bind fun right => ?_
    refine (emits_foldOrCompute op range (fun h => h.1.2) And.right).bind fun result => ?_
    exact emits_guard fun _ => emits_store fun h => ⟨h.2, h.1.1.1.1.2⟩

/-! ## Locals -/

theorem emits_checkLocalType (name : Ident) (ty : Ty) (range : Span) :
    Emits E P (checkLocalType name ty range) fun _ => True :=
  emits_guard fun _ => emits_requireSized ty range

theorem emits_storeInitial (slot : Ir.Register) (ty : Ty) (range : Span) (hv : P → v.Within E) :
    Emits E P (storeInitial slot v ty range) fun _ => True := by
  unfold storeInitial
  split
  · exact .pure fun _ => trivial
  · refine (emits_passValue ty range hv).bind fun ir => ?_
    exact emits_store fun h => ⟨h.2, Extent.covers_nil⟩

/-- The memory that a local with a declared type is built in. -/
theorem within_ownSlot (slot : Ir.Register) (ty : Ty) (range : Span) :
    (Expect.inSlot (.stored slot ty true .tempSlot range)).Within E :=
  Expect.within_inSlot.mpr Extent.covers_nil

theorem emits_typedLocal (name : Ident) (ty : Ty) {value : Operand} (isVar : Bool) (range : Span)
    (hv : value.Sound E) : Emits E P (typedLocal name ty value isVar range) (·.Within E) := by
  refine (emits_requireSized ty range).step fun _ => (emits_alloca _ _).step fun slot => ?_
  refine (hv P _ fun _ => within_ownSlot _ _ _).bind fun v => ?_
  refine emits_guard fun _ => (emits_checkLocalType name ty range).step fun _ => ?_
  refine (emits_storeInitial slot ty _ And.right).step fun _ => ?_
  exact .pure fun _ => Extent.covers_nil

theorem emits_inferredLocal (name : Ident) {value : Operand} (isVar : Bool) (range : Span)
    (hv : value.Sound E) : Emits E P (inferredLocal name value isVar range) (·.Within E) := by
  refine (hv P _ fun _ => Expect.within_nothing).bind fun v => ?_
  refine (emits_checkLocalType name _ range).step fun _ => ?_
  dsimp only
  split
  · exact .pure And.right
  · refine (emits_alloca _ _).step fun slot => (emits_passValue _ _ And.right).bind fun ir => ?_
    refine (emits_store fun h => ⟨h.2, Extent.covers_nil⟩).step fun _ => ?_
    exact .pure fun _ => Extent.covers_nil

theorem emits_warnEmpty (name : Ident) (ty : Ty) : Emits E P (warnEmpty name ty) fun _ => True :=
  emits_types.step fun _ => emits_warn _

theorem emits_defaultLocal (view : Viewpoint) (name : Ident) (ty : Ty) (isVar : Bool)
    (range : Span) : Emits E P (defaultLocal view name ty isVar range) (·.Within E) := by
  have hrest : Emits E P (do
      let slot ← alloca ty (some name.text)
      let v ← lowerDefault view ty (.inSlot (.stored slot ty true .tempSlot range)) range
      unless v.ir.isReg slot do store (← passValue v ty range) slot
      return heldLocal name slot ty isVar v.known) (·.Within E) := by
    refine (emits_alloca _ _).step fun slot => ?_
    refine (emits_lowerDefault view ty range fun _ => within_ownSlot _ _ _).bind fun v => ?_
    dsimp only
    split
    · exact .pure fun _ => Extent.covers_nil
    · refine (emits_passValue ty range And.right).bind fun ir => ?_
      refine (emits_store fun h => ⟨h.2, Extent.covers_nil⟩).step fun _ => ?_
      exact .pure fun _ => Extent.covers_nil
  refine (emits_checkLocalType name ty range).step fun _ => ?_
  dsimp only
  split
  · exact (emits_warnEmpty name ty).step fun _ => hrest
  · exact hrest

theorem emits_referenceLocal (name : Ident) (declared : Option Ty) {value : Option Operand}
    (isVar : Bool) (range : Span) (hv : ∀ o, value = some o → o.Sound E) :
    Emits E P (referenceLocal name declared value isVar range) (·.Within E) := by
  cases value with
  | none => exact .fails fun _ s => ⟨_, s, rfl⟩
  | some o =>
    have hrest (v : Value) : Emits E (P ∧ v.Within E) (do
        let ty ← intern (.ref v.type.value isVar)
        return ({ name, address := ← passValue v ty o.range, type := ty, isVar, isRef := true } :
          LocalVar)) (·.Within E) :=
      (emits_intern _).step fun ty => (emits_passValue ty _ And.right).bind fun ir =>
        .pure And.right
    unfold referenceLocal
    rw [require, pure_bind]
    refine (hv o rfl P _ fun _ => Expect.within_maybe).bind fun v => ?_
    cases declared with
    | none => exact hrest v
    | some ty => exact emits_guard fun _ => hrest v

theorem emits_resolveTypeOption (view : Viewpoint) (ty : Option TypeExpr) :
    Emits E P (resolveType? view ty) fun _ => True :=
  emits_of_keeps fun _ hw => keeps_resolveTypeOption_open view ty hw

theorem emits_lowerLocal (view : Viewpoint) (name : Ident) (type : Option TypeExpr)
    {value : Option Operand} (isVar isRef : Bool) (range : Span)
    (hv : ∀ o, value = some o → o.Sound E) :
    Emits E P (lowerLocal view name type value isVar isRef range) fun _ => True := by
  refine (emits_resolveTypeOption view type).step fun declared => ?_
  split
  · refine (emits_referenceLocal name declared isVar range hv).bind fun l => ?_
    exact emits_declareLocal And.right
  · cases declared with
    | none =>
      cases value with
      | none => exact emits_refuse _ _
      | some o =>
        refine (emits_inferredLocal name isVar range (hv o rfl)).bind fun l => ?_
        exact emits_declareLocal And.right
    | some ty =>
      refine emits_guard fun _ => ?_
      cases value with
      | none =>
        refine (emits_defaultLocal view name ty isVar range).bind fun l => ?_
        exact emits_declareLocal And.right
      | some o =>
        refine (emits_typedLocal name ty isVar range (hv o rfl)).bind fun l => ?_
        exact emits_declareLocal And.right

/-! ## Loops -/

theorem enterLoop_ok {tag : Option Ident} {breakTo continueTo : Ir.BlockId} {o : Options}
    {s s' : Compiler} {u : Unit} (h : enterLoop tag breakTo continueTo o s = .ok u s') :
    ∃ f, s.func = some f ∧
      s' = { s with func := some { f with loops := ⟨breakTo, continueTo, tag⟩ :: f.loops } } := by
  obtain ⟨f, t, hf, hr⟩ := bind_ok h
  obtain ⟨hf, rfl⟩ := function_ok hf
  refine ⟨f, hf, ?_⟩
  cases tag with
  | none =>
    cases hr
    rfl
  | some tag =>
    dsimp only at hr
    cases htag : (f.loopTagged? tag.text).bind LoopTargets.tag with
    | some existing =>
      rw [htag] at hr
      cases hr
    | none =>
      rw [htag] at hr
      cases hr
      rfl

theorem emits_enterLoop (tag : Option Ident) {breakTo continueTo : Ir.BlockId}
    (h : P → breakTo < E.blocks ∧ continueTo < E.blocks) :
    Emits E P (enterLoop tag breakTo continueTo) fun _ => True := by
  refine emits_update (fun f => { f with loops := ⟨breakTo, continueTo, tag⟩ :: f.loops })
    (fun _ => ()) (fun o s u s' hr => ?_) (fun f => ⟨rfl, rfl, rfl, Nat.le_refl _⟩)
    fun f hp hf _ => ?_
  · obtain ⟨f, hf, rfl⟩ := enterLoop_ok hr
    exact ⟨f, hf, rfl, rfl⟩
  · refine ⟨{ hf with loops := fun l hl => ?_ }, trivial⟩
    rcases List.mem_cons.mp hl with rfl | hl
    · exact h hp
    · exact hf.loops l hl

theorem emits_exitLoop : Emits E P exitLoop fun _ => True := by
  refine emits_update (fun f => { f with loops := f.loops.drop 1 }) (fun _ => ())
    (fun o s u s' h => ?_) (fun f => ⟨rfl, rfl, rfl, Nat.le_refl _⟩)
    fun f _ hf _ => ⟨{ hf with loops := fun l hl => hf.loops l (List.mem_of_mem_drop hl) }, trivial⟩
  obtain ⟨f, t, hf, hr⟩ := bind_ok h
  obtain ⟨hf, rfl⟩ := function_ok hf
  cases hr
  exact ⟨f, hf, rfl, rfl⟩

theorem emits_declareLocals :
    ∀ vs : List LocalVar, (P → ∀ v ∈ vs, v.Within E) →
      Emits E P (declareLocals vs) fun _ => True
  | [], _ => by
    unfold declareLocals
    exact .pure fun _ => trivial
  | v :: vs, hv => by
    unfold declareLocals
    refine (emits_declareLocal fun hp => hv hp v List.mem_cons_self).step fun _ => ?_
    exact emits_declareLocals vs fun hp w hw => hv hp w (List.mem_cons_of_mem v hw)

theorem emits_loopBody (tag : Option Ident) {breakTo continueTo : Ir.BlockId}
    {locals : List LocalVar} {body : Emit Unit}
    (h : P → breakTo < E.blocks ∧ continueTo < E.blocks)
    (hl : P → ∀ v ∈ locals, v.Within E) (hb : Writes E body) :
    Emits E P (loopBody tag breakTo continueTo locals body) fun _ => True := by
  refine (emits_enterLoop tag h).step fun _ => ?_
  refine (emits_inScope ((emits_declareLocals locals hl).step fun _ => hb _)).step fun _ => ?_
  exact emits_exitLoop

theorem emits_lowerWhile {condition : Operand} {body : Emit Unit} (tag : Option Ident)
    (hc : condition.Sound E) (hb : Writes E body) :
    Emits E P (lowerWhile condition body tag) fun _ => True := by
  refine (emits_newBlock _).bind fun condBlock => (emits_newBlock _).bind fun bodyBlock =>
    (emits_newBlock _).bind fun endBlock => ?_
  refine (emits_jump fun h => h.1.1.2).step fun _ => (emits_switchTo _).step fun _ => ?_
  refine (emits_condition hc).bind fun cond => ?_
  refine (emits_branch fun h => ⟨h.2, h.1.1.2, h.1.2⟩).step fun _ => ?_
  refine (emits_switchTo _).step fun _ => ?_
  refine (emits_loopBody tag (fun h => ⟨h.1.2, h.1.1.1.2⟩) (fun _ _ h => by cases h) hb).step
    fun _ => ?_
  exact (emits_jump fun h => h.1.1.1.2).step fun _ => emits_switchTo _

theorem emits_lowerLoop {body : Emit Unit} (tag : Option Ident) (hb : Writes E body) :
    Emits E P (lowerLoop body tag) fun _ => True := by
  refine (emits_newBlock _).bind fun bodyBlock => (emits_newBlock _).bind fun endBlock => ?_
  refine (emits_jump fun h => h.1.2).step fun _ => (emits_switchTo _).step fun _ => ?_
  refine (emits_loopBody tag (fun h => ⟨h.2, h.1.2⟩) (fun _ _ h => by cases h) hb).step
    fun _ => ?_
  exact (emits_jump fun h => h.1.2).step fun _ => emits_switchTo _

theorem emits_countedLoop (type : Ty) (index : Option Ident) {body : Emit Unit}
    (tag : Option Ident) {holds : Ir.Value → Emit Ir.Register}
    {locals : Ir.Value → Emit (List LocalVar)} (hb : Writes E body)
    (hh : ∀ r : Ir.Register, Emits E P (holds r) fun _ => True)
    (hl : ∀ r : Ir.Register, Emits E P (locals r) fun vs => ∀ v ∈ vs, v.Within E) :
    Emits E P (countedLoop type index body tag holds locals) fun _ => True := by
  have hnil : E.Covers [] := Extent.covers_nil
  refine (emits_alloca _ _).step fun slot => ?_
  refine (emits_store fun _ => ⟨hnil, hnil⟩).step fun _ => ?_
  refine (emits_newBlock _).bind fun condBlock => (emits_newBlock _).bind fun bodyBlock =>
    (emits_newBlock _).bind fun incrBlock => (emits_newBlock _).bind fun restBlock => ?_
  refine Emits.of (P := P ∧ condBlock < E.blocks ∧ bodyBlock < E.blocks ∧ incrBlock < E.blocks ∧
    restBlock < E.blocks) ?_ fun ⟨⟨⟨⟨hp, h1⟩, h2⟩, h3⟩, h4⟩ => ⟨hp, h1, h2, h3, h4⟩
  refine (emits_jump fun h => h.2.1).step fun _ => (emits_switchTo _).step fun _ => ?_
  refine (emits_load _ fun _ => hnil).step fun counter => ?_
  refine ((hh counter).of And.left).step fun cond => ?_
  refine (emits_branch fun ⟨_, _, hbody, _, hrest⟩ => ⟨hnil, hbody, hrest⟩).step fun _ => ?_
  refine (emits_switchTo _).step fun _ => (emits_load _ fun _ => hnil).step fun counter => ?_
  refine ((hl counter).of And.left).bind fun locals => ?_
  refine (emits_loopBody tag (fun ⟨⟨_, _, _, hincr, hrest⟩, _⟩ => ⟨hrest, hincr⟩)
    (fun h v hv => ?_) hb).step fun _ => ?_
  · rcases List.mem_append.mp hv with hv | hv
    · exact h.2 v hv
    · obtain ⟨name, -, rfl⟩ := List.mem_map.mp hv
      exact hnil
  · refine (emits_jump fun h => h.1.2.2.2.1).step fun _ => (emits_switchTo _).step fun _ => ?_
    refine (emits_load _ fun _ => hnil).step fun counter => ?_
    refine (emits_compute _ fun _ _ => hnil).step fun next => ?_
    refine (emits_store fun _ => ⟨hnil, hnil⟩).step fun _ => ?_
    exact (emits_jump fun h => h.1.2.1).step fun _ => emits_switchTo _

theorem emits_lowerTimes {count : Operand} (index : Option Ident) {body : Emit Unit}
    (tag : Option Ident) (hc : count.Sound E) (hb : Writes E body) :
    Emits E P (lowerTimes count index body tag) fun _ => True := by
  refine (emits_operandRvalue hc fun _ => Expect.within_of).bind fun total => ?_
  refine emits_types.step fun t => (emits_required _ _ _).step fun info => ?_
  refine emits_countedLoop _ index tag hb (fun r => ?_) fun r => .pure fun _ _ h => by cases h
  exact emits_compute _ fun h _ => h.2

def Sequence.Within (s : Sequence) (E : Extent) : Prop :=
  E.Covers s.base.refs ∧ ∀ n, s.length = some n → E.Covers n.refs

theorem emits_storedSequence (element : Ty) (length : Nat) (hv : P → v.Within E) :
    Emits E P (storedSequence v element length) (·.Within E) :=
  (emits_place hv).bind fun _ => .pure fun h =>
    ⟨h.2, fun n hn => by cases hn; exact Extent.covers_nil⟩

theorem emits_sequenceOf (range : Span) (hv : P → v.Within E) :
    Emits E P (sequenceOf v range) (·.Within E) := by
  unfold sequenceOf
  split
  · exact emits_storedSequence _ _ hv
  · exact emits_storedSequence _ _ hv
  · refine (emits_rvalue hv).bind fun slice => (emits_sliceData _ _ And.right).step fun data => ?_
    refine (emits_compute _ fun h _ => h.2).step fun length => .pure fun _ => ?_
    exact ⟨Extent.covers_nil, fun n hn => by cases hn; exact Extent.covers_nil⟩
  · refine (emits_rvalue hv).bind fun text => (emits_stringParts And.right).step fun parts => ?_
    refine .pure fun _ => ?_
    exact ⟨Extent.covers_nil, fun n hn => by cases hn; exact Extent.covers_nil⟩
  · exact (emits_rvalue hv).bind fun pointer => .pure fun h => ⟨h.2, fun _ hn => by cases hn⟩
  · exact emits_refuse _ _

theorem emits_hasElement {s : Sequence} (counter : Ir.Register) (hs : P → s.Within E) :
    Emits E P (hasElement s counter) fun _ => True := by
  refine (emits_fresh _).step fun r => ?_
  dsimp only
  split
  · rename_i length hlength
    refine (emits_push fun hp => ?_).step fun _ => .pure fun _ => trivial
    exact (hs hp).2 length hlength
  · refine (emits_elementPtr _ _ fun hp => ⟨(hs hp).1, Extent.covers_nil⟩).step fun ptr => ?_
    refine (emits_load _ fun _ => Extent.covers_nil).step fun byte => ?_
    exact (emits_push fun _ => Extent.covers_nil).step fun _ => .pure fun _ => trivial

theorem emits_lowerForIn {iterable : Operand} (item : Ident) (index : Option Ident)
    {body : Emit Unit} (tag : Option Ident) (hi : iterable.Sound E) (hb : Writes E body) :
    Emits E P (lowerForIn iterable item index body tag) fun _ => True := by
  refine (hi P _ fun _ => Expect.within_nothing).bind fun v => ?_
  refine (emits_sequenceOf _ And.right).bind fun s => (emits_intern _).step fun itemType => ?_
  refine emits_countedLoop _ index tag hb (fun r => emits_hasElement r And.right) fun r => ?_
  refine (emits_elementPtr _ _ fun h => ⟨h.2.1, Extent.covers_nil⟩).step fun ptr => ?_
  refine .pure fun _ v hv => ?_
  rw [List.mem_singleton.mp hv]
  exact Extent.covers_nil

/-! ## Bodies -/

theorem emits_function : Emits E P function (·.Sound E) :=
  emits_same fun _ _ _ _ h => by
    obtain ⟨hf, rfl⟩ := function_ok h
    exact ⟨rfl, rfl, fun _ _ hs => hs.func _ hf⟩

theorem mem_of_loopFor {f : FunctionState} {tag : Option Ident} {l : LoopTargets}
    (h : f.loopFor? tag = some l) : l ∈ f.loops := by
  cases tag with
  | none => exact List.mem_of_head? h
  | some t => exact List.mem_of_find?_eq_some h

theorem emits_lowerJump (tag : Option Ident) (word : String) {target : LoopTargets → Ir.BlockId}
    (range : Span) (ht : target = LoopTargets.breakTo ∨ target = LoopTargets.continueTo) :
    Emits E P (lowerJump tag word target range) fun _ => True := by
  refine emits_function.bind fun f => ?_
  split
  · rename_i l hl
    refine emits_jump fun h => ?_
    have hloop := h.2.loops l (mem_of_loopFor hl)
    rcases ht with rfl | rfl
    · exact hloop.1
    · exact hloop.2
  · exact emits_refuse _ _
  · exact emits_refuse _ _

theorem emits_lowerGive {value : Option Operand} (range : Span)
    (hv : ∀ o, value = some o → o.Sound E) :
    Emits E P (lowerGive value range) fun _ => True := by
  refine emits_function.step fun f => ?_
  dsimp only
  split
  · refine emits_guard fun _ => emits_terminate fun _ => ⟨Extent.covers_nil, fun _ h => by cases h⟩
  · rename_i o
    refine emits_guard fun _ => (hv o rfl P _ fun _ => Expect.within_of).bind fun v => ?_
    refine emits_guard fun _ => (emits_passValue _ _ And.right).bind fun ir => ?_
    exact emits_terminate fun h => ⟨h.2, fun _ h => by cases h⟩

theorem emits_lowerBranch {condition : Operand} {body rest : Emit Unit} {endBlock : Ir.BlockId}
    (hend : P → endBlock < E.blocks) (hc : condition.Sound E) (hb : Writes E body)
    (hr : Emits E P rest fun _ => True) :
    Emits E P (lowerBranch condition body endBlock rest) fun _ => True := by
  refine (emits_condition hc).bind fun cond => ?_
  split
  · refine (emits_inScope (hb _)).step fun _ => ?_
    exact (emits_jump fun h => hend h.1).step fun _ => emits_switchTo _
  · exact hr.of And.left
  · refine (emits_newBlock _).bind fun thenBlock => (emits_newBlock _).bind fun nextBlock => ?_
    refine (emits_branch fun h => ⟨h.1.1.2, h.1.2, h.2⟩).step fun _ => ?_
    refine (emits_switchTo _).step fun _ => (emits_inScope (hb _)).step fun _ => ?_
    refine (emits_jump fun h => hend h.1.1.1).step fun _ => (emits_switchTo _).step fun _ => ?_
    exact hr.of fun h => h.1.1.1

theorem emits_isClosed : Emits E P isClosed fun _ => True :=
  emits_same fun _ s _ _ h => by
    unfold isClosed at h
    obtain ⟨t, t', ht, hr⟩ := bind_ok h
    cases ht
    cases hf : s.func with
    | none =>
      simp only [hf] at hr
      cases hr
      exact ⟨rfl, rfl, fun _ _ _ => trivial⟩
    | some f =>
      simp only [hf] at hr
      cases hr
      exact ⟨rfl, rfl, fun _ _ _ => trivial⟩

theorem sound_map (view : Viewpoint) (e : Option Expr) (o : Operand)
    (ho : e.map (operand view) = some o) : o.Sound E := by
  obtain ⟨e, -, rfl⟩ := Option.map_eq_some_iff.mp ho
  exact sound_operand view e

mutual

theorem writes_lowerSentences (view : Viewpoint) :
    ∀ ss : List Sentence, Writes E (lowerSentences view ss)
  | [], P => by
    unfold lowerSentences
    exact .pure fun _ => trivial
  | s :: ss, P => by
    unfold lowerSentences
    refine emits_isClosed.step fun closed => ?_
    split
    · exact .pure fun _ => trivial
    · exact (writes_lowerSentence view s P).step fun _ => writes_lowerSentences view ss P

theorem writes_lowerSentence (view : Viewpoint) : ∀ s : Sentence, Writes E (lowerSentence view s)
  | .localVar range name type value isVar isRef, P => by
    unfold lowerSentence
    exact emits_lowerLocal view name type isVar isRef range (sound_map view value)
  | .assign range lhs rhs, P => by
    unfold lowerSentence
    exact emits_lowerAssign range (sound_operand view lhs) (sound_operand view rhs)
  | .opAssign range op lhs rhs, P => by
    unfold lowerSentence
    exact emits_lowerOpAssign op range (sound_operand view lhs) (sound_operand view rhs)
  | .expr _ e, P => by
    unfold lowerSentence
    exact (sound_lowerExpr view e P _ fun _ => Expect.within_nothing).step fun _ =>
      .pure fun _ => trivial
  | .cond _ branches none, P => by
    unfold lowerSentence
    refine (emits_newBlock _).bind fun endBlock => ?_
    refine emits_lowerBranches view branches _ And.right ?_
    refine Emits.step (Q := fun _ => True) (.pure fun _ => trivial) fun _ => ?_
    exact (emits_jump And.right).step fun _ => emits_switchTo _
  | .cond _ branches (some body), P => by
    unfold lowerSentence
    refine (emits_newBlock _).bind fun endBlock => ?_
    refine emits_lowerBranches view branches _ And.right ?_
    refine (emits_inScope (writes_lowerSentences view body _)).step fun _ => ?_
    exact (emits_jump And.right).step fun _ => emits_switchTo _
  | .whileDo _ condition body tag, P => by
    unfold lowerSentence
    exact emits_lowerWhile tag (sound_operand view condition) (writes_lowerSentences view body)
  | .times _ count index body tag, P => by
    unfold lowerSentence
    exact emits_lowerTimes index tag (sound_operand view count) (writes_lowerSentences view body)
  | .loop _ body tag, P => by
    unfold lowerSentence
    exact emits_lowerLoop tag (writes_lowerSentences view body)
  | .forIn _ iterable item index body tag, P => by
    unfold lowerSentence
    exact emits_lowerForIn item index tag (sound_operand view iterable)
      (writes_lowerSentences view body)
  | .breakLoop range tag, P => by
    unfold lowerSentence
    exact emits_lowerJump tag _ range (.inl rfl)
  | .continueLoop range tag, P => by
    unfold lowerSentence
    exact emits_lowerJump tag _ range (.inr rfl)
  | .give range value, P => by
    unfold lowerSentence
    exact emits_lowerGive range (sound_map view value)
  | .block _ body, P => by
    unfold lowerSentence
    exact emits_inScope (writes_lowerSentences view body P)
  | .todo range message, P => by
    unfold lowerSentence
    exact emits_unfinished message range

theorem emits_lowerBranches (view : Viewpoint) {endBlock : Ir.BlockId} {otherwise : Emit Unit} :
    ∀ (bs : List Branch) (P : Prop), (P → endBlock < E.blocks) →
      Emits E P otherwise (fun _ => True) →
      Emits E P (lowerBranches view endBlock bs otherwise) fun _ => True
  | [], _, _, ho => by
    unfold lowerBranches
    exact ho
  | .mk condition body :: bs, P, hend, ho => by
    unfold lowerBranches
    exact emits_lowerBranch hend (sound_operand view condition) (writes_lowerSentences view body)
      (emits_lowerBranches view bs P hend ho)

end

end Staged.Emit
