/-
  Staged.Proofs.Typing.Sentence — sentences keep locals typed and calls fitting.

  A local is declared at an address of a value of its type, or, if it is a reference, at an
  address that is like one. What is known of it is what is known of the value it starts
  with.
-/

import Staged.Emit.Sentence
import Staged.Proofs.Typing.Expr

namespace Staged.Emit

variable {b : Basis} {v : Value} {value : Option Operand}

/-! ## Locals -/

theorem typed_heldLocal {t : TypeTable} (name : Ident) {address : Ir.Value} {type : Ty}
    (isVar : Bool) {known : Option Constant} (ha : address.type.target? = some type)
    (hk : ∀ c, known = some c → c.type = type ∧ c.Solid t) :
    (heldLocal name address type isVar known).Typed t := by
  refine ⟨fun h => (by cases h), fun _ => ha, fun c hc => ?_⟩
  unfold heldLocal at hc
  dsimp only at hc
  split at hc
  · cases hc
  · exact hk c hc

theorem ends_checkLocalType (name : Ident) (ty : Ty) (range : Span) :
    b.Ends (checkLocalType name ty range) fun _ => True :=
  ends_guard fun _ => (ends_requireSized ty range).mono fun _ _ => trivial

theorem ends_storeInitial (slot : Ir.Register) (ty : Ty) (range : Span) (hv : v.Typed b.table) :
    b.Ends (storeInitial slot v ty range) fun _ => True := by
  unfold storeInitial
  split
  · exact .pure trivial
  · exact (ends_passValue ty range hv).bind fun _ _ => ends_store _ _

theorem ends_typedLocal (name : Ident) (ty : Ty) {value : Operand} (isVar : Bool) (range : Span)
    (ho : value.Typed b) :
    b.Ends (typedLocal name ty value isVar range) (·.Typed b.table) := by
  refine (ends_requireSized ty range).bind fun _ _ => (ends_alloca ty _).bind fun slot hslot => ?_
  have htarget : (Ir.Value.reg slot).type.target? = some ty := congrArg Ty.target? hslot
  refine (ho _ (Expect.typed_inSlot (Value.typed_stored (by decide) htarget) rfl)).bind
    fun v hv => ends_guard fun hty => (ends_checkLocalType name ty range).bind fun _ _ =>
      (ends_storeInitial slot ty value.range hv).bind fun _ _ =>
        .pure (typed_heldLocal name isVar htarget fun c hc => ?_)
  obtain ⟨htype, hsolid⟩ := hv.fixed hc
  exact ⟨htype.trans (not_not.mp hty), hsolid⟩

theorem ends_inferredLocal (name : Ident) {value : Operand} (isVar : Bool) (range : Span)
    (ho : value.Typed b) :
    b.Ends (inferredLocal name value isVar range) (·.Typed b.table) := by
  refine (ho _ Expect.typed_nothing).bind fun v hv =>
    (ends_checkLocalType name _ range).bind fun _ _ => ?_
  have hdone (address : Ir.Value) (ha : address.type.target? = some v.type.value) :
      b.Ends (pure (heldLocal name address v.type.value isVar v.fixed?)) (·.Typed b.table) :=
    .pure (typed_heldLocal name isVar ha fun _ hc => hv.fixed hc)
  dsimp only
  split
  · rename_i hslot
    rw [Bool.and_eq_true] at hslot
    refine hdone _ ?_
    have hstored : v.isTemporary = false := by
      have hstorage := hslot.1
      unfold Value.isTempSlot at hstorage
      unfold Value.isTemporary
      rw [eq_of_beq hstorage]
      rfl
    rw [hv.stored hstored]
    cases hty : v.type with
    | ref sub isVar =>
      rw [hty] at hslot
      cases hslot.2
    | _ => rfl
  · exact (ends_alloca _ _).bind fun slot hslot => (ends_passValue _ _ hv).bind fun _ _ =>
      (ends_store _ _).bind fun _ _ => hdone _ (congrArg Ty.target? hslot)

theorem ends_warnEmpty (name : Ident) (ty : Ty) : b.Ends (warnEmpty name ty) fun _ => True :=
  ends_types.bind fun _ _ => ends_warn _

theorem ends_defaultLocal (view : Viewpoint) (name : Ident) (ty : Ty) (isVar : Bool)
    (range : Span) : b.Ends (defaultLocal view name ty isVar range) (·.Typed b.table) := by
  have hrest : b.Ends (do
      let slot ← alloca ty (some name.text)
      let v ← lowerDefault view ty (.inSlot (.stored slot ty true .tempSlot range)) range
      unless v.ir.isReg slot do store (← passValue v ty range) slot
      return heldLocal name slot ty isVar v.known) (·.Typed b.table) := by
    refine (ends_alloca ty _).bind fun slot hslot => ?_
    have htarget : (Ir.Value.reg slot).type.target? = some ty := congrArg Ty.target? hslot
    refine (ends_lowerDefault view ty range
      (Expect.typed_inSlot (Value.typed_stored (by decide) htarget) rfl)).bind fun v ⟨hv, hty⟩ => ?_
    have hdone : b.Ends (pure (heldLocal name slot ty isVar v.known)) (·.Typed b.table) :=
      .pure (typed_heldLocal name isVar htarget fun c hc => hty ▸ hv.known c hc)
    dsimp only
    split
    · exact hdone
    · exact (ends_passValue ty range hv).bind fun _ _ => (ends_store _ _).bind fun _ _ => hdone
  refine (ends_checkLocalType name ty range).bind fun _ _ => ?_
  dsimp only
  split
  · exact (ends_warnEmpty name ty).bind fun _ _ => hrest
  · exact hrest

theorem ends_referenceLocal (name : Ident) (declared : Option Ty) (isVar : Bool) (range : Span)
    (hv : ∀ o, value = some o → o.Typed b) :
    b.Ends (referenceLocal name declared value isVar range) (·.Typed b.table) := by
  refine (ends_require _ _ fun o ho => ho).bind fun o ho =>
    (hv o ho _ Expect.typed_maybe).bind fun v hv => ?_
  have hrest : b.Ends (do
      let ty ← intern (.ref v.type.value isVar)
      return ({ name, address := ← passValue v ty o.range, type := ty, isVar, isRef := true } :
        LocalVar)) (·.Typed b.table) :=
    (ends_intern _).bind fun ty _ => (ends_passValue ty o.range hv).bind fun _ hir =>
      .pure ⟨fun _ => hir, fun h => (by cases h), fun _ hc => by cases hc⟩
  dsimp only
  split
  · exact ends_guard fun _ => hrest
  · exact hrest

theorem ends_lowerLocal (view : Viewpoint) (name : Ident) (type : Option TypeExpr)
    (isVar isRef : Bool) (range : Span) (hv : ∀ o, value = some o → o.Typed b) :
    b.Ends (lowerLocal view name type value isVar isRef range) fun _ => True := by
  refine (ends_resolveTypeOption view type).bind fun declared _ => ?_
  have hdeclare {a : Emit LocalVar} (ha : b.Ends a (·.Typed b.table)) :
      b.Ends (do declareLocal (← a)) fun _ => True := ha.bind fun _ hl => ends_declareLocal hl
  split
  · exact hdeclare (ends_referenceLocal name declared isVar range hv)
  · cases declared with
    | some ty =>
      refine ends_guard fun _ => ?_
      cases value with
      | some o => exact hdeclare (ends_typedLocal name ty isVar range (hv o rfl))
      | none => exact hdeclare (ends_defaultLocal view name ty isVar range)
    | none =>
      cases value with
      | some o => exact hdeclare (ends_inferredLocal name isVar range (hv o rfl))
      | none => exact ends_refuse _ _

/-! ## Assignments -/

theorem ends_assignedPlace {lhs : Operand} (hl : lhs.Typed b) :
    b.Ends (assignedPlace lhs) fun p => p.Placed b.table p.type := by
  refine (hl _ Expect.typed_nothing).bind fun v hv => (ends_placeOf hv).bind fun r hr =>
    (ends_require _ _ hr.1).bind fun p hp => ends_unless fun _ => .pure ?_
  exact ⟨hp.typed, hp.stored, rfl⟩

/-- An assignment by a member is one from another value of the type. -/
theorem assignMember_cases {t : TypeTable} {ty : Ty} {m : MemberFunction}
    (h : assignMember? t ty v = some m) :
    m ∈ t.membersOf ty ∧ m.kind.fixedArity? = some 0 ∧
      ∃ isVar, m.kind.otherIsVar? = some isVar := by
  unfold assignMember? at h
  split at h
  · cases h
  · obtain ⟨hmem, hkind⟩ := TypeTable.mem_of_member h
    refine ⟨hmem, ?_⟩
    rw [hkind]
    split
    · exact ⟨rfl, false, rfl⟩
    · exact ⟨rfl, true, rfl⟩

theorem ends_lowerAssign {lhs rhs : Operand} (range : Span) (hl : lhs.Typed b)
    (hr : rhs.Typed b) : b.Ends (lowerAssign lhs rhs range) fun _ => True := by
  refine (ends_assignedPlace hl).bind fun p hp => (hr _ Expect.typed_of).bind fun v hv =>
    ends_guard fun hty => ends_types.bind fun t ht => ?_
  split
  · rename_i m hm
    obtain ⟨hmem, harity, isVar, hother⟩ := assignMember_cases hm
    have hhas := Basis.has_of_mem ht hmem
    refine (ends_place hv).bind fun source hsource => ?_
    rw [not_not.mp hty] at hsource
    exact (ends_callMember range hhas (fun _ h => Option.some.inj h ▸ hp.target)
      (hhas.other harity hother hsource.target)).bind fun _ _ => .pure trivial
  · exact (ends_passValue _ _ hv).bind fun _ _ => ends_store _ _

theorem mem_of_variations {t : TypeTable} {ty : Ty} {op : BinaryOp} {m : MemberFunction}
    (h : m ∈ variations t ty op) : m ∈ t.membersOf ty ∧ m.argTypes.length = 1 := by
  obtain ⟨hm, hkind⟩ := List.mem_filter.mp h
  rw [Bool.and_eq_true] at hkind
  exact ⟨(List.mem_filter.mp hm).1, (List.length_map _).trans (eq_of_beq hkind.2)⟩

theorem ends_assignByMember (op : BinaryOp) {p : Value} {ty : Ty} {members : List MemberFunction}
    {rhs : Operand} (range : Span) (hp : p.Placed b.table ty)
    (hm : ∀ m ∈ members, b.Has m ty ∧ m.argTypes.length = 1) (hr : rhs.Typed b) :
    b.Ends (assignByMember op p members rhs range) fun _ => True := by
  refine (hr _ Expect.typed_maybe).bind fun v hv => (ends_require _ _ fun m h => h).bind
    fun m hfound => ?_
  obtain ⟨hhas, hone⟩ := hm m (List.mem_of_find?_eq_some hfound)
  exact (ends_passValues _ [v] m.argTypes hone.symm (by simpa using hv)).bind fun _ hargs =>
    (ends_callMember range hhas (fun _ h => Option.some.inj h ▸ hp.target) hargs).bind
      fun _ _ => .pure trivial

theorem ends_lowerOpAssign (op : BinaryOp) {lhs rhs : Operand} (range : Span) (hl : lhs.Typed b)
    (hr : rhs.Typed b) : b.Ends (lowerOpAssign op lhs rhs range) fun _ => True := by
  refine (ends_assignedPlace hl).bind fun p hp => ends_types.bind fun t ht => ?_
  dsimp only
  split
  · refine ends_assignByMember op range hp (fun m hm => ?_) hr
    obtain ⟨hmem, hone⟩ := mem_of_variations hm
    exact ⟨Basis.has_of_mem ht hmem, hone⟩
  · refine ends_types.bind fun _ _ => ends_guard fun _ => (ends_rvalue hp.typed).bind
      fun current hcurrent => (ends_operandRvalue hr Expect.typed_of).bind fun right hright =>
      (ends_foldOrCompute op range hcurrent.typed hright.typed).bind fun result _ =>
      ends_guard fun _ => ends_store _ _

/-! ## Loops -/

theorem ends_enterLoop (tag : Option Ident) (breakTo continueTo : Ir.BlockId) :
    b.Ends (enterLoop tag breakTo continueTo) fun _ => True := by
  refine ends_update (fun f => { f with loops := ⟨breakTo, continueTo, tag⟩ :: f.loops })
    (fun _ => ()) (fun o s => ?_) (fun _ => rfl) (fun _ => rfl)
    (fun _ _ _ h => ⟨h.locals, h.self, h.fits⟩) fun _ _ _ => trivial
  cases hf : s.func with
  | none => exact .inl ⟨.breach .noFunction, by cases s; cases hf; rfl⟩
  | some f =>
    unfold enterLoop
    rw [bind_apply, function_apply hf]
    cases tag with
    | none => exact .inr ⟨f, rfl, rfl⟩
    | some t =>
      cases htag : (f.loopTagged? t.text).bind LoopTargets.tag with
      | some existing => exact .inl ⟨_, by simp only [htag]; rfl⟩
      | none => exact .inr ⟨f, rfl, by simp only [htag]; rfl⟩

theorem ends_exitLoop : b.Ends exitLoop fun _ => True :=
  ends_change (fun f => { f with loops := f.loops.drop 1 }) (fun _ => ()) rfl (fun _ => rfl)
    (fun _ => rfl) (fun _ _ h => ⟨h.locals, h.self, h.fits⟩) fun _ _ _ => trivial

theorem ends_declareLocals :
    ∀ ls : List LocalVar, (∀ l ∈ ls, l.Typed b.table) →
      b.Ends (declareLocals ls) fun _ => True
  | [], _ => .pure trivial
  | l :: ls, h => by
    rw [List.forall_mem_cons] at h
    exact (ends_declareLocal h.1).bind fun _ _ => ends_declareLocals ls h.2

variable {body : Emit Unit}

theorem ends_loopBody (tag : Option Ident) (breakTo continueTo : Ir.BlockId)
    {locals : List LocalVar} (hl : ∀ l ∈ locals, l.Typed b.table)
    (hb : b.Ends body fun _ => True) :
    b.Ends (loopBody tag breakTo continueTo locals body) fun _ => True :=
  (ends_enterLoop tag breakTo continueTo).bind fun _ _ =>
    (ends_inScope ((ends_declareLocals locals hl).bind fun _ _ => hb)).bind fun _ _ =>
      ends_exitLoop

theorem ends_lowerWhile {condition : Operand} (tag : Option Ident) (hc : condition.Typed b)
    (hb : b.Ends body fun _ => True) :
    b.Ends (lowerWhile condition body tag) fun _ => True := by
  refine (ends_newBlock _).bind fun _ _ => (ends_newBlock _).bind fun _ _ =>
    (ends_newBlock _).bind fun _ _ => (ends_jump _).bind fun _ _ => (ends_switchTo _).bind
    fun _ _ => (ends_condition hc).bind fun _ _ => (ends_branch _ _ _).bind fun _ _ =>
    (ends_switchTo _).bind fun _ _ => ?_
  exact (ends_loopBody tag _ _ (fun _ h => by cases h) hb).bind fun _ _ =>
    (ends_jump _).bind fun _ _ => ends_switchTo _

theorem ends_lowerLoop (tag : Option Ident) (hb : b.Ends body fun _ => True) :
    b.Ends (lowerLoop body tag) fun _ => True :=
  (ends_newBlock _).bind fun _ _ => (ends_newBlock _).bind fun _ _ => (ends_jump _).bind
    fun _ _ => (ends_switchTo _).bind fun _ _ =>
    (ends_loopBody tag _ _ (fun _ h => by cases h) hb).bind fun _ _ =>
    (ends_jump _).bind fun _ _ => ends_switchTo _

theorem ends_countedLoop (type : Ty) (index : Option Ident) (tag : Option Ident)
    {holds : Ir.Value → Emit Ir.Register} {locals : Ir.Value → Emit (List LocalVar)}
    (hh : ∀ c, b.Ends (holds c) fun _ => True)
    (hl : ∀ c, b.Ends (locals c) fun ls => ∀ l ∈ ls, l.Typed b.table)
    (hb : b.Ends body fun _ => True) :
    b.Ends (countedLoop type index body tag holds locals) fun _ => True := by
  refine (ends_alloca _ _).bind fun slot hslot => (ends_store _ _).bind fun _ _ =>
    (ends_newBlock _).bind fun _ _ => (ends_newBlock _).bind fun _ _ =>
    (ends_newBlock _).bind fun _ _ => (ends_newBlock _).bind fun _ _ => ?_
  refine (ends_jump _).bind fun _ _ => (ends_switchTo _).bind fun _ _ =>
    (ends_load _ _).bind fun _ _ => (hh _).bind fun _ _ => (ends_branch _ _ _).bind fun _ _ =>
    (ends_switchTo _).bind fun _ _ => (ends_load _ _).bind fun _ _ => (hl _).bind
    fun ls hls => ?_
  have hlocals : ∀ l ∈ ls ++ index.toList.map fun name =>
      ({ name, address := slot, type, isVar := false, isRef := false } : LocalVar),
      l.Typed b.table := by
    intro l hl
    rcases List.mem_append.mp hl with hl | hl
    · exact hls l hl
    · obtain ⟨name, -, rfl⟩ := List.mem_map.mp hl
      exact ⟨fun h => (by cases h), fun _ => congrArg Ty.target? hslot, fun _ hc => by cases hc⟩
  refine (ends_loopBody tag _ _ hlocals hb).bind fun _ _ => (ends_jump _).bind fun _ _ =>
    (ends_switchTo _).bind fun _ _ => (ends_load _ _).bind fun _ _ =>
    (ends_compute _ fun _ _ _ _ h => by cases h).bind fun _ _ => (ends_store _ _).bind
    fun _ _ => (ends_jump _).bind fun _ _ => ends_switchTo _

theorem ends_lowerTimes {count : Operand} (index tag : Option Ident) (hc : count.Typed b)
    (hb : b.Ends body fun _ => True) :
    b.Ends (lowerTimes count index body tag) fun _ => True := by
  refine (ends_operandRvalue hc Expect.typed_of).bind fun total _ => ends_types.bind fun _ _ =>
    (ends_requireAny _ _ _).bind fun info _ => ?_
  exact ends_countedLoop _ index tag
    (fun _ => (ends_compute _ fun _ _ _ _ h => by cases h).mono fun _ _ => trivial)
    (fun _ => .pure fun _ h => by cases h) hb

theorem ends_sequenceOf (range : Span) (hv : v.Typed b.table) :
    b.Ends (sequenceOf v range) fun _ => True := by
  unfold sequenceOf
  split
  · exact (ends_place hv).bind fun _ _ => .pure trivial
  · exact (ends_place hv).bind fun _ _ => .pure trivial
  · exact (ends_rvalue hv).bind fun _ _ => (ends_sliceData _ _ _).bind fun _ _ =>
      (ends_compute _ fun _ _ _ _ h => by cases h).bind fun _ _ => .pure trivial
  · exact (ends_rvalue hv).bind fun _ _ => (ends_stringParts _).bind fun _ _ => .pure trivial
  · exact (ends_rvalue hv).bind fun _ _ => .pure trivial
  · exact ends_refuse _ _

theorem ends_hasElement (s : Sequence) (counter : Ir.Value) :
    b.Ends (hasElement s counter) fun _ => True := by
  refine (ends_fresh _).bind fun r _ => ?_
  dsimp only
  split
  · exact (ends_write fun _ _ _ h => by cases h).bind fun _ _ => .pure trivial
  · exact (ends_elementPtr _ _ _ _).bind fun _ _ => (ends_load _ _).bind fun _ _ =>
      (ends_write fun _ _ _ h => by cases h).bind fun _ _ => .pure trivial

/-- The item of a loop refers to the element. -/
theorem ends_lowerForIn {iterable : Operand} (item : Ident) (index tag : Option Ident)
    (hi : iterable.Typed b) (hb : b.Ends body fun _ => True) :
    b.Ends (lowerForIn iterable item index body tag) fun _ => True := by
  refine (hi _ Expect.typed_nothing).bind fun v hv => (ends_sequenceOf _ hv).bind fun s _ =>
    (ends_intern _).bind fun itemType hty => ?_
  cases hty
  refine ends_countedLoop _ index tag (ends_hasElement s)
    (fun c => (ends_elementPtr _ _ _ _).bind fun ptr hptr => .pure fun l hl => ?_) hb
  cases List.mem_singleton.mp hl
  have htarget : (Ir.Value.reg ptr).type.target? = some s.element := congrArg Ty.target? hptr
  exact ⟨fun _ => Ty.alike_of_targets htarget rfl, fun h => (by cases h), fun _ hc => by cases hc⟩

theorem ends_lowerJump (tag : Option Ident) (word : String) (target : LoopTargets → Ir.BlockId)
    (range : Span) : b.Ends (lowerJump tag word target range) fun _ => True := by
  refine ends_function.bind fun f _ => ?_
  split
  · exact ends_jump _
  · exact ends_refuse _ _
  · exact ends_refuse _ _

/-! ## Sentences -/

theorem ends_lowerGive (range : Span) (hv : ∀ o, value = some o → o.Typed b) :
    b.Ends (lowerGive value range) fun _ => True := by
  refine ends_function.bind fun f _ => ?_
  dsimp only
  split
  · exact ends_guard fun _ => ends_terminate _
  · exact ends_guard fun _ => (hv _ rfl _ Expect.typed_of).bind fun _ hv => ends_guard fun _ =>
      (ends_passValue _ _ hv).bind fun _ _ => ends_terminate _

theorem ends_lowerBranch {condition : Operand} (endBlock : Ir.BlockId) {rest : Emit Unit}
    (hc : condition.Typed b) (hb : b.Ends body fun _ => True)
    (hr : b.Ends rest fun _ => True) :
    b.Ends (lowerBranch condition body endBlock rest) fun _ => True := by
  refine (ends_condition hc).bind fun cond _ => ?_
  split
  · exact (ends_inScope hb).bind fun _ _ => (ends_jump _).bind fun _ _ => ends_switchTo _
  · exact hr
  · exact (ends_newBlock _).bind fun _ _ => (ends_newBlock _).bind fun _ _ =>
      (ends_branch _ _ _).bind fun _ _ => (ends_switchTo _).bind fun _ _ =>
      (ends_inScope hb).bind fun _ _ => (ends_jump _).bind fun _ _ =>
      (ends_switchTo _).bind fun _ _ => hr

theorem typed_map (view : Viewpoint) (value : Option Expr) :
    ∀ o, value.map (operand view) = some o → o.Typed b := by
  intro o ho
  obtain ⟨e, -, rfl⟩ := Option.map_eq_some_iff.mp ho
  exact typed_operand view e

mutual

theorem ends_lowerSentences (view : Viewpoint) :
    ∀ ss : List Sentence, b.Ends (lowerSentences view ss) fun _ => True
  | [] => by
    unfold lowerSentences
    exact .pure trivial
  | s :: ss => by
    unfold lowerSentences
    refine ends_isClosed.bind fun closed _ => ?_
    split
    · exact .pure trivial
    · exact (ends_lowerSentence view s).bind fun _ _ => ends_lowerSentences view ss

theorem ends_lowerSentence (view : Viewpoint) :
    ∀ s : Sentence, b.Ends (lowerSentence view s) fun _ => True
  | .localVar range name type value isVar isRef => by
    unfold lowerSentence
    exact ends_lowerLocal view name type isVar isRef range (typed_map view value)
  | .assign range lhs rhs => by
    unfold lowerSentence
    exact ends_lowerAssign range (typed_operand view lhs) (typed_operand view rhs)
  | .opAssign range op lhs rhs => by
    unfold lowerSentence
    exact ends_lowerOpAssign op range (typed_operand view lhs) (typed_operand view rhs)
  | .expr _ e => by
    unfold lowerSentence
    exact (ends_lowerExpr view e _ Expect.typed_nothing).bind fun _ _ => .pure trivial
  | .cond _ branches none => by
    unfold lowerSentence
    refine (ends_newBlock _).bind fun endBlock _ => ends_lowerBranches view endBlock branches ?_
    refine Ground.Ends.bind (Q := fun _ => True) (.pure trivial) fun _ _ => ?_
    exact (ends_jump _).bind fun _ _ => ends_switchTo _
  | .cond _ branches (some body) => by
    unfold lowerSentence
    refine (ends_newBlock _).bind fun endBlock _ => ends_lowerBranches view endBlock branches ?_
    exact (ends_inScope (ends_lowerSentences view body)).bind fun _ _ =>
      (ends_jump _).bind fun _ _ => ends_switchTo _
  | .whileDo _ condition body tag => by
    unfold lowerSentence
    exact ends_lowerWhile tag (typed_operand view condition) (ends_lowerSentences view body)
  | .times _ count index body tag => by
    unfold lowerSentence
    exact ends_lowerTimes index tag (typed_operand view count) (ends_lowerSentences view body)
  | .loop _ body tag => by
    unfold lowerSentence
    exact ends_lowerLoop tag (ends_lowerSentences view body)
  | .forIn _ iterable item index body tag => by
    unfold lowerSentence
    exact ends_lowerForIn item index tag (typed_operand view iterable)
      (ends_lowerSentences view body)
  | .breakLoop range tag => by
    unfold lowerSentence
    exact ends_lowerJump tag _ _ range
  | .continueLoop range tag => by
    unfold lowerSentence
    exact ends_lowerJump tag _ _ range
  | .give range value => by
    unfold lowerSentence
    exact ends_lowerGive range (typed_map view value)
  | .block _ body => by
    unfold lowerSentence
    exact ends_inScope (ends_lowerSentences view body)
  | .todo range message => by
    unfold lowerSentence
    exact ends_unfinished message range

theorem ends_lowerBranches (view : Viewpoint) (endBlock : Ir.BlockId) {otherwise : Emit Unit} :
    ∀ bs : List Branch, b.Ends otherwise (fun _ => True) →
      b.Ends (lowerBranches view endBlock bs otherwise) fun _ => True
  | [], ho => by
    unfold lowerBranches
    exact ho
  | .mk condition body :: bs, ho => by
    unfold lowerBranches
    exact ends_lowerBranch endBlock (typed_operand view condition)
      (ends_lowerSentences view body) (ends_lowerBranches view endBlock bs ho)

end

end Staged.Emit
