/-
  Staged.Proofs.Typing.Call — calls fit the prototypes they are checked against.

  An argument that is handed on has the type of its parameter, or is an address of the same
  target. So the operands of a call suit the prototype that the arguments were counted and
  lowered for: that of a function's symbol, of a member, or of a function that manages the
  heap. The last are declared when they are first used; whatever their name means already
  is used then, which may have been declared otherwise.
-/

import Staged.Emit.Heap
import Staged.Emit.Construct
import Staged.Emit.Copy
import Staged.Proofs.Typing.Code
import Staged.Proofs.Values.Declare

namespace Staged

/-! ## Operands -/

structure Suits (operands : List Ir.Value) (params : List Ty) (variadic : Bool) : Prop where
  count : if variadic then params.length ≤ operands.length else operands.length = params.length
  types : ∀ q ∈ operands.zip params, q.1.type.Alike q.2

namespace Suits

variable {operands : List Ir.Value} {params : List Ty} {variadic : Bool} {v : Ir.Value} {ty : Ty}

theorem nil : Suits [] [] false := ⟨rfl, fun _ h => by cases h⟩

theorem cons (hv : v.type.Alike ty) (h : Suits operands params variadic) :
    Suits (v :: operands) (ty :: params) variadic := by
  refine ⟨?_, ?_⟩
  · have hcount := h.count
    cases variadic with
    | true => exact Nat.succ_le_succ hcount
    | false => exact congrArg (· + 1) hcount
  · rw [List.zip_cons_cons]
    exact List.forall_mem_cons.mpr ⟨hv, h.types⟩

theorem cons_register {r : Ir.Register} (hr : r.type = ty) (h : Suits operands params variadic) :
    Suits (.reg r :: operands) (ty :: params) variadic := cons (.inl hr) h

theorem fits {result : Ty} {dest : Option Ir.Register} (h : Suits operands params variadic)
    (hdest : dest.map Ir.Register.type = if result = .void then none else some result) :
    (⟨params, result, variadic⟩ : Prototype).Fits dest operands := ⟨h.count, h.types, hdest⟩

end Suits

namespace TypeTable

variable {t : TypeTable} {ty : Ty} {m : MemberFunction}

theorem mem_of_member {kind : MemberKind} (h : t.member? ty kind = some m) :
    m ∈ t.membersOf ty ∧ m.kind = kind :=
  ⟨List.mem_of_find?_eq_some h, eq_of_beq (List.find?_some h :)⟩

end TypeTable

def Basis.Has (b : Basis) (m : MemberFunction) (ty : Ty) : Prop := m ∈ b.table.membersOf ty

namespace Basis

variable {b : Basis} {t : TypeTable} {m : MemberFunction} {ty : Ty}

theorem has_of_mem (ht : b.table.SameDefinitions t) (hm : m ∈ t.membersOf ty) : b.Has m ty :=
  (ht.membersOf ty ▸ hm :)

theorem Has.proper (h : b.Has m ty) : m.Proper ty := b.members h

/-- The member takes no arguments besides its instance. -/
theorem Has.bare (h : b.Has m ty) (ha : m.kind.fixedArity? = some 0)
    (ho : m.kind.otherIsVar? = none) : Suits [] m.argTypes false := by
  rw [h.proper.args ha, ho]
  exact .nil

/-- The member takes another value of its type. -/
theorem Has.other {isVar : Bool} {ir : Ir.Value} (h : b.Has m ty)
    (ha : m.kind.fixedArity? = some 0) (ho : m.kind.otherIsVar? = some isVar)
    (hir : ir.type.target? = some ty) : Suits [ir] m.argTypes false := by
  rw [h.proper.args ha, ho]
  exact .cons (Ty.alike_of_targets hir rfl) .nil

end Basis

namespace Emit

variable {b : Basis} {v : Value} {expect : Expect}

theorem ends_operandRvalue {operand : Operand} (ho : operand.Typed b)
    (he : expect.Typed b.table) :
    b.Ends (operand.rvalue expect) fun v => v.Used b.table v.type :=
  (ho expect he).bind fun _ hv => (ends_rvalue hv).mono fun _ hw => ⟨hw.typed, hw.temporary, rfl⟩

theorem ends_condition {operand : Operand} (ho : operand.Typed b) :
    b.Ends operand.condition (Value.Used b.table .bool) := by
  refine (ends_operandRvalue ho Expect.typed_of).bind fun v hv => ?_
  refine ends_guard fun hbool => .pure ⟨hv.typed, hv.temporary, ?_⟩
  exact not_not.mp hbool

theorem ends_passValue (target : Ty) (range : Span) (hv : v.Typed b.table) :
    b.Ends (passValue v target range) (·.type.Alike target) := by
  unfold passValue
  split
  · rename_i sub isVar source sourceVar htarget hsource
    cases Ty.eq_ref_of_refInfo? htarget
    refine ends_guard fun hsub => ends_guard fun _ => ?_
    cases not_not.mp hsub
    exact (ends_referenceAddress hv hsource).bind fun a ha => .pure (Ty.alike_of_targets ha rfl)
  · rename_i sub isVar htarget hsource
    cases Ty.eq_ref_of_refInfo? htarget
    refine ends_guard fun hsub => (ends_placeOf hv).bind fun r hr =>
      (ends_require _ _ hr.1).bind fun p hp => ends_guard fun _ => .pure ?_
    cases not_not.mp hsub
    rw [Ty.value_eq_self hsource] at hp
    exact Ty.alike_of_targets hp.target rfl
  · refine ends_guard fun htype => ?_
    cases not_not.mp htype
    split
    · rename_i htemporary
      rw [Bool.and_eq_true, Option.isNone_iff_eq_none] at htemporary
      rw [Ty.value_eq_self htemporary.2]
      exact .pure (hv.temporary htemporary.1)
    · refine ends_types.bind fun t _ => ?_
      split
      · exact (ends_rvalue hv).bind fun w hw => .pure hw.alike
      · exact ends_refuse _ _

theorem ends_passValues (range : Span) :
    ∀ (vs : List Value) (tys : List Ty), vs.length = tys.length →
      (∀ v ∈ vs, v.Typed b.table) →
      b.Ends (passValues range vs tys) fun operands => Suits operands tys false
  | [], [], _, _ => .pure .nil
  | [], _ :: _, h, _ => by cases h
  | _ :: _, [], h, _ => by cases h
  | v :: vs, ty :: tys, h, hvs => by
    rw [List.forall_mem_cons] at hvs
    unfold passValues
    exact (ends_passValue ty range hvs.1).bind fun _ hv =>
      (ends_passValues range vs tys (Nat.succ.inj h) hvs.2).bind fun _ hrest =>
        .pure (.cons hv hrest)

/-! ## Calls -/

theorem ends_emitCall {callee : Ir.Callee} {operands : List Ir.Value} (result : Ty) (range : Span)
    (h : ∀ dest : Option Ir.Register,
      dest.map Ir.Register.type = (if result = .void then none else some result) →
      (Ir.Instr.call dest callee operands).Fits (b.declares b.functions)) :
    b.Ends (emitCall callee operands result range) (Value.Used b.table result) := by
  unfold emitCall
  split
  · subst result
    exact (ends_push (h none rfl)).bind fun _ _ => .pure (Value.used_temporary (.refl _))
  · rename_i hresult
    refine Ground.Ends.bind (Q := (·.type = result)) ?_ fun r hr =>
      .pure (Value.used_temporary (.inl hr))
    refine (ends_fresh result).bind fun r hr => (ends_push (h (some r) ?_)).bind fun _ _ => .pure hr
    rw [if_neg hresult, Option.map_some, hr]

/-- A call of a function by its number, checked against a prototype that it has. -/
theorem ends_callDeclared {id : Ir.FunctionId} {p : Prototype} {operands : List Ir.Value}
    (range : Span) (hp : b.declares b.functions id p)
    (h : Suits operands p.params p.variadic) :
    b.Ends (emitCall (.function id) operands p.result range) (Value.Used b.table p.result) := by
  refine ends_emitCall p.result range fun dest hdest dest' id' args' hcall => ?_
  cases hcall
  exact ⟨p, hp, h.fits hdest⟩

/-- Of a function that is itself a value, nothing is claimed. -/
theorem ends_callIndirect (callee : Ir.Value) (operands : List Ir.Value) (result : Ty)
    (range : Span) : b.Ends (emitCall (.indirect callee) operands result range)
      (Value.Used b.table result) :=
  ends_emitCall result range fun _ _ _ _ _ hcall => by cases hcall

theorem ends_callMember {m : MemberFunction} {ty : Ty} {self : Option Ir.Value}
    {operands : List Ir.Value} (range : Span) (hm : b.Has m ty)
    (hself : ∀ ir, self = some ir → ir.type.target? = some ty)
    (h : Suits operands m.argTypes false) :
    b.Ends (callMember m self operands range) (Value.Used b.table m.result) := by
  have hdeclared : b.declares b.functions m.function m.prototype := .member hm rfl
  unfold callMember
  split
  · rename_i hhas
    split
    · rename_i ir
      refine ends_callDeclared range hdeclared ?_
      have hparams : m.prototype.params = .markTo m.parent m.kind.isVariation :: m.argTypes := by
        simp [MemberFunction.prototype, MemberFunction.selfParams, hhas]
      rw [hparams, hm.proper.parent]
      exact .cons (Ty.alike_of_targets (hself ir rfl) rfl) h
    · exact ends_breach _
  · rename_i hhas
    refine ends_callDeclared range hdeclared ?_
    have hparams : m.prototype.params = m.argTypes := by
      simp [MemberFunction.prototype, MemberFunction.selfParams, hhas]
    rw [hparams]
    exact h

/-- The members that need their instance only. -/
theorem ends_callBare {m : MemberFunction} {ty : Ty} {ir : Ir.Value} (range : Span)
    (hm : b.Has m ty) (ha : m.kind.fixedArity? = some 0) (ho : m.kind.otherIsVar? = none)
    (hself : ir.type.target? = some ty) :
    b.Ends (callMember m (some ir) [] range) (Value.Used b.table m.result) :=
  ends_callMember range hm (fun _ h => Option.some.inj h ▸ hself) (hm.bare ha ho)

theorem ends_lowerArgsFrom (called : Called) :
    ∀ (i : Nat) (params : List Ty) (args : List Operand), (∀ a ∈ args, a.Typed b) →
      b.Ends (lowerArgsFrom called i params args) fun operands =>
        operands.length = args.length ∧ ∀ q ∈ operands.zip params, q.1.type.Alike q.2
  | _, _, [], _ => by
    unfold lowerArgsFrom
    exact .pure ⟨rfl, fun _ h => by cases h⟩
  | i, [], a :: args, ha => by
    rw [List.forall_mem_cons] at ha
    unfold lowerArgsFrom
    refine (ends_operandRvalue ha.1 Expect.typed_nothing).bind fun extra _ =>
      (ends_lowerArgsFrom called (i + 1) [] args ha.2).bind fun rest hrest =>
        .pure ⟨congrArg (· + 1) hrest.1, fun _ h => ?_⟩
    rw [List.zip_nil_right] at h
    cases h
  | i, param :: params, a :: args, ha => by
    rw [List.forall_mem_cons] at ha
    unfold lowerArgsFrom
    refine (ha.1 _ Expect.typed_of).bind fun v hv => ends_guard fun _ =>
      (ends_passValue param a.range hv).bind fun ir hir =>
        (ends_lowerArgsFrom called (i + 1) params args ha.2).bind fun rest hrest =>
          .pure ⟨congrArg (· + 1) hrest.1, ?_⟩
    rw [List.zip_cons_cons]
    exact List.forall_mem_cons.mpr ⟨hir, hrest.2⟩

theorem ends_lowerArgs (called : Called) (params : List Ty) (variadic : Bool)
    {args : List Operand} (range : Span) (ha : ∀ a ∈ args, a.Typed b) :
    b.Ends (lowerArgs called params variadic args range) fun operands =>
      Suits operands params variadic := by
  refine ends_guard fun hcount => ?_
  refine (ends_lowerArgsFrom called 0 params args ha).mono fun operands h => ⟨?_, h.2⟩
  rw [h.1]
  cases variadic with
  | true =>
    simp only [Bool.not_true, Bool.false_eq_true, false_and, or_false, Nat.not_lt] at hcount
    exact hcount
  | false =>
    simp only [Bool.not_false, true_and, not_or, Nat.not_lt] at hcount
    exact Nat.le_antisymm hcount.2 hcount.1

theorem ends_callValue (f : Value) (called : Called) {args : List Operand} (range : Span)
    (ha : ∀ a ∈ args, a.Typed b) :
    b.Ends (callValue f called args range) (·.Typed b.table) := by
  unfold callValue
  split
  · exact (ends_lowerArgs called _ _ range ha).bind fun _ _ =>
      (ends_callIndirect _ _ _ range).mono fun _ h => h.typed
  · exact ends_refuse _ _

theorem ends_checkMemberAccess (view : Viewpoint) (m : MemberFunction) (name : Ident) :
    b.Ends (checkMemberAccess view m name) fun _ => True := by
  refine (ends_isAccessible view m.vis).bind fun _ _ => ?_
  split
  · exact .pure trivial
  · exact ends_refuse _ _

/-! ## Methods -/

theorem ends_methodInstance (name : String) (range : Span) (hv : v.Typed b.table) :
    b.Ends (methodInstance v name range) fun r =>
      r.1.Typed b.table ∧ (r.2.isRef = false → r.1.type.value = r.2) := by
  unfold methodInstance
  split
  · rename_i sub owner nullable isVar hty
    refine ends_types.bind fun t _ => ?_
    split
    · exact .pure ⟨hv, fun _ => hty⟩
    · refine (ends_rvalue hv).bind fun pointer hp => .pure ⟨?_, fun hsub => ?_⟩
      · have hlike := hp.alike
        rw [hty] at hlike
        exact Value.typed_stored (by decide) (hlike.target rfl)
      · cases sub with
        | ref sub isVar => cases hsub
        | _ => rfl
  · exact .pure ⟨hv, fun _ => rfl⟩

theorem mem_of_method {t : TypeTable} {ty : Ty} {name : String} {m : MemberFunction}
    (h : t.method? ty name = some m) : m ∈ t.membersOf ty := List.mem_of_find?_eq_some h

theorem ends_lowerMethodCall (view : Viewpoint) {base : Value} (name : Ident)
    {args : List Operand} (variation : Bool) (range : Span) (hb : base.Typed b.table)
    (ha : ∀ a ∈ args, a.Typed b) :
    b.Ends (lowerMethodCall view base name args variation range) (·.Typed b.table) := by
  refine (ends_methodInstance name.text range hb).bind ?_
  rintro ⟨self, ty⟩ ⟨hself, hty⟩
  refine ends_types.bind fun t ht => (ends_require _ _ fun m hm => hm).bind fun m hm => ?_
  have hhas := Basis.has_of_mem ht (mem_of_method hm)
  refine (ends_checkMemberAccess view m name).bind fun _ _ => ends_guard fun _ => ?_
  have hvalue : self.type.value = ty := hty hhas.proper.value
  have hcall (p : Value) (hp : p.Placed b.table self.type.value) : b.Ends (do
        let args ← lowerArgs (.method name.text ty) m.argTypes false args range
        callMember m (some p.ir) args range) (·.Typed b.table) := by
    rw [hvalue] at hp
    exact (ends_lowerArgs _ m.argTypes false range ha).bind fun _ h =>
      (ends_callMember range hhas (fun _ h => Option.some.inj h ▸ hp.target) h).mono
        fun _ hv => hv.typed
  dsimp only
  split
  · exact (ends_placeOf hself).bind fun r hr => (ends_require _ _ fun p hp =>
      hr.1 p (Option.eq_some_of_filter_eq_some hp)).bind hcall
  · exact (ends_place hself).bind hcall

/-! ## Functions that manage the heap -/

/-- A function of the heap is declared when it is first used, and whatever its name means
already is used then. -/
theorem ends_declareAllocator {α : Type} {Q : α → Prop} {name : String} {params : List Ty}
    {result : Ty} {k : Ir.FunctionId → Emit α}
    (hname : allocator? name = some ⟨params, result, false⟩)
    (hk : ∀ functions id, Declares b.outer.symbols b.table functions id ⟨params, result, false⟩ →
      Basis.Ends { b with functions } (k id) Q) :
    b.Ends (declareExternal name params result false >>= k) Q := by
  intro o ho s hs
  rcases hdeclare : s.ir.declareExternal name params result false with ⟨ir, id⟩
  have hrun : declareExternal name params result false o s = .ok id { s with ir } := by
    have hshow : declareExternal name params result false o s =
        .ok (s.ir.declareExternal name params result false).2
          { s with ir := (s.ir.declareExternal name params result false).1 } := rfl
    rw [hshow, hdeclare]
  rw [bind_apply, hrun]
  obtain ⟨⟨q, hq⟩, hcases⟩ := s.ir.declareExternal_cases name params result false hdeclare
  have hnew : Declares b.outer.symbols b.table ir.functions id ⟨params, result, false⟩ :=
    .allocator hq hname
  have hextends : Extends s.ir.functions ir.functions := by
    rcases hcases with rfl | ⟨-, hpush⟩
    · exact .refl _
    · exact hpush ▸ extends_push _ _
  have hfits : Fitting (b.declares ir.functions) ir.functions := by
    have hbefore := hs.code.fits.mono (Basis.declares_grow hextends)
    rcases hcases with rfl | ⟨rfl, hpush⟩
    · exact hbefore
    · rw [hpush] at hbefore hnew ⊢
      exact hbefore.push rfl (by rwa [Ir.Function.prototype_ofExternal])
  have hstands : (Basis.ground { b with functions := ir.functions }).Stands 0 { s with ir } := by
    refine ⟨⟨hs.outer, hs.calls, ⟨hs.code.types, .refl _, hfits, fun f hf => ?_⟩, trivial⟩,
      hs.frames⟩
    obtain ⟨htyped, hheading⟩ := hs.code.func f hf
    exact ⟨htyped.mono (Basis.declares_grow hextends), hextends _ _ hheading⟩
  have hcode {c : Core} (hc : Basis.Code { b with functions := ir.functions } c) : b.Code c :=
    ⟨hc.types, (hs.code.functions.trans hextends).trans hc.functions, hc.fits, hc.func⟩
  have h := hk ir.functions id hnew o ho { s with ir } hstands
  dsimp only
  split
  · rename_i v s' heq
    rw [heq] at h
    exact ⟨⟨⟨h.1.outer, h.1.calls, hcode h.1.code, trivial⟩, h.1.frames⟩, h.2⟩
  · rename_i e s' heq
    rw [heq] at h
    exact ⟨⟨h.1.outer, h.1.calls, hcode h.1.code, trivial⟩, trivial⟩

theorem ends_callAllocator {name : String} {params : List Ty} {result : Ty}
    {operands : List Ir.Value} (hname : allocator? name = some ⟨params, result, false⟩)
    (h : Suits operands params false) :
    b.Ends (callAllocator name params result operands) fun r =>
      ∀ ir, r = some ir → ir.type.Alike result := by
  refine ends_declareAllocator hname fun functions id hid => ?_
  have hcall := ends_callDeclared (b := { b with functions }) default hid h
  refine hcall.bind fun v hv => .pure fun ir hir => ?_
  split at hir
  · cases hir
  · cases hir
    exact hv.alike

end Emit

end Staged
