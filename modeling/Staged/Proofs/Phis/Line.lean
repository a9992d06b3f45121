/-
  Staged.Proofs.Phis.Line — code without jumps.

  An action draws on when the function that it leaves under construction comes from the one
  it found by writing code up to an open block (`Emit.Draws`); nothing is said of a failure.
  Registers, instructions, reserved memory and scopes leave the outline of a function alone.
  What runs at compile time writes no code, unless it comes upon something unfinished.

  The statements are triples like those of `Staged.Proofs.Lowering.Logic`. They are preferred
  to those where both could be used.
-/

import Staged.Proofs.Phis.Flow

open Std.Do

set_option mvcgen.warning false

namespace Staged

/-- The function under construction comes from another one by drawing on. -/
def Compiler.Continues (s : Compiler) (b : FunctionState) : Prop :=
  ∃ f, s.func = some f ∧ b.Draws f

abbrev Emit.Draws {α : Type} (b : FunctionState) (a : Emit α) : Prop :=
  ⦃fun _ s => ⌜s.Continues b⌝⦄ a ⦃post⟨fun _ _ s => ⌜s.Continues b⌝, fun _ _ => ⌜True⌝⟩⦄

def Operand.Draws (o : Operand) : Prop := ∀ b expect, Emit.Draws b (o.lower expect)

namespace FunctionState

variable {b f : FunctionState} {i : Ir.Instr}

theorem draws_scopes (f : FunctionState) (scopes : List (List LocalVar)) :
    f.Draws { f with scopes } := .line rfl rfl rfl

theorem draws_register (f : FunctionState) (type : Ty) :
    f.Draws { f with function := (f.function.newRegister type).1 } := .line rfl rfl rfl

theorem draws_push (f : FunctionState) (h : i.choices? = none) :
    f.Draws (f.modifyBlock f.current (·.push i)) :=
  .line (Ir.Function.outline_modifyBlock (Ir.Block.outline_push h)) rfl rfl

theorem draws_reserve (f : FunctionState) (h : i.choices? = none) :
    f.Draws (f.modifyBlock f.function.entry (·.pushAlloca i)) :=
  .line (Ir.Function.outline_modifyBlock (Ir.Block.outline_pushAlloca h)) rfl rfl

/-- Code that is abandoned goes on in a new block. -/
theorem draws_abandon (f : FunctionState) : f.Draws f.abandon where
  loops := rfl
  flows he ho := by
    have hclosed := he.flows.close (t := .unreachable) fun _ h => by cases h
    have hadded := hclosed.addBlock (some "todo.after")
    have hsize : (f.close .unreachable).size = f.size := size_close
    have hflows := hadded.goTo (j := f.size) (by rw [size_addBlock, hsize]; exact Nat.lt_succ_self _)
      (Nat.le_refl _)
    have habandon : f.abandon =
        ((f.close .unreachable).addBlock (some "todo.after")).goTo f.size := by
      rw [← hsize]
      rfl
    rw [habandon]
    refine ⟨hflows, ?_⟩
    show ((f.close .unreachable).addBlock _).function.term? f.size = none
    rw [(alike_addBlock _ _).terms]
    exact Ir.Function.term?_of_size_le hsize.le

end FunctionState

namespace Emit

variable {α : Type} {b : FunctionState} {a : Emit α}

theorem draws_iff : Draws b a ↔
    ∀ o s v s', s.Continues b → a o s = .ok v s' → s'.Continues b := by
  refine triple_iff.trans ?_
  constructor
  · intro h o s v s' hs hr
    have hrun := h o s hs
    rw [hr] at hrun
    exact hrun
  · intro h o s hs
    cases hr : a o s with
    | ok v s' => exact h o s v s' hs hr
    | error => trivial

/-- An action that changes nothing but the function under construction, and that by a step. -/
theorem draws_of_step (h : ∀ o s v s' f, s.func = some f → a o s = .ok v s' →
    ∃ f', s'.func = some f' ∧ f.Draws f') : Draws b a := by
  refine draws_iff.mpr fun o s v s' ⟨f, hf, hd⟩ hr => ?_
  obtain ⟨f', hf', hd'⟩ := h o s v s' f hf hr
  exact ⟨f', hf', hd.trans hd'⟩

/-! ## Failures -/

@[spec high] theorem draws_refuse (fault : Fault) (range : Span) :
    Draws b (refuse fault range : Emit α) :=
  draws_iff.mpr fun _ _ _ _ _ hr => by cases hr

@[spec high] theorem draws_breach (e : Breach) : Draws b (breach e : Emit α) :=
  draws_iff.mpr fun _ _ _ _ _ hr => by cases hr

@[spec high] theorem draws_mismatch (expected found : Ty) (range : Span) :
    Draws b (mismatch expected found range : Emit α) := draws_refuse _ _

@[spec high] theorem draws_refuseName (e : ResolveError) : Draws b (refuseName e : Emit α) :=
  draws_refuse _ _

@[spec high] theorem draws_require (value : Option α) (fault : Fault) (range : Span) :
    Draws b (require value fault range) := by
  unfold require
  mvcgen

/-- A required part, which is used only if it is there. -/
theorem draws_required {β : Type} {value : Option α} {k : α → Emit β} {fault : Fault}
    {range : Span} (h : ∀ a, value = some a → Draws b (k a)) :
    Draws b (require value fault range >>= k) := by
  cases value with
  | none => exact draws_iff.mpr fun _ _ _ _ _ hr => by cases hr
  | some a => exact h a rfl

@[spec high] theorem draws_orRefuse (result : Except Fault α) (range : Span) :
    Draws b (orRefuse result range) := by
  unfold orRefuse
  mvcgen

@[spec high] theorem draws_orRefuseFold (result : Except FoldError α) (range : Span) :
    Draws b (orRefuseFold result range) := by
  unfold orRefuseFold
  mvcgen

/-! ## The state around -/

/-- An action that leaves the function under construction as it is. -/
theorem draws_of_same (h : ∀ o s v s', a o s = .ok v s' → s'.func = s.func) : Draws b a :=
  draws_iff.mpr fun o s v s' ⟨f, hf, hd⟩ hr => ⟨f, (h o s v s' hr).trans hf, hd⟩

@[spec high] theorem draws_warn (d : Diagnostic) : Draws b (warn d) :=
  draws_of_same fun _ _ _ _ h => by cases h; rfl

@[spec high] theorem draws_types : Draws b types :=
  draws_of_same fun _ _ _ _ h => by cases h; rfl

@[spec high] theorem draws_intern (ty : Ty) : Draws b (intern ty) :=
  draws_of_same fun _ _ _ _ h => by cases h; rfl

@[spec high] theorem draws_requireSized (ty : Ty) (range : Span) :
    Draws b (requireSized ty range) := by
  unfold requireSized
  mvcgen

@[spec high] theorem draws_isAccessible (view : Viewpoint) (vis : Visibility) :
    Draws b (isAccessible view vis) :=
  draws_of_same fun _ _ _ _ h => by cases h; rfl

@[spec high] theorem draws_resolveName (view : Viewpoint) (name : QName) :
    Draws b (resolveName view name) :=
  draws_of_same fun _ _ _ _ h => by cases h; rfl

@[spec high] theorem draws_symbolOf (id : EntityId) (range : Span) :
    Draws b (symbolOf id range) :=
  draws_of_same fun _ _ _ _ h => by rw [(symbolOf_ok h).2]

@[spec high] theorem draws_findLocal (name : String) : Draws b (findLocal? name) :=
  draws_of_same fun _ _ _ _ h => by cases h; rfl

@[spec high] theorem draws_localOf (name : QName) : Draws b (localOf? name) := by
  unfold localOf?
  mvcgen

@[spec high] theorem draws_emitted (c : Constant) : Draws b (emitted c) :=
  draws_of_same fun _ _ _ _ h => by cases h; rfl

@[spec high] theorem draws_constant (c : Constant) (range : Span) : Draws b (constant c range) := by
  unfold constant
  mvcgen

@[spec high] theorem draws_declareExternal (name : String) (params : List Ty) (result : Ty)
    (variadic : Bool) : Draws b (declareExternal name params result variadic) :=
  draws_of_same fun _ _ _ _ h => by cases h; rfl

@[spec high] theorem draws_function : Draws b function :=
  draws_of_same fun _ _ _ _ h => by rw [(function_ok h).2]

@[spec high] theorem draws_selfValue (range : Span) : Draws b (selfValue range) := by
  unfold selfValue
  mvcgen

/-! ## Evaluation -/

/-- What evaluation keeps: the function under construction is drawn on. -/
def drawing (b : FunctionState) (outer : Outer) : Setting where
  outer := outer
  frames _ := True
  blames _ := True
  code c := ∃ f, c.func = some f ∧ b.Draws f
  code_intern _ h := h
  code_abandon := fun ⟨f, hf, hd⟩ => ⟨f.abandon, by rw [hf]; rfl, hd.trans f.draws_abandon⟩

theorem draws_of_keeps_free (h : ∀ w : Setting, w.Open → (∀ e, w.strays e) → w.Keeps a) :
    Draws b a := by
  refine draws_iff.mpr fun o s v s' hs hr => ?_
  have hopen : (drawing b s.outer).Open := .of_strays (fun _ _ _ _ _ => trivial) fun _ => trivial
  have hrun := triple_iff.mp (h (drawing b s.outer) hopen fun _ => trivial) o s
    ⟨rfl, trivial, hs⟩
  rw [hr] at hrun
  exact hrun.2.2

theorem draws_of_keeps (h : ∀ w : Setting, w.Open → w.Keeps a) : Draws b a :=
  draws_of_keeps_free fun w hw _ => h w hw

/-- A call of a compile-time function as code. -/
theorem draws_prerunCall (view : Viewpoint) (f : PrerunFunction) (args : List Expr)
    (range : Span) : Draws b (do
      checkArgCount f args.length range
      let vs ← evaluateEach view args (f.args.map PrerunArg.type)
      callPrerun f vs range) := by
  refine draws_of_keeps_free fun w hw hs => ?_
  have hcall (vs : List Constant) : w.Keeps (callPrerun f vs range) :=
    keeps_callPrerun_open vs range hw (.inr (hs _))
  mvcgen [hcall, gives_evaluateEach_open] <;> simp_all

@[spec high] theorem draws_resolveType (view : Viewpoint) (ty : TypeExpr) :
    Draws b (resolveType view ty) :=
  draws_of_keeps fun _ hw => keeps_resolveType_open view ty hw

@[spec high] theorem draws_resolveTypeOption (view : Viewpoint) (ty : Option TypeExpr) :
    Draws b (resolveType? view ty) :=
  draws_of_keeps fun _ hw => keeps_resolveTypeOption_open view ty hw

@[spec high] theorem draws_evaluate (view : Viewpoint) (e : Expr) (expected : Option Ty) :
    Draws b (evaluate view e expected) :=
  draws_of_keeps fun _ hw => keeps_evaluate_open view e expected hw

@[spec high] theorem draws_evaluateEach (view : Viewpoint) (es : List Expr) (hints : List Ty) :
    Draws b (evaluateEach view es hints) :=
  draws_of_keeps fun _ hw => (gives_evaluateEach_open view es hints hw).keeps

@[spec high] theorem draws_typeMember (view : Viewpoint) (name : QName) :
    Draws b (typeMember view name) :=
  draws_of_keeps fun _ hw => keeps_typeMember_open view name hw

@[spec high] theorem draws_typeConstant (ty : Ty) : Draws b (typeConstant ty) :=
  draws_of_keeps fun _ _ => keeps_typeConstant ty

@[spec high] theorem draws_definedAs (name : QName) (e : ResolveError) (expected : Option Ty) :
    Draws b (definedAs name e expected) :=
  draws_of_keeps fun _ _ => keeps_definedAs name e expected

@[spec high] theorem draws_fieldOrder (view : Viewpoint) (ty : Ty) (names : Option (List Ident))
    (count : Nat) (range : Span) : Draws b (fieldOrder view ty names count range) :=
  draws_of_keeps fun _ _ => keeps_fieldOrder view ty names count range

@[spec high] theorem draws_unfinished (message : Option String) (range : Span) :
    Draws b (unfinished message range) :=
  draws_of_keeps fun _ _ => keeps_unfinished message range

/-! ## Instructions -/

theorem modifyCurrent_ok {g : Ir.Block → Ir.Block} {o : Options} {s s' : Compiler}
    {f : FunctionState} {u : Unit} (hf : s.func = some f) (h : modifyCurrent g o s = .ok u s') :
    s' = { s with func := some (f.modifyBlock f.current g) } := by
  rw [modifyCurrent_apply g hf] at h
  split at h
  · cases h
  · cases h
    rfl

section

variable {o : Options} {s s' : Compiler} {f : FunctionState}

theorem newBlock_apply (label : String) (hf : s.func = some f) :
    newBlock label o s = .ok f.size { s with func := some (f.addBlock (some label)) } := by
  unfold newBlock
  rw [bind_apply, function_apply hf]
  rfl

theorem switchTo_apply (j : Ir.BlockId) (hf : s.func = some f) :
    switchTo j o s = .ok () { s with func := some (f.goTo j) } := by
  unfold switchTo
  rw [bind_apply, function_apply hf]
  rfl

theorem currentBlock_apply (hf : s.func = some f) : currentBlock o s = .ok f.current s := by
  unfold currentBlock
  rw [bind_apply, function_apply hf]
  rfl

theorem fresh_apply (type : Ty) (hf : s.func = some f) :
    fresh type o s = .ok (f.function.newRegister type).2
      { s with func := some { f with function := (f.function.newRegister type).1 } } := by
  unfold fresh
  rw [bind_apply, function_apply hf]
  rfl

end

@[spec high] theorem draws_fresh (type : Ty) : Draws b (fresh type) := by
  refine draws_of_step fun o s v s' f hf h => ?_
  rw [fresh_apply type hf] at h
  cases h
  exact ⟨_, rfl, f.draws_register type⟩

@[spec high] theorem draws_push {i : Ir.Instr} (hi : i.choices? = none) : Draws b (push i) :=
  draws_of_step fun _ _ _ _ f hf h => ⟨_, by rw [modifyCurrent_ok hf h], f.draws_push hi⟩

@[spec high] theorem draws_compute (type : Ty) {instr : Ir.Register → Ir.Instr}
    (hi : ∀ r, (instr r).choices? = none) : Draws b (compute type instr) := by
  unfold compute
  mvcgen
  exact hi _

@[spec high] theorem draws_alloca (type : Ty) (name : Option String) :
    Draws b (alloca type name) := by
  have hreserve (r : Ir.Register) : Draws b (do
      let f ← function
      if (f.function.block? f.function.entry).isNone then breach .missingEntry
      setFunction { f with
        function := f.function.modifyBlock f.function.entry (·.pushAlloca (.alloca r type name)) }
      return r) := by
    refine draws_of_step fun o s v s' f hf h => ?_
    rw [bind_apply, function_apply hf] at h
    dsimp only at h
    split at h
    · cases h
    · cases h
      exact ⟨_, rfl, f.draws_reserve rfl⟩
  unfold alloca
  exact Triple.bind _ _ (draws_intern _) fun ty => Triple.bind _ _ (draws_fresh ty) hreserve

/-! ## Memory -/

@[spec high] theorem draws_load (ptr : Ir.Value) (type : Ty) : Draws b (load ptr type) :=
  draws_compute _ fun _ => rfl

@[spec high] theorem draws_store (value ptr : Ir.Value) : Draws b (store value ptr) :=
  draws_push rfl

@[spec high] theorem draws_referenceAddress (v : Value) : Draws b (referenceAddress v) := by
  unfold referenceAddress
  mvcgen

@[spec high] theorem draws_rvalue (v : Value) : Draws b (rvalue v) := by
  unfold rvalue
  mvcgen

@[spec high] theorem draws_placeOf (v : Value) : Draws b (place? v) := by
  unfold place?
  mvcgen

@[spec high] theorem draws_place (v : Value) : Draws b (place v) := by
  unfold place
  mvcgen

@[spec high] theorem draws_tempSlot (type : Ty) (range : Span) : Draws b (tempSlot type range) := by
  unfold tempSlot
  mvcgen

@[spec high] theorem draws_targetSlot (type : Ty) (expect : Expect) (range : Span) :
    Draws b (targetSlot type expect range) := by
  unfold targetSlot
  mvcgen

@[spec high] theorem draws_fieldPtr (base : Ir.Value) (aggregate : Ty) (index : Nat)
    (member : Ty) : Draws b (fieldPtr base aggregate index member) := by
  unfold fieldPtr
  mvcgen
  simp

@[spec high] theorem draws_elementPtr (base : Ir.Value) (element : Ty) (isVar : Bool)
    (index : Ir.Value) : Draws b (elementPtr base element isVar index) := by
  unfold elementPtr
  mvcgen
  simp

@[spec high] theorem draws_stringParts (v : Ir.Value) : Draws b (stringParts v) := by
  unfold stringParts
  mvcgen <;> simp

@[spec high] theorem draws_sliceData (v : Ir.Value) (element : Ty) (isVar : Bool) :
    Draws b (sliceData v element isVar) := by
  unfold sliceData
  mvcgen
  simp

@[spec high] theorem draws_castTo (op : Ir.CastOp) (value : Ir.Value) (target : Ty) :
    Draws b (castTo op value target) := draws_compute _ fun _ => rfl

@[spec high] theorem draws_aggregateFrom (type : Ty) (members : List Ir.Value) :
    ∀ (index : Nat) (sofar : Ir.Value), Draws b (aggregateFrom type index sofar members) := by
  induction members with
  | nil =>
    intro index sofar
    unfold aggregateFrom
    mvcgen
  | cons member rest ih =>
    intro index sofar
    unfold aggregateFrom
    exact Triple.bind _ _ (draws_compute _ fun _ => rfl) fun r => ih _ _

@[spec high] theorem draws_aggregate (type : Ty) (members : List Ir.Value) (range : Span) :
    Draws b (aggregate type members range) := by
  unfold aggregate
  mvcgen

/-! ## Scopes -/

@[spec high] theorem draws_pushScope : Draws b pushScope := by
  refine draws_of_step fun o s v s' f hf h => ?_
  unfold pushScope at h
  rw [bind_apply, function_apply hf] at h
  cases h
  exact ⟨_, rfl, f.draws_scopes _⟩

@[spec high] theorem draws_popScope : Draws b popScope := by
  refine draws_of_step fun o s v s' f hf h => ?_
  unfold popScope at h
  rw [bind_apply, function_apply hf] at h
  cases h
  exact ⟨_, rfl, f.draws_scopes _⟩

@[spec high] theorem draws_declareLocal (v : LocalVar) : Draws b (declareLocal v) := by
  refine draws_of_step fun o s u s' f hf h => ?_
  obtain ⟨f', hf', rfl⟩ := declareLocal_ok h
  cases hf.symm.trans hf'
  exact ⟨_, rfl, f.draws_scopes _⟩

end Emit

end Staged
