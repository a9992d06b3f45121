/-
  Staged.Proofs.Ssa.Instr — writing instructions that find their registers.

  One rule for each action on the state and on the function under construction. What an
  instruction assigns is at hand afterwards, and so is memory that is reserved. A block
  that is made starts with what is at hand where it is made.
-/

import Staged.Proofs.Ssa.Logic

namespace Staged.Emit

open Ir (Register BlockId)

variable {w : Backdrop} {α β : Type} {x₀ x : Point} {Q : α → Point → Prop} {R : β → Point → Prop}

/-! ## Failures -/

theorem lands_refuse (f : Fault) (range : Span) : w.Arrives x₀ x (refuse f range) Q :=
  fun _ _ _ => rfl

theorem lands_mismatch (expected found : Ty) (range : Span) :
    w.Arrives x₀ x (mismatch expected found range) Q := lands_refuse _ _

theorem lands_require {value : Option α} (f : Fault) (range : Span)
    (h : ∀ v, value = some v → Q v x) : w.Lands x (require value f range) Q := by
  cases value with
  | none => exact lands_refuse f range
  | some v => exact .pure (h v rfl)

/-- A value that nothing is known of. -/
theorem lands_required (value : Option α) (f : Fault) (range : Span) :
    w.Lands x (require value f range) fun v _ => value = some v :=
  lands_require f range fun _ h => h

/-- A test that stops everything. -/
theorem lands_guard {c : Prop} [Decidable c] {f : Fault} {range : Span} {k : α → Emit β}
    {rest : Emit β} (hrest : ¬c → w.Arrives x₀ x rest R) :
    w.Arrives x₀ x (if c then refuse f range >>= k else rest) R := by
  split
  · exact fun _ _ _ => rfl
  · exact hrest ‹_›

/-- A test that everything depends on. -/
theorem lands_unless {c : Prop} [Decidable c] {f : Fault} {range : Span} {k : α → Emit β}
    {rest : Emit β} (hrest : c → w.Arrives x₀ x rest R) :
    w.Arrives x₀ x (if c then rest else refuse f range >>= k) R := by
  split
  · exact hrest ‹_›
  · exact fun _ _ _ => rfl

theorem lands_orRefuse (r : Except Fault α) (range : Span) :
    w.Lands x (orRefuse r range) fun _ _ => True := by
  cases r with
  | ok v => exact .pure trivial
  | error f => exact lands_refuse f range

theorem lands_orRefuseFold (r : Except FoldError α) (range : Span) :
    w.Lands x (orRefuseFold r range) fun _ _ => True := by
  cases r with
  | ok v => exact .pure trivial
  | error e => exact lands_refuse _ range

/-! ## Types, names and constants -/

/-- An action that leaves code, frames and the outer part as they are. -/
theorem lands_same {a : Emit α} (ha : ∀ o s, w.Stands x s → match a o s with
      | .ok v s' => s'.outer = s.outer ∧ s'.frames = s.frames ∧ s'.func = s.func ∧
        s'.ir = s.ir ∧ Q v x
      | .error f _ => f.isFault = true) : w.Lands x a Q := by
  intro o s hs
  have h := ha o s hs
  cases hr : a o s with
  | error f s' =>
    rw [hr] at h
    exact h
  | ok v s' =>
    rw [hr] at h
    obtain ⟨houter, hframes, hfunc, hir, hq⟩ := h
    obtain ⟨hfunc', hown, hadded⟩ := hs.code
    refine ⟨x, .refl x, .refl x, ⟨houter.trans hs.outer, hframes.trans hs.frames,
      hfunc.trans hfunc', hown, ?_⟩, hq⟩
    rw [show s'.core.ir = s.core.ir from hir]
    exact hadded

theorem lands_warn (d : Diagnostic) : w.Lands x (warn d) fun _ _ => True :=
  lands_same fun _ _ _ => ⟨rfl, rfl, rfl, rfl, trivial⟩

theorem lands_types : w.Lands x types fun _ _ => True :=
  lands_same fun _ _ _ => ⟨rfl, rfl, rfl, rfl, trivial⟩

theorem lands_intern (ty : Ty) : w.Lands x (intern ty) fun _ _ => True :=
  lands_same fun _ _ _ => ⟨rfl, rfl, rfl, rfl, trivial⟩

theorem lands_isAccessible (view : Viewpoint) (vis : Visibility) :
    w.Lands x (isAccessible view vis) fun _ _ => True :=
  lands_same fun _ _ _ => ⟨rfl, rfl, rfl, rfl, trivial⟩

theorem lands_resolveName (view : Viewpoint) (name : QName) :
    w.Lands x (resolveName view name) fun _ _ => True :=
  lands_same fun _ _ _ => ⟨rfl, rfl, rfl, rfl, trivial⟩

theorem lands_requireSized (ty : Ty) (range : Span) :
    w.Lands x (requireSized ty range) fun _ _ => True := by
  refine lands_types.bind fun t _ _ _ => ?_
  split
  · exact .pure trivial
  · exact lands_refuse _ _

/-- What an entity has become; a function has the type of one. -/
theorem lands_symbolOf (id : EntityId) (range : Span) : w.Lands x (symbolOf id range) fun y _ =>
    ∀ i ty, y = .function i ty → ∃ result params variadic, ty = .function result params variadic := by
  refine lands_same fun o s hs => ?_
  have hrun : symbolOf id range o s =
      require (s.symbols.lookup id) (.notReady (s.entities.displayName id)) range o s := rfl
  have hsymbols : s.symbols = w.outer.symbols := congrArg Outer.symbols hs.outer
  rw [hrun, hsymbols]
  cases hl : w.outer.symbols.lookup id with
  | none => rfl
  | some y =>
    refine ⟨rfl, rfl, rfl, rfl, fun i ty hy => ?_⟩
    rw [hy] at hl
    exact w.typed hl

theorem lands_evaluate (view : Viewpoint) (e : Expr) (expected : Option Ty) :
    w.Lands x (evaluate view e expected) fun _ _ => True :=
  Backdrop.lands_of_ends ((ends_evaluate view e expected).mono fun _ _ => trivial)

theorem lands_evaluateEach (view : Viewpoint) (es : List Expr) (hints : List Ty) :
    w.Lands x (evaluateEach view es hints) fun _ _ => True :=
  Backdrop.lands_of_ends ((ends_evaluateEach view es hints).mono fun _ _ => trivial)

theorem lands_callPrerun (f : PrerunFunction) (args : List Constant) (range : Span) :
    w.Lands x (callPrerun f args range) fun _ _ => True :=
  Backdrop.lands_of_ends ((ends_callPrerun f range fun _ _ => trivial).mono fun _ _ => trivial)

theorem lands_resolveType (view : Viewpoint) (ty : TypeExpr) :
    w.Lands x (resolveType view ty) fun _ _ => True :=
  Backdrop.lands_of_ends (ends_resolveType view ty)

theorem lands_resolveTypeOption (view : Viewpoint) (ty : Option TypeExpr) :
    w.Lands x (resolveType? view ty) fun _ _ => True :=
  Backdrop.lands_of_ends (ends_resolveTypeOption view ty)

theorem lands_unfinished (message : Option String) (range : Span) :
    w.Lands x (unfinished message range) fun _ _ => True :=
  Backdrop.lands_of_ends (ends_unfinished message range)

theorem lands_emitted (c : Constant) : w.Lands x (emitted c) fun _ _ => True := by
  intro o s hs
  obtain ⟨hg, -⟩ := Data.emits_emitted (E := ⟨0, 0, 0, 0⟩) c.type c.data ⟨s.types, s.ir⟩
  obtain ⟨hfunc, hown, added, hadded, hcert⟩ := hs.code
  refine ⟨x, .refl x, .refl x, ⟨hs.outer, hs.frames, hfunc, hown, added, ?_, hcert⟩, trivial⟩
  exact hg.functions.trans hadded

theorem lands_constant (c : Constant) (range : Span) :
    w.Lands x (constant c range) fun v x' => v.At x' :=
  (lands_emitted c).bind fun _ _ _ _ => .pure (Value.at_constant _ _)

/-! ## Instructions and blocks -/

theorem lands_function : w.Lands x function fun f x' => f = x'.state :=
  lands_same fun o s hs => by
    rw [function_apply hs.code.func]
    exact ⟨rfl, rfl, rfl, rfl, rfl⟩

/-- The state after the function under construction has changed. -/
theorem stands_setFunction {x' : Point} {s : Compiler} (hs : w.Stands x s) (hid : x'.state.id = x.state.id) :
    w.Stands x' { s with func := some x'.state } :=
  ⟨hs.outer, hs.frames, rfl, hid ▸ hs.code.own, hs.code.functions⟩

theorem lands_fresh (type : Ty) : w.Lands x (fresh type) fun r x' =>
    x'.state.function.Pending r ∧ x.state.function.nextRegister ≤ r.id := by
  intro o s hs
  unfold fresh
  rw [bind_apply, function_apply hs.code.func]
  exact ⟨x.fresh type, x.leads_fresh type, (x.leads_fresh type).toGrows,
    stands_setFunction hs rfl, x.pending_fresh type, Nat.le_refl _⟩

theorem modifyCurrent_stands {g : Ir.Block → Ir.Block} {o : Options} {s : Compiler}
    (hs : w.Stands x s) : modifyCurrent g o s = .ok () { s with func := some { x.state with
      function := x.state.function.modifyBlock x.state.current g } } := by
  obtain ⟨b, hb⟩ := x.exists_current
  rw [modifyCurrent_apply g hs.code.func, hb]
  rfl

/-- An instruction is written whose register, if it has one, was taken after an earlier
point. -/
theorem arrives_push {i : Ir.Instr} (h : x₀.Leads x) (hi : i.At x)
    (hdest : ∀ r, i.dest? = some r →
      x.state.function.Pending r ∧ x₀.state.function.nextRegister ≤ r.id) :
    w.Arrives x₀ x (push i) fun _ x' => ∀ r, i.dest? = some r → r ∈ x'.here := by
  intro o s hs
  obtain ⟨x', hstate, hgrows, hhere, hdests, hassigned⟩ :=
    x.exists_push hi.isAlloca (fun r hr => (hdest r hr).1) hi.uses hi.incoming
  unfold push
  rw [modifyCurrent_stands hs, ← hstate]
  refine ⟨x', ⟨h.toGrows.trans hgrows, ?_, ?_, ?_, h.here.trans hhere, fun r hr hid => ?_⟩, hgrows,
    stands_setFunction hs hgrows.id, hdests⟩
  · rw [hstate]
    exact h.scopes
  · rw [hstate]
    exact h.loops
  · rw [hstate]
    exact h.self
  · rcases hassigned r hr with hr | hr
    · exact h.old r hr hid
    · exact absurd (hdest r hr).2 (Nat.not_le.mpr hid)

/-- An instruction without a result. -/
theorem lands_push {i : Ir.Instr} (hi : i.At x) (hdest : i.dest? = none) :
    w.Lands x (push i) fun _ _ => True := by
  refine (arrives_push (.refl x) hi fun r hr => ?_).mono fun _ _ _ _ _ => trivial
  rw [hdest] at hr
  cases hr

/-- An instruction with a result. -/
theorem lands_compute (type : Ty) {instr : Register → Ir.Instr}
    (hi : ∀ r x', x.Leads x' → (instr r).At x') (hdest : ∀ r, (instr r).dest? = some r) :
    w.Lands x (compute type instr) fun r x' => r ∈ x'.here := by
  refine (lands_fresh type).then (.refl x) fun r x₁ hx₁ _ hr => ?_
  refine (arrives_push hx₁ (hi r x₁ hx₁) fun r' hr' => ?_).bind fun _ x₂ hx₂ _ hdests => ?_
  · cases (hdest r).symm.trans hr'
    exact hr
  · exact .pure hx₂ (hdests r (hdest r))

theorem lands_alloca (type : Ty) (name : Option String) :
    w.Lands x (alloca type name) fun r x' => r ∈ x'.here := by
  refine (lands_intern _).bind fun ty x _ _ => ?_
  refine (lands_fresh ty).then (.refl x) fun r x₁ hx₁ _ ⟨hpending, hnew⟩ => ?_
  intro o s hs
  obtain ⟨x₂, hstate, hgrows, hhere, hr, hassigned⟩ := x₁.exists_reserve type name hpending
  obtain ⟨b, hb⟩ := x₁.exists_entry
  rw [bind_apply, function_apply hs.code.func]
  simp only [hb, Option.isNone_some, Bool.false_eq_true, if_false]
  refine ⟨x₂, ⟨hx₁.toGrows.trans hgrows, ?_, ?_, ?_, hx₁.here.trans hhere, fun r' hr' hid => ?_⟩,
    hgrows, ?_, hr⟩
  · rw [hstate]
    exact hx₁.scopes
  · rw [hstate]
    exact hx₁.loops
  · rw [hstate]
    exact hx₁.self
  · rcases hassigned r' hr' with hr' | rfl
    · exact hx₁.old r' hr' hid
    · exact absurd hnew (Nat.not_le.mpr hid)
  · have hstands := stands_setFunction hs hgrows.id
    rw [hstate] at hstands
    exact hstands

/-- A new block starts with what is at hand. -/
theorem lands_newBlock (label : String) : w.Lands x (newBlock label) fun b x' =>
    x'.Opens b x'.here ∧ x'.here = x.here := by
  intro o s hs
  unfold newBlock
  rw [bind_apply, function_apply hs.code.func]
  exact ⟨x.addBlock (some label), x.leads_addBlock _, (x.leads_addBlock _).toGrows,
    stands_setFunction hs rfl, (x.here_addBlock _).symm ▸ x.opens_addBlock _, x.here_addBlock _⟩

/-- Code goes on in a block that starts with what was at hand. -/
theorem arrives_switchTo {b : BlockId} {at_ : Set Register} (h : x₀.Leads x) (hb : x.Opens b at_)
    (hat : x₀.here ⊆ at_) :
    w.Arrives x₀ x (switchTo b) fun _ _ => True := by
  intro o s hs
  unfold switchTo
  rw [bind_apply, function_apply hs.code.func]
  exact ⟨x.goTo h hb hat, x.leads_goTo h hb hat, x.grows_goTo h hb hat,
    stands_setFunction hs rfl, trivial⟩

/-- Code goes on in a block that was made where all began. -/
theorem arrives_enter {b : BlockId} (h : x₀.Leads x) (hb : x₀.Opens b x₀.here) :
    w.Arrives x₀ x (switchTo b) fun _ _ => True :=
  arrives_switchTo h (h.opens hb) subset_rfl

theorem lands_currentBlock : w.Lands x currentBlock fun b x' => b = x'.state.current := by
  refine lands_function.bind fun f x' _ hf => ?_
  exact .pure (congrArg FunctionState.current hf)

theorem lands_terminate {t : Ir.Terminator} (huses : ∀ r ∈ t.uses, r ∈ x.here)
    (hedges : ∀ b ∈ t.successors, x.state.Reaches x.start b) :
    w.Lands x (terminate t) fun _ _ => True := by
  intro o s hs
  obtain ⟨x', hstate, -, hleads, -⟩ := x.exists_close huses hedges
  unfold terminate
  rw [modifyCurrent_stands hs, ← hstate]
  exact ⟨x', hleads, hleads.toGrows, stands_setFunction hs hleads.id, trivial⟩

theorem lands_jump {b : BlockId} (hb : x.state.Reaches x.start b) :
    w.Lands x (jump b) fun _ _ => True :=
  lands_terminate (fun _ h => by cases h) fun _ h => List.mem_singleton.mp h ▸ hb

theorem lands_branch {cond : Ir.Value} {b b' : BlockId} (hc : cond.At x)
    (hb : x.state.Reaches x.start b) (hb' : x.state.Reaches x.start b') :
    w.Lands x (branch cond b b') fun _ _ => True := by
  refine lands_terminate hc fun c hmem => ?_
  rcases List.mem_cons.mp hmem with rfl | hmem
  · exact hb
  · exact List.mem_singleton.mp hmem ▸ hb'

theorem lands_isClosed : w.Lands x isClosed fun _ _ => True := by
  refine Backdrop.Lands.bind (Q := fun s x' => s.func = some x'.state)
    (lands_same fun o s hs => ⟨rfl, rfl, rfl, rfl, hs.code.func⟩) fun s x₁ _ hfunc => ?_
  rw [hfunc]
  exact .pure trivial

/-! ## Memory -/

variable {v : Value} {ir : Ir.Value}

theorem lands_load (type : Ty) (h : ir.At x) :
    w.Lands x (load ir type) fun r x' => r ∈ x'.here :=
  lands_compute type (fun _ _ hx => Ir.Instr.at_load (h.mono hx)) fun _ => rfl

theorem lands_store {ptr : Ir.Value} (h : ir.At x) (hp : ptr.At x) :
    w.Lands x (store ir ptr) fun _ _ => True :=
  lands_push (Ir.Instr.at_store h hp) rfl

/-- A register that is at hand, as a value. -/
theorem lands_temporary {a : Emit Register} (type : Ty) (range : Span)
    (ha : w.Lands x a fun r x' => r ∈ x'.here) :
    w.Lands x (do return Value.temporary (.reg (← a)) type range) fun v x' => v.At x' :=
  ha.bind fun _ _ _ hr => .pure (Ir.Value.at_reg hr)

theorem lands_register {a : Emit Register} (ha : w.Lands x a fun r x' => r ∈ x'.here) :
    w.Lands x (do return Ir.Value.reg (← a)) fun v x' => v.At x' :=
  ha.bind fun _ _ _ hr => .pure (Ir.Value.at_reg hr)

theorem lands_referenceAddress (h : v.At x) :
    w.Lands x (referenceAddress v) fun v' x' => v'.At x' := by
  unfold referenceAddress
  split
  · exact .pure h
  · exact lands_temporary _ _ (lands_load _ h)

theorem lands_rvalue (h : v.At x) : w.Lands x (rvalue v) fun v' x' => v'.At x' := by
  unfold rvalue
  split
  · refine (lands_referenceAddress h).bind fun address x' _ ha => ?_
    exact lands_temporary _ _ (lands_load _ ha)
  · split
    · exact .pure h
    · split
      · exact lands_constant _ _
      · exact lands_temporary _ _ (lands_load _ h)

theorem lands_placeOf (h : v.At x) :
    w.Lands x (place? v) fun p x' => ∀ v', p = some v' → v'.At x' := by
  unfold place?
  split
  · refine (lands_referenceAddress h).bind fun address x' _ ha => ?_
    refine .pure fun v' hv' => ?_
    cases hv'
    exact ha
  · refine .pure fun v' hv' => ?_
    split at hv'
    · cases hv'
    · cases hv'
      exact h

theorem lands_place (h : v.At x) : w.Lands x (place v) fun v' x' => v'.At x' := by
  refine (lands_placeOf h).bind fun p x₁ hx₁ hp => ?_
  split
  · exact .pure (hp _ rfl)
  · refine (lands_alloca _ _).bind fun slot x₂ hx₂ hslot => ?_
    refine (lands_store ((h.mono hx₁).mono hx₂) (Ir.Value.at_reg hslot)).bind fun _ x₃ hx₃ _ => ?_
    exact .pure (Ir.Value.at_reg (hx₃.here hslot))

theorem lands_tempSlot (type : Ty) (range : Span) :
    w.Lands x (tempSlot type range) fun v x' => v.At x' :=
  (lands_alloca _ _).bind fun _ _ _ hr => .pure (Ir.Value.at_reg hr)

theorem lands_targetSlot (type : Ty) {expect : Expect} (range : Span) (h : expect.At x) :
    w.Lands x (targetSlot type expect range) fun v x' => v.At x' := by
  unfold targetSlot
  split
  · split
    · exact .pure (h _ ‹_›)
    · exact lands_tempSlot _ _
  · exact lands_tempSlot _ _

theorem lands_fieldPtr (aggregate : Ty) (index : Nat) (member : Ty) (h : ir.At x) :
    w.Lands x (fieldPtr ir aggregate index member) fun r x' => r ∈ x'.here := by
  refine (lands_intern _).bind fun ty x₁ hx₁ _ => ?_
  exact lands_compute ty (fun _ _ hx => Ir.Instr.at_fieldPtr _ _ ((h.mono hx₁).mono hx))
    fun _ => rfl

theorem lands_elementPtr (element : Ty) (isVar : Bool) {index : Ir.Value} (h : ir.At x)
    (hi : index.At x) :
    w.Lands x (elementPtr ir element isVar index) fun r x' => r ∈ x'.here := by
  refine (lands_intern _).bind fun ty x₁ hx₁ _ => ?_
  exact lands_compute ty (fun _ _ hx =>
    Ir.Instr.at_elementPtr _ ((h.mono hx₁).mono hx) ((hi.mono hx₁).mono hx)) fun _ => rfl

theorem lands_extract (type : Ty) (index : Nat) (h : ir.At x) :
    w.Lands x (compute type (.extract · ir index)) fun r x' => r ∈ x'.here :=
  lands_compute type (fun _ _ hx => Ir.Instr.at_extract _ (h.mono hx)) fun _ => rfl

theorem lands_stringParts (h : ir.At x) :
    w.Lands x (stringParts ir) fun r x' => r.1 ∈ x'.here ∧ r.2 ∈ x'.here := by
  refine (lands_intern _).bind fun ty x₁ hx₁ _ => ?_
  refine (lands_extract ty 0 (h.mono hx₁)).bind fun data x₂ hx₂ hdata => ?_
  refine (lands_extract _ 1 ((h.mono hx₁).mono hx₂)).bind fun length x₃ hx₃ hlength => ?_
  exact .pure ⟨hx₃.here hdata, hlength⟩

theorem lands_sliceData (element : Ty) (isVar : Bool) (h : ir.At x) :
    w.Lands x (sliceData ir element isVar) fun r x' => r ∈ x'.here :=
  (lands_intern _).bind fun ty _ hx₁ _ => lands_extract ty 0 (h.mono hx₁)

theorem lands_castTo (op : Ir.CastOp) (target : Ty) (h : ir.At x) :
    w.Lands x (castTo op ir target) fun r x' => r ∈ x'.here :=
  lands_compute target (fun _ _ hx => Ir.Instr.at_cast _ (h.mono hx)) fun _ => rfl

theorem lands_aggregateFrom (type : Ty) :
    ∀ (members : List Ir.Value) (index : Nat) {sofar : Ir.Value} {x : Point}, sofar.At x →
      (∀ m ∈ members, m.At x) →
      w.Lands x (aggregateFrom type index sofar members) fun v x' => v.At x'
  | [], index, sofar, x, hs, _ => by
    unfold aggregateFrom
    exact .pure hs
  | member :: rest, index, sofar, x, hs, hm => by
    obtain ⟨hmember, hrest⟩ := List.forall_mem_cons.mp hm
    unfold aggregateFrom
    refine (lands_compute type (fun _ _ hx => Ir.Instr.at_insert _ (hs.mono hx) (hmember.mono hx))
      fun _ => rfl).bind fun r x₁ hx₁ hr => ?_
    exact lands_aggregateFrom type rest (index + 1) (Ir.Value.at_reg hr) fun m hm =>
      (hrest m hm).mono hx₁

theorem lands_aggregate (type : Ty) {members : List Ir.Value} (range : Span)
    (h : ∀ m ∈ members, m.At x) :
    w.Lands x (aggregate type members range) fun v x' => v.At x' :=
  (lands_aggregateFrom type members 0 (Ir.Value.at_const _) h).bind fun _ _ _ hv =>
    .pure hv

/-! ## Locals -/

theorem at_of_findLocal {name : String} {l : LocalVar} (h : x.state.findLocal? name = some l) :
    l.At x := by
  obtain ⟨scope, hscope, hfind⟩ := List.exists_of_findSome?_eq_some h
  exact x.locals scope hscope l (List.mem_of_find?_eq_some hfind)

theorem lands_localOf (name : QName) :
    w.Lands x (localOf? name) fun r x' => ∀ l, r = some l → l.At x' := by
  have hfind (text : String) :
      w.Lands x (findLocal? text) fun r x' => ∀ l, r = some l → l.At x' := by
    refine lands_same fun o s hs => ⟨rfl, rfl, rfl, rfl, fun l hl => ?_⟩
    rw [show s.func = some x.state from hs.code.func] at hl
    exact at_of_findLocal hl
  unfold localOf?
  split
  · exact hfind _
  · exact .pure fun l hl => by cases hl

theorem at_localValue {l : LocalVar} (range : Span) (h : l.At x) : (localValue l range).At x := by
  unfold localValue
  split
  · exact h
  · exact h

theorem lands_selfValue (range : Span) :
    w.Lands x (selfValue range) fun v x' => v.At x' := by
  refine Backdrop.Lands.bind (Q := fun s x' => s.func = some x'.state)
    (lands_same fun o s hs => ⟨rfl, rfl, rfl, rfl, hs.code.func⟩) fun s x₁ _ hfunc => ?_
  refine (lands_required _ _ _).bind fun inst x₂ hx₂ hinst => ?_
  rw [hfunc] at hinst
  exact .pure fun r hr => hx₂.here (x₁.self inst hinst r hr)

end Staged.Emit
