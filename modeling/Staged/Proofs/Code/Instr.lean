/-
  Staged.Proofs.Code.Instr — writing instructions.

  One rule for each action on the state and on the function under construction. An
  instruction may be written when all it refers to exists, and a block may be closed when
  the blocks it goes to exist too. Registers refer to nothing.
-/

import Staged.Proofs.Code.Sound

namespace Staged

/-! ## References -/

theorem Ty.eq_ref_of_refInfo? {ty sub : Ty} {isVar : Bool} (h : ty.refInfo? = some (sub, isVar)) :
    ty = .ref sub isVar := by
  cases ty <;> cases h
  rfl

theorem Ty.value_eq_self {ty : Ty} (h : ty.refInfo? = none) : ty.value = ty := by
  cases ty <;> first | rfl | cases h

/-! ## Values that refer to what exists -/

def Value.Within (v : Value) (E : Extent) : Prop := E.Covers v.ir.refs

def Expect.Within (e : Expect) (E : Extent) : Prop := ∀ v, e.slot = some v → v.Within E

def LocalVar.Within (v : LocalVar) (E : Extent) : Prop := E.Covers v.address.refs

section

variable {E : Extent} {type : Ty} {isVar : Bool} {storage : Storage} {range : Span}

@[simp] theorem Value.within_temporary {ir : Ir.Value} :
    (Value.temporary ir type range).Within E ↔ E.Covers ir.refs := Iff.rfl

@[simp] theorem Value.within_stored {ir : Ir.Value} :
    (Value.stored ir type isVar storage range).Within E ↔ E.Covers ir.refs := Iff.rfl

@[simp] theorem Value.within_void : (Value.void range).Within E := Extent.covers_nil

@[simp] theorem Expect.within_nothing : Expect.nothing.Within E := fun _ h => by cases h

@[simp] theorem Expect.within_of : (Expect.of type).Within E := fun _ h => by cases h

@[simp] theorem Expect.within_maybe {type : Option Ty} : (Expect.maybe type).Within E :=
  fun _ h => by cases h

@[simp] theorem Expect.within_hint {e : Expect} : e.hint.Within E := fun _ h => by cases h

@[simp] theorem Expect.within_inSlot {v : Value} : (Expect.inSlot v).Within E ↔ v.Within E :=
  ⟨fun h => h v rfl, fun h w hw => by cases hw; exact h⟩

end

/-! ## Constants -/

namespace Pool

structure Grows (p p' : Pool) : Prop where
  types : p.types.SameDefinitions p'.types
  functions : p'.ir.functions = p.ir.functions
  globals : p'.ir.globals = p.ir.globals
  strings : p.ir.strings.size ≤ p'.ir.strings.size

/-- A pool action whose result has the property if all strings afterwards fit. -/
def Emits (E : Extent) {α : Type} (m : StateM Pool α) (Q : α → Prop) : Prop :=
  ∀ p, p.Grows (m p).2 ∧ ((m p).2.ir.strings.size ≤ E.strings → Q (m p).1)

variable {α β : Type} {E : Extent} {m : StateM Pool α} {k : α → StateM Pool β} {Q : α → Prop}
  {R : β → Prop}

theorem Grows.refl (p : Pool) : p.Grows p := ⟨.refl p.types, rfl, rfl, Nat.le_refl _⟩

theorem Grows.trans {a b c : Pool} (h : a.Grows b) (h' : b.Grows c) : a.Grows c :=
  ⟨h.types.trans h'.types, h'.functions.trans h.functions, h'.globals.trans h.globals, h.strings.trans h'.strings⟩

theorem Emits.pure {v : α} (h : Q v) : Emits E (pure v) Q := fun p => ⟨.refl p, fun _ => h⟩

theorem Emits.bind (hm : Emits E m Q) (hk : ∀ v, Emits E (k v) fun w => Q v → R w) :
    Emits E (m >>= k) R := by
  intro p
  obtain ⟨hg, hq⟩ := hm p
  obtain ⟨hg', hr⟩ := hk (m p).1 (m p).2
  exact ⟨hg.trans hg', fun h => hr h (hq (hg'.strings.trans h))⟩

theorem Emits.mono {Q' : α → Prop} (hm : Emits E m Q) (h : ∀ v, Q v → Q' v) : Emits E m Q' :=
  fun p => ⟨(hm p).1, fun hf => h _ ((hm p).2 hf)⟩

theorem emits_get : Emits E (get : StateM Pool Pool) fun _ => True :=
  fun p => ⟨.refl p, fun _ => trivial⟩

theorem emits_intern (ty : Ty) : Emits E (intern ty) fun _ => True :=
  fun p => ⟨⟨p.types.same_intern ty, rfl, rfl, Nat.le_refl _⟩, fun _ => trivial⟩

theorem emits_string (s : String) : Emits E (string s) (· < E.strings) := by
  intro p
  show p.Grows { p with ir := (p.ir.internString s).1 } ∧
    ((p.ir.internString s).1.strings.size ≤ E.strings → (p.ir.internString s).2 < E.strings)
  unfold Ir.Module.internString
  split
  · rename_i id hid
    exact ⟨.refl p, fun h => (Array.findIdx?_eq_some_iff_findIdx_eq.mp hid).1.trans_le h⟩
  · refine ⟨⟨.refl p.types, rfl, rfl, ?_⟩, fun h => ?_⟩
    · simp only [Array.size_push]
      omega
    · rw [Array.size_push] at h
      exact h

end Pool

namespace Data

variable {E : Extent}

theorem refsOfAll_cons {c : Ir.Const} {cs : List Ir.Const} (hc : E.Covers c.refs)
    (hcs : E.Covers (Ir.Const.refsOfAll cs)) : E.Covers (Ir.Const.refsOfAll (c :: cs)) := by
  rw [Ir.Const.refsOfAll, Extent.covers_append]
  exact ⟨hc, hcs⟩

mutual

theorem emits_emitted (ty : Ty) : ∀ d : Data, Pool.Emits E (d.emitted ty) (E.Covers ·.refs)
  | .int _ | .char _ | .float _ | .bool _ | .null | .void | .type _ => by
    unfold emitted
    exact .pure (by simp)
  | .str s => by
    unfold emitted
    exact (Pool.emits_string s).bind fun id => .pure fun h => by simpa using h
  | .array items => by
    unfold emitted
    split
    · exact (emits_emittedAll _ items).bind fun _ => .pure fun h => by simpa using h
    · exact .pure (by simp)
  | .tuple items | .struct items => by
    unfold emitted
    refine Pool.emits_get.bind fun p => ?_
    split
    · exact (emits_emittedEach _ items).bind fun _ => .pure fun h _ => by simpa using h
    · exact .pure (by simp)
  | .maybe inner => by
    unfold emitted
    split
    · exact (emits_emittedOption _ inner).bind fun _ => .pure fun h => by simpa using h
    · exact .pure (by simp)
  | .mix variant payload => by
    unfold emitted
    refine Pool.emits_get.bind fun p => ?_
    split
    · refine (Pool.emits_intern _).bind fun tag => ?_
      split
      · exact (emits_emittedPayload _ payload).bind fun _ => .pure fun h _ _ => by simpa using h
      · exact .pure (by simp)
    · exact .pure (by simp)

theorem emits_emittedAll (ty : Ty) :
    ∀ ds : List Data, Pool.Emits E (emittedAll ty ds) (E.Covers <| Ir.Const.refsOfAll ·)
  | [] => by
    unfold emittedAll
    exact .pure (by simp)
  | d :: ds => by
    unfold emittedAll
    exact (emits_emitted ty d).bind fun _ => (emits_emittedAll ty ds).bind fun _ =>
      .pure fun hcs hc => refsOfAll_cons hc hcs

theorem emits_emittedEach :
    ∀ (tys : List Ty) (ds : List Data),
      Pool.Emits E (emittedEach tys ds) (E.Covers <| Ir.Const.refsOfAll ·)
  | ty :: tys, d :: ds => by
    unfold emittedEach
    exact (emits_emitted ty d).bind fun _ => (emits_emittedEach tys ds).bind fun _ =>
      .pure fun hcs hc => refsOfAll_cons hc hcs
  | [], _ | _ :: _, [] => by
    unfold emittedEach
    exact .pure (by simp)

theorem emits_emittedOption (ty : Ty) :
    ∀ d : Option Data, Pool.Emits E (emittedOption ty d) (E.Covers ·.refs)
  | some d => by
    unfold emittedOption
    exact emits_emitted ty d
  | none => by
    unfold emittedOption
    exact .pure (by simp)

theorem emits_emittedPayload (ty : Ty) :
    ∀ d : Option Data, Pool.Emits E (emittedPayload ty d) (E.Covers <| Ir.Const.refsOfAll ·)
  | some d => by
    unfold emittedPayload
    exact (emits_emitted ty d).bind fun _ => .pure fun h => by simpa using h
  | none => by
    unfold emittedPayload
    exact .pure (by simp)

end

end Data

namespace Emit

variable {α β : Type} {E : Extent} {P : Prop} {Q : α → Prop}

/-! ## Rules -/

/-- An action that leaves symbols and code as they are. -/
theorem emits_same {a : Emit α} (ha : ∀ o s v s', a o s = .ok v s' →
      s'.symbols = s.symbols ∧ s'.core = s.core ∧
      (P → (∀ y ∈ s.symbols, E.Covers y.2.refs) → s.core.Sound E → Q v)) : Emits E P a Q := by
  intro o s v s' hr
  obtain ⟨hy, hc, hq⟩ := ha o s v s' hr
  exact ⟨hy, hc ▸ .refl _, fun _ hp hsyms hs => ⟨hc ▸ hs, hq hp hsyms hs⟩⟩

/-- An action on the function under construction. -/
theorem emits_update {a : Emit α} (g : FunctionState → FunctionState) (val : FunctionState → α)
    (ha : ∀ o s v s', a o s = .ok v s' →
      ∃ f, s.func = some f ∧ v = val f ∧ s' = { s with func := some (g f) })
    (hg : ∀ f : FunctionState, f.Grows (g f))
    (hs : ∀ f, P → f.Sound E → (g f).function.blocks.size ≤ E.blocks →
      (g f).Sound E ∧ Q (val f)) : Emits E P a Q := by
  intro o s v s' hr
  obtain ⟨f, hf, rfl, rfl⟩ := ha o s v s' hr
  refine ⟨rfl, .setFunc (c := s.core) hf (hg f), fun hfits hp _ hsound => ?_⟩
  obtain ⟨hsound', hq⟩ := hs f hp (hsound.func f hf) (hfits.blocks _ rfl)
  exact ⟨hsound.setFunc hsound', hq⟩

theorem bind_ok {a : Emit α} {k : α → Emit β} {o : Options} {s s' : Compiler} {w : β}
    (h : (a >>= k) o s = .ok w s') : ∃ v t, a o s = .ok v t ∧ k v o t = .ok w s' := by
  rw [bind_apply] at h
  cases ha : a o s with
  | error f t =>
    rw [ha] at h
    cases h
  | ok v t =>
    rw [ha] at h
    exact ⟨v, t, rfl, h⟩

theorem function_ok {o : Options} {s s' : Compiler} {f : FunctionState}
    (h : function o s = .ok f s') : s.func = some f ∧ s' = s := by
  cases hf : s.func with
  | some g =>
    rw [function_apply hf] at h
    cases h
    exact ⟨rfl, rfl⟩
  | none =>
    cases s
    cases hf
    cases h

/-! ## Types, names and constants -/

theorem emits_warn (d : Diagnostic) : Emits E P (warn d) fun _ => True :=
  emits_same fun _ _ _ _ h => by
    cases h
    exact ⟨rfl, rfl, fun _ _ _ => trivial⟩

theorem emits_types : Emits E P types (·.Sound E) :=
  emits_same fun _ _ _ _ h => by
    cases h
    exact ⟨rfl, rfl, fun _ _ hs => hs.types⟩

theorem emits_isAccessible (view : Viewpoint) (vis : Visibility) :
    Emits E P (isAccessible view vis) fun _ => True :=
  emits_of_keeps fun _ _ => keeps_isAccessible view vis

theorem emits_resolveName (view : Viewpoint) (name : QName) :
    Emits E P (resolveName view name) fun _ => True :=
  emits_same fun _ _ _ _ h => by
    cases h
    exact ⟨rfl, rfl, fun _ _ _ => trivial⟩

theorem symbolOf_ok {id : EntityId} {range : Span} {o : Options} {s s' : Compiler} {y : Symbol}
    (h : symbolOf id range o s = .ok y s') : s.symbols.lookup id = some y ∧ s' = s := by
  have hrun : symbolOf id range o s =
      require (s.symbols.lookup id) (.notReady (s.entities.displayName id)) range o s := rfl
  rw [hrun] at h
  cases hl : s.symbols.lookup id with
  | none =>
    rw [hl] at h
    cases h
  | some z =>
    rw [hl] at h
    cases h
    exact ⟨rfl, rfl⟩

theorem emits_symbolOf (id : EntityId) (range : Span) :
    Emits E P (symbolOf id range) fun y => E.Covers y.refs :=
  emits_same fun _ _ _ _ h => by
    obtain ⟨hl, rfl⟩ := symbolOf_ok h
    exact ⟨rfl, rfl, fun _ hsyms _ => hsyms _ (mem_of_lookup hl)⟩

theorem emits_intern (ty : Ty) : Emits E P (intern ty) fun _ => True :=
  emits_of_keeps fun _ _ => keeps_intern ty

theorem emits_requireSized (ty : Ty) (range : Span) :
    Emits E P (requireSized ty range) fun _ => True :=
  emits_of_keeps fun _ _ => keeps_requireSized ty range

theorem emits_emitted (c : Constant) : Emits E P (emitted c) fun v => E.Covers v.refs := by
  intro o s v s' h
  cases h
  obtain ⟨hg, hq⟩ := Data.emits_emitted (E := E) c.type c.data ⟨s.types, s.ir⟩
  refine ⟨rfl, ⟨hg.types, ⟨#[], ?_, by simp⟩, hg.globals, hg.strings, ?_⟩,
    fun hfits _ _ hs => ⟨⟨⟨?_, ?_⟩, ?_, ?_, hs.func⟩, hq hfits.strings⟩⟩
  · rw [Array.append_empty]
    exact hg.functions
  · exact (Core.Grows.refl s.core).func
  · exact hg.types.structs ▸ hs.types.structs
  · exact hg.types.done ▸ hs.types.done
  · exact hg.functions ▸ hs.functions
  · exact hg.globals ▸ hs.globals

theorem emits_constant (c : Constant) (range : Span) :
    Emits E P (constant c range) (·.Within E) :=
  (emits_emitted c).bind fun _ => .pure And.right

/-! ## Instructions and blocks -/

theorem emits_fresh (type : Ty) : Emits E P (fresh type) fun _ => True := by
  refine emits_update (fun f => { f with function := (f.function.newRegister type).1 })
    (fun f => (f.function.newRegister type).2) (fun o s v s' h => ?_) (fun f => ?_)
    fun f _ hf _ => ?_
  · obtain ⟨f, t, hf, hr⟩ := bind_ok h
    obtain ⟨hf, rfl⟩ := function_ok hf
    cases hr
    exact ⟨f, hf, rfl, rfl⟩
  · exact ⟨rfl, rfl, rfl, Nat.le_refl _⟩
  · exact ⟨⟨hf.refs, hf.targets, hf.loops, hf.locals, hf.self⟩, trivial⟩

theorem emits_modifyCurrent {g : Ir.Block → Ir.Block} (hg : P → Ir.Block.Keeps E g) :
    Emits E P (modifyCurrent g) fun _ => True := by
  refine emits_update (fun f => f.modifyBlock f.current g) (fun _ => ()) (fun o s v s' h => ?_)
    (fun f => FunctionState.grows_modifyBlock _ _) fun f hp hf _ =>
      ⟨hf.modifyBlock (hg hp) _, trivial⟩
  cases hf : s.func with
  | none =>
    obtain ⟨f, t, hf', -⟩ := bind_ok h
    obtain ⟨hf', -⟩ := function_ok hf'
    rw [hf] at hf'
    cases hf'
  | some f =>
    rw [modifyCurrent_apply g hf] at h
    split at h
    · cases h
    · cases h
      exact ⟨f, rfl, rfl, rfl⟩

theorem emits_push {i : Ir.Instr} (hi : P → E.Covers i.refs) :
    Emits E P (push i) fun _ => True :=
  emits_modifyCurrent fun hp => Ir.Block.keeps_push (hi hp)

theorem emits_terminate {t : Ir.Terminator}
    (ht : P → E.Covers t.refs ∧ ∀ id ∈ t.successors, id < E.blocks) :
    Emits E P (terminate t) fun _ => True :=
  emits_modifyCurrent fun hp => Ir.Block.keeps_close (ht hp).1 (ht hp).2

theorem emits_jump {target : Ir.BlockId} (ht : P → target < E.blocks) :
    Emits E P (jump target) fun _ => True :=
  emits_terminate fun hp => ⟨Extent.covers_nil, fun _ hid => List.mem_singleton.mp hid ▸ ht hp⟩

theorem emits_branch {cond : Ir.Value} {thenBlock elseBlock : Ir.BlockId}
    (h : P → E.Covers cond.refs ∧ thenBlock < E.blocks ∧ elseBlock < E.blocks) :
    Emits E P (branch cond thenBlock elseBlock) fun _ => True :=
  emits_terminate fun hp => ⟨(h hp).1, by simpa [Ir.Terminator.successors] using (h hp).2⟩

theorem emits_compute (type : Ty) {instr : Ir.Register → Ir.Instr}
    (hi : P → ∀ r, E.Covers (instr r).refs) : Emits E P (compute type instr) fun _ => True :=
  (emits_fresh type).step fun r => (emits_push fun hp => hi hp r).step fun _ => .pure fun _ => trivial

theorem emits_alloca (type : Ty) (name : Option String) :
    Emits E P (alloca type name) fun _ => True := by
  refine (emits_intern _).step fun ty => (emits_fresh ty).step fun r => ?_
  refine emits_update (fun f => f.modifyBlock f.function.entry (·.pushAlloca (.alloca r type name)))
    (fun _ => r) (fun o s v s' h => ?_) (fun f => FunctionState.grows_modifyBlock _ _)
    fun f _ hf _ => ⟨hf.modifyBlock (Ir.Block.keeps_pushAlloca Extent.covers_nil) _, trivial⟩
  obtain ⟨f, t, hf, hr⟩ := bind_ok h
  obtain ⟨hf, rfl⟩ := function_ok hf
  refine ⟨f, hf, ?_⟩
  dsimp only at hr
  split at hr
  · cases hr
  · cases hr
    exact ⟨rfl, rfl⟩

theorem emits_newBlock (label : String) : Emits E P (newBlock label) (· < E.blocks) := by
  refine emits_update (fun f => f.addBlock (some label)) (fun f => f.function.blocks.size)
    (fun o s v s' h => ?_) (fun f => FunctionState.grows_addBlock _) fun f _ hf hn =>
      ⟨hf.addBlock _, ?_⟩
  · obtain ⟨f, t, hf, hr⟩ := bind_ok h
    obtain ⟨hf, rfl⟩ := function_ok hf
    cases hr
    exact ⟨f, hf, rfl, rfl⟩
  · simp only [FunctionState.addBlock, Ir.Function.newBlock, Array.size_push] at hn
    exact hn

theorem emits_switchTo (block : Ir.BlockId) : Emits E P (switchTo block) fun _ => True := by
  refine emits_update (fun f => { f with current := block }) (fun _ => ()) (fun o s v s' h => ?_)
    (fun f => ⟨rfl, rfl, rfl, Nat.le_refl _⟩)
    fun f _ hf _ => ⟨⟨hf.refs, hf.targets, hf.loops, hf.locals, hf.self⟩, trivial⟩
  obtain ⟨f, t, hf, hr⟩ := bind_ok h
  obtain ⟨hf, rfl⟩ := function_ok hf
  cases hr
  exact ⟨f, hf, rfl, rfl⟩

theorem emits_currentBlock : Emits E P currentBlock fun _ => True :=
  emits_same fun _ _ _ _ h => by
    obtain ⟨f, t, hf, hr⟩ := bind_ok h
    obtain ⟨-, rfl⟩ := function_ok hf
    cases hr
    exact ⟨rfl, rfl, fun _ _ _ => trivial⟩

/-! ## Memory -/

variable {v : Value} {base : Ir.Value}

theorem emits_load (type : Ty) (hb : P → E.Covers base.refs) :
    Emits E P (load base type) fun _ => True :=
  emits_compute type fun hp _ => hb hp

theorem emits_store {value : Ir.Value} (h : P → E.Covers value.refs ∧ E.Covers base.refs) :
    Emits E P (store value base) fun _ => True :=
  emits_push fun hp => Extent.covers_append.mpr (h hp)

theorem emits_register {a : Emit Ir.Register} (ha : Emits E P a fun _ => True) :
    Emits E P (do return Ir.Value.reg (← a)) (E.Covers ·.refs) :=
  ha.step fun _ => .pure fun _ => Extent.covers_nil

/-- A value that stands in a register. -/
theorem emits_temporary {a : Emit Ir.Register} (type : Ty) (range : Span)
    (ha : Emits E P a fun _ => True) :
    Emits E P (do return Value.temporary (.reg (← a)) type range) (·.Within E) :=
  ha.step fun _ => .pure fun _ => Extent.covers_nil

theorem emits_referenceAddress (hv : P → v.Within E) :
    Emits E P (referenceAddress v) (·.Within E) := by
  unfold referenceAddress
  split
  · exact .pure hv
  · exact emits_temporary _ _ (emits_load _ hv)

theorem emits_rvalue (hv : P → v.Within E) : Emits E P (rvalue v) (·.Within E) := by
  unfold rvalue
  split
  · refine (emits_referenceAddress hv).bind fun address => ?_
    exact emits_temporary _ _ (emits_load _ And.right)
  · split
    · exact .pure hv
    · split
      · exact emits_constant _ _
      · exact emits_temporary _ _ (emits_load _ hv)

theorem emits_placeOf (hv : P → v.Within E) :
    Emits E P (place? v) fun p => ∀ w, p = some w → w.Within E := by
  unfold place?
  split
  · refine (emits_referenceAddress hv).bind fun address => .pure fun h w hw => ?_
    cases hw
    exact h.2
  · refine .pure fun hp w hw => ?_
    split at hw
    · cases hw
    · cases hw
      exact hv hp

theorem emits_place (hv : P → v.Within E) : Emits E P (place v) (·.Within E) := by
  unfold place
  refine (emits_placeOf hv).bind fun p => ?_
  split
  · exact .pure fun h => h.2 _ rfl
  · refine (emits_alloca _ _).step fun slot => ?_
    refine (emits_store fun h => ⟨hv h.1, Extent.covers_nil⟩).step fun _ => ?_
    exact .pure fun _ => Extent.covers_nil

theorem emits_tempSlot (type : Ty) (range : Span) : Emits E P (tempSlot type range) (·.Within E) :=
  (emits_alloca type none).step fun _ => .pure fun _ => Extent.covers_nil

theorem emits_targetSlot {expect : Expect} (type : Ty) (range : Span) (he : P → expect.Within E) :
    Emits E P (targetSlot type expect range) (·.Within E) := by
  unfold targetSlot
  split
  · rename_i slot hslot
    split
    · exact .pure fun hp => he hp slot hslot
    · exact emits_tempSlot type range
  · exact emits_tempSlot type range

theorem emits_fieldPtr (aggregate : Ty) (index : Nat) (member : Ty) (hb : P → E.Covers base.refs) :
    Emits E P (fieldPtr base aggregate index member) fun _ => True :=
  (emits_intern _).step fun ty => emits_compute ty fun hp _ => hb hp

theorem emits_elementPtr {index : Ir.Value} (element : Ty) (isVar : Bool)
    (h : P → E.Covers base.refs ∧ E.Covers index.refs) :
    Emits E P (elementPtr base element isVar index) fun _ => True :=
  (emits_intern _).step fun ty => emits_compute ty fun hp _ => Extent.covers_append.mpr (h hp)

theorem emits_stringParts (hb : P → E.Covers base.refs) :
    Emits E P (stringParts base) fun _ => True := by
  refine (emits_intern _).step fun ty => (emits_compute ty fun hp _ => hb hp).step fun data => ?_
  exact (emits_compute _ fun hp _ => hb hp).step fun length => .pure fun _ => trivial

theorem emits_sliceData (element : Ty) (isVar : Bool) (hb : P → E.Covers base.refs) :
    Emits E P (sliceData base element isVar) fun _ => True :=
  (emits_intern _).step fun ty => emits_compute ty fun hp _ => hb hp

theorem emits_castTo (op : Ir.CastOp) (target : Ty) (hb : P → E.Covers base.refs) :
    Emits E P (castTo op base target) fun _ => True :=
  emits_compute target fun hp _ => hb hp

theorem emits_aggregateFrom (type : Ty) :
    ∀ {members : List Ir.Value} (index : Nat) {sofar : Ir.Value},
      (P → E.Covers sofar.refs ∧ ∀ m ∈ members, E.Covers m.refs) →
      Emits E P (aggregateFrom type index sofar members) (E.Covers ·.refs)
  | [], _, _, h => .pure fun hp => (h hp).1
  | m :: members, index, sofar, h => by
    have hinsert (hp : P) (r : Ir.Register) : E.Covers (Ir.Instr.insert r sofar m index).refs :=
      Extent.covers_append.mpr ⟨(h hp).1, (h hp).2 m List.mem_cons_self⟩
    refine (emits_compute type hinsert).step fun r => ?_
    exact emits_aggregateFrom type (index + 1) fun hp =>
      ⟨Extent.covers_nil, fun x hx => (h hp).2 x (List.mem_cons_of_mem m hx)⟩

theorem emits_aggregate {members : List Ir.Value} (type : Ty) (range : Span)
    (h : P → ∀ m ∈ members, E.Covers m.refs) :
    Emits E P (aggregate type members range) (·.Within E) :=
  (emits_aggregateFrom type 0 fun hp => ⟨Extent.covers_nil, h hp⟩).bind fun _ =>
    .pure fun hr => hr.2

/-! ## Locals -/

theorem emits_pushScope : Emits E P pushScope fun _ => True := by
  refine emits_update (fun f => { f with scopes := [] :: f.scopes }) (fun _ => ())
    (fun o s v s' h => ?_) (fun f => ⟨rfl, rfl, rfl, Nat.le_refl _⟩) fun f _ hf _ => ?_
  · obtain ⟨f, t, hf, hr⟩ := bind_ok h
    obtain ⟨hf, rfl⟩ := function_ok hf
    cases hr
    exact ⟨f, hf, rfl, rfl⟩
  · refine ⟨{ hf with locals := fun scope hscope => ?_ }, trivial⟩
    rcases List.mem_cons.mp hscope with rfl | hscope
    · intro v hv
      cases hv
    · exact hf.locals scope hscope

theorem emits_popScope : Emits E P popScope fun _ => True := by
  refine emits_update
    (fun f => { f with scopes := if f.scopes.length > 1 then f.scopes.drop 1 else f.scopes })
    (fun _ => ()) (fun o s v s' h => ?_) (fun f => ⟨rfl, rfl, rfl, Nat.le_refl _⟩)
    fun f _ hf _ => ?_
  · obtain ⟨f, t, hf, hr⟩ := bind_ok h
    obtain ⟨hf, rfl⟩ := function_ok hf
    cases hr
    exact ⟨f, hf, rfl, rfl⟩
  · refine ⟨{ hf with locals := fun scope hscope => hf.locals scope ?_ }, trivial⟩
    by_cases hlen : f.scopes.length > 1
    · rw [if_pos hlen] at hscope
      exact List.mem_of_mem_drop hscope
    · rw [if_neg hlen] at hscope
      exact hscope

theorem emits_inScope {a : Emit Unit} (ha : Emits E P a fun _ => True) :
    Emits E P (inScope a) fun _ => True :=
  emits_pushScope.step fun _ => ha.step fun _ => emits_popScope

/-- A local is put into the innermost scope, in which its name has to be free. -/
def putLocal (v : LocalVar) (f : FunctionState) : FunctionState :=
  { f with scopes := (v :: f.scopes.headD []) :: f.scopes.drop 1 }

theorem declareLocal_ok {v : LocalVar} {o : Options} {s s' : Compiler} {u : Unit}
    (h : declareLocal v o s = .ok u s') :
    ∃ f, s.func = some f ∧ s' = { s with func := some (putLocal v f) } := by
  obtain ⟨f, t, hf, hr⟩ := bind_ok h
  obtain ⟨hf, rfl⟩ := function_ok hf
  refine ⟨f, hf, ?_⟩
  unfold putLocal
  cases hscopes : f.scopes with
  | nil =>
    simp only [hscopes] at hr
    cases hr
    rfl
  | cons scope outer =>
    simp only [hscopes] at hr
    cases hfind : scope.find? (·.name.text == v.name.text) with
    | some existing =>
      rw [hfind] at hr
      cases hr
    | none =>
      rw [hfind] at hr
      cases hr
      rfl

theorem emits_declareLocal {v : LocalVar} (hv : P → v.Within E) :
    Emits E P (declareLocal v) fun _ => True := by
  refine emits_update (putLocal v) (fun _ => ()) (fun o s u s' h => ?_)
    (fun f => ⟨rfl, rfl, rfl, Nat.le_refl _⟩) fun f hp hf _ => ?_
  · obtain ⟨f, hf, rfl⟩ := declareLocal_ok h
    exact ⟨f, hf, rfl, rfl⟩
  · refine ⟨{ hf with locals := fun scope hscope w hw => ?_ }, trivial⟩
    rcases List.mem_cons.mp hscope with rfl | hscope
    · rcases List.mem_cons.mp hw with rfl | hw
      · exact hv hp
      · cases hs : f.scopes with
        | nil =>
          rw [hs] at hw
          cases hw
        | cons inner outer =>
          rw [hs] at hw
          exact hf.locals inner (hs ▸ List.mem_cons_self) w hw
    · exact hf.locals scope (List.mem_of_mem_drop hscope) w hw

theorem emits_findLocal (name : String) :
    Emits E P (findLocal? name) fun r => ∀ v, r = some v → v.Within E :=
  emits_same fun _ s _ _ h => by
    cases h
    refine ⟨rfl, rfl, fun _ _ hs v hv => ?_⟩
    obtain ⟨f, hf, hv⟩ := Option.bind_eq_some_iff.mp hv
    obtain ⟨scope, hscope, hv⟩ := List.exists_of_findSome?_eq_some hv
    exact (hs.func f hf).locals scope hscope v (List.mem_of_find?_eq_some hv)

theorem emits_localOf (name : QName) :
    Emits E P (localOf? name) fun r => ∀ v, r = some v → v.Within E := by
  unfold localOf?
  split
  · exact emits_findLocal _
  · exact .pure fun _ v hv => by cases hv

theorem within_localValue {v : LocalVar} (hv : v.Within E) (range : Span) :
    (localValue v range).Within E := by
  unfold localValue
  split <;> exact hv

theorem emits_selfValue (range : Span) : Emits E P (selfValue range) (·.Within E) :=
  emits_same fun _ s _ _ h => by
    have hrun : selfValue range = ((do
      let s ← get
      let self ← require (s.func.bind FunctionState.self) .selfOutside range
      return .stored self.address self.type self.isVar .pointee range : Emit Value)) := rfl
    rw [hrun] at h
    obtain ⟨t, t', ht, hr⟩ := bind_ok h
    cases ht
    obtain ⟨self, t', hself, hr⟩ := bind_ok hr
    cases hi : s.func.bind FunctionState.self with
    | none =>
      rw [hi] at hself
      cases hself
    | some i =>
      rw [hi] at hself
      cases hself
      cases hr
      obtain ⟨f, hf, hself⟩ := Option.bind_eq_some_iff.mp hi
      exact ⟨rfl, rfl, fun _ _ hs => (hs.func f hf).self _ hself⟩

theorem emits_unfinished (message : Option String) (range : Span) :
    Emits E P (unfinished message range) fun _ => True :=
  emits_of_keeps fun _ _ => keeps_unfinished message range

end Emit

end Staged
