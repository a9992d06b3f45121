/-
  Staged.Proofs.Typing.Code — what is known of types while a body is lowered.

  A value that is used as it is has in code a type like its own, and a value that lives
  somewhere is the address of one of its type (`Value.Typed`). So have the locals and the
  instance of the function under construction, and every call written so far fits a
  prototype (`Basis.Code`). Functions are added meanwhile, and none changes as seen from
  outside.

  Lowering starts from a basis: symbols and members whose values and types are known to be
  right. From there on it stays on the ground `Basis.ground`, whose rules for evaluation
  are those of `Staged.Proofs.Values`; this module adds the rules for writing code.
-/

import Staged.Emit.Operand
import Staged.Proofs.Code.Instr
import Staged.Proofs.Typing.Prototype
import Staged.Proofs.Values.Calls
import Staged.Proofs.Values.Solid

namespace Staged

/-! ## Values and their code -/

namespace Data

variable {E : Extent}

/-- The code of known data is of the type it is emitted for. -/
theorem emits_type (ty : Ty) (d : Data) : Pool.Emits E (d.emitted ty) (·.type = ty) := by
  cases d with
  | array items =>
    unfold emitted
    split
    · exact (emits_emittedAll _ items).bind fun _ => .pure fun _ => rfl
    · exact .pure rfl
  | tuple items | struct items =>
    unfold emitted
    refine Pool.emits_get.bind fun p => ?_
    split
    · exact (emits_emittedEach _ items).bind fun _ => .pure fun _ _ => rfl
    · exact .pure fun _ => rfl
  | maybe inner =>
    unfold emitted
    split
    · exact (emits_emittedOption _ inner).bind fun _ => .pure fun _ => rfl
    · exact .pure rfl
  | mix variant payload =>
    unfold emitted
    refine Pool.emits_get.bind fun p => ?_
    split
    · refine (Pool.emits_intern _).bind fun tag => ?_
      split
      · exact (emits_emittedPayload _ payload).bind fun _ => .pure fun _ _ _ => rfl
      · exact .pure fun _ _ => rfl
    · exact .pure fun _ => rfl
  | str s =>
    unfold emitted
    exact (Pool.emits_string s).bind fun _ => .pure fun _ => rfl
  | _ =>
    unfold emitted
    exact .pure rfl

end Data

/-- The code of a value has the type of the value, or is the address of one of its type;
what is known of it is a solid value of its type. -/
structure Value.Typed (t : TypeTable) (v : Value) : Prop where
  temporary : v.isTemporary = true → v.ir.type.Alike v.type
  stored : v.isTemporary = false → v.ir.type.target? = some v.type
  known : ∀ c, v.known = some c → c.type = v.type ∧ c.Solid t

structure Value.Used (t : TypeTable) (ty : Ty) (v : Value) : Prop where
  typed : v.Typed t
  temporary : v.isTemporary = true
  type : v.type = ty

structure Value.Placed (t : TypeTable) (ty : Ty) (v : Value) : Prop where
  typed : v.Typed t
  stored : v.isTemporary = false
  type : v.type = ty

structure LocalVar.Typed (t : TypeTable) (v : LocalVar) : Prop where
  reference : v.isRef = true → v.address.type.Alike v.type
  held : v.isRef = false → v.address.type.target? = some v.type
  known : ∀ c, v.known = some c → c.type = v.type ∧ c.Solid t

def Instance.Typed (i : Instance) : Prop := i.address.type.target? = some i.type

/-- Memory in which a value may be built is memory for its type. -/
def Expect.Typed (t : TypeTable) (e : Expect) : Prop :=
  ∀ slot, e.slot = some slot → slot.Typed t ∧ slot.isTemporary = false

section

variable {t : TypeTable} {v : Value} {ir : Ir.Value} {type : Ty} {range : Span} {c : Constant}

theorem Value.typed_temporary (h : ir.type.Alike type) : (Value.temporary ir type range).Typed t :=
  ⟨fun _ => h, fun hv => (by cases hv), fun _ hc => by cases hc⟩

theorem Value.typed_stored {isVar : Bool} {storage : Storage} (hs : storage ≠ .temporary)
    (h : ir.type.target? = some type) : (Value.stored ir type isVar storage range).Typed t :=
  ⟨fun hv => absurd (beq_iff_eq.mp hv) hs, fun _ => h, fun _ hc => by cases hc⟩

theorem Value.used_temporary (h : ir.type.Alike type) :
    (Value.temporary ir type range).Used t type := ⟨typed_temporary h, rfl, rfl⟩

theorem Value.placed_stored {isVar : Bool} {storage : Storage} (hs : storage ≠ .temporary)
    (h : ir.type.target? = some type) : (Value.stored ir type isVar storage range).Placed t type :=
  ⟨typed_stored hs h, beq_eq_false_iff_ne.mpr hs, rfl⟩

theorem Value.Used.alike (h : v.Used t type) : v.ir.type.Alike type :=
  h.type ▸ h.typed.temporary h.temporary

theorem Value.Placed.target (h : v.Placed t type) : v.ir.type.target? = some type :=
  h.type ▸ h.typed.stored h.stored

@[simp] theorem Value.typed_void : (Value.void range).Typed t := typed_temporary (.refl _)

theorem LocalVar.Typed.retained {l : LocalVar} (h : l.Typed t) {t' : TypeTable}
    (hr : t.Retains t') : l.Typed t' :=
  ⟨h.reference, h.held, fun c hc => (h.known c hc).imp_right fun hs => hs.retained hr⟩

/-- A value with a fixed constant is used as it is. -/
theorem Value.Typed.fixed (h : v.Typed t) (hc : v.fixed? = some c) :
    c.type = v.type.value ∧ c.Solid t := by
  unfold Value.fixed? at hc
  split at hc
  · cases hc
  · obtain ⟨htype, hsolid⟩ := h.known c hc
    have href : v.type.isRef = false := htype ▸ hsolid.isRef
    refine ⟨htype.trans ?_, hsolid⟩
    cases hty : v.type with
    | ref sub isVar =>
      rw [hty] at href
      cases href
    | _ => rfl

@[simp] theorem Expect.typed_nothing : Expect.nothing.Typed t := fun _ h => by cases h

@[simp] theorem Expect.typed_of : (Expect.of type).Typed t := fun _ h => by cases h

@[simp] theorem Expect.typed_maybe {type : Option Ty} : (Expect.maybe type).Typed t :=
  fun _ h => by cases h

@[simp] theorem Expect.typed_hint {e : Expect} : e.hint.Typed t := fun _ h => by cases h

theorem Expect.typed_inSlot (h : v.Typed t) (hs : v.isTemporary = false) :
    (Expect.inSlot v).Typed t := by
  intro slot hslot
  cases hslot
  exact ⟨h, hs⟩

end

/-! ## The function under construction -/

structure FunctionState.Typed (t : TypeTable) (declared : Ir.FunctionId → Prototype → Prop)
    (f : FunctionState) : Prop where
  locals : ∀ scope ∈ f.scopes, ∀ v ∈ scope, v.Typed t
  self : ∀ i, f.self = some i → i.Typed
  fits : f.function.CallsFit declared

namespace FunctionState

variable {t : TypeTable} {declared declared' : Ir.FunctionId → Prototype → Prop}
  {f : FunctionState} {name : String} {v : LocalVar}

theorem Typed.mono (h : f.Typed t declared) (hd : ∀ id p, declared id p → declared' id p) :
    f.Typed t declared' := ⟨h.locals, h.self, h.fits.mono hd⟩

theorem Typed.retained (h : f.Typed t declared) {t' : TypeTable} (hr : t.Retains t') :
    f.Typed t' declared :=
  ⟨fun scope hscope v hv => (h.locals scope hscope v hv).retained hr, h.self, h.fits⟩

theorem Typed.find (h : f.Typed t declared) (hv : f.findLocal? name = some v) : v.Typed t := by
  obtain ⟨scope, hscope, hfind⟩ := List.exists_of_findSome?_eq_some hv
  exact h.locals scope hscope v (List.mem_of_find?_eq_some hfind)

theorem Typed.abandon (h : f.Typed t declared) : f.abandon.Typed t declared :=
  ⟨h.locals, h.self,
    (h.fits.modifyBlock f.current fun _ hb => Ir.Block.fits_close .unreachable hb).newBlock _⟩

end FunctionState

/-! ## The basis -/

structure MemberFunction.Proper (m : MemberFunction) (ty : Ty) : Prop where
  parent : m.parent = ty
  value : ty.isRef = false
  args : m.kind.fixedArity? = some 0 → m.argTypes = (m.kind.otherIsVar?.map (Ty.ref ty)).toList

structure Basis where
  table : TypeTable
  outer : Outer
  functions : Array Ir.Function
  known : ∀ {id y k}, outer.symbols.lookup id = some y → y.value? = some k → k.Solid table
  globals : ∀ {id i ty isVar k}, outer.symbols.lookup id = some (.global i ty isVar k) →
    k.type = ty
  members : ∀ {ty m}, m ∈ table.membersOf ty → m.Proper ty

namespace Basis

def declares (b : Basis) (functions : Array Ir.Function) : Ir.FunctionId → Prototype → Prop :=
  Declares b.outer.symbols b.table functions

structure Code (b : Basis) (c : Core) : Prop where
  types : b.table.SameDefinitions c.types
  functions : Extends b.functions c.ir.functions
  fits : Fitting (b.declares c.ir.functions) c.ir.functions
  func : ∀ f, c.func = some f → f.Typed b.table (b.declares c.ir.functions) ∧
    headingAt c.ir.functions f.id = some f.function.heading

variable {b : Basis}

theorem declares_grow {functions functions' : Array Ir.Function} (h : Extends functions functions')
    (id : Ir.FunctionId) (p : Prototype) (hp : b.declares functions id p) :
    b.declares functions' id p := Declares.grow hp h

def ground (b : Basis) : Ground where
  toDomain := .solid b.table
  outer := b.outer
  admits _ := True
  code := b.Code
  code_intern ty h := ⟨h.types.intern ty, h.functions, h.fits, h.func⟩
  code_abandon := by
    intro o c _ _ h
    refine ⟨h.types, h.functions, h.fits, fun f hf => ?_⟩
    obtain ⟨f', hf', rfl⟩ := Option.map_eq_some_iff.mp hf
    exact ⟨(h.func f' hf').1.abandon, (h.func f' hf').2⟩
  knows_types h := h.types
  locals h hf hv hk := (((h.func _ hf).1.find hv).known _ hk).2
  symbols hy hk := b.known hy hk
  defines _ _ := .whole rfl rfl
  allows _ := True
  allows_fault _ _ := trivial
  allows_missing _ _ _ := trivial
  warned _ := True
  warned_push _ _ := trivial

abbrev Ends {α : Type} (b : Basis) (a : Emit α) (Q : α → Prop) : Prop := b.ground.Ends 0 a Q

end Basis

def Operand.Typed (b : Basis) (operand : Operand) : Prop :=
  ∀ expect : Expect, expect.Typed b.table → b.Ends (operand.lower expect) (·.Typed b.table)

namespace Emit

variable {b : Basis} {α : Type} {Q : α → Prop}

/-! ## Writing code -/

theorem ends_breach (e : Breach) : b.Ends (breach e) Q := fun _ _ _ hs => ⟨hs.toStops, trivial⟩

/-- An action that changes the function under construction, or fails. -/
theorem ends_update {a : Emit α} (update : FunctionState → FunctionState) (val : FunctionState → α)
    (ha : ∀ o s, (∃ e, a o s = .error e s) ∨
      ∃ f, s.func = some f ∧ a o s = .ok (val f) { s with func := some (update f) })
    (hid : ∀ f, (update f).id = f.id)
    (hheading : ∀ f, (update f).function.heading = f.function.heading)
    (hu : ∀ f declared, (∀ id p, b.declares b.functions id p → declared id p) →
      f.Typed b.table declared → (update f).Typed b.table declared)
    (hq : ∀ f declared, f.Typed b.table declared → Q (val f)) : b.Ends a Q := by
  intro o _ s hs
  rcases ha o s with ⟨e, he⟩ | ⟨f, hf, hok⟩
  · rw [he]
    exact ⟨hs.toStops, trivial⟩
  · rw [hok]
    obtain ⟨htyped, hhead⟩ := hs.code.func f hf
    refine ⟨⟨⟨hs.outer, hs.calls, ⟨hs.code.types, hs.code.functions, hs.code.fits,
      fun f' hf' => ?_⟩, trivial⟩, hs.frames⟩, hq f _ htyped⟩
    cases hf'
    refine ⟨hu f _ (Basis.declares_grow hs.code.functions) htyped, ?_⟩
    rw [hid, hheading]
    exact hhead

/-- What goes into a block fits if the block and what it is changed by do. -/
theorem ends_modifyCurrent {g : Ir.Block → Ir.Block}
    (hg : ∀ declared, (∀ id p, b.declares b.functions id p → declared id p) →
      ∀ c : Ir.Block, (∀ i ∈ c.instrs, i.Fits declared) → ∀ i ∈ (g c).instrs, i.Fits declared) :
    b.Ends (modifyCurrent g) fun _ => True := by
  refine ends_update (fun f => { f with function := f.function.modifyBlock f.current g })
    (fun _ => ()) (fun o s => ?_) (fun _ => rfl) (fun _ => rfl) (fun f declared hd h => ?_)
    fun _ _ _ => trivial
  · cases hf : s.func with
    | none => exact .inl ⟨.breach .noFunction, by cases s; cases hf; rfl⟩
    | some f =>
      rw [modifyCurrent_apply g hf]
      split
      · exact .inl ⟨_, rfl⟩
      · exact .inr ⟨f, rfl, rfl⟩
  · exact ⟨h.locals, h.self, h.fits.modifyBlock f.current (hg declared hd)⟩

theorem ends_push {i : Ir.Instr} (hi : i.Fits (b.declares b.functions)) :
    b.Ends (push i) fun _ => True :=
  ends_modifyCurrent fun _ hd _ hc => Ir.Block.fits_push hc (hi.mono hd)

/-- An instruction that calls nothing fits. -/
theorem ends_write {i : Ir.Instr} (hi : ∀ dest callee args, i ≠ .call dest callee args) :
    b.Ends (push i) fun _ => True :=
  ends_push fun dest _ args h => absurd h (hi dest _ args)

theorem ends_terminate (t : Ir.Terminator) : b.Ends (terminate t) fun _ => True :=
  ends_modifyCurrent fun _ _ _ hc => Ir.Block.fits_close t hc

theorem ends_jump (target : Ir.BlockId) : b.Ends (jump target) fun _ => True := ends_terminate _

theorem ends_branch (cond : Ir.Value) (thenBlock elseBlock : Ir.BlockId) :
    b.Ends (branch cond thenBlock elseBlock) fun _ => True := ends_terminate _

/-- An action on the function under construction that always works. -/
theorem ends_change {a : Emit α} (update : FunctionState → FunctionState) (val : FunctionState → α)
    (ha : a = do
      let f ← function
      setFunction (update f)
      return val f)
    (hid : ∀ f, (update f).id = f.id)
    (hheading : ∀ f, (update f).function.heading = f.function.heading)
    (hu : ∀ f declared, f.Typed b.table declared → (update f).Typed b.table declared)
    (hq : ∀ f declared, f.Typed b.table declared → Q (val f)) : b.Ends a Q := by
  refine ends_update update val (fun o s => ?_) hid hheading (fun f declared _ => hu f declared) hq
  subst ha
  cases hf : s.func with
  | none => exact .inl ⟨.breach .noFunction, by cases s; cases hf; rfl⟩
  | some f => exact .inr ⟨f, rfl, by cases s; cases hf; rfl⟩

theorem ends_function : b.Ends function fun f => ∃ declared, f.Typed b.table declared := by
  refine ends_update id id (fun o s => ?_) (fun _ => rfl) (fun _ => rfl) (fun _ _ _ h => h)
    fun f declared h => ⟨declared, h⟩
  cases hf : s.func with
  | none => exact .inl ⟨.breach .noFunction, by cases s; cases hf; rfl⟩
  | some f => exact .inr ⟨f, rfl, by cases s; cases hf; rfl⟩

theorem ends_fresh (type : Ty) : b.Ends (fresh type) (·.type = type) :=
  ends_change (fun f => { f with function := (f.function.newRegister type).1 })
    (fun f => (f.function.newRegister type).2) rfl (fun _ => rfl) (fun _ => rfl)
    (fun _ _ h => ⟨h.locals, h.self, h.fits⟩) fun _ _ _ => rfl

theorem ends_newBlock (label : String) : b.Ends (newBlock label) fun _ => True :=
  ends_change (fun f => { f with function := (f.function.newBlock (some label)).1 })
    (fun f => (f.function.newBlock (some label)).2) rfl (fun _ => rfl) (fun _ => rfl)
    (fun _ _ h => ⟨h.locals, h.self, h.fits.newBlock _⟩) fun _ _ _ => trivial

theorem ends_switchTo (block : Ir.BlockId) : b.Ends (switchTo block) fun _ => True :=
  ends_change (fun f => { f with current := block }) (fun _ => ()) rfl (fun _ => rfl)
    (fun _ => rfl) (fun _ _ h => ⟨h.locals, h.self, h.fits⟩) fun _ _ _ => trivial

theorem ends_currentBlock : b.Ends currentBlock fun _ => True :=
  ends_function.bind fun _ _ => .pure trivial

theorem ends_isClosed : b.Ends isClosed fun _ => True := by
  intro o _ s hs
  cases hf : s.func with
  | none =>
    have hrun : isClosed o s = .ok false s := by cases s; cases hf; rfl
    rw [hrun]
    exact ⟨hs, trivial⟩
  | some f =>
    have hrun : isClosed o s = .ok ((f.function.block? f.current).any (·.isClosed)) s := by
      cases s
      cases hf
      rfl
    rw [hrun]
    exact ⟨hs, trivial⟩

/-- An instruction with a result that calls nothing. -/
theorem ends_compute (type : Ty) {instr : Ir.Register → Ir.Instr}
    (hi : ∀ r dest callee args, instr r ≠ .call dest callee args) :
    b.Ends (compute type instr) (·.type = type) :=
  (ends_fresh type).bind fun r hr => (ends_write (hi r)).bind fun _ _ => .pure hr

theorem ends_alloca (type : Ty) (name : Option String) :
    b.Ends (alloca type name) (·.type = .markTo type true) := by
  refine (ends_intern _).bind fun ty hty => (ends_fresh ty).bind fun r hr => ?_
  refine ends_update (fun f => { f with
      function := f.function.modifyBlock f.function.entry (·.pushAlloca (.alloca r type name)) })
    (fun _ => r) (fun o s => ?_) (fun _ => rfl) (fun _ => rfl) (fun f declared _ h => ?_)
    fun _ _ _ => hr.trans hty
  · cases hf : s.func with
    | none => exact .inl ⟨.breach .noFunction, by cases s; cases hf; rfl⟩
    | some f =>
      rw [bind_apply, function_apply hf]
      dsimp only
      split
      · exact .inl ⟨.breach .missingEntry, rfl⟩
      · exact .inr ⟨f, rfl, rfl⟩
  · refine ⟨h.locals, h.self, h.fits.modifyBlock _ fun c hc => Ir.Block.fits_pushAlloca hc ?_⟩
    intro _ _ _ hcall
    cases hcall

/-! ## Constants -/

/-- Of functions, emitting a constant sees nothing. -/
theorem ends_emitted (c : Constant) : b.Ends (emitted c) (·.type = c.type) := by
  intro o _ s hs
  let strings := (c.emitted ⟨s.types, s.ir⟩).2.ir.strings.size
  obtain ⟨hgrows, htype⟩ :=
    Data.emits_type (E := ⟨0, 0, strings, 0⟩) c.type c.data ⟨s.types, s.ir⟩
  have hfunctions : (c.emitted ⟨s.types, s.ir⟩).2.ir.functions = s.ir.functions := hgrows.functions
  refine ⟨⟨⟨hs.outer, hs.calls, ⟨hs.code.types.trans hgrows.types, ?_, ?_, ?_⟩, trivial⟩,
    hs.frames⟩, htype (Nat.le_refl _)⟩
  · exact hfunctions ▸ hs.code.functions
  · exact hfunctions ▸ hs.code.fits
  · exact hfunctions ▸ hs.code.func

theorem ends_constant {c : Constant} (range : Span) (hc : c.Solid b.table) :
    b.Ends (constant c range) fun v =>
      v.Typed b.table ∧ v.isTemporary = true ∧ v.type = c.type := by
  refine (ends_emitted c).bind fun ir hir => .pure ⟨⟨fun _ => .inl hir, fun h => ?_, ?_⟩, rfl, rfl⟩
  · cases h
  · intro c' hc'
    cases hc'
    exact ⟨rfl, hc⟩

/-! ## Memory -/

variable {v : Value}

theorem ends_load (ptr : Ir.Value) (type : Ty) : b.Ends (load ptr type) (·.type = type) :=
  ends_compute type fun _ _ _ _ h => by cases h

theorem ends_store (value ptr : Ir.Value) : b.Ends (store value ptr) fun _ => True :=
  ends_write fun _ _ _ h => by cases h

theorem ends_referenceAddress {sub : Ty} {isVar : Bool} (hv : v.Typed b.table)
    (href : v.type.refInfo? = some (sub, isVar)) :
    b.Ends (referenceAddress v) (·.ir.type.target? = some sub) := by
  have hsub : v.type.target? = some sub := congrArg Ty.target? (Ty.eq_ref_of_refInfo? href)
  unfold referenceAddress
  split
  · exact .pure ((hv.temporary ‹_›).target hsub)
  · exact (ends_load _ _).bind fun r hr => .pure ((congrArg Ty.target? hr).trans hsub)

theorem ends_rvalue (hv : v.Typed b.table) :
    b.Ends (rvalue v) (Value.Used b.table v.type.value) := by
  unfold rvalue
  split
  · rename_i sub isVar href
    rw [Ty.eq_ref_of_refInfo? href]
    exact (ends_referenceAddress hv href).bind fun _ _ => (ends_load _ _).bind fun r hr =>
      .pure (Value.used_temporary (.inl hr))
  · rename_i href
    rw [Ty.value_eq_self href]
    split
    · exact .pure ⟨hv, ‹_›, rfl⟩
    · split
      · rename_i c hc
        obtain ⟨htype, hsolid⟩ := hv.fixed hc
        rw [Ty.value_eq_self href] at htype
        exact (ends_constant _ hsolid).mono fun w hw => ⟨hw.1, hw.2.1, hw.2.2.trans htype⟩
      · exact (ends_load _ _).bind fun r hr => .pure (Value.used_temporary (.inl hr))

theorem ends_placeOf (hv : v.Typed b.table) :
    b.Ends (place? v) fun r =>
      (∀ p, r = some p → p.Placed b.table v.type.value) ∧ (r = none → v.type.value = v.type) := by
  unfold place?
  split
  · rename_i sub isVar href
    rw [Ty.eq_ref_of_refInfo? href]
    refine (ends_referenceAddress hv href).bind fun a ha =>
      .pure ⟨fun p hp => ?_, fun hp => by cases hp⟩
    cases hp
    exact Value.placed_stored (by decide) ha
  · rename_i href
    rw [Ty.value_eq_self href]
    refine .pure ⟨fun p hp => ?_, fun _ => rfl⟩
    split at hp
    · cases hp
    · cases hp
      exact ⟨hv, Bool.not_eq_true _ ▸ ‹_›, rfl⟩

theorem ends_place (hv : v.Typed b.table) :
    b.Ends (place v) (Value.Placed b.table v.type.value) := by
  refine (ends_placeOf hv).bind fun r hr => ?_
  split
  · exact .pure (hr.1 _ rfl)
  · rw [hr.2 rfl]
    exact (ends_alloca _ _).bind fun slot hslot => (ends_store _ _).bind fun _ _ =>
      .pure ⟨⟨fun h => (by cases h), fun _ => congrArg Ty.target? hslot, hv.known⟩, rfl, rfl⟩

theorem ends_tempSlot (type : Ty) (range : Span) :
    b.Ends (tempSlot type range) (Value.Placed b.table type) :=
  (ends_alloca type none).bind fun r hr =>
    .pure (Value.placed_stored (by decide) (congrArg Ty.target? hr))

theorem ends_targetSlot {expect : Expect} (type : Ty) (range : Span) (he : expect.Typed b.table) :
    b.Ends (targetSlot type expect range) (Value.Placed b.table type) := by
  unfold targetSlot
  split
  · rename_i slot hslot
    split
    · exact .pure ⟨(he slot hslot).1, (he slot hslot).2, ‹_›⟩
    · exact ends_tempSlot type range
  · exact ends_tempSlot type range

theorem ends_fieldPtr (base : Ir.Value) (aggregate : Ty) (index : Nat) (member : Ty) :
    b.Ends (fieldPtr base aggregate index member) (·.type = .markTo member true) :=
  (ends_intern _).bind fun _ hty =>
    (ends_compute _ fun _ _ _ _ h => by cases h).mono fun _ hr => hr.trans hty

theorem ends_elementPtr (base : Ir.Value) (element : Ty) (isVar : Bool) (index : Ir.Value) :
    b.Ends (elementPtr base element isVar index) (·.type = .markTo element isVar) :=
  (ends_intern _).bind fun _ hty =>
    (ends_compute _ fun _ _ _ _ h => by cases h).mono fun _ hr => hr.trans hty

theorem ends_stringParts (ir : Ir.Value) : b.Ends (stringParts ir) (·.2.type = .usize) :=
  (ends_intern _).bind fun _ _ => (ends_compute _ fun _ _ _ _ h => by cases h).bind fun _ _ =>
    (ends_compute _ fun _ _ _ _ h => by cases h).bind fun _ hr => .pure hr

theorem ends_sliceData (ir : Ir.Value) (element : Ty) (isVar : Bool) :
    b.Ends (sliceData ir element isVar) (·.type = .markTo element isVar) :=
  (ends_intern _).bind fun _ hty =>
    (ends_compute _ fun _ _ _ _ h => by cases h).mono fun _ hr => hr.trans hty

theorem ends_castTo (op : Ir.CastOp) (value : Ir.Value) (target : Ty) :
    b.Ends (castTo op value target) (·.type = target) :=
  ends_compute target fun _ _ _ _ h => by cases h

theorem ends_aggregateFrom (type : Ty) :
    ∀ (members : List Ir.Value) (index : Nat) (sofar : Ir.Value), sofar.type = type →
      b.Ends (aggregateFrom type index sofar members) (·.type = type)
  | [], _, _, h => .pure h
  | _ :: rest, index, _, _ => by
    unfold aggregateFrom
    exact (ends_compute type fun _ _ _ _ h => by cases h).bind fun r hr =>
      ends_aggregateFrom type rest (index + 1) r hr

theorem ends_aggregate (type : Ty) (members : List Ir.Value) (range : Span) :
    b.Ends (aggregate type members range) (·.Typed b.table) :=
  (ends_aggregateFrom type members 0 _ rfl).bind fun _ h =>
    .pure (Value.typed_temporary (.inl h))

/-! ## Locals -/

theorem ends_pushScope : b.Ends pushScope fun _ => True :=
  ends_change (fun f => { f with scopes := [] :: f.scopes }) (fun _ => ()) rfl (fun _ => rfl)
    (fun _ => rfl)
    (fun _ _ h => ⟨List.forall_mem_cons.mpr ⟨fun _ hv => (by cases hv), h.locals⟩, h.self, h.fits⟩)
    fun _ _ _ => trivial

theorem ends_popScope : b.Ends popScope fun _ => True := by
  refine ends_change
    (fun f => { f with scopes := if f.scopes.length > 1 then f.scopes.drop 1 else f.scopes })
    (fun _ => ()) rfl (fun _ => rfl) (fun _ => rfl) (fun f _ h => ⟨fun scope hscope => ?_, h.self,
      h.fits⟩) fun _ _ _ => trivial
  dsimp only at hscope
  split at hscope
  · exact h.locals scope (List.mem_of_mem_drop hscope)
  · exact h.locals scope hscope

theorem ends_inScope {action : Emit Unit} (ha : b.Ends action fun _ => True) :
    b.Ends (inScope action) fun _ => True :=
  ends_pushScope.bind fun _ _ => ha.bind fun _ _ => ends_popScope

def withLocal (l : LocalVar) : List (List LocalVar) → List (List LocalVar)
  | [] => [[l]]
  | scope :: outer => (l :: scope) :: outer

theorem typed_withLocal {t : TypeTable} {l : LocalVar} {scopes : List (List LocalVar)}
    (hl : l.Typed t) (hscopes : ∀ scope ∈ scopes, ∀ v ∈ scope, v.Typed t) :
    ∀ scope ∈ withLocal l scopes, ∀ v ∈ scope, v.Typed t := by
  cases scopes with
  | nil => simpa [withLocal] using hl
  | cons scope outer =>
    simp only [withLocal, List.forall_mem_cons] at hscopes ⊢
    exact ⟨⟨hl, hscopes.1⟩, hscopes.2⟩

theorem ends_declareLocal {l : LocalVar} (hl : l.Typed b.table) :
    b.Ends (declareLocal l) fun _ => True := by
  refine ends_update (fun f => { f with scopes := withLocal l f.scopes }) (fun _ => ())
    (fun o s => ?_) (fun _ => rfl) (fun _ => rfl) (fun f _ _ h => ⟨?_, h.self, h.fits⟩)
    fun _ _ _ => trivial
  · cases hf : s.func with
    | none => exact .inl ⟨.breach .noFunction, by cases s; cases hf; rfl⟩
    | some f =>
      unfold declareLocal
      rw [bind_apply, function_apply hf]
      cases hscopes : f.scopes with
      | nil => exact .inr ⟨f, rfl, by simp only [hscopes]; rfl⟩
      | cons scope outer =>
        cases hfind : scope.find? (·.name.text == l.name.text) with
        | some existing => exact .inl ⟨_, by simp only [hscopes, hfind]; rfl⟩
        | none => exact .inr ⟨f, rfl, by simp only [hscopes, hfind]; rfl⟩
  · exact typed_withLocal hl h.locals

theorem ends_localNamed (name : QName) : b.Ends (localOf? name) fun r =>
    ∀ l, r = some l → l.Typed b.table := by
  have hfind (text : String) : b.Ends (findLocal? text) fun r =>
      ∀ l, r = some l → l.Typed b.table := by
    intro o _ s hs
    refine ⟨hs, fun l hl => ?_⟩
    obtain ⟨f, hf, hl⟩ := Option.bind_eq_some_iff.mp hl
    exact (hs.code.func f hf).1.find hl
  unfold localOf?
  split
  · exact hfind _
  · exact .pure fun l hl => by cases hl

theorem typed_localValue {t : TypeTable} {l : LocalVar} (hl : l.Typed t) (range : Span) :
    (localValue l range).Typed t := by
  unfold localValue
  split
  · exact ⟨fun _ => hl.reference ‹_›, fun h => (by cases h), hl.known⟩
  · exact ⟨fun h => (by cases h), fun _ => hl.held (Bool.not_eq_true _ ▸ ‹_›), hl.known⟩

theorem ends_selfValue (range : Span) : b.Ends (selfValue range) (·.Typed b.table) := by
  intro o _ s hs
  have hrun : selfValue range o s = (do
      let self ← require (s.func.bind FunctionState.self) .selfOutside range
      return Value.stored self.address self.type self.isVar .pointee range : Emit Value) o s := rfl
  rw [hrun]
  refine (ends_require (Q := Instance.Typed) _ range fun i hi => ?_).bind (fun i hi => .pure ?_) o
    trivial s hs
  · obtain ⟨f, hf, hi⟩ := Option.bind_eq_some_iff.mp hi
    exact (hs.code.func f hf).1.self i hi
  · exact Value.typed_stored (by decide) hi

theorem ends_warn (d : Diagnostic) : b.Ends (warn d) fun _ => True :=
  fun _ _ _ hs => ⟨⟨⟨hs.outer, hs.calls, hs.code, trivial⟩, hs.frames⟩, trivial⟩

end Emit

end Staged
