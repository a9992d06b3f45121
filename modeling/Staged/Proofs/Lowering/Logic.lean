/-
  Staged.Proofs.Lowering.Logic — what lowering leaves alone.

  Lowering writes types, code and warnings. What it reads of the rest of a compilation is
  the `Outer` part of the state: modules, entities, declarations, symbols, brings and the
  log. An action keeps a setting when it leaves the outer part as it is, and keeps what the
  setting says of the compile-time frames and of types and code (`Setting.Keeps`); when it
  fails, the outer part is still as it was, and what is known of types and code still holds.

  Evaluation needs of a setting that it bears the use of a type. Lowering writes code, so it
  needs a setting that looks at nothing but types (`TypeSetting`). Where a declaration adds
  definitions, either nothing is known of types (`FreeSetting`), or its rules ask for what
  adding them keeps.

  A setting names the entities that may be asked for before they are ready (`blames`). An
  action that keeps the setting fails for such a reason only with one of these. With none
  of them, nothing is asked for too early; with all of them, only the frame is left. In the
  same way it says which failures of jumps that miss their loops are let pass (`strays`).

  The statements are Hoare triples, one per action, so that a rule for a larger action is
  put together from those of its parts. `Emit.triple_iff` says what a triple means.
-/

import Mathlib
import Staged.Compiler.Code
import Staged.Proofs.Lists

open Std.Do

set_option mvcgen.warning false

namespace Staged

/-! ## Triples -/

namespace Emit

variable {α : Type}

theorem wp_apply (a : Emit α)
    (Q : PostCond α (.arg Options (.except Failure (.arg Compiler .pure)))) (o : Options)
    (s : Compiler) :
    wp⟦a⟧ Q o s = match a o s with
      | .ok v s' => Q.1 v o s'
      | .error f s' => Q.2.1 f s' := by
  simp only [WP.wp, PredTrans.apply_pushArg, PredTrans.apply_Functor_map]
  simp only [PredTrans.apply, ReaderT.run, EStateM.run]
  cases a o s <;> rfl

theorem bind_apply {β : Type} (a : Emit α) (k : α → Emit β) (o : Options) (s : Compiler) :
    (a >>= k) o s = match a o s with
      | .ok v s' => k v o s'
      | .error f s' => .error f s' := by
  show EStateM.bind (a o) (fun v => k v o) s = _
  unfold EStateM.bind
  cases a o s <;> rfl

/-- A triple speaks of the result of an action from every state. -/
theorem triple_iff {a : Emit α} {P : Compiler → Prop} {Q : α → Compiler → Prop}
    {E : Failure → Compiler → Prop} :
    ⦃fun _ s => ⌜P s⌝⦄ a ⦃post⟨fun v _ s => ⌜Q v s⌝, fun f s => ⌜E f s⌝⟩⦄ ↔
      ∀ o s, P s → match a o s with
        | .ok v s' => Q v s'
        | .error f s' => E f s' := by
  have hwp (o : Options) (s : Compiler) :
      (wp⟦a⟧ post⟨fun v _ s => ⌜Q v s⌝, fun f s => ⌜E f s⌝⟩ o s).down ↔ match a o s with
        | .ok v s' => Q v s'
        | .error f s' => E f s' := by
    rw [wp_apply]
    cases a o s <;> exact Iff.rfl
  constructor
  · intro h o s hs
    exact (hwp o s).mp ((Triple.iff.mp h) o s hs)
  · intro h
    exact Triple.iff.mpr fun o s hs => (hwp o s).mpr (h o s hs)

end Emit

/-! ## Settings -/

structure Outer where
  modules : ModuleTree
  entities : EntityGraph
  sites : Array Site
  symbols : List (EntityId × Symbol)
  pendingBrings : List (ModId × EntityId)
  log : Array (EntityId × Phase)

def Compiler.outer (s : Compiler) : Outer :=
  ⟨s.modules, s.entities, s.sites, s.symbols, s.pendingBrings, s.log⟩

@[simp] def Fault.isNotReady : Fault → Bool
  | .notReady _ => true
  | _ => false

def Failure.isNotReady : Failure → Bool
  | .fault f _ => f.isNotReady
  | _ => false

@[simp] def Fault.isStray : Fault → Bool
  | .jumpEscaped _ | .jumpTag .. | .jumpOutside _ => true
  | _ => false

def Failure.isStray : Failure → Bool
  | .fault f _ => f.isStray
  | _ => false

@[simp] def Fault.isPlain : Fault → Bool
  | .notReady _ | .jumpEscaped _ | .jumpTag .. | .jumpOutside _ => false
  | _ => true

def Failure.isPlain : Failure → Bool
  | .fault f _ => f.isPlain
  | _ => true

structure Core where
  types : TypeTable
  ir : Ir.Module
  func : Option FunctionState

def Compiler.core (s : Compiler) : Core := ⟨s.types, s.ir, s.func⟩

def FunctionState.abandon (f : FunctionState) : FunctionState :=
  let g := f.function.modifyBlock f.current (·.close .unreachable)
  { f with function := (g.newBlock (some "todo.after")).1, current := g.blocks.size }

/-- Whether the function under construction is at a block that it does not have. -/
def Compiler.isAdrift (s : Compiler) : Bool :=
  s.func.any fun f => (f.function.block? f.current).isNone

/-- What stays the same while something is evaluated. -/
structure Setting where
  outer : Outer
  /-- What is known of the running compile-time calls. -/
  frames : List Frame → Prop
  /-- The entities that may be asked for before they are ready. -/
  blames : EntityId → Prop
  /-- The failures of jumps that do not find their loops. -/
  strays : Failure → Prop := fun _ => True
  /-- What is known of types and code. -/
  code : Core → Prop
  /-- Evaluation uses types. -/
  code_intern : ∀ {c : Core} (ty : Ty), code c → code { c with types := c.types.intern ty }
  /-- Evaluation may come upon code that is not written yet. -/
  code_abandon : ∀ {c : Core}, code c → code { c with func := c.func.map .abandon }

structure TypeSetting extends Setting where
  code_types : ∀ {c c' : Core}, c'.types = c.types → code c → code c'
  /-- Constants in code use types. -/
  code_emitted : ∀ {c c' : Core} (k : Constant), code c →
    c'.types = (k.emitted ⟨c.types, c.ir⟩).2.types → code c'

structure FreeSetting extends TypeSetting where
  code_all : ∀ c, code c

def FreeSetting.withoutCalls (outer : Outer) (blames : EntityId → Prop) : FreeSetting where
  outer := outer
  frames := (· = [])
  blames := blames
  code _ := True
  code_intern _ _ := trivial
  code_abandon _ := trivial
  code_types _ _ := trivial
  code_emitted _ _ _ := trivial
  code_all _ := trivial

namespace Setting

def Holds (w : Setting) (s : Compiler) : Prop :=
  s.outer = w.outer ∧ w.frames s.frames ∧ w.code s.core

theorem Holds.recode {w : TypeSetting} {s s' : Compiler} (h : w.Holds s)
    (ho : s'.outer = s.outer) (hf : s'.frames = s.frames) (ht : s'.types = s.types) : w.Holds s' :=
  ⟨ho.trans h.1, hf ▸ h.2.1, w.code_types (c := s.core) ht h.2.2⟩

def Allows (w : Setting) (f : Failure) : Prop :=
  (f.isNotReady = true →
    ∃ id range, w.blames id ∧ f = .fault (.notReady (w.outer.entities.displayName id)) range) ∧
  (f.isStray = true → w.strays f)

theorem allows_of_isPlain {w : Setting} {f : Failure} (hf : f.isPlain = true) : w.Allows f := by
  cases f with
  | fault f range =>
    unfold Allows Failure.isNotReady Failure.isStray
    cases f with
    | notReady | jumpEscaped | jumpTag | jumpOutside => cases hf
    | _ => exact ⟨nofun, nofun⟩
  | _ => exact ⟨nofun, nofun⟩

abbrev Gives {α : Type} (w : Setting) (a : Emit α) (Q : α → Prop) : Prop :=
  ⦃fun _ s => ⌜w.Holds s⌝⦄ a
  ⦃post⟨fun v _ s => ⌜w.Holds s ∧ Q v⌝,
    fun f s => ⌜s.outer = w.outer ∧ w.Allows f ∧ w.code s.core⌝⟩⦄

abbrev Keeps {α : Type} (w : Setting) (a : Emit α) : Prop :=
  ⦃fun _ s => ⌜w.Holds s⌝⦄ a
  ⦃post⟨fun _ _ s => ⌜w.Holds s⌝,
    fun f s => ⌜s.outer = w.outer ∧ w.Allows f ∧ w.code s.core⌝⟩⦄

abbrev Fails {α : Type} (w : Setting) (a : Emit α) : Prop := w.Gives a fun _ => False

theorem Gives.keeps {α : Type} {w : Setting} {a : Emit α} {Q : α → Prop} (h : w.Gives a Q) :
    w.Keeps a := by
  refine Emit.triple_iff.mpr fun o s hs => ?_
  have := Emit.triple_iff.mp h o s hs
  cases hr : a o s <;> rw [hr] at this
  · exact this.1
  · exact this

theorem Keeps.gives {α : Type} {w : Setting} {a : Emit α} (h : w.Keeps a) :
    w.Gives a fun _ => True := by
  refine Emit.triple_iff.mpr fun o s hs => ?_
  have := Emit.triple_iff.mp h o s hs
  cases hr : a o s <;> rw [hr] at this
  · exact ⟨this, trivial⟩
  · exact this

theorem Gives.mono {α : Type} {w : Setting} {a : Emit α} {Q R : α → Prop} (h : w.Gives a Q)
    (hQ : ∀ v, Q v → R v) : w.Gives a R := by
  refine Emit.triple_iff.mpr fun o s hs => ?_
  have := Emit.triple_iff.mp h o s hs
  cases hr : a o s <;> rw [hr] at this
  · exact ⟨this.1, hQ _ this.2⟩
  · exact this

theorem Gives.bind {α β : Type} {w : Setting} {a : Emit α} {k : α → Emit β} {Q : α → Prop}
    {R : β → Prop} (ha : w.Gives a Q) (hk : ∀ v, Q v → w.Gives (k v) R) : w.Gives (a >>= k) R := by
  refine Triple.bind _ _ ha fun v => Emit.triple_iff.mpr fun o s hs => ?_
  exact Emit.triple_iff.mp (hk v hs.2) o s hs.1

theorem Keeps.bind {α β : Type} {w : Setting} {a : Emit α} {k : α → Emit β} (ha : w.Keeps a)
    (hk : ∀ v, w.Keeps (k v)) : w.Keeps (a >>= k) :=
  Triple.bind _ _ ha hk

end Setting

namespace Emit

variable {w : Setting} {α β : Type}

/-! ## Failures -/

@[spec] theorem fails_refuse {f : Fault} (range : Span) (hf : f.isPlain = true) :
    w.Fails (refuse f range : Emit α) :=
  triple_iff.mpr fun _ _ hs => ⟨hs.1, Setting.allows_of_isPlain hf, hs.2.2⟩

theorem fails_stray {f : Fault} {range : Span} (hf : f.isNotReady = false)
    (hs : w.strays (.fault f range)) : w.Fails (refuse f range : Emit α) := by
  refine triple_iff.mpr fun _ _ h => ⟨h.1, ⟨fun hn => ?_, fun _ => hs⟩, h.2.2⟩
  cases hf.symm.trans hn

@[spec] theorem fails_breach (b : Breach) : w.Fails (breach b : Emit α) :=
  triple_iff.mpr fun _ _ hs => ⟨hs.1, Setting.allows_of_isPlain rfl, hs.2.2⟩

@[spec] theorem fails_mismatch (expected found : Ty) (range : Span) :
    w.Fails (mismatch expected found range : Emit α) :=
  fails_refuse range rfl

@[spec] theorem fails_refuseName (e : ResolveError) : w.Fails (refuseName e : Emit α) :=
  fails_refuse e.range rfl

@[spec] theorem gives_require {value : Option α} {f : Fault} (range : Span)
    (hf : f.isPlain = true) : w.Gives (require value f range) fun v => value = some v := by
  mvcgen [require] <;> simp_all

@[spec] theorem keeps_warn (d : Diagnostic) : w.Keeps (warn d) := by
  mvcgen [warn]

/-! ## Types and names -/

@[spec] theorem keeps_types : w.Keeps types := by
  mvcgen [types]

@[spec] theorem gives_modules : w.Gives modules fun t => t = w.outer.modules := by
  mvcgen [modules]
  rename_i h
  exact ⟨h, congrArg Outer.modules h.1⟩

@[spec] theorem keeps_intern (ty : Ty) : w.Keeps (intern ty) :=
  triple_iff.mpr fun _ _ hs => ⟨hs.1, hs.2.1, w.code_intern ty hs.2.2⟩

@[spec] theorem keeps_requireSized (ty : Ty) (range : Span) : w.Keeps (requireSized ty range) := by
  mvcgen [requireSized] <;> simp_all

@[spec] theorem keeps_isAccessible (view : Viewpoint) (vis : Visibility) :
    w.Keeps (isAccessible view vis) := by
  mvcgen [isAccessible]
  simp_all

@[spec] theorem gives_resolveName (view : Viewpoint) (name : QName) :
    w.Gives (resolveName view name) fun r =>
      r = w.outer.modules.resolve view.module name view := by
  mvcgen [resolveName]
  simp_all

@[spec] theorem gives_resolved (view : Viewpoint) (name : QName) :
    w.Gives (resolved view name) fun r =>
      w.outer.modules.resolve view.module name view = .ok r := by
  mvcgen [resolved] <;> simp_all

@[spec] theorem gives_symbolOf {id : EntityId} (range : Span)
    (hid : w.outer.symbols.lookup id = none → w.blames id) :
    w.Gives (symbolOf id range) fun y => w.outer.symbols.lookup id = some y := by
  refine triple_iff.mpr fun o s hs => ?_
  have hsym : s.symbols = w.outer.symbols := congrArg Outer.symbols hs.1
  have hent : s.entities = w.outer.entities := congrArg Outer.entities hs.1
  have hrun : symbolOf id range o s =
      require (s.symbols.lookup id) (.notReady (s.entities.displayName id)) range o s := rfl
  rw [hrun, hsym, hent]
  cases hl : w.outer.symbols.lookup id with
  | some y => exact ⟨hs, rfl⟩
  | none => exact ⟨hs.1, ⟨fun _ => ⟨id, range, hid hl, rfl⟩, nofun⟩, hs.2.2⟩

@[spec] theorem keeps_function : w.Keeps function := by
  mvcgen [function]
  simp_all

@[spec] theorem keeps_findLocal (name : String) : w.Keeps (findLocal? name) := by
  mvcgen [findLocal?]

@[spec] theorem keeps_localOf (name : QName) : w.Keeps (localOf? name) := by
  mvcgen [localOf?]

theorem function_apply {o : Options} {s : Compiler} {f : FunctionState} (hf : s.func = some f) :
    function o s = .ok f s := by
  cases s
  cases hf
  rfl

theorem modifyCurrent_apply (g : Ir.Block → Ir.Block) {o : Options} {s : Compiler}
    {f : FunctionState} (hf : s.func = some f) :
    modifyCurrent g o s =
      if (f.function.block? f.current).isNone then .error (.breach .missingBlock) s
      else .ok () { s with func := some { f with function := f.function.modifyBlock f.current g } } := by
  unfold modifyCurrent
  rw [bind_apply, function_apply hf]
  by_cases hb : (f.function.block? f.current).isNone = true
  · simp only [if_pos hb]
    rfl
  · simp only [if_neg hb]
    rfl

/-- In a release, code that is not written yet is refused. -/
theorem unfinished_release (message : Option String) (range : Span) {o : Options} (s : Compiler)
    (hmode : o.mode = .release) :
    unfinished message range o s = .error (.fault (.reachedTodo message) range) s := by
  have hread : (read : Emit Options) o s = .ok o s := rfl
  unfold unfinished
  rw [bind_apply, hread]
  simp only [if_pos hmode]
  rfl

/-- Otherwise it abandons the function under construction, which must have a block to end. -/
theorem unfinished_debug (message : Option String) (range : Span) {o : Options} (s : Compiler)
    (hmode : o.mode ≠ .release) : ∃ d, unfinished message range o s =
      if s.isAdrift then .error (.breach .missingBlock) { s with warnings := s.warnings.push d }
      else .ok () { s with warnings := s.warnings.push d, func := s.func.map .abandon } := by
  have hread : (read : Emit Options) o s = .ok o s := rfl
  have hget (s : Compiler) : (get : Emit Compiler) o s = .ok s s := rfl
  have hwarn (d : Diagnostic) : warn d o s = .ok () { s with warnings := s.warnings.push d } := rfl
  refine ⟨(({ severity := .warning, message := Fault.todoText message } : Diagnostic).withCode
    Code.todoWarning.text).withPrimary range "code after this point is unreachable", ?_⟩
  unfold unfinished Compiler.isAdrift
  rw [bind_apply, hread]
  simp only [if_neg hmode, bind_apply, hget, hwarn]
  cases hf : s.func with
  | none =>
    simp only [Option.any_none, Option.map_none]
    rfl
  | some f =>
    simp only [Option.isSome_some, if_true, Option.any_some, bind_apply, terminate]
    rw [modifyCurrent_apply _ rfl]
    by_cases hb : (f.function.block? f.current).isNone = true
    · simp only [if_pos hb]
    · simp only [if_neg hb]
      rfl

/-- Code that is not written yet is abandoned with a warning, if there is a function; it is
refused, or there is no block to end. -/
theorem unfinished_apply (message : Option String) (range : Span) (o : Options) (s : Compiler) :
    match unfinished message range o s with
    | .ok _ s' => s'.outer = s.outer ∧ s'.frames = s.frames ∧
        s'.core = { s.core with func := s.func.map .abandon } ∧ o.mode ≠ .release ∧
        ∃ d, s'.warnings = s.warnings.push d
    | .error f s' => s'.outer = s.outer ∧ s'.frames = s.frames ∧ s'.core = s.core ∧
        (s'.warnings = s.warnings ∨ ∃ d, s'.warnings = s.warnings.push d) ∧
        (f = .fault (.reachedTodo message) range ∨ f = .breach .missingBlock ∧
          ∃ fn, s.func = some fn ∧ fn.function.block? fn.current = none) := by
  by_cases hmode : o.mode = .release
  · rw [unfinished_release message range s hmode]
    exact ⟨rfl, rfl, rfl, .inl rfl, .inl rfl⟩
  · obtain ⟨d, hrun⟩ := unfinished_debug message range s hmode
    rw [hrun]
    cases hadrift : s.isAdrift with
    | false => exact ⟨rfl, rfl, rfl, hmode, d, rfl⟩
    | true =>
      obtain ⟨f, hf, hb⟩ := (Option.any_eq_true _ _).mp hadrift
      exact ⟨rfl, rfl, rfl, .inr ⟨d, rfl⟩, .inr ⟨rfl, f, hf, Option.isNone_iff_eq_none.mp hb⟩⟩

@[spec] theorem keeps_unfinished (message : Option String) (range : Span) :
    w.Keeps (unfinished message range) := by
  refine triple_iff.mpr fun o s hs => ?_
  have h := unfinished_apply message range o s
  cases hr : unfinished message range o s with
  | ok _ s' =>
    rw [hr] at h
    exact ⟨h.1.trans hs.1, h.2.1 ▸ hs.2.1, h.2.2.1 ▸ w.code_abandon hs.2.2⟩
  | error f s' =>
    rw [hr] at h
    obtain ⟨houter, -, hcore, -, hf⟩ := h
    have hallowed : w.Allows f := by
      rcases hf with rfl | ⟨rfl, -⟩ <;> exact Setting.allows_of_isPlain rfl
    exact ⟨houter.trans hs.1, hallowed, hcore ▸ hs.2.2⟩

/-! ## Code -/

variable {w : TypeSetting}

@[spec] theorem keeps_emitted (c : Constant) : w.Keeps (emitted c) :=
  triple_iff.mpr fun _ _ hs => ⟨hs.1, hs.2.1, w.code_emitted c hs.2.2 rfl⟩

@[spec] theorem keeps_constant (c : Constant) (range : Span) : w.Keeps (constant c range) := by
  mvcgen [constant]

@[spec] theorem keeps_setFunction (f : FunctionState) : w.Keeps (setFunction f) := by
  mvcgen [setFunction]
  rename_i h _
  exact h.recode rfl rfl rfl

@[spec] theorem keeps_prototype (id : Ir.FunctionId) : w.Keeps (prototype id) := by
  mvcgen [prototype]
  simp_all

@[spec] theorem keeps_beginFunction (id : Ir.FunctionId) (result : Ty) (self : Option Instance) :
    w.Keeps (beginFunction id result self) := by
  mvcgen [beginFunction]
  simp_all

@[spec] theorem keeps_finishFunction (range : Span) : w.Keeps (finishFunction range) := by
  mvcgen [finishFunction]
  · rename_i h _
    exact h.recode rfl rfl rfl
  · rename_i h _ _
    exact h.1
  · rename_i h _
    exact h.2.elim
  · rename_i h _ _ _
    exact h.1.recode rfl rfl rfl

@[spec] theorem keeps_modifyCurrent (g : Ir.Block → Ir.Block) : w.Keeps (modifyCurrent g) := by
  mvcgen [modifyCurrent]
  simp_all

@[spec] theorem keeps_push (i : Ir.Instr) : w.Keeps (push i) := keeps_modifyCurrent _

@[spec] theorem keeps_fresh (type : Ty) : w.Keeps (fresh type) := by
  mvcgen [fresh]

@[spec] theorem keeps_compute (type : Ty) (instr : Ir.Register → Ir.Instr) :
    w.Keeps (compute type instr) := by
  mvcgen [compute]

@[spec] theorem keeps_alloca (type : Ty) (name : Option String) : w.Keeps (alloca type name) := by
  mvcgen [alloca]
  simp_all

@[spec] theorem keeps_newBlock (label : String) : w.Keeps (newBlock label) := by
  mvcgen [newBlock]

@[spec] theorem keeps_switchTo (block : Ir.BlockId) : w.Keeps (switchTo block) := by
  mvcgen [switchTo]

@[spec] theorem keeps_currentBlock : w.Keeps currentBlock := by
  mvcgen [currentBlock]

@[spec] theorem keeps_terminate (t : Ir.Terminator) : w.Keeps (terminate t) :=
  keeps_modifyCurrent _

@[spec] theorem keeps_isClosed : w.Keeps isClosed := by
  mvcgen [isClosed]

@[spec] theorem keeps_jump (target : Ir.BlockId) : w.Keeps (jump target) := keeps_terminate _

@[spec] theorem keeps_branch (cond : Ir.Value) (thenBlock elseBlock : Ir.BlockId) :
    w.Keeps (branch cond thenBlock elseBlock) := keeps_terminate _

/-! ## Memory -/

@[spec] theorem keeps_load (ptr : Ir.Value) (type : Ty) : w.Keeps (load ptr type) :=
  keeps_compute _ _

@[spec] theorem keeps_store (value ptr : Ir.Value) : w.Keeps (store value ptr) := keeps_push _

@[spec] theorem keeps_referenceAddress (v : Value) : w.Keeps (referenceAddress v) := by
  mvcgen [referenceAddress]

@[spec] theorem keeps_rvalue (v : Value) : w.Keeps (rvalue v) := by
  mvcgen [rvalue]

@[spec] theorem keeps_placeOf (v : Value) : w.Keeps (place? v) := by
  mvcgen [place?]

@[spec] theorem keeps_place (v : Value) : w.Keeps (place v) := by
  mvcgen [place]

@[spec] theorem keeps_tempSlot (type : Ty) (range : Span) : w.Keeps (tempSlot type range) := by
  mvcgen [tempSlot]

@[spec] theorem keeps_targetSlot (type : Ty) (expect : Expect) (range : Span) :
    w.Keeps (targetSlot type expect range) := by
  mvcgen [targetSlot]

@[spec] theorem keeps_fieldPtr (base : Ir.Value) (aggregate : Ty) (index : Nat) (member : Ty) :
    w.Keeps (fieldPtr base aggregate index member) := by
  mvcgen [fieldPtr]

@[spec] theorem keeps_elementPtr (base : Ir.Value) (element : Ty) (isVar : Bool)
    (index : Ir.Value) : w.Keeps (elementPtr base element isVar index) := by
  mvcgen [elementPtr]

@[spec] theorem keeps_stringParts (v : Ir.Value) : w.Keeps (stringParts v) := by
  mvcgen [stringParts]

@[spec] theorem keeps_sliceData (v : Ir.Value) (element : Ty) (isVar : Bool) :
    w.Keeps (sliceData v element isVar) := by
  mvcgen [sliceData]

@[spec] theorem keeps_castTo (op : Ir.CastOp) (value : Ir.Value) (target : Ty) :
    w.Keeps (castTo op value target) := keeps_compute _ _

@[spec] theorem keeps_aggregateFrom (type : Ty) (members : List Ir.Value) :
    ∀ (index : Nat) (sofar : Ir.Value), w.Keeps (aggregateFrom type index sofar members) := by
  induction members with
  | nil => intro index sofar; mvcgen [aggregateFrom]
  | cons member rest ih => intro index sofar; mvcgen [aggregateFrom, ih]

@[spec] theorem keeps_aggregate (type : Ty) (members : List Ir.Value) (range : Span) :
    w.Keeps (aggregate type members range) := by
  mvcgen [aggregate]

/-! ## Locals -/

@[spec] theorem keeps_pushScope : w.Keeps pushScope := by
  mvcgen [pushScope]

@[spec] theorem keeps_popScope : w.Keeps popScope := by
  mvcgen [popScope]

theorem keeps_inScope {action : Emit Unit} (ha : w.Keeps action) : w.Keeps (inScope action) := by
  mvcgen [inScope, ha]

@[spec] theorem keeps_declareLocal (v : LocalVar) : w.Keeps (declareLocal v) := by
  mvcgen [declareLocal] <;> simp_all

@[spec] theorem keeps_selfValue (range : Span) : w.Keeps (selfValue range) := by
  mvcgen [selfValue]
  simp_all

end Emit

end Staged
