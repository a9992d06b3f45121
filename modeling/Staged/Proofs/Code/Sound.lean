/-
  Staged.Proofs.Code.Sound — code in which everything that is referred to exists.

  Constants name functions, globals and strings of the module by number, and calls name
  functions. `refs` lists what occurs in a constant, an instruction, a terminator, a
  function or a whole module, and `Module.Defines` says that an entry of that number
  exists. Numbers are never taken back, so an entry that exists goes on to exist. An `Extent`
  says how many entries of each kind there are, and how many blocks the function under
  construction has; it covers what refers to numbers below.

  While a body is lowered, code only grows: strings, external functions and blocks are
  added, and nothing is taken back (`Core.Grows`). So whatever is referred to can be
  judged against what there is at the end. `Emits E P a Q` says of an action that it only
  adds to the code, and that if all there is afterwards fits into `E` then, given `P`,
  code whose references `E` covers stays so, and `Q` holds of the result.

  Since `E` is the same before and after an action, nothing has to be said about how
  references fare while numbers go up. What is known of the values at hand is gathered in
  `P`: a sequence of actions adds to it what each of them gives (`Emits.bind`).
-/

import Mathlib
import Staged.Compiler.State
import Staged.Proofs.Definitions
import Staged.Proofs.Lowering.Expr

namespace Staged

/-! ## References -/

namespace Ir

inductive Ref where
  | function (id : FunctionId)
  | global (id : GlobalId)
  | string (id : StringId)
  deriving DecidableEq, Repr

mutual

def Const.refs : Const → List Ref
  | .aggregate _ members => Const.refsOfAll members
  | .str _ id => [.string id]
  | .globalAddr _ id => [.global id]
  | .functionAddr _ id => [.function id]
  | .int .. | .float .. | .bool .. | .null _ | .zero _ | .undef _ => []

def Const.refsOfAll : List Const → List Ref
  | [] => []
  | c :: cs => c.refs ++ Const.refsOfAll cs

end

def Value.refs : Value → List Ref
  | .reg _ => []
  | .const c => c.refs

def Callee.refs : Callee → List Ref
  | .function id => [.function id]
  | .indirect value => value.refs

def Instr.refs : Instr → List Ref
  | .alloca .. => []
  | .load _ v | .fneg _ v | .cast _ _ v | .fieldPtr _ v _ _ | .extract _ v _ => v.refs
  | .store v w | .arith _ _ v w | .compare _ _ v w | .elementPtr _ v _ w | .insert _ v w _ =>
    v.refs ++ w.refs
  | .call _ callee args => callee.refs ++ args.flatMap Value.refs
  | .select _ cond v w => cond.refs ++ v.refs ++ w.refs
  | .phi _ incoming => incoming.flatMap (·.1.refs)
  | .asm _ _ _ args _ => args.flatMap Value.refs

def Terminator.refs : Terminator → List Ref
  | .jump _ | .ret none | .unreachable => []
  | .branch v _ _ | .ret (some v) | .switch v _ _ => v.refs

def Block.refs (b : Block) : List Ref :=
  b.instrs.toList.flatMap Instr.refs ++ (b.term.map Terminator.refs).getD []

def Function.refs (f : Function) : List Ref := f.blocks.toList.flatMap Block.refs

namespace Module

/-- All that occurs in the code and the initial values of a module. -/
def refs (m : Module) : List Ref :=
  m.functions.toList.flatMap Function.refs ++ m.globals.toList.flatMap (·.init.refs)

def Defines (m : Module) : Ref → Prop
  | .function id => id < m.functions.size
  | .global id => id < m.globals.size
  | .string id => id < m.strings.size

instance (m : Module) : DecidablePred m.Defines
  | .function id => inferInstanceAs (Decidable (id < m.functions.size))
  | .global id => inferInstanceAs (Decidable (id < m.globals.size))
  | .string id => inferInstanceAs (Decidable (id < m.strings.size))

end Module

end Ir

/-! ## Extents -/

structure Extent where
  functions : Nat
  globals : Nat
  strings : Nat
  blocks : Nat

namespace Extent

def Has (e : Extent) : Ir.Ref → Prop
  | .function id => id < e.functions
  | .global id => id < e.globals
  | .string id => id < e.strings

def Covers (e : Extent) (rs : List Ir.Ref) : Prop := ∀ r ∈ rs, e.Has r

variable {e : Extent} {rs more : List Ir.Ref}

@[simp] theorem covers_nil : e.Covers [] := by
  intro r hr
  cases hr

@[simp] theorem covers_append : e.Covers (rs ++ more) ↔ e.Covers rs ∧ e.Covers more :=
  List.forall_mem_append

@[simp] theorem covers_cons {r : Ir.Ref} : e.Covers (r :: rs) ↔ e.Has r ∧ e.Covers rs :=
  List.forall_mem_cons

@[simp] theorem covers_flatMap {α : Type} {as : List α} {f : α → List Ir.Ref} :
    e.Covers (as.flatMap f) ↔ ∀ a ∈ as, e.Covers (f a) := by
  simp only [Covers, List.mem_flatMap]
  grind

@[simp] theorem has_function {id : Ir.FunctionId} : e.Has (.function id) ↔ id < e.functions :=
  Iff.rfl

@[simp] theorem has_global {id : Ir.GlobalId} : e.Has (.global id) ↔ id < e.globals := Iff.rfl

@[simp] theorem has_string {id : Ir.StringId} : e.Has (.string id) ↔ id < e.strings := Iff.rfl

end Extent

namespace Ir

attribute [simp] Const.refs Const.refsOfAll Value.refs Callee.refs Instr.refs Terminator.refs

end Ir

@[simp] def Symbol.refs : Symbol → List Ir.Ref
  | .function id _ => [.function id]
  | .global id _ _ _ => [.global id]
  | .type _ | .prerunGlobal _ | .prerunFunction _ | .skill _ | .doneSkill _ | .bring => []

/-! ## Types and code -/

structure TypeTable.Sound (t : TypeTable) (e : Extent) : Prop where
  structs : ∀ d ∈ t.structs, ∀ m ∈ d.members, m.function < e.functions
  done : ∀ d ∈ t.done, ∀ m ∈ d.members, m.function < e.functions

theorem TypeTable.Sound.membersOf {t : TypeTable} {e : Extent} (h : t.Sound e) {ty : Ty}
    {m : MemberFunction} (hm : m ∈ t.membersOf ty) : m.function < e.functions := by
  rcases List.mem_append.mp hm with hown | hm
  · cases hd : t.structOf? ty with
    | none =>
      rw [hd] at hown
      cases hown
    | some d =>
      rw [hd] at hown
      cases ty with
      | struct id => exact h.structs d (Array.mem_of_getElem? hd) m hown
      | _ => cases hd
  · obtain ⟨d, hd, hm⟩ := List.mem_flatMap.mp hm
    exact h.done d (by simpa using (List.mem_filter.mp hd).1) m hm

namespace Ir

structure Function.Sound (f : Function) (e : Extent) : Prop where
  refs : e.Covers f.refs
  closed : ∀ b ∈ f.blocks, b.isClosed = true
  targets : ∀ b ∈ f.blocks, ∀ t ∈ b.successors, t < f.blocks.size
  external : f.external = true → f.blocks = #[]

end Ir

/-- The references and jumps of a function under construction, of the locals it has and of
the loops around the current sentence. -/
structure FunctionState.Sound (f : FunctionState) (e : Extent) : Prop where
  refs : e.Covers f.function.refs
  targets : ∀ b ∈ f.function.blocks, ∀ t ∈ b.successors, t < e.blocks
  loops : ∀ l ∈ f.loops, l.breakTo < e.blocks ∧ l.continueTo < e.blocks
  locals : ∀ scope ∈ f.scopes, ∀ v ∈ scope, e.Covers v.address.refs
  self : ∀ i, f.self = some i → e.Covers i.address.refs

structure FunctionState.Grows (f f' : FunctionState) : Prop where
  id : f'.id = f.id
  result : f'.result = f.result
  external : f'.function.external = f.function.external
  blocks : f.function.blocks.size ≤ f'.function.blocks.size

/-! ## Changes of a function -/

namespace Ir

variable {e : Extent}

structure Block.Keeps (e : Extent) (g : Block → Block) : Prop where
  refs : ∀ b, e.Covers b.refs → e.Covers (g b).refs
  targets : ∀ b, (∀ t ∈ b.successors, t < e.blocks) → ∀ t ∈ (g b).successors, t < e.blocks

theorem Block.keeps_push {i : Instr} (hi : e.Covers i.refs) : Block.Keeps e (·.push i) where
  refs b hb := by
    simp only [Block.refs, Extent.covers_append, Extent.covers_flatMap] at hb ⊢
    refine ⟨fun j hj => ?_, hb.2⟩
    rcases Array.mem_push.mp (Array.mem_toList_iff.mp hj) with hj | rfl
    · exact hb.1 j (Array.mem_toList_iff.mpr hj)
    · exact hi
  targets _ hb := hb

theorem Block.keeps_pushAlloca {i : Instr} (hi : e.Covers i.refs) :
    Block.Keeps e (·.pushAlloca i) where
  refs b hb := by
    simp only [Block.refs, Block.pushAlloca, Extent.covers_append, Extent.covers_flatMap] at hb ⊢
    refine ⟨fun j hj => ?_, hb.2⟩
    rcases List.mem_append.mp hj with hj | hj
    · exact hb.1 j (List.takeWhile_subset _ hj)
    · rcases List.mem_cons.mp hj with rfl | hj
      · exact hi
      · exact hb.1 j (List.mem_of_mem_drop hj)
  targets _ hb := hb

theorem Block.keeps_close {t : Terminator} (hr : e.Covers t.refs)
    (ht : ∀ id ∈ t.successors, id < e.blocks) : Block.Keeps e (·.close t) where
  refs b hb := by
    unfold Block.close
    split
    · exact hb
    · simp only [Block.refs, Extent.covers_append, Option.map_some, Option.getD_some] at hb ⊢
      exact ⟨hb.1, hr⟩
  targets b hb := by
    unfold Block.close
    split
    · exact hb
    · exact ht

namespace Function

variable {f : Function} {g : Block → Block}

theorem mem_modifyBlock {id : BlockId} {b : Block} (hb : b ∈ (f.modifyBlock id g).blocks) :
    b ∈ f.blocks ∨ ∃ b' ∈ f.blocks, b = g b' := by
  obtain ⟨i, hi⟩ := Array.mem_iff_getElem?.mp hb
  simp only [modifyBlock, Array.getElem?_modify] at hi
  split at hi
  · obtain ⟨b', hb', rfl⟩ := Option.map_eq_some_iff.mp hi
    exact .inr ⟨b', Array.mem_of_getElem? hb', rfl⟩
  · exact .inl (Array.mem_of_getElem? hi)

theorem covers_refs : e.Covers f.refs ↔ ∀ b ∈ f.blocks, e.Covers b.refs := by
  simp only [refs, Extent.covers_flatMap, Array.mem_toList_iff]

theorem covers_modifyBlock {id : BlockId} (hg : Ir.Block.Keeps e g) (hf : e.Covers f.refs) :
    e.Covers (f.modifyBlock id g).refs := by
  rw [covers_refs] at hf ⊢
  intro b hb
  rcases mem_modifyBlock hb with hb | ⟨b', hb', rfl⟩
  · exact hf b hb
  · exact hg.refs b' (hf b' hb')

theorem size_modifyBlock (id : BlockId) : (f.modifyBlock id g).blocks.size = f.blocks.size :=
  Array.size_modify

theorem covers_newBlock {label : Option String} (hf : e.Covers f.refs) :
    e.Covers (f.newBlock label).1.refs := by
  rw [covers_refs] at hf ⊢
  intro b hb
  rcases Array.mem_push.mp hb with hb | rfl
  · exact hf b hb
  · simp [Block.refs]

end Function

end Ir

namespace FunctionState

variable {f : FunctionState} {e : Extent}

def modifyBlock (f : FunctionState) (id : Ir.BlockId) (g : Ir.Block → Ir.Block) : FunctionState :=
  { f with function := f.function.modifyBlock id g }

theorem grows_modifyBlock (id : Ir.BlockId) (g : Ir.Block → Ir.Block) :
    f.Grows (f.modifyBlock id g) :=
  ⟨rfl, rfl, rfl, (Ir.Function.size_modifyBlock id).ge⟩

theorem Sound.modifyBlock {g : Ir.Block → Ir.Block} (h : f.Sound e) (hg : Ir.Block.Keeps e g)
    (id : Ir.BlockId) : (f.modifyBlock id g).Sound e :=
  { h with
    refs := Ir.Function.covers_modifyBlock hg h.refs
    targets := fun b hb => by
      rcases Ir.Function.mem_modifyBlock hb with hb | ⟨b', hb', rfl⟩
      · exact h.targets b hb
      · exact hg.targets b' (h.targets b' hb') }

def addBlock (f : FunctionState) (label : Option String) : FunctionState :=
  { f with function := (f.function.newBlock label).1 }

theorem grows_addBlock (label : Option String) : f.Grows (f.addBlock label) :=
  ⟨rfl, rfl, rfl, by simp only [addBlock, Ir.Function.newBlock, Array.size_push]; omega⟩

theorem Sound.addBlock (h : f.Sound e) (label : Option String) : (f.addBlock label).Sound e :=
  { h with
    refs := Ir.Function.covers_newBlock h.refs
    targets := fun b hb => by
      rcases Array.mem_push.mp hb with hb | rfl
      · exact h.targets b hb
      · intro t ht
        cases ht }

theorem grows_abandon (f : FunctionState) : f.Grows f.abandon := by
  have h := grows_modifyBlock (f := f) f.current (·.close .unreachable)
  have h' := grows_addBlock (f := f.modifyBlock f.current (·.close .unreachable))
    (some "todo.after")
  exact ⟨rfl, rfl, rfl, h.blocks.trans h'.blocks⟩

theorem Sound.abandon (h : f.Sound e) : f.abandon.Sound e := by
  have hclose : Ir.Block.Keeps e (·.close .unreachable) :=
    Ir.Block.keeps_close Extent.covers_nil fun _ ht => by cases ht
  have h' := (h.modifyBlock hclose f.current).addBlock (some "todo.after")
  exact ⟨h'.refs, h'.targets, h'.loops, h'.locals, h'.self⟩

end FunctionState

namespace Core

structure Grows (c c' : Core) : Prop where
  types : c.types.SameDefinitions c'.types
  functions : ∃ more : Array Ir.Function, c'.ir.functions = c.ir.functions ++ more ∧
    ∀ f ∈ more, f.external = true ∧ f.blocks = #[]
  globals : c'.ir.globals = c.ir.globals
  strings : c.ir.strings.size ≤ c'.ir.strings.size
  func : Option.Rel FunctionState.Grows c.func c'.func

structure Fits (c : Core) (e : Extent) : Prop where
  functions : c.ir.functions.size ≤ e.functions
  globals : c.ir.globals.size ≤ e.globals
  strings : c.ir.strings.size ≤ e.strings
  blocks : ∀ f, c.func = some f → f.function.blocks.size ≤ e.blocks

structure Sound (c : Core) (e : Extent) : Prop where
  types : c.types.Sound e
  functions : ∀ f ∈ c.ir.functions, f.Sound e
  globals : ∀ g ∈ c.ir.globals, e.Covers g.init.refs
  func : ∀ f, c.func = some f → f.Sound e

variable {a b c : Core} {e : Extent}

theorem Grows.refl (c : Core) : c.Grows c where
  types := .refl c.types
  functions := ⟨#[], by simp, by simp⟩
  globals := rfl
  strings := Nat.le_refl _
  func := by
    cases c.func with
    | none => exact .none
    | some f => exact .some ⟨rfl, rfl, rfl, Nat.le_refl _⟩

theorem Grows.trans (h : a.Grows b) (h' : b.Grows c) : a.Grows c where
  types := h.types.trans h'.types
  functions := by
    obtain ⟨more, hmore, hext⟩ := h.functions
    obtain ⟨more', hmore', hext'⟩ := h'.functions
    refine ⟨more ++ more', by rw [hmore', hmore, Array.append_assoc], fun f hf => ?_⟩
    exact (Array.mem_append.mp hf).elim (hext f) (hext' f)
  globals := h'.globals.trans h.globals
  strings := h.strings.trans h'.strings
  func := by
    have hf := h.func
    have hf' := h'.func
    generalize a.func = x, b.func = y, c.func = z at hf hf'
    cases hf with
    | none => exact hf'
    | some hf =>
      cases hf' with
      | some hf' =>
        exact .some ⟨hf'.id.trans hf.id, hf'.result.trans hf.result,
          hf'.external.trans hf.external, hf.blocks.trans hf'.blocks⟩

theorem Grows.fits (h : a.Grows b) (hb : b.Fits e) : a.Fits e where
  functions := by
    obtain ⟨more, hmore, -⟩ := h.functions
    have := hb.functions
    rw [hmore, Array.size_append] at this
    omega
  globals := by
    rw [← h.globals]
    exact hb.globals
  strings := h.strings.trans hb.strings
  blocks f hf := by
    have hfunc := h.func
    rw [hf] at hfunc
    cases hbf : b.func with
    | none =>
      rw [hbf] at hfunc
      cases hfunc
    | some g =>
      rw [hbf] at hfunc
      cases hfunc with
      | some hg => exact hg.blocks.trans (hb.blocks g hbf)

theorem Grows.intern (c : Core) (ty : Ty) : c.Grows { c with types := c.types.intern ty } :=
  { Grows.refl c with types := c.types.same_intern ty }

theorem Sound.intern (h : c.Sound e) (ty : Ty) :
    Sound { c with types := c.types.intern ty } e :=
  { h with
    types := ⟨by rw [(c.types.same_intern ty).structs]; exact h.types.structs,
      by rw [(c.types.same_intern ty).done]; exact h.types.done⟩ }

/-- The function under construction changes. -/
theorem Grows.setFunc {f f' : FunctionState} (hf : c.func = some f) (h : f.Grows f') :
    c.Grows { c with func := some f' } :=
  { Grows.refl c with func := by rw [hf]; exact .some h }

theorem Sound.setFunc {f : FunctionState} (h : c.Sound e) (hf : f.Sound e) :
    Sound { c with func := some f } e :=
  { h with func := fun g hg => by cases hg; exact hf }

def setting (c : Core) (outer : Outer) (E : Extent) : Setting where
  outer := outer
  frames _ := True
  blames _ := True
  code c' := c.Grows c' ∧ (c.Sound E → c'.Sound E)
  code_intern ty h := ⟨h.1.trans (.intern _ ty), fun hc => (h.2 hc).intern ty⟩
  code_abandon {c'} h := by
    cases hf : c'.func with
    | none =>
      rw [Option.map_none, ← hf]
      exact h
    | some f =>
      exact ⟨h.1.trans (.setFunc hf f.grows_abandon), fun hc =>
        (h.2 hc).setFunc (((h.2 hc).func f hf).abandon)⟩

end Core

/-! ## Actions -/

/-- What an action on code comes to: code only grows, and what it refers to exists if all
there is afterwards fits. -/
def Emits (E : Extent) (P : Prop) {α : Type} (a : Emit α) (Q : α → Prop) : Prop :=
  ∀ o s v s', a o s = .ok v s' → s'.symbols = s.symbols ∧ s.core.Grows s'.core ∧
    (s'.core.Fits E → P → (∀ y ∈ s.symbols, E.Covers y.2.refs) → s.core.Sound E →
      s'.core.Sound E ∧ Q v)

namespace Emits

variable {α β : Type} {E : Extent} {P P' : Prop} {a : Emit α} {k : α → Emit β} {Q Q' : α → Prop}
  {R : β → Prop}

theorem pure {v : α} (h : P → Q v) : Emits E P (pure v) Q := by
  intro o s v' s' hr
  cases hr
  exact ⟨rfl, .refl _, fun _ hp _ hs => ⟨hs, h hp⟩⟩

theorem bind (ha : Emits E P a Q) (hk : ∀ v, Emits E (P ∧ Q v) (k v) R) :
    Emits E P (a >>= k) R := by
  intro o s w s'' hr
  rw [Emit.bind_apply] at hr
  cases hv : a o s with
  | error f s' =>
    rw [hv] at hr
    cases hr
  | ok v s' =>
    rw [hv] at hr
    obtain ⟨hy, hg, hq⟩ := ha o s v s' hv
    obtain ⟨hy', hg', hq'⟩ := hk v o s' w s'' hr
    refine ⟨hy'.trans hy, hg.trans hg', fun hfits hp hsyms hs => ?_⟩
    obtain ⟨hs', hv⟩ := hq (hg'.fits hfits) hp hsyms hs
    exact hq' hfits ⟨hp, hv⟩ (hy ▸ hsyms) hs'

/-- A step whose result nothing has to be known of. -/
theorem step (ha : Emits E P a Q) (hk : ∀ v, Emits E P (k v) R) : Emits E P (a >>= k) R :=
  ha.bind fun v o s w s' hr =>
    have h := hk v o s w s' hr
    ⟨h.1, h.2.1, fun hf hp => h.2.2 hf hp.1⟩

theorem of (ha : Emits E P a Q) (hp : P' → P) : Emits E P' a Q :=
  fun o s v s' hr =>
    have h := ha o s v s' hr
    ⟨h.1, h.2.1, fun hf hp' => h.2.2 hf (hp hp')⟩

theorem mono (ha : Emits E P a Q) (hq : ∀ v, Q v → Q' v) : Emits E P a Q' :=
  fun o s v s' hr =>
    have h := ha o s v s' hr
    ⟨h.1, h.2.1, fun hf hp hy hs => (h.2.2 hf hp hy hs).imp_right (hq v)⟩

theorem map {f : α → β} (ha : Emits E P a Q) (hf : ∀ v, Q v → R (f v)) :
    Emits E P (f <$> a) R := by
  rw [← bind_pure_comp]
  exact ha.bind fun v => .pure fun h => hf v h.2

/-- An action that always fails. -/
theorem fails (ha : ∀ o s, ∃ f s', a o s = .error f s') : Emits E P a Q := by
  intro o s v s' hr
  obtain ⟨f, s'', he⟩ := ha o s
  rw [he] at hr
  cases hr

end Emits

namespace Emit

variable {α : Type} {E : Extent} {P : Prop} {Q : α → Prop}

theorem emits_refuse (f : Fault) (range : Span) : Emits E P (refuse f range : Emit α) Q :=
  .fails fun _ s => ⟨_, s, rfl⟩

theorem emits_mismatch (expected found : Ty) (range : Span) :
    Emits E P (mismatch expected found range : Emit α) Q := emits_refuse _ _

theorem emits_breach (b : Breach) : Emits E P (breach b : Emit α) Q :=
  .fails fun _ s => ⟨_, s, rfl⟩

theorem emits_refuseName (e : ResolveError) : Emits E P (refuseName e : Emit α) Q :=
  emits_refuse _ _

theorem emits_require {value : Option α} (f : Fault) (range : Span)
    (h : ∀ v, value = some v → P → Q v) : Emits E P (require value f range) Q := by
  cases value with
  | none => exact emits_refuse f range
  | some v => exact .pure (h v rfl)

theorem emits_required (value : Option α) (f : Fault) (range : Span) :
    Emits E P (require value f range) fun _ => True :=
  emits_require f range fun _ _ _ => trivial

/-! ## Evaluation -/

/-- Evaluation at compile time adds no references. -/
theorem emits_of_keeps_free {a : Emit α}
    (h : ∀ w : Setting, w.Open → (∀ e, w.strays e) → w.Keeps a) : Emits E P a fun _ => True := by
  intro o s v s' hr
  have hopen : (s.core.setting s.outer E).Open :=
    .of_strays (fun _ _ _ _ _ => trivial) fun _ => trivial
  have hrun := triple_iff.mp (h (s.core.setting s.outer E) hopen fun _ => trivial) o s
    ⟨rfl, trivial, .refl _, id⟩
  rw [hr] at hrun
  obtain ⟨houter, -, hgrows, hsound⟩ := hrun
  exact ⟨congrArg Outer.symbols houter, hgrows, fun _ _ _ hs => ⟨hsound hs, trivial⟩⟩

theorem emits_of_keeps {a : Emit α} (h : ∀ w : Setting, w.Open → w.Keeps a) :
    Emits E P a fun _ => True := emits_of_keeps_free fun w hw _ => h w hw

end Emit

end Staged
