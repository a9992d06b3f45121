/-
  Staged.Proofs.Ssa.Logic — actions that write certified code.

  A backdrop is what stays the same while a body is lowered: the outer part of the
  compilation, in which functions have function types, and the functions there are, to
  which only external ones may be added. `Backdrop.Arrives` says of an action that starts
  at a point that it comes to a point again, and to one that an earlier point leads to; if
  it fails, then because of a fault of the program. Most actions do not
  leave what was at hand where they started (`Backdrop.Lands`); only code that goes on in
  other blocks looks back to where these blocks were made.
-/

import Staged.Proofs.Code.Instr
import Staged.Proofs.Phis.Graph
import Staged.Proofs.Ssa.Point
import Staged.Proofs.Values.Calls

namespace Staged

open Ir (Register BlockId)

/-- The program is wrong at some place, and no promise of the compiler is broken. -/
def Failure.isFault : Failure → Bool
  | .fault .. => true
  | _ => false

theorem Failure.isFault_fault (f : Fault) (range : Span) : (fault f range).isFault = true := rfl

structure Ir.Function.Attested (f : Ir.Function) (start : BlockId → Set Register) : Prop
    extends f.Certified start where
  phis : f.ExactPhis

/-- A function that code can be written into, or that is complete. -/
def Ir.Function.IsCertified (f : Ir.Function) : Prop := ∃ start, f.Attested start

structure Backdrop where
  outer : Outer
  functions : Array Ir.Function
  typed : ∀ {id i ty}, outer.symbols.lookup id = some (.function i ty) →
    ∃ result params variadic, ty = .function result params variadic

namespace Backdrop

structure Holds (w : Backdrop) (x : Point) (c : Core) : Prop where
  func : c.func = some x.state
  own : x.state.id < w.functions.size
  functions : ∃ added : Array Ir.Function, c.ir.functions = w.functions ++ added ∧
    ∀ f ∈ added, f.IsCertified ∧ f.blocks = #[]

structure Stands (w : Backdrop) (x : Point) (s : Compiler) : Prop where
  outer : s.outer = w.outer
  frames : s.frames = []
  code : w.Holds x s.core

/-- An action that comes from one point to another, to which an earlier one leads. -/
def Arrives {α : Type} (w : Backdrop) (x₀ x : Point) (a : Emit α) (Q : α → Point → Prop) : Prop :=
  ∀ o s, w.Stands x s → match a o s with
    | .ok v s' => ∃ x', x₀.Leads x' ∧ x.Grows x' ∧ w.Stands x' s' ∧ Q v x'
    | .error f _ => f.isFault = true

abbrev Lands {α : Type} (w : Backdrop) (x : Point) (a : Emit α) (Q : α → Point → Prop) : Prop :=
  w.Arrives x x a Q

variable {w : Backdrop} {α β : Type} {x₀ x : Point} {a : Emit α} {k : α → Emit β}
  {Q Q' : α → Point → Prop} {R : β → Point → Prop}

theorem Arrives.pure {v : α} (h : x₀.Leads x) (hq : Q v x) : w.Arrives x₀ x (pure v) Q :=
  fun _ _ hs => ⟨x, h, .refl x, hs, hq⟩

theorem Lands.pure {v : α} (hq : Q v x) : w.Lands x (pure v) Q := Arrives.pure (.refl x) hq

theorem Arrives.bind (ha : w.Arrives x₀ x a Q)
    (hk : ∀ v x', x₀.Leads x' → x.Grows x' → Q v x' → w.Arrives x₀ x' (k v) R) :
    w.Arrives x₀ x (a >>= k) R := by
  intro o s hs
  have h := ha o s hs
  rw [Emit.bind_apply]
  cases hr : a o s with
  | error f s' =>
    rw [hr] at h
    exact h
  | ok v s' =>
    rw [hr] at h
    obtain ⟨x', hx', hg, hs', hq⟩ := h
    have h' := hk v x' hx' hg hq o s' hs'
    show match k v o s' with
      | .ok v s' => _
      | .error f _ => _
    cases hr' : k v o s' with
    | error f s'' =>
      rw [hr'] at h'
      exact h'
    | ok v s'' =>
      rw [hr'] at h'
      obtain ⟨x'', hx'', hg', hs'', hr⟩ := h'
      exact ⟨x'', hx'', hg.trans hg', hs'', hr⟩

/-- What an action comes to may be judged from an earlier point. -/
theorem Lands.arrives (h : x₀.Leads x) (ha : w.Lands x a Q) : w.Arrives x₀ x a Q := by
  intro o s hs
  have h' := ha o s hs
  cases hr : a o s with
  | error f s' =>
    rw [hr] at h'
    exact h'
  | ok v s' =>
    rw [hr] at h'
    obtain ⟨x', hx', hg, hs', hq⟩ := h'
    exact ⟨x', h.trans hx', hg, hs', hq⟩

theorem Arrives.mono (h : w.Arrives x₀ x a Q)
    (hq : ∀ v x', x₀.Leads x' → x.Grows x' → Q v x' → Q' v x') : w.Arrives x₀ x a Q' := by
  intro o s hs
  have h' := h o s hs
  cases hr : a o s with
  | error f s' =>
    rw [hr] at h'
    exact h'
  | ok v s' =>
    rw [hr] at h'
    obtain ⟨x', hx', hg, hs', hv⟩ := h'
    exact ⟨x', hx', hg, hs', hq v x' hx' hg hv⟩

/-- A step of an action that is judged from an earlier point. -/
theorem Lands.then (h : x₀.Leads x) (ha : w.Lands x a Q)
    (hk : ∀ v x', x₀.Leads x' → x.Leads x' → Q v x' → w.Arrives x₀ x' (k v) R) :
    w.Arrives x₀ x (a >>= k) R :=
  Arrives.bind (Q := fun v x' => x.Leads x' ∧ Q v x')
    (Lands.arrives h (ha.mono fun _ _ hx _ hq => ⟨hx, hq⟩))
    fun v x' hx _ hq => hk v x' hx hq.1 hq.2

/-- One step after another. -/
theorem Lands.bind (ha : w.Lands x a Q)
    (hk : ∀ v x', x.Leads x' → Q v x' → w.Lands x' (k v) R) : w.Lands x (a >>= k) R :=
  Lands.then (.refl x) ha fun v x' hx _ hq => Lands.arrives hx (hk v x' hx hq)

/-! ## Evaluation -/

end Backdrop

/-- Code that is abandoned goes on where all is at hand that was. -/
theorem Point.exists_abandon (x : Point) : ∃ x' : Point, x'.state = x.state.abandon ∧ x.Leads x' := by
  obtain ⟨x₁, hstate, hstart, hleads, hhere⟩ := x.exists_close (t := .unreachable)
    (fun _ h => by cases h) fun _ h => by cases h
  have hleads' := hleads.trans (x₁.leads_addBlock (some "todo.after"))
  refine ⟨(x₁.addBlock (some "todo.after")).goTo hleads' (x₁.opens_addBlock _) hhere.ge, ?_,
    leads_goTo _ _ _⟩
  show FunctionState.mk _ _ _ _ _ _ _ = _
  simp only [addBlock, write, hstate]
  rfl

namespace Backdrop

def ground (w : Backdrop) (x : Point) : Ground where
  toDomain := .all
  outer := w.outer
  admits _ := True
  code c := ∃ x', x.Leads x' ∧ w.Holds x' c
  code_intern := fun _ ⟨x', hx', h⟩ => ⟨x', hx', h.func, h.own, h.functions⟩
  code_abandon := by
    rintro _ c - - ⟨x', hx', h⟩
    obtain ⟨x'', hstate, hleads⟩ := x'.exists_abandon
    refine ⟨x'', hx'.trans hleads, ?_, ?_, h.functions⟩
    · show c.func.map _ = _
      rw [h.func, hstate]
      rfl
    · rw [hleads.id]
      exact h.own
  knows_types _ := trivial
  locals _ _ _ _ := trivial
  symbols _ _ := trivial
  defines _ _ := trivial
  allows f := f.isFault = true
  allows_fault := Failure.isFault_fault
  allows_missing := by
    rintro c f ⟨x', -, h⟩ hf hnone
    cases hf.symm.trans h.func
    obtain ⟨b, hb⟩ := x'.exists_current
    rw [hb] at hnone
    cases hnone
  warned _ := True
  warned_push _ _ := trivial

variable {w : Backdrop} {α : Type} {x : Point} {a : Emit α} {Q : α → Prop}

theorem lands_of_ends (h : (w.ground x).Ends 0 a Q) : w.Lands x a fun v _ => Q v := by
  intro o s hs
  have h := h o trivial s ⟨⟨hs.outer, by rw [hs.frames]; rfl, ⟨x, .refl x, hs.code⟩, trivial⟩,
    fun f hf => by rw [hs.frames] at hf; cases hf⟩
  cases hr : a o s with
  | error f s' =>
    rw [hr] at h
    exact h.2
  | ok v s' =>
    rw [hr] at h
    obtain ⟨⟨⟨houter, hcalls, ⟨x', hx', hcode⟩, -⟩, -⟩, hq⟩ := h
    exact ⟨x', hx', hx'.toGrows, ⟨houter, List.length_eq_zero_iff.mp hcalls, hcode⟩, hq⟩

end Backdrop

/-! ## What is at hand -/

def Ir.Value.At (v : Ir.Value) (x : Point) : Prop := ∀ r ∈ v.regs, r ∈ x.here

def Ir.Value.Leaves (v : Ir.Value) (b : BlockId) (x : Point) : Prop :=
  b < x.state.function.blocks.size ∧ ∀ r ∈ v.regs, r ∈ x.out b

structure Ir.Instr.At (i : Ir.Instr) (x : Point) : Prop where
  isAlloca : i.isAlloca = false
  uses : ∀ r ∈ i.uses, r ∈ x.here
  incoming : ∀ r b, (r, b) ∈ i.incoming → b < x.state.function.blocks.size ∧ r ∈ x.out b

def Value.At (v : Value) (x : Point) : Prop := v.ir.At x

def Expect.At (e : Expect) (x : Point) : Prop := ∀ v, e.slot = some v → v.At x

def LocalVar.At (v : LocalVar) (x : Point) : Prop := v.address.At x

section

variable {x x' : Point} {b : BlockId}

theorem Ir.Value.At.mono {v : Ir.Value} (h : v.At x) (hx : x.Leads x') : v.At x' :=
  fun r hr => hx.here (h r hr)

theorem Value.At.mono {v : Value} (h : v.At x) (hx : x.Leads x') : v.At x' :=
  Ir.Value.At.mono h hx

theorem LocalVar.At.mono {v : LocalVar} (h : v.At x) (hx : x.Leads x') : v.At x' :=
  Ir.Value.At.mono h hx

theorem Expect.At.mono {e : Expect} (h : e.At x) (hx : x.Leads x') : e.At x' :=
  fun v hv => (h v hv).mono hx

theorem Ir.Value.Leaves.grows {v : Ir.Value} (h : v.Leaves b x) (hx : x.Grows x') : v.Leaves b x' :=
  ⟨h.1.trans_le hx.function.blocks, fun r hr => hx.out h.1 (h.2 r hr)⟩

/-- What is at hand leaves the current block. -/
theorem Ir.Value.At.leaves {v : Ir.Value} (h : v.At x) : v.Leaves x.state.current x :=
  ⟨x.current, h⟩

theorem Ir.Value.at_reg {r : Register} (h : r ∈ x.here) : (Ir.Value.reg r).At x := by
  intro r' hr'
  rw [List.mem_singleton.mp hr']
  exact h

@[simp] theorem Ir.Value.at_const (c : Ir.Const) : (Ir.Value.const c).At x := fun _ h => by cases h

variable {type : Ty} {isVar : Bool} {storage : Storage} {range : Span}

@[simp] theorem Value.at_temporary {ir : Ir.Value} :
    (Value.temporary ir type range).At x ↔ ir.At x := Iff.rfl

@[simp] theorem Value.at_stored {ir : Ir.Value} :
    (Value.stored ir type isVar storage range).At x ↔ ir.At x := Iff.rfl

@[simp] theorem Value.at_constant (c : Ir.Const) (known : Constant) :
    (Value.constant c known range).At x := Ir.Value.at_const c

@[simp] theorem Value.at_void : (Value.void range).At x := Ir.Value.at_const _

@[simp] theorem Expect.at_nothing : Expect.nothing.At x := fun _ h => by cases h

@[simp] theorem Expect.at_of : (Expect.of type).At x := fun _ h => by cases h

@[simp] theorem Expect.at_maybe {type : Option Ty} : (Expect.maybe type).At x :=
  fun _ h => by cases h

@[simp] theorem Expect.at_hint {e : Expect} : e.hint.At x := fun _ h => by cases h

@[simp] theorem Expect.at_inSlot {v : Value} : (Expect.inSlot v).At x ↔ v.At x :=
  ⟨fun h => h v rfl, fun h w hw => by cases hw; exact h⟩

end

/-! ## Instructions that find their registers -/

namespace Ir.Instr

variable {x : Point} {d : Register} {v v' v'' : Value} {args : List Value}

theorem at_of_uses {i : Instr} (ha : i.isAlloca = false) (hi : i.incoming = [])
    (hu : ∀ r ∈ i.uses, r ∈ x.here) : i.At x :=
  ⟨ha, hu, fun r b h => by rw [hi] at h; cases h⟩

theorem at_two {i : Instr} (ha : i.isAlloca = false) (hi : i.incoming = [])
    (hu : i.uses = v.regs ++ v'.regs) (hv : v.At x) (hv' : v'.At x) : i.At x := by
  refine at_of_uses ha hi ?_
  rw [hu]
  exact List.forall_mem_append.mpr ⟨hv, hv'⟩

theorem at_load (h : v.At x) : (load d v).At x := at_of_uses rfl rfl h

theorem at_cast (op : CastOp) (h : v.At x) : (cast d op v).At x := at_of_uses rfl rfl h

theorem at_fieldPtr (aggregate : Ty) (index : Nat) (h : v.At x) :
    (fieldPtr d v aggregate index).At x := at_of_uses rfl rfl h

theorem at_extract (index : Nat) (h : v.At x) : (extract d v index).At x := at_of_uses rfl rfl h

theorem at_store (h : v.At x) (h' : v'.At x) : (store v v').At x := at_two rfl rfl rfl h h'

theorem at_arith (op : Arith) (h : v.At x) (h' : v'.At x) : (arith d op v v').At x :=
  at_two rfl rfl rfl h h'

theorem at_compare (pred : Pred) (h : v.At x) (h' : v'.At x) : (compare d pred v v').At x :=
  at_two rfl rfl rfl h h'

theorem at_elementPtr (element : Ty) (h : v.At x) (h' : v'.At x) :
    (elementPtr d v element v').At x := at_two rfl rfl rfl h h'

theorem at_insert (index : Nat) (h : v.At x) (h' : v'.At x) : (insert d v v' index).At x :=
  at_two rfl rfl rfl h h'

theorem mem_regs_at {r : Register} (h : ∀ a ∈ args, a.At x) (hr : r ∈ args.flatMap Value.regs) :
    r ∈ x.here := by
  obtain ⟨a, ha, hr⟩ := List.mem_flatMap.mp hr
  exact h a ha r hr

theorem at_call {dest : Option Register} {callee : Callee} (hc : ∀ r ∈ callee.regs, r ∈ x.here)
    (h : ∀ a ∈ args, a.At x) : (call dest callee args).At x :=
  at_of_uses rfl rfl (List.forall_mem_append.mpr ⟨hc, fun _ => mem_regs_at h⟩)

theorem at_asm {dest : Option Register} {template constraints : String} {volatile : Bool}
    (h : ∀ a ∈ args, a.At x) : (asm dest template constraints args volatile).At x :=
  at_of_uses rfl rfl fun _ => mem_regs_at h

theorem at_phi {b b' : BlockId} (h : v.Leaves b x) (h' : v'.Leaves b' x) :
    (phi d [(v, b), (v', b')]).At x := by
  refine ⟨rfl, fun r hr => (by cases hr), fun r c hr => ?_⟩
  simp only [incoming, List.flatMap_cons, List.flatMap_nil, List.append_nil, List.mem_append,
    List.mem_map, Prod.mk.injEq] at hr
  rcases hr with ⟨s, hs, rfl, rfl⟩ | ⟨s, hs, rfl, rfl⟩
  · exact ⟨h.1, h.2 s hs⟩
  · exact ⟨h'.1, h'.2 s hs⟩

end Ir.Instr

end Staged
