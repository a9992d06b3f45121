/-
  Staged.Proofs.Typing.Prototype — what a function may be called with.

  A prototype lists the types of parameters and result. It takes the operands of a call if
  there are as many as parameters, or at least as many for a variadic function, every
  operand is of the type of its parameter, and a register gets the result just when there
  is one. In code an address is as good as any other of the same target, whether it is
  called a mark or a reference and whoever owns what it leads to (`Ty.Alike`); a call fits
  a prototype if that is all the types differ in (`Prototype.Fits`).

  A function of the code may be declared more than once, since functions of other programs
  are known by their names alone. `Declares` says which prototypes a function is declared
  with: by function declarations, by members of types, and by the language itself, which
  knows the functions that manage the heap.
-/

import Staged.Compiler.State
import Staged.Proofs.Definitions
import Staged.Proofs.Lists

namespace Staged

/-! ## Addresses -/

namespace Ty

/-- What an address leads to; a slice is more than an address. -/
def target? : Ty → Option Ty
  | ref sub _ => some sub
  | mark sub _ _ false _ => some sub
  | _ => none

/-- One type, or two addresses of one type of values. -/
def Alike (a b : Ty) : Prop := a = b ∨ ∃ sub, a.target? = some sub ∧ b.target? = some sub

variable {a b c sub : Ty}

theorem Alike.refl (a : Ty) : a.Alike a := .inl rfl

theorem alike_of_targets (ha : a.target? = some sub) (hb : b.target? = some sub) : a.Alike b :=
  .inr ⟨sub, ha, hb⟩

/-- Whatever is like an address is one, with the same target. -/
theorem Alike.target (h : a.Alike b) (hb : b.target? = some sub) : a.target? = some sub := by
  rcases h with rfl | ⟨sub', ha, hb'⟩
  · exact hb
  · exact ha.trans (hb'.symm.trans hb)

end Ty

/-! ## Prototypes -/

structure Prototype where
  params : List Ty
  result : Ty
  variadic : Bool
  deriving DecidableEq, Repr

structure Prototype.Takes (R : Ty → Ty → Prop) (p : Prototype) (dest : Option Ir.Register)
    (args : List Ir.Value) : Prop where
  count : if p.variadic then p.params.length ≤ args.length else args.length = p.params.length
  types : ∀ q ∈ args.zip p.params, R q.1.type q.2
  result : dest.map Ir.Register.type = if p.result = .void then none else some p.result

abbrev Prototype.Fits := Prototype.Takes Ty.Alike

namespace Ir

def Function.prototype (f : Function) : Prototype :=
  ⟨f.params.map Register.type, f.result, f.variadic⟩

def Function.heading (f : Function) : String × Prototype := (f.name, f.prototype)

theorem types_ofSignature (params : List Ty) (n : Nat) :
    ((params.zipIdx n).map fun (t, i) => (⟨i, t⟩ : Register)).map Register.type = params := by
  rw [List.map_map]
  exact List.zipIdx_map_fst n params

@[simp] theorem Function.prototype_ofSignature (name : String) (params : List Ty) (result : Ty) :
    (ofSignature name params result).prototype = ⟨params, result, false⟩ :=
  congrArg (Prototype.mk · result false) (types_ofSignature params 0)

@[simp] theorem Function.prototype_ofExternal (name : String) (params : List Ty) (result : Ty)
    (variadic : Bool) :
    (ofExternal name params result variadic).prototype = ⟨params, result, variadic⟩ :=
  congrArg (Prototype.mk · result variadic) (types_ofSignature params 0)

end Ir

def MemberFunction.selfParams (m : MemberFunction) : List Ty :=
  if m.kind.hasSelf then [.markTo m.parent m.kind.isVariation] else []

def MemberFunction.prototype (m : MemberFunction) : Prototype :=
  ⟨m.selfParams ++ m.argTypes, m.result, false⟩

/-- The functions that manage the heap, as the language knows them. -/
def allocator? : String → Option Prototype
  | "malloc" => some ⟨[.usize], .markTo .u8 true, false⟩
  | "realloc" => some ⟨[.markTo .u8 true, .usize], .markTo .u8 true, false⟩
  | "free" => some ⟨[.markTo .u8 true], .void, false⟩
  | _ => none

/-! ## Declarations -/

def headingAt (functions : Array Ir.Function) (id : Ir.FunctionId) : Option (String × Prototype) :=
  functions[id]?.map Ir.Function.heading

/-- Functions are added, and none changes as seen from outside. -/
def Extends (functions functions' : Array Ir.Function) : Prop :=
  ∀ id h, headingAt functions id = some h → headingAt functions' id = some h

inductive Declares (symbols : List (EntityId × Symbol)) (t : TypeTable)
    (functions : Array Ir.Function) (id : Ir.FunctionId) : Prototype → Prop
  | function {e : EntityId} {result : Ty} {params : List Ty} {variadic : Bool}
    (h : (e, .function id (.function result params variadic)) ∈ symbols) :
    Declares symbols t functions id ⟨params, result, variadic⟩
  | member {ty : Ty} {m : MemberFunction} (hm : m ∈ t.membersOf ty) (hid : m.function = id) :
    Declares symbols t functions id m.prototype
  | allocator {name : String} {q p : Prototype} (h : headingAt functions id = some (name, q))
    (hp : allocator? name = some p) : Declares symbols t functions id p

section

variable {functions functions' functions'' : Array Ir.Function} {id : Ir.FunctionId}
  {symbols symbols' : List (EntityId × Symbol)} {t t' : TypeTable} {p : Prototype}

theorem headingAt_of_getElem {f : Ir.Function} (h : functions[id]? = some f) :
    headingAt functions id = some f.heading := congrArg (Option.map Ir.Function.heading) h

theorem headingAt_lt {h : String × Prototype} (hid : headingAt functions id = some h) :
    id < functions.size := by
  obtain ⟨f, hf, -⟩ := Option.map_eq_some_iff.mp hid
  exact (Array.getElem?_eq_some_iff.mp hf).1

theorem headingAt_push (f : Ir.Function) :
    headingAt (functions.push f) id =
      if id = functions.size then some f.heading else headingAt functions id := by
  unfold headingAt
  rw [Array.getElem?_push]
  split
  · rfl
  · rfl

theorem Extends.refl (functions : Array Ir.Function) : Extends functions functions :=
  fun _ _ h => h

theorem Extends.trans (h : Extends functions functions') (h' : Extends functions' functions'') :
    Extends functions functions'' := fun id q hq => h' id q (h id q hq)

theorem extends_push (functions : Array Ir.Function) (f : Ir.Function) :
    Extends functions (functions.push f) := by
  intro id h hid
  rw [headingAt_push, if_neg (Nat.ne_of_lt (headingAt_lt hid))]
  exact hid

/-- A function takes the place of one that looks the same from outside. -/
theorem headingAt_modify {f g : Ir.Function} {i : Ir.FunctionId}
    (h : headingAt functions i = some f.heading) (hg : g.heading = f.heading) :
    headingAt (functions.modify i fun _ => g) id = headingAt functions id := by
  unfold headingAt at h ⊢
  rw [Array.getElem?_modify]
  split
  · next heq =>
    subst heq
    rw [h]
    obtain ⟨f', hf', -⟩ := Option.map_eq_some_iff.mp h
    rw [hf', Option.map_some, Option.map_some, hg]
  · rfl

/-- What is declared stays declared, whatever is declared besides. -/
theorem Declares.mono (h : Declares symbols t functions id p)
    (hs : ∀ y ∈ symbols, y ∈ symbols')
    (hm : ∀ ty, ∀ m ∈ t.membersOf ty, m ∈ t'.membersOf ty)
    (hf : Extends functions functions') : Declares symbols' t' functions' id p := by
  cases h with
  | function h => exact .function (hs _ h)
  | member hmem hid => exact .member (hm _ _ hmem) hid
  | allocator h hp => exact .allocator (hf _ _ h) hp

theorem Declares.grow (h : Declares symbols t functions id p) (hf : Extends functions functions') :
    Declares symbols t functions' id p := h.mono (fun _ hy => hy) (fun _ _ hm => hm) hf

end

/-! ## Code whose calls fit -/

/-- If the instruction calls a function by its number, the call fits a prototype that the
function is declared with. -/
def Ir.Instr.Fits (declared : Ir.FunctionId → Prototype → Prop) (i : Ir.Instr) : Prop :=
  ∀ dest id args, i = .call dest (.function id) args → ∃ p, declared id p ∧ p.Fits dest args

def Ir.Function.CallsFit (declared : Ir.FunctionId → Prototype → Prop) (f : Ir.Function) : Prop :=
  ∀ b ∈ f.blocks, ∀ i ∈ b.instrs, i.Fits declared

section

variable {declared declared' : Ir.FunctionId → Prototype → Prop} {f : Ir.Function}

theorem Ir.Instr.Fits.mono {i : Ir.Instr} (h : i.Fits declared)
    (hd : ∀ id p, declared id p → declared' id p) : i.Fits declared' := by
  intro dest id args hi
  obtain ⟨p, hp, hfits⟩ := h dest id args hi
  exact ⟨p, hd id p hp, hfits⟩

theorem Ir.Function.CallsFit.mono (h : f.CallsFit declared)
    (hd : ∀ id p, declared id p → declared' id p) : f.CallsFit declared' :=
  fun b hb i hi => (h b hb i hi).mono hd

theorem Ir.Function.CallsFit.of_instrs (h : f.CallsFit declared) {i : Ir.Instr}
    (hi : i ∈ f.instrs) : i.Fits declared := by
  obtain ⟨b, hb, hi⟩ := List.mem_flatMap.mp hi
  exact h b (Array.mem_toList_iff.mp hb) i (Array.mem_toList_iff.mp hi)

theorem Ir.Function.callsFit_of_empty (h : f.blocks = #[]) : f.CallsFit declared := by
  intro b hb
  rw [h] at hb
  exact absurd hb (Array.not_mem_empty b)

/-- Blocks change one at a time. -/
theorem Ir.Function.CallsFit.modifyBlock (h : f.CallsFit declared) (id : Ir.BlockId)
    {g : Ir.Block → Ir.Block}
    (hg : ∀ b, (∀ i ∈ b.instrs, i.Fits declared) → ∀ i ∈ (g b).instrs, i.Fits declared) :
    (f.modifyBlock id g).CallsFit declared := by
  intro b hb
  obtain ⟨j, hj⟩ := Array.mem_iff_getElem?.mp hb
  rw [Ir.Function.modifyBlock, Array.getElem?_modify] at hj
  split at hj
  · obtain ⟨b', hb', rfl⟩ := Option.map_eq_some_iff.mp hj
    exact hg b' (h b' (Array.mem_of_getElem? hb'))
  · exact h b (Array.mem_of_getElem? hj)

theorem Ir.Function.CallsFit.newBlock (h : f.CallsFit declared) (label : Option String) :
    (f.newBlock label).1.CallsFit declared := by
  intro b hb
  rcases Array.mem_push.mp hb with hb | rfl
  · exact h b hb
  · exact fun i hi => absurd hi (Array.not_mem_empty i)

end

/-! ## Functions of a program -/

structure Fitting (declared : Ir.FunctionId → Prototype → Prop) (functions : Array Ir.Function) :
    Prop where
  calls : ∀ f ∈ functions, f.CallsFit declared
  declared : ∀ id f, functions[id]? = some f → declared id f.prototype

namespace Fitting

variable {declared declared' : Ir.FunctionId → Prototype → Prop}
  {functions : Array Ir.Function} {f g : Ir.Function}

theorem mono (h : Fitting declared functions) (hd : ∀ id p, declared id p → declared' id p) :
    Fitting declared' functions :=
  ⟨fun f hf => (h.calls f hf).mono hd, fun id f hf => hd id _ (h.declared id f hf)⟩

/-- A function without a body that is declared. -/
theorem push (h : Fitting declared functions) (hblocks : f.blocks = #[])
    (hf : declared functions.size f.prototype) : Fitting declared (functions.push f) := by
  refine ⟨fun g hg => ?_, fun id g hg => ?_⟩
  · rcases Array.mem_push.mp hg with hg | rfl
    · exact h.calls g hg
    · exact Ir.Function.callsFit_of_empty hblocks
  · rw [Array.getElem?_push] at hg
    split at hg
    · next heq =>
      cases hg
      exact heq ▸ hf
    · exact h.declared id g hg

/-- A function gets a body, and looks the same from outside. -/
theorem modify {i : Ir.FunctionId} (h : Fitting declared functions)
    (hi : headingAt functions i = some f.heading) (hg : g.heading = f.heading)
    (hcalls : g.CallsFit declared) : Fitting declared (functions.modify i fun _ => g) := by
  refine ⟨fun g' hg' => ?_, fun id g' hg' => ?_⟩
  · obtain ⟨j, hj⟩ := Array.mem_iff_getElem?.mp hg'
    rw [Array.getElem?_modify] at hj
    split at hj
    · obtain ⟨-, -, rfl⟩ := Option.map_eq_some_iff.mp hj
      exact hcalls
    · exact h.calls g' (Array.mem_of_getElem? hj)
  · have hheading := headingAt_of_getElem hg'
    rw [headingAt_modify hi hg] at hheading
    obtain ⟨f', hf', heq⟩ := Option.map_eq_some_iff.mp hheading
    have hprototype : f'.prototype = g'.prototype := congrArg Prod.snd heq
    exact hprototype ▸ h.declared id f' hf'

end Fitting

/-! ## Functions known by their names -/

namespace Ir.Module

variable {m : Module} {name : String} {id : FunctionId}

theorem headingAt_of_functionNamed? (h : m.functionNamed? name = some id) :
    ∃ q, headingAt m.functions id = some (name, q) := by
  obtain ⟨⟨f, i⟩, hfind, rfl⟩ := Option.map_eq_some_iff.mp h
  have hmem := List.mem_reverse.mp (List.mem_of_find?_eq_some hfind)
  rw [List.mem_zipIdx_iff_getElem?, Array.getElem?_toList] at hmem
  have hname : f.name = name := eq_of_beq (List.find?_some hfind :)
  exact ⟨f.prototype, hname ▸ headingAt_of_getElem hmem⟩

/-- What a name is declared as externally either means something already or is new. -/
theorem declareExternal_cases (m : Module) (name : String) (params : List Ty) (result : Ty)
    (variadic : Bool) {m' : Module} (h : m.declareExternal name params result variadic = (m', id)) :
    (∃ q, headingAt m'.functions id = some (name, q)) ∧ (m' = m ∨ id = m.functions.size ∧
      m'.functions = m.functions.push (.ofExternal name params result variadic)) := by
  unfold declareExternal at h
  split at h
  · cases h
    exact ⟨headingAt_of_functionNamed? ‹_›, .inl rfl⟩
  · cases h
    refine ⟨⟨(Function.ofExternal name params result variadic).prototype, ?_⟩, .inr ⟨rfl, rfl⟩⟩
    exact (headingAt_push _).trans (if_pos rfl)

end Ir.Module

namespace Ir.Block

variable {declared : Ir.FunctionId → Prototype → Prop} {b : Ir.Block} {i : Ir.Instr}

theorem fits_push (hb : ∀ j ∈ b.instrs, j.Fits declared) (hi : i.Fits declared) :
    ∀ j ∈ (b.push i).instrs, j.Fits declared := by
  intro j hj
  rcases Array.mem_push.mp hj with hj | rfl
  · exact hb j hj
  · exact hi

theorem fits_pushAlloca (hb : ∀ j ∈ b.instrs, j.Fits declared) (hi : i.Fits declared) :
    ∀ j ∈ (b.pushAlloca i).instrs, j.Fits declared := by
  intro j hj
  simp only [pushAlloca, List.mem_toArray, List.mem_append, List.mem_cons] at hj
  rcases hj with hj | rfl | hj
  · exact hb j (Array.mem_toList_iff.mp ((List.takeWhile_sublist _).subset hj))
  · exact hi
  · exact hb j (Array.mem_toList_iff.mp (List.mem_of_mem_drop hj))

theorem instrs_close (t : Ir.Terminator) : (b.close t).instrs = b.instrs := by
  unfold close
  split <;> rfl

theorem fits_close (t : Ir.Terminator) (hb : ∀ j ∈ b.instrs, j.Fits declared) :
    ∀ j ∈ (b.close t).instrs, j.Fits declared := by
  rw [instrs_close]
  exact hb

end Ir.Block

end Staged
