/-
  Staged.Proofs.Ssa.Point — where code is being written.

  A point is a function under construction together with a certificate of what is written
  so far. What the locals, the instance and the loops of the function refer to is at hand
  at the current block, so whatever code comes next may use it; a point that breaks this
  cannot be built.

  One point leads to another when code was only added, with the same locals and loops, and
  all that was at hand still is (`Point.Leads`). This holds again after code has gone on in
  another block, if that block starts with what was at hand before (`Point.goTo`); in
  between, only the registers that a block had at its end stay available at its end
  (`Point.Grows`).
-/

import Staged.Compiler.Code
import Staged.Proofs.Ssa.Grow

namespace Staged

open Ir (Register BlockId)

def FunctionState.here (f : FunctionState) (start : BlockId → Set Register) : Set Register :=
  f.function.out start f.current

/-- A block that may be jumped to, since what it starts with is at hand. -/
def FunctionState.Reaches (f : FunctionState) (start : BlockId → Set Register) (b : BlockId) :
    Prop :=
  b < f.function.blocks.size ∧ b ≠ f.function.entry ∧ start b ⊆ f.here start

structure Point where
  start : BlockId → Set Register
  state : FunctionState
  certified : state.function.Certified start
  current : state.current < state.function.blocks.size
  entry : state.function.entry < state.function.blocks.size
  scopes : state.scopes ≠ []
  locals : ∀ scope ∈ state.scopes, ∀ v ∈ scope, ∀ r ∈ v.address.regs, r ∈ state.here start
  self : ∀ i, state.self = some i → ∀ r ∈ i.address.regs, r ∈ state.here start
  loops : ∀ l ∈ state.loops, state.Reaches start l.breakTo ∧ state.Reaches start l.continueTo

namespace Point

def here (x : Point) : Set Register := x.state.here x.start

def out (x : Point) (b : BlockId) : Set Register := x.state.function.out x.start b

def Opens (x : Point) (b : BlockId) (at_ : Set Register) : Prop :=
  b < x.state.function.blocks.size ∧ b ≠ x.state.function.entry ∧ x.start b = at_

structure Grows (x x' : Point) : Prop where
  id : x'.state.id = x.state.id
  result : x'.state.result = x.state.result
  function : x.state.function.Grows x'.state.function x.start x'.start

structure Leads (x x' : Point) : Prop extends x.Grows x' where
  scopes : x'.state.scopes = x.state.scopes
  loops : x'.state.loops = x.state.loops
  self : x'.state.self = x.state.self
  here : x.here ⊆ x'.here
  old : ∀ r ∈ x'.state.function.assigned, r.id < x.state.function.nextRegister →
    r ∈ x.state.function.assigned

variable {x x' x'' : Point} {b : BlockId} {at_ : Set Register} {r : Register}

theorem Grows.refl (x : Point) : x.Grows x := ⟨rfl, rfl, .refl _ _⟩

theorem Grows.trans (h : x.Grows x') (h' : x'.Grows x'') : x.Grows x'' :=
  ⟨h'.id.trans h.id, h'.result.trans h.result, h.function.trans h'.function⟩

theorem Leads.refl (x : Point) : x.Leads x :=
  ⟨.refl x, rfl, rfl, rfl, fun _ h => h, fun _ h _ => h⟩

theorem Leads.trans (h : x.Leads x') (h' : x'.Leads x'') : x.Leads x'' where
  toGrows := h.toGrows.trans h'.toGrows
  scopes := h'.scopes.trans h.scopes
  loops := h'.loops.trans h.loops
  self := h'.self.trans h.self
  here := h.here.trans h'.here
  old r hr hid := h.old r (h'.old r hr (hid.trans_le h.function.next)) hid

theorem Grows.out (h : x.Grows x') (hb : b < x.state.function.blocks.size) :
    x.out b ⊆ x'.out b :=
  h.function.out hb

theorem Grows.opens (h : x.Grows x') (hb : x.Opens b at_) : x'.Opens b at_ :=
  ⟨hb.1.trans_le h.function.blocks, h.function.entry ▸ hb.2.1,
    (h.function.start b hb.1).trans hb.2.2⟩

theorem Opens.reaches (hb : x.Opens b at_) (h : at_ ⊆ x.here) : x.state.Reaches x.start b :=
  ⟨hb.1, hb.2.1, hb.2.2 ▸ h⟩

/-- A block that was made before may still be jumped to. -/
theorem Leads.reaches (h : x.Leads x') (hb : x.Opens b x.here) : x'.state.Reaches x'.start b :=
  (h.opens hb).reaches h.here

/-- A block that starts with what is at hand still does, if no more is at hand. -/
theorem Opens.carry (hb : x.Opens b x.here) (h : x.Leads x') (hhere : x'.here = x.here) :
    x'.Opens b x'.here :=
  hhere.symm ▸ h.opens hb

/-- What a block starts with is at hand at its end. -/
theorem Opens.out (hb : x.Opens b at_) : at_ ⊆ x.out b :=
  fun _ hr => .inr (.inr (.inl (hb.2.2 ▸ hr)))

theorem mem_here_of_params (x : Point) (hr : r ∈ x.state.function.params) : r ∈ x.here :=
  .inl hr

/-- Reserved memory is at hand everywhere. -/
theorem mem_here_of_slots (x : Point) (hr : r ∈ x.state.function.slots) : r ∈ x.here :=
  .inr (.inl hr)

theorem exists_current (x : Point) :
    ∃ b, x.state.function.block? x.state.current = some b :=
  ⟨_, Array.getElem?_eq_getElem x.current⟩

theorem exists_entry (x : Point) :
    ∃ b, x.state.function.block? x.state.function.entry = some b :=
  ⟨_, Array.getElem?_eq_getElem x.entry⟩

/-- A register that nothing assigns stays so. -/
theorem Leads.pending (h : x.Leads x') (hr : x.state.function.Pending r) :
    x'.state.function.Pending r := by
  refine ⟨hr.1.trans_le h.function.next, fun r' hr' hid => ?_⟩
  rcases List.mem_append.mp hr' with hr' | hr'
  · rw [h.function.params] at hr'
    exact hr.2 r' (List.mem_append_left _ hr') hid
  · exact hr.2 r' (List.mem_append_right _ (h.old r' hr' (hid ▸ hr.1))) hid

/-! ## From point to point -/

section

variable {function : Ir.Function} {start : BlockId → Set Register}

def write (x : Point) (hc : function.Certified start)
    (hg : x.state.function.Grows function x.start start) : Point where
  start := start
  state := { x.state with function }
  certified := hc
  current := x.current.trans_le hg.blocks
  entry := by
    show function.entry < function.blocks.size
    rw [hg.entry]
    exact x.entry.trans_le hg.blocks
  scopes := x.scopes
  locals scope hscope v hv r hr := hg.out x.current (x.locals scope hscope v hv r hr)
  self i hi r hr := hg.out x.current (x.self i hi r hr)
  loops l hl := by
    have hmono {b : BlockId} (hb : x.state.Reaches x.start b) :
        FunctionState.Reaches { x.state with function } start b := by
      refine ⟨hb.1.trans_le hg.blocks, hg.entry ▸ hb.2.1, ?_⟩
      rw [hg.start b hb.1]
      exact hb.2.2.trans (hg.out x.current)
    exact ⟨hmono (x.loops l hl).1, hmono (x.loops l hl).2⟩

theorem grows_write (hc : function.Certified start)
    (hg : x.state.function.Grows function x.start start) : x.Grows (x.write hc hg) :=
  ⟨rfl, rfl, hg⟩

theorem leads_write (hc : function.Certified start)
    (hg : x.state.function.Grows function x.start start)
    (hold : ∀ r ∈ function.assigned, r.id < x.state.function.nextRegister →
      r ∈ x.state.function.assigned) : x.Leads (x.write hc hg) :=
  ⟨grows_write hc hg, rfl, rfl, rfl, hg.out x.current, hold⟩

end

/-- Code goes on in a block that starts with what was at hand at an earlier point. -/
def goTo (x : Point) {x₀ : Point} (h : x₀.Leads x) (hb : x.Opens b at_) (hat : x₀.here ⊆ at_) :
    Point where
  start := x.start
  state := { x.state with current := b }
  certified := x.certified
  current := hb.1
  entry := x.entry
  scopes := x.scopes
  locals scope hscope v hv r hr :=
    hb.out (hat (x₀.locals scope (h.scopes ▸ hscope) v hv r hr))
  self i hi r hr := hb.out (hat (x₀.self i (h.self ▸ hi) r hr))
  loops l hl := by
    have hmono {b' : BlockId} (hb' : x₀.state.Reaches x₀.start b') :
        FunctionState.Reaches { x.state with current := b } x.start b' := by
      refine ⟨hb'.1.trans_le h.function.blocks, h.function.entry ▸ hb'.2.1, ?_⟩
      rw [h.function.start b' hb'.1]
      exact hb'.2.2.trans (hat.trans hb.out)
    obtain ⟨hbreak, hcontinue⟩ := x₀.loops l (h.loops ▸ hl)
    exact ⟨hmono hbreak, hmono hcontinue⟩

section

variable {x₀ : Point} (h : x₀.Leads x) (hb : x.Opens b at_) (hat : x₀.here ⊆ at_)

theorem grows_goTo : x.Grows (x.goTo h hb hat) := ⟨rfl, rfl, .refl _ _⟩

theorem leads_goTo : x₀.Leads (x.goTo h hb hat) where
  toGrows := h.toGrows.trans (grows_goTo h hb hat)
  scopes := h.scopes
  loops := h.loops
  self := h.self
  here := hat.trans hb.out
  old := h.old

end

def withScopes (x : Point) (scopes : List (List LocalVar)) (hne : scopes ≠ [])
    (h : ∀ scope ∈ scopes, ∀ v ∈ scope, ∀ r ∈ v.address.regs, r ∈ x.here) : Point :=
  { x with state := { x.state with scopes }, scopes := hne, locals := h }

def withLoops (x : Point) (loops : List LoopTargets)
    (h : ∀ l ∈ loops, x.state.Reaches x.start l.breakTo ∧ x.state.Reaches x.start l.continueTo) :
    Point :=
  { x with state := { x.state with loops }, loops := h }

/-! ## The changes that write code -/

def fresh (x : Point) (type : Ty) : Point :=
  x.write (x.certified.newRegister type) (Ir.Function.grows_newRegister type)

theorem leads_fresh (x : Point) (type : Ty) : x.Leads (x.fresh type) :=
  leads_write _ _ fun _ hr _ => hr

theorem pending_fresh (x : Point) (type : Ty) :
    (x.fresh type).state.function.Pending (x.state.function.newRegister type).2 :=
  Ir.Function.pending_newRegister x.certified type

def addBlock (x : Point) (label : Option String) : Point :=
  x.write (x.certified.newBlock x.entry label x.here)
    (Ir.Function.grows_newBlock x.entry x.here)

theorem leads_addBlock (x : Point) (label : Option String) : x.Leads (x.addBlock label) := by
  refine leads_write _ _ fun r hr _ => ?_
  rwa [Ir.Function.assigned_newBlock] at hr

theorem opens_addBlock (x : Point) (label : Option String) :
    (x.addBlock label).Opens x.state.function.blocks.size x.here := by
  refine ⟨?_, x.entry.ne', Ir.Function.startWith_self _ _ _⟩
  show _ < (x.state.function.blocks.push _).size
  rw [Array.size_push]
  exact Nat.lt_succ_self _

/-- A new block changes nothing at the current one. -/
theorem here_addBlock (x : Point) (label : Option String) : (x.addBlock label).here = x.here := by
  refine Set.Subset.antisymm ?_ (x.leads_addBlock label).here
  rintro r (hr | hr | hr | hr)
  · exact .inl hr
  · refine .inr (.inl ?_)
    rwa [show (x.addBlock label).state.function.slots = x.state.function.slots from
      Ir.Function.slots_newBlock x.entry] at hr
  · refine .inr (.inr (.inl ?_))
    rwa [show (x.addBlock label).start (x.addBlock label).state.current =
      x.start x.state.current from if_neg x.current.ne] at hr
  · refine .inr (.inr (.inr ?_))
    rwa [show (x.addBlock label).state.function.blockDests (x.addBlock label).state.current =
      x.state.function.blockDests x.state.current from
      Ir.Function.blockDests_newBlock _ _ _] at hr

theorem exists_push (x : Point) {instr : Ir.Instr} (halloca : instr.isAlloca = false)
    (hdest : ∀ r, instr.dest? = some r → x.state.function.Pending r)
    (huses : ∀ r ∈ instr.uses, r ∈ x.here)
    (hincoming : ∀ r b, (r, b) ∈ instr.incoming →
      b < x.state.function.blocks.size ∧ r ∈ x.out b) :
    ∃ x' : Point, x'.state =
        { x.state with function := x.state.function.modifyBlock x.state.current (·.push instr) } ∧
      x.Grows x' ∧ x.here ⊆ x'.here ∧ (∀ r, instr.dest? = some r → r ∈ x'.here) ∧
      ∀ r ∈ x'.state.function.assigned, r ∈ x.state.function.assigned ∨ instr.dest? = some r := by
  obtain ⟨b, hb⟩ := x.exists_current
  have hg : x.state.function.Grows (x.state.function.modifyBlock x.state.current (·.push instr))
      x.start x.start := Ir.Function.grows_push hb halloca
  refine ⟨x.write (x.certified.push hb halloca hdest huses hincoming) hg, rfl,
    grows_write _ _, hg.out x.current, fun r hr => ?_, fun r hr => ?_⟩
  · refine .inr (.inr (.inr ?_))
    show r ∈ (x.state.function.modifyBlock x.state.current (·.push instr)).blockDests
      x.state.current
    rw [Ir.Function.blockDests_modifyBlock hb, if_pos rfl, Ir.Function.dests_push]
    exact List.mem_append_right _ (by simp [hr])
  · obtain ⟨before, after, hold, hnew⟩ := Ir.Function.assigned_modifyBlock hb (·.push instr)
    rw [show (x.write _ hg).state.function.assigned = _ from hnew, Ir.Function.dests_push] at hr
    rw [hold]
    simp only [List.mem_append, Option.mem_toList] at hr ⊢
    grind

theorem exists_close (x : Point) {t : Ir.Terminator} (huses : ∀ r ∈ t.uses, r ∈ x.here)
    (hedges : ∀ b ∈ t.successors, x.state.Reaches x.start b) :
    ∃ x' : Point, x'.state =
        { x.state with function := x.state.function.modifyBlock x.state.current (·.close t) } ∧
      x'.start = x.start ∧ x.Leads x' ∧ x'.here = x.here := by
  obtain ⟨b, hb⟩ := x.exists_current
  have hg : x.state.function.Grows (x.state.function.modifyBlock x.state.current (·.close t))
      x.start x.start := Ir.Function.grows_close hb t
  have hassigned : (x.state.function.modifyBlock x.state.current (·.close t)).assigned =
      x.state.function.assigned := by
    obtain ⟨before, after, hold, hnew⟩ := Ir.Function.assigned_modifyBlock hb (·.close t)
    rw [hold, hnew, Ir.Function.dests_close]
  refine ⟨x.write (x.certified.close hb huses hedges) hg, rfl, rfl,
    leads_write _ _ fun r hr _ => hassigned ▸ hr, Set.Subset.antisymm ?_ (hg.out x.current)⟩
  rintro r (hr | hr | hr | hr)
  · exact .inl hr
  · refine .inr (.inl ?_)
    rw [show (x.write _ hg).state.function.slots = _ from Ir.Function.slots_modifyBlock hb] at hr
    split at hr
    · rename_i h
      rw [Ir.Function.instrs_close] at hr
      rw [h] at hb
      rwa [Ir.Function.slots_of_entry hb]
    · exact hr
  · exact .inr (.inr (.inl hr))
  · refine .inr (.inr (.inr ?_))
    have hdests := Ir.Function.blockDests_modifyBlock (g := (·.close t)) hb x.state.current
    rw [if_pos rfl, Ir.Function.dests_close] at hdests
    rw [Ir.Function.blockDests_of_block? hb, ← hdests]
    exact hr

theorem exists_reserve (x : Point) {r : Register} (type : Ty) (name : Option String)
    (hr : x.state.function.Pending r) :
    ∃ x' : Point, x'.state = { x.state with
        function := x.state.function.modifyBlock x.state.function.entry
          (·.pushAlloca (.alloca r type name)) } ∧
      x.Grows x' ∧ x.here ⊆ x'.here ∧ r ∈ x'.here ∧
      ∀ r' ∈ x'.state.function.assigned, r' ∈ x.state.function.assigned ∨ r' = r := by
  obtain ⟨b, hb⟩ := x.exists_entry
  have hg : x.state.function.Grows (x.state.function.modifyBlock x.state.function.entry
      (·.pushAlloca (.alloca r type name))) x.start x.start := Ir.Function.grows_reserve hb rfl
  refine ⟨x.write (x.certified.reserve hb hr) hg, rfl, grows_write _ _, hg.out x.current,
    mem_here_of_slots _ (Ir.Function.mem_slots_reserve hb), fun r' hr' => ?_⟩
  obtain ⟨before, after, hold, hnew⟩ :=
    Ir.Function.assigned_modifyBlock hb (·.pushAlloca (.alloca r type name))
  rw [show (x.write _ hg).state.function.assigned = _ from hnew] at hr'
  rw [hold]
  have hperm := Ir.Function.dests_pushAlloca b (.alloca r type name)
  simp only [List.mem_append, hperm.mem_iff, Ir.Instr.dest?, Option.mem_toList,
    Option.some.injEq] at hr' ⊢
  grind

end Point

end Staged
