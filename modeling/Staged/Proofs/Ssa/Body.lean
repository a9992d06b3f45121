/-
  Staged.Proofs.Ssa.Body — certified bodies.

  Between bodies all functions are certified (`Compiler.Calm`). A body begins at a point
  where nothing but the parameters is at hand, goes on from point to point, and ends by
  closing blocks, which jumps nowhere. So its function is certified again, and no other
  function got a body on the way (`Ir.Fills`). No step of this breaks an invariant of the
  compiler (`Emit.Safely`).

  A body that has to give a result may leave a block open only if the block cannot be reached.
  What is asked is whether anything jumps to the block (`Function.Entered`), and not whether a
  path leads to it. So a body is refused exactly if an open block is the entry or the target of
  a jump (`finishFunction_missingGive`). No path to an open block is missed
  (`finishFunction_of_path`). As long as only blocks that can be reached jump at all, nothing
  else is refused (`finishFunction_exact`); a jump from a block that cannot be reached is taken
  for a way to its target.
-/

import Staged.Declare.Member
import Staged.Proofs.Code.Body
import Staged.Proofs.Lists
import Staged.Proofs.Phis.Sentence
import Staged.Proofs.Ssa.Sentence

namespace Staged

open Ir (Register BlockId)

/-! ## Actions that break nothing -/

/-- An action that fails, if at all, because of what it is given. -/
def Emit.Safely {α : Type} (P : Compiler → Prop) (a : Emit α) (Q : α → Compiler → Prop) : Prop :=
  ∀ o s, P s → match a o s with
    | .ok v s' => Q v s'
    | .error f _ => f.isFault = true

namespace Emit.Safely

variable {α β : Type} {P P' : Compiler → Prop} {a : Emit α} {k : α → Emit β}
  {Q Q' : α → Compiler → Prop} {R : β → Compiler → Prop}

theorem pure {v : α} (h : ∀ s, P s → Q v s) : Safely P (pure v) Q := fun _ s hs => h s hs

theorem bind (ha : Safely P a Q) (hk : ∀ v, Safely (Q v) (k v) R) : Safely P (a >>= k) R := by
  intro o s hs
  have h := ha o s hs
  rw [Emit.bind_apply]
  cases hr : a o s with
  | error f s' =>
    rw [hr] at h
    exact h
  | ok v s' =>
    rw [hr] at h
    exact hk v o s' h

theorem mono (h : Safely P a Q) (hp : ∀ s, P' s → P s) (hq : ∀ v s, Q v s → Q' v s) :
    Safely P' a Q' := by
  intro o s hs
  have h := h o s (hp s hs)
  cases hr : a o s with
  | error f s' =>
    rw [hr] at h
    exact h
  | ok v s' =>
    rw [hr] at h
    exact hq v s' h

/-- What a single state is judged by. -/
theorem of_forall (h : ∀ s₀, P s₀ → Safely (· = s₀) a Q) : Safely P a Q :=
  fun o s hs => h s hs o s rfl

/-- What a condition says apart from the state. -/
theorem of_and {c : Prop} (h : c → Safely P a Q) : Safely (fun s => P s ∧ c) a Q :=
  fun o s hs => h hs.2 o s hs.1

end Emit.Safely

/-! ## Closing the blocks of a function -/

namespace Ir.Function

variable {f : Function} {start : BlockId → Set Register}

theorem assigned_of_forall₂ {blocks : Array Block}
    (h : List.Forall₂ (fun b b' => b'.instrs = b.instrs) f.blocks.toList blocks.toList) :
    assigned { f with blocks } = f.assigned := by
  have hflat : ∀ {as bs : List Block}, List.Forall₂ (fun b b' => b'.instrs = b.instrs) as bs →
      bs.flatMap (·.instrs.toList) = as.flatMap (·.instrs.toList) := by
    intro as bs h
    induction h with
    | nil => rfl
    | cons h _ ih => rw [List.flatMap_cons, List.flatMap_cons, h, ih]
  unfold assigned instrs
  rw [hflat h]

/-- Blocks that are closed without a jump keep to the certificate. -/
theorem Certified.closeBlocks (hc : f.Certified start) (blocks : Array Block)
    (h : List.Forall₂ (fun b b' => b' = b ∨ ∃ t : Terminator, t.uses = [] ∧ t.successors = [] ∧
      b' = b.close t) f.blocks.toList blocks.toList) :
    Certified { f with blocks } start := by
  have hinstrs : List.Forall₂ (fun b b' => b'.instrs = b.instrs) f.blocks.toList blocks.toList := by
    refine h.imp fun b b' hb => ?_
    rcases hb with rfl | ⟨t, -, -, rfl⟩
    · rfl
    · exact instrs_close b t
  have hsize : blocks.size = f.blocks.size := by simpa using h.length_eq.symm
  -- block by block
  have hget {i : BlockId} {b : Block} (hb : f.block? i = some b) :
      ∃ b', block? { f with blocks } i = some b' ∧ (b' = b ∨ ∃ t : Terminator, t.uses = [] ∧
        t.successors = [] ∧ b' = b.close t) := by
    obtain ⟨hi, rfl⟩ := Array.getElem?_eq_some_iff.mp hb
    have hi' : i < blocks.size := hsize ▸ hi
    have hended := h.get (Array.length_toList.symm ▸ hi) (Array.length_toList.symm ▸ hi')
    simp only [List.get_eq_getElem, Array.getElem_toList] at hended
    exact ⟨blocks[i], Array.getElem?_eq_getElem hi', hended⟩
  have hsame {i : BlockId} {b : Block} (hb : f.block? i = some b) :
      ∃ b', block? { f with blocks } i = some b' ∧ b'.instrs = b.instrs := by
    obtain ⟨b', hb', h⟩ := hget hb
    refine ⟨b', hb', ?_⟩
    rcases h with rfl | ⟨t, -, -, rfl⟩
    · rfl
    · exact instrs_close b t
  have hg : f.Grows { f with blocks } start start := by
    refine ⟨rfl, rfl, hsize.ge, Nat.le_refl _, fun _ _ => rfl, fun r hr => ?_, fun i r hr => ?_⟩
    · unfold slots at hr ⊢
      cases hb : f.block? f.entry with
      | none =>
        rw [hb] at hr
        cases hr
      | some b =>
        obtain ⟨b', hb', hinstrs⟩ := hsame hb
        rw [hb] at hr
        rw [show block? { f with blocks } f.entry = some b' from hb']
        simpa only [Option.map_some, Option.getD_some, hinstrs] using hr
    · unfold blockDests at hr ⊢
      cases hb : f.block? i with
      | none =>
        rw [hb] at hr
        cases hr
      | some b =>
        obtain ⟨b', hb', hinstrs⟩ := hsame hb
        rw [hb] at hr
        rw [hb']
        simpa only [Option.map_some, Option.getD_some, Block.dests, hinstrs] using hr
  rw [certified_iff, assigned_of_forall₂ hinstrs]
  refine ⟨hc.once, hc.below, hc.first, fun i b' hb' => ?_⟩
  have hi : i < f.blocks.size := hsize ▸ lt_of_block? hb'
  have hb : f.block? i = some f.blocks[i] := Array.getElem?_eq_getElem hi
  have hkeeps := (hc.keeps hb).mono hg hi
  obtain ⟨b'', hb'', h⟩ := hget hb
  cases hb'.symm.trans hb''
  rcases h with h | ⟨t, huses, hnone, h⟩
  · rw [h]
    exact hkeeps
  · rw [h]
    refine hkeeps.close ?_ ?_
    · rw [huses]
      exact fun _ h => by cases h
    · rw [hnone]
      exact fun _ h => by cases h

end Ir.Function

/-! ## Functions that get bodies -/

structure Ir.Fills (fs fs' : Array Ir.Function) (paid : Ir.FunctionId → Prop) : Prop where
  certified : (∀ f ∈ fs, f.IsCertified) → ∀ f ∈ fs', f.IsCertified
  params : ∀ (i : Ir.FunctionId) (p : Ir.Function), fs[i]? = some p →
    ∃ p' : Ir.Function, fs'[i]? = some p' ∧ p'.params = p.params
  blank : ∀ (i : Ir.FunctionId) (p' : Ir.Function), fs'[i]? = some p' → p'.blocks ≠ #[] →
    paid i ∨ ∃ p : Ir.Function, fs[i]? = some p ∧ p.blocks ≠ #[]

namespace Ir.Fills

variable {fs fs' fs'' : Array Ir.Function} {paid paid' : Ir.FunctionId → Prop}

theorem refl (fs : Array Ir.Function) : Ir.Fills fs fs paid :=
  ⟨id, fun _ p h => ⟨p, h, rfl⟩, fun _ p h hb => .inr ⟨p, h, hb⟩⟩

theorem trans (h : Ir.Fills fs fs' paid) (h' : Ir.Fills fs' fs'' paid') :
    Ir.Fills fs fs'' fun i => paid i ∨ paid' i where
  certified hc := h'.certified (h.certified hc)
  params i p hp := by
    obtain ⟨p', hp', he⟩ := h.params i p hp
    obtain ⟨p'', hp'', he'⟩ := h'.params i p' hp'
    exact ⟨p'', hp'', he'.trans he⟩
  blank i p'' hp'' hb := by
    rcases h'.blank i p'' hp'' hb with hi | ⟨p', hp', hb'⟩
    · exact .inl (.inr hi)
    · exact (h.blank i p' hp' hb').imp_left .inl

theorem mono (h : Ir.Fills fs fs' paid) (hp : ∀ i, paid i → paid' i) : Ir.Fills fs fs' paid' :=
  ⟨h.certified, h.params, fun i p hb hne => (h.blank i p hb hne).imp_left (hp i)⟩

/-- Functions without a body are added. -/
theorem append (fs added : Array Ir.Function) (h : ∀ f ∈ added, f.IsCertified ∧ f.blocks = #[]) :
    Ir.Fills fs (fs ++ added) fun _ => False where
  certified hc f hf := by
    rcases Array.mem_append.mp hf with hf | hf
    · exact hc f hf
    · exact (h f hf).1
  params i p hp := by
    have hi : i < fs.size := (Array.getElem?_eq_some_iff.mp hp).1
    exact ⟨p, by rw [Array.getElem?_append_left hi, hp], rfl⟩
  blank i p hp hne := by
    by_cases hi : i < fs.size
    · rw [Array.getElem?_append_left hi] at hp
      exact .inr ⟨p, hp, hne⟩
    · rw [Array.getElem?_append_right (Nat.le_of_not_lt hi)] at hp
      exact absurd (h p (Array.mem_of_getElem? hp)).2 hne

/-- A function gets its body. -/
theorem replace {i : Ir.FunctionId} {p done : Ir.Function} (hp : fs[i]? = some p)
    (hc : done.IsCertified) (hparams : done.params = p.params) :
    Ir.Fills fs (fs.modify i fun _ => done) (· = i) where
  certified hfs f hf := by
    rcases Emit.mem_modify_const hf with rfl | hf
    · exact hc
    · exact hfs f hf
  params j q hq := by
    rw [Array.getElem?_modify]
    split
    · rename_i h
      subst h
      cases hp.symm.trans hq
      exact ⟨done, by rw [hp]; rfl, hparams⟩
    · exact ⟨q, hq, rfl⟩
  blank j q hq hne := by
    rw [Array.getElem?_modify] at hq
    split at hq
    · rename_i h
      exact .inl h.symm
    · exact .inr ⟨q, hq, hne⟩

end Ir.Fills

structure Ir.Members (fs : Array Ir.Function) (ms : List MemberFunction) : Prop where
  nodup : (ms.map MemberFunction.function).Nodup
  self : ∀ m ∈ ms, m.kind.hasSelf = true → ∀ p : Ir.Function, fs[m.function]? = some p →
    p.params ≠ []

structure Ir.Awaits (fs : Array Ir.Function) (ms : List MemberFunction) : Prop
    extends Ir.Members fs ms where
  blank : ∀ m ∈ ms, ∃ p : Ir.Function, fs[m.function]? = some p ∧ p.blocks = #[]

theorem Ir.Awaits.tail {fs fs' : Array Ir.Function} {m : MemberFunction}
    {ms : List MemberFunction} (h : Ir.Awaits fs (m :: ms))
    (hf : Ir.Fills fs fs' (· = m.function)) : Ir.Awaits fs' ms := by
  obtain ⟨hnot, hnodup⟩ := List.nodup_cons.mp h.nodup
  refine ⟨⟨hnodup, fun x hx hself p' hp' => ?_⟩, fun x hx => ?_⟩ <;>
    obtain ⟨p, hp, hblocks⟩ := h.blank x (List.mem_cons_of_mem m hx) <;>
    obtain ⟨p'', hp'', hparams⟩ := hf.params _ p hp
  · cases hp'.symm.trans hp''
    rw [hparams]
    exact h.self x (List.mem_cons_of_mem m hx) hself p hp
  · refine ⟨p'', hp'', by_contra fun hne => ?_⟩
    rcases hf.blank _ p'' hp'' hne with he | ⟨q, hq, hq'⟩
    · exact hnot (he ▸ List.mem_map_of_mem hx)
    · cases hp.symm.trans hq
      exact hq' hblocks

/-! ## A body from its beginning to its end -/

structure Compiler.Calm (outer : Outer) (s : Compiler) : Prop where
  outer : s.outer = outer
  frames : s.frames = []
  func : s.func = none
  certified : ∀ f ∈ s.ir.functions, f.IsCertified

def Outer.Typed (ω : Outer) : Prop :=
  ∀ id i ty, ω.symbols.lookup id = some (.function i ty) →
    ∃ result params variadic, ty = .function result params variadic

namespace Emit

variable {α : Type} {ω : Outer} {s₀ : Compiler}

def backdrop (ω : Outer) (ht : ω.Typed) (fs : Array Ir.Function) : Backdrop :=
  ⟨ω, fs, fun h => ht _ _ _ h⟩

/-- A body begins at a point where the parameters are at hand. -/
theorem exists_begun (i : Ir.FunctionId) {p : Ir.Function} (result : Ty) {self : Option Instance}
    (hp : p.IsCertified) (hblocks : p.blocks = #[])
    (hself : ∀ inst, self = some inst → ∀ r ∈ inst.address.regs, r ∈ p.params) :
    ∃ x : Point, x.state = begun i p result self := by
  obtain ⟨start, hc⟩ := hp
  have hlt : p.blocks.size < (p.blocks.push { label := some "entry" }).size := by
    rw [Array.size_push]
    exact Nat.lt_succ_self _
  refine ⟨⟨fun _ => ∅, begun i p result self, hc.begin hblocks (some "entry"), hlt, hlt,
    List.cons_ne_nil _ _, fun scope hscope v hv => ?_, fun inst hinst r hr => ?_,
    fun l hl => by cases hl⟩, rfl⟩
  · rw [List.mem_singleton.mp hscope] at hv
    cases hv
  · exact .inl (hself inst hinst r hr)

theorem prototype_apply {i : Ir.FunctionId} {p : Ir.Function} {o : Options} {s : Compiler}
    (hp : s.ir.functions[i]? = some p) : prototype i o s = .ok p s := by
  unfold prototype
  rw [bind_apply]
  simp only [show (get : Emit Compiler) o s = .ok s s from rfl, hp]
  rfl

theorem beginFunction_calm {i : Ir.FunctionId} {p : Ir.Function} {result : Ty}
    {self : Option Instance} {o : Options} {s : Compiler} (hs : s.func = none)
    (hp : s.ir.functions[i]? = some p) : beginFunction i result self o s =
      .ok () { s with func := some (begun i p result self) } := by
  have hrun : beginFunction i result self = (do
    let t ← get
    if t.func.isSome then breach .nestedFunction
    let p ← prototype i
    setFunction (begun i p result self) : Emit Unit) := rfl
  rw [hrun, bind_apply]
  simp only [show (get : Emit Compiler) o s = .ok s s from rfl, hs, Option.isSome_none,
    Bool.false_eq_true, if_false]
  rw [bind_apply, prototype_apply hp]
  rfl

/-- Ending a body fails only if a result is missing. -/
theorem finishFunction_calm (range : Span) {f : FunctionState} {o : Options} {s : Compiler}
    (hf : s.func = some f) (hid : f.id < s.ir.functions.size) :
    match finishFunction range o s with
    | .ok _ s' => ∃ done, closeAll? f.function f.result = some done ∧ s' = { s with
        func := none
        ir := { s.ir with functions := s.ir.functions.modify f.id fun _ => done } }
    | .error e _ => e.isFault = true := by
  have hget : s.ir.functions[f.id]?.isNone = false := by
    rw [Array.getElem?_eq_getElem hid]
    rfl
  rw [finishFunction_apply range hf, hget]
  cases closeAll? f.function f.result with
  | none => rfl
  | some done => exact ⟨done, rfl, rfl⟩

/-- A body that goes from point to point certifies its function. -/
theorem safely_body (hω : ω.Typed) {i : Ir.FunctionId} {p : Ir.Function} (result : Ty)
    (self : Option Instance) {a : Emit Unit} (range : Span) (hs₀ : s₀.Calm ω)
    (hp : s₀.ir.functions[i]? = some p) (hblocks : p.blocks = #[])
    (hself : ∀ inst, self = some inst → ∀ r ∈ inst.address.regs, r ∈ p.params)
    (ha : ∀ (w : Backdrop) (x : Point), x.state.self = self →
      x.state.function.params = p.params → w.Goes x a) (hpass : Passes a) :
    Safely (· = s₀) (do beginFunction i result self; a; finishFunction range)
      fun _ s => s.Calm ω ∧ Ir.Fills s₀.ir.functions s.ir.functions (· = i) := by
  rintro o s rfl
  obtain ⟨x, hx⟩ := exists_begun i result (hs₀.certified p (Array.mem_of_getElem? hp)) hblocks hself
  have hstands : (backdrop ω hω s.ir.functions).Stands x
      { s with func := some (begun i p result self) } := by
    refine ⟨hs₀.outer, hs₀.frames, congrArg some hx.symm, ?_, #[], Array.append_empty.symm,
      fun f hf => absurd hf (Array.not_mem_empty f)⟩
    rw [hx]
    exact (Array.getElem?_eq_some_iff.mp hp).1
  have hgoes := ha (backdrop ω hω s.ir.functions) x (by rw [hx]; rfl) (by rw [hx]; rfl) o _ hstands
  rw [bind_apply, beginFunction_calm hs₀.func hp]
  dsimp only
  rw [bind_apply]
  cases hr : a o { s with func := some (begun i p result self) } with
  | error f s₁ =>
    rw [hr] at hgoes
    exact hgoes
  | ok u s₁ =>
    rw [hr] at hgoes
    obtain ⟨y, hy, hs₁⟩ := hgoes
    obtain ⟨hfunc, hown, added, hadded, hnew⟩ := hs₁.code
    have hid : y.state.id = i := hy.id.trans (by rw [hx]; rfl)
    have hlt : y.state.id < s₁.ir.functions.size := by
      rw [show s₁.ir.functions = s.ir.functions ++ added from hadded, Array.size_append]
      exact Nat.lt_of_lt_of_le hown (Nat.le_add_right _ _)
    have hfinish := finishFunction_calm range (o := o) hfunc hlt
    dsimp only
    cases hend : finishFunction range o s₁ with
    | error f s₂ =>
      rw [hend] at hfinish
      exact hfinish
    | ok u s₂ =>
      rw [hend] at hfinish
      obtain ⟨done, hdone, rfl⟩ := hfinish
      obtain ⟨-, hended⟩ := closeAll_spec hdone
      obtain ⟨g, hg, hpassed⟩ := hpass _ o _ u s₁ _ rfl rfl hr
      cases hfunc.symm.trans hg
      have hexact := exactPhis_of_body hblocks hpassed hdone
      obtain ⟨blocks, -, hclosed⟩ := Option.bind_eq_some_iff.mp hdone
      cases hclosed
      have hcertified := y.certified.closeBlocks blocks.toArray <| hended.imp
        fun b b' hb => hb.2.imp_right fun ⟨t, ht, hb'⟩ => ⟨t, by rcases ht with rfl | rfl <;> rfl,
          by rcases ht with rfl | rfl <;> rfl, hb'⟩
      have hparams : y.state.function.params = p.params :=
        hy.function.params.trans (by rw [hx]; rfl)
      have hgrown := Ir.Fills.append s.ir.functions added hnew
      rw [← show s₁.ir.functions = s.ir.functions ++ added from hadded] at hgrown
      obtain ⟨p', hp', hparams'⟩ := hgrown.params i p hp
      have hfills : Ir.Fills _ _ (· = i) := (hgrown.trans (.replace (i := y.state.id)
        (by rw [hid]; exact hp') ⟨y.start, hcertified, hexact⟩ (hparams.trans hparams'.symm))).mono
        fun j hj => (hj.resolve_left not_false).trans hid
      exact ⟨⟨hs₁.outer, hs₁.frames, rfl, hfills.certified hs₀.certified⟩, hfills⟩

/-! ## Parameters -/

section

variable {w : Backdrop} {x : Point}

theorem goes_bindParam (name : Ident) {r : Register} (ty : Ty) (isVar : Bool) (hr : r ∈ x.here) :
    w.Goes x (bindParam name r ty isVar) := by
  unfold bindParam
  split
  · exact goes_declareLocal (Ir.Value.at_reg hr)
  · refine (lands_requireSized ty _).andGoes fun _ x₁ hx₁ _ => ?_
    refine (lands_alloca ty _).andGoes fun slot x₂ hx₂ hslot => ?_
    have hslot := Ir.Value.at_reg hslot
    refine (lands_store (Ir.Value.at_reg (hx₂.here (hx₁.here hr))) hslot).andGoes
      fun _ x₃ hx₃ _ => ?_
    exact goes_declareLocal (hslot.mono hx₃)

theorem goes_nothing : w.Goes x (pure ()) :=
  (Backdrop.Lands.pure (Q := fun _ _ => True) trivial).goes

theorem goes_bindParams :
    ∀ (args : List Argument) (rs : List Register) {x : Point}, (∀ r ∈ rs, r ∈ x.here) →
      w.Goes x (bindParams args rs)
  | [], _, _, _ | _ :: _, [], _, _ => by
    unfold bindParams
    exact goes_nothing
  | a :: args, r :: rs, _, hrs => by
    obtain ⟨hr, hrs⟩ := List.forall_mem_cons.mp hrs
    unfold bindParams
    exact (goes_bindParam a.name r.type a.isVar hr).seq fun _ x' hx' =>
      goes_bindParams args rs fun r hr => hx'.here (hrs r hr)

theorem goes_bindMemberArgs (parent : Ty) (self : Option Instance) :
    ∀ (args : List MemberArg) (rs : List Register) {x : Point},
      (∀ inst, self = some inst → inst.address.At x) → (∀ r ∈ rs, r ∈ x.here) →
      w.Goes x (bindMemberArgs parent self args rs)
  | [], _, _, _, _ | _ :: _, [], _, _, _ => by
    unfold bindMemberArgs
    exact goes_nothing
  | a :: args, r :: rs, x, hself, hrs => by
    obtain ⟨hr, hrs⟩ := List.forall_mem_cons.mp hrs
    have hrest (x' : Point) (hx' : x.here ⊆ x'.here) :
        w.Goes x' (bindMemberArgs parent self args rs) :=
      goes_bindMemberArgs parent self args rs (fun inst hinst r hr => hx' (hself inst hinst r hr))
        fun r hr => hx' (hrs r hr)
    unfold bindMemberArgs
    dsimp only
    split
    · rename_i inst _
      refine (lands_fieldPtr parent _ _ (hself inst rfl)).andGoes fun ptr x₁ hx₁ hptr => ?_
      refine (lands_store (Ir.Value.at_reg (hx₁.here hr)) (Ir.Value.at_reg hptr)).andGoes
        fun _ x₂ hx₂ _ => ?_
      exact hrest x₂ (hx₁.here.trans hx₂.here)
    · exact (goes_bindParam _ _ _ hr).seq fun _ x' hx' => hrest x' hx'.here

end

/-! ## The bodies of a declaration -/

theorem safely_prototype {i : Ir.FunctionId} {p : Ir.Function}
    (hp : s₀.ir.functions[i]? = some p) :
    Safely (· = s₀) (prototype i) fun q s => s = s₀ ∧ q = p := by
  rintro o s rfl
  rw [prototype_apply hp]
  exact ⟨rfl, rfl⟩

/-- What an entity has become may be missing, which breaks nothing. -/
theorem safely_symbolOf (id : EntityId) (range : Span) :
    Safely (· = s₀) (symbolOf id range) fun y s => s = s₀ ∧ s₀.symbols.lookup id = some y := by
  rintro o s rfl
  have hrun : symbolOf id range o s =
      require (s.symbols.lookup id) (.notReady (s.entities.displayName id)) range o s := rfl
  rw [hrun]
  cases hl : s.symbols.lookup id with
  | none => rfl
  | some y => exact ⟨rfl, rfl⟩

theorem safely_functionBody (hω : ω.Typed) (hs₀ : s₀.Calm ω) (view : Viewpoint) {id : EntityId}
    {d : FunctionDecl} (range : Span)
    (hid : ∀ y, ω.symbols.lookup id = some y → ∃ i ty, y = .function i ty)
    (hblank : ∀ i ty, ω.symbols.lookup id = some (.function i ty) → d.body.isSome = true →
      ∃ p : Ir.Function, s₀.ir.functions[i]? = some p ∧ p.blocks = #[]) :
    Safely (· = s₀) (functionBody view id d range) fun _ s => s.Calm ω ∧
      Ir.Fills s₀.ir.functions s.ir.functions fun i =>
        d.body.isSome = true ∧ ∃ ty, ω.symbols.lookup id = some (.function i ty) := by
  unfold functionBody
  cases hd : d.body with
  | none =>
    refine .pure fun s hs => ?_
    subst hs
    exact ⟨hs₀, .refl _⟩
  | some body =>
    refine (safely_symbolOf id d.name.range).bind fun y => .of_and fun hlookup => ?_
    rw [show s₀.symbols = ω.symbols from congrArg Outer.symbols hs₀.outer] at hlookup
    obtain ⟨i, ty, rfl⟩ := hid y hlookup
    obtain ⟨result, params, variadic, rfl⟩ := hω _ _ _ hlookup
    obtain ⟨p, hp, hblocks⟩ := hblank i _ hlookup (by rw [hd]; rfl)
    refine (safely_prototype hp).bind fun q => .of_and fun hq => ?_
    subst hq
    have hbody := safely_body (a := do bindParams d.args q.params; lowerSentences view body)
      hω result none range hs₀ hp hblocks
      (fun _ h => by cases h) (fun w x _ hparams =>
        (goes_bindParams d.args q.params fun r hr =>
          x.mem_here_of_params (hparams ▸ hr)).seq fun _ x' _ => goes_lowerSentences view body x')
      (.after (fun _ => draws_bindParams d.args q.params) fun _ => passes_lowerSentences view body)
    simp only [bind_assoc] at hbody
    refine hbody.mono (fun _ h => h) fun _ s hs => ⟨hs.1, hs.2.mono fun j hj => ?_⟩
    exact hj ▸ ⟨rfl, _, hlookup⟩

theorem splitParams_calm {m : MemberFunction} {params : List Register}
    (h : m.kind.hasSelf = true → params ≠ []) :
    ∃ self args, splitParams m params = pure (self, args) ∧
      (∀ inst, self = some inst → ∀ r ∈ inst.address.regs, r ∈ params) ∧ args ⊆ params := by
  unfold splitParams
  by_cases hself : m.kind.hasSelf = true
  · rw [if_pos hself]
    obtain ⟨r, rest, rfl⟩ := List.exists_cons_of_ne_nil (h hself)
    refine ⟨_, _, rfl, fun inst hinst r' hr' => ?_, List.subset_cons_self _ _⟩
    cases hinst
    exact List.mem_singleton.mp hr' ▸ List.mem_cons_self
  · rw [if_neg hself]
    exact ⟨none, params, rfl, nofun, List.Subset.refl _⟩

theorem safely_memberBody (hω : ω.Typed) (hs₀ : s₀.Calm ω) (module : ModId) {m : MemberFunction}
    (d : MemberDecl) {p : Ir.Function} (hp : s₀.ir.functions[m.function]? = some p)
    (hblocks : p.blocks = #[]) (hself : m.kind.hasSelf = true → p.params ≠ []) :
    Safely (· = s₀) (memberBody module m d) fun _ s => s.Calm ω ∧
      Ir.Fills s₀.ir.functions s.ir.functions (· = m.function) := by
  refine (safely_prototype hp).bind fun q => .of_and fun hq => ?_
  subst hq
  obtain ⟨self, args, hsplit, hinst, hargs⟩ := splitParams_calm hself
  rw [hsplit, pure_bind]
  have hbody := safely_body (a := do
      bindMemberArgs m.parent self m.args args
      lowerSentences { module, memberOf := some m.parent } d.body)
    hω m.result self d.range hs₀ hp hblocks hinst
    (fun w x _ hparams => (goes_bindMemberArgs m.parent self m.args args
      (fun inst h r hr => x.mem_here_of_params (hparams ▸ hinst inst h r hr))
      fun r hr => x.mem_here_of_params (hparams ▸ hargs hr)).seq
        fun _ x' _ => goes_lowerSentences _ d.body x')
    (.after (fun _ => draws_bindMemberArgs m.parent self m.args args)
      fun _ => passes_lowerSentences _ d.body)
  simp only [bind_assoc] at hbody
  exact hbody

/-- The bodies of members, one after another. -/
theorem safely_memberBodies (hω : ω.Typed) (module : ModId) :
    ∀ (ms : List MemberFunction) (ds : List MemberDecl) {s₀ : Compiler}, s₀.Calm ω →
      Ir.Awaits s₀.ir.functions ms →
      Safely (· = s₀) (memberBodies module ms ds) fun _ s => s.Calm ω ∧
        Ir.Fills s₀.ir.functions s.ir.functions fun i => ∃ m ∈ ms, m.function = i
  | [], _, _, hs₀, _ | _ :: _, [], _, hs₀, _ => by
    unfold memberBodies
    refine .pure fun s hs => ?_
    subst hs
    exact ⟨hs₀, .refl _⟩
  | m :: ms, d :: ds, s₀, hs₀, hms => by
    obtain ⟨p, hp, hblocks⟩ := hms.blank m List.mem_cons_self
    unfold memberBodies
    refine (safely_memberBody hω hs₀ module d hp hblocks fun h =>
      hms.self m List.mem_cons_self h p hp).bind fun _ => .of_forall fun s₁ hfilled => ?_
    obtain ⟨hs₁, hfills⟩ := hfilled
    refine (safely_memberBodies hω module ms ds hs₁ (hms.tail hfills)).mono (fun _ h => h)
      fun _ s hs => ⟨hs.1, (hfills.trans hs.2).mono fun i hi => ?_⟩
    rcases hi with rfl | ⟨x, hx, rfl⟩
    · exact ⟨m, List.mem_cons_self, rfl⟩
    · exact ⟨x, List.mem_cons_of_mem m hx, rfl⟩

end Emit

end Staged

namespace Staged

/-! ## Which bodies are refused for a missing result -/

open Ir

namespace Ir.Function

variable {f : Function} {i : BlockId} {past : List BlockId}

def Entered (f : Function) (i : BlockId) : Prop := i = f.entry ∨ ∃ b ∈ f.blocks, i ∈ b.successors

def Open (f : Function) (i : BlockId) : Prop := ∃ b, f.block? i = some b ∧ b.isClosed = false

theorem Path.entered (h : f.Path past i) : f.Entered i := by
  cases h with
  | entry => exact .inl rfl
  | edge _ hb hnext => exact .inr ⟨_, Array.mem_of_getElem? hb, hnext⟩

end Ir.Function

namespace Emit

variable {f : Function} {result : Ty} {past : List BlockId} {i : BlockId}

/-- A block of a function with a result may be left open only if nothing enters it. -/
theorem isSome_endOf (hresult : result ≠ .void) :
    (endOf f result i).isSome = true ↔ ¬f.Entered i := by
  have hall : f.blocks.all (!·.successors.contains i) = true ↔
      ¬∃ b ∈ f.blocks, i ∈ b.successors := by
    rw [Array.all_eq_true_iff_forall_mem]
    simp
  have hkept : i ≠ f.entry ∧ f.blocks.all (!·.successors.contains i) = true ↔ ¬f.Entered i := by
    rw [hall]
    exact not_or.symm
  unfold endOf
  rw [if_neg hresult, ← hkept]
  split
  · exact iff_of_true rfl ‹_›
  · exact iff_of_false Bool.false_ne_true ‹_›

/-- A function with a result is ended if nothing enters its open blocks. -/
theorem isSome_closeAll? (hresult : result ≠ .void) :
    (closeAll? f result).isSome = true ↔ ∀ i, f.Open i → ¬f.Entered i := by
  let step (p : Block × BlockId) : Option Block :=
    if p.1.isClosed then some p.1 else (endOf f result p.2).map p.1.close
  have hrun : (closeAll? f result).isSome = (f.blocks.toList.zipIdx.mapM step).isSome := by
    show ((f.blocks.toList.zipIdx.mapM step).bind _).isSome = _
    cases f.blocks.toList.zipIdx.mapM step <;> rfl
  have hstep (b : Block) (i : BlockId) : (step (b, i)).isSome = true ↔
      (b.isClosed = false → ¬f.Entered i) := by
    rw [← isSome_endOf hresult]
    cases hclosed : b.isClosed <;> simp [step, hclosed]
  rw [hrun, isSome_mapM]
  constructor
  · rintro h i ⟨b, hb, hopen⟩
    have hmem : (b, i) ∈ f.blocks.toList.zipIdx :=
      List.mk_mem_zipIdx_iff_getElem?.mpr (Array.getElem?_toList.trans hb)
    exact (hstep b i).mp (h _ hmem) hopen
  · rintro h ⟨b, i⟩ hmem
    have hb : f.block? i = some b :=
      Array.getElem?_toList.symm.trans (List.mk_mem_zipIdx_iff_getElem?.mp hmem)
    exact (hstep b i).mpr fun hopen => h i ⟨b, hb, hopen⟩

theorem closeAll?_eq_none (hresult : result ≠ .void) :
    closeAll? f result = none ↔ ∃ i, f.Open i ∧ f.Entered i := by
  rw [← Option.not_isSome_iff_eq_none, isSome_closeAll? hresult]
  simp only [not_forall, not_not, exists_prop]

/-! ## The end of a body -/

variable {state : FunctionState} {o : Options} {s : Compiler}

/-- At the end of a body its result is missing if one of its open blocks is entered, and in no
other case. -/
theorem finishFunction_missingGive (range : Span) (hs : s.func = some state)
    (hresult : state.result ≠ .void) :
    (∃ s', finishFunction range o s =
      .error (.fault (.missingGive state.function.name state.result) range) s') ↔
      ∃ i, state.function.Open i ∧ state.function.Entered i := by
  rw [← closeAll?_eq_none hresult, finishFunction_apply range hs]
  cases closeAll? state.function state.result with
  | none => exact iff_of_true ⟨_, rfl⟩ rfl
  | some done =>
    refine iff_of_false ?_ nofun
    rintro ⟨s', h⟩
    dsimp only at h
    split at h <;> cases h

/-- A body that can run to an open block is refused. -/
theorem finishFunction_of_path (range : Span) (hs : s.func = some state)
    (hresult : state.result ≠ .void) (hpath : state.function.Path past i)
    (hopen : state.function.Open i) :
    ∃ s', finishFunction range o s =
      .error (.fault (.missingGive state.function.name state.result) range) s' :=
  (finishFunction_missingGive range hs hresult).mpr ⟨i, hopen, hpath.entered⟩

/-- If no dead block jumps, a body is refused exactly if it can run to an open block. -/
theorem finishFunction_exact (range : Span) (hs : s.func = some state)
    (hresult : state.result ≠ .void)
    (hlive : ∀ i b, state.function.block? i = some b → b.successors ≠ [] →
      ∃ past, state.function.Path past i) :
    (∃ s', finishFunction range o s =
      .error (.fault (.missingGive state.function.name state.result) range) s') ↔
      ∃ past i, state.function.Path past i ∧ state.function.Open i := by
  refine ⟨fun h => ?_, fun ⟨past, i, hpath, hopen⟩ =>
    finishFunction_of_path range hs hresult hpath hopen⟩
  obtain ⟨i, hopen, rfl | ⟨b, hb, hnext⟩⟩ := (finishFunction_missingGive range hs hresult).mp h
  · exact ⟨[], _, .entry, hopen⟩
  · obtain ⟨j, hj⟩ := Array.mem_iff_getElem?.mp hb
    obtain ⟨past, hpath⟩ := hlive j b hj (List.ne_nil_of_mem hnext)
    exact ⟨j :: past, i, hpath.edge hj hnext, hopen⟩

/-- A jump from a dead block enters a block that no path leads to. -/
example : let f : Function := { name := "f", params := [], result := .i32, nextRegister := 0,
                                blocks := #[{ term := some .unreachable },
                                            { term := some (.jump 2) }, {}] }
    f.Open 2 ∧ f.Entered 2 ∧ ∀ past, ¬f.Path past 2 := by
  intro f
  have hentry : ∀ past i, f.Path past i → i = 0 := by
    intro past i h
    induction h with
    | entry => rfl
    | edge _ hb hnext ih =>
      subst ih
      cases hb
      cases hnext
  have hjump : f.block? 1 = some { term := some (.jump 2) } := rfl
  refine ⟨⟨_, rfl, rfl⟩, .inr ⟨_, Array.mem_of_getElem? hjump, List.mem_singleton_self _⟩, ?_⟩
  intro past h
  cases hentry past 2 h

end Emit

end Staged
