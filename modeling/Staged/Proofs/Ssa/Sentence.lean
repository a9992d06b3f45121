/-
  Staged.Proofs.Ssa.Sentence — the registers of bodies.

  A sentence may add locals to the innermost scope, so it comes to a point that follows its
  own, with the outer scopes as they were (`Point.Follows`). A scope of its own takes this
  back. The blocks of a loop start with what is at hand where the loop is made, which stays
  at hand in its body; so every jump out of the body brings enough with it. By induction on
  the syntax this holds of every body.
-/

import Staged.Proofs.Code.Sentence
import Staged.Proofs.Ssa.Expr

namespace Staged

open Ir (Register BlockId)

structure Point.Follows (x x' : Point) : Prop extends x.Grows x' where
  outer : x'.state.scopes.tail = x.state.scopes.tail
  loops : x'.state.loops = x.state.loops
  self : x'.state.self = x.state.self
  here : x.here ⊆ x'.here
  old : ∀ r ∈ x'.state.function.assigned, r.id < x.state.function.nextRegister →
    r ∈ x.state.function.assigned

theorem Point.Leads.follows {x x' : Point} (h : x.Leads x') : x.Follows x' :=
  ⟨h.toGrows, congrArg List.tail h.scopes, h.loops, h.self, h.here, h.old⟩

theorem Point.Follows.trans {x x' x'' : Point} (h : x.Follows x') (h' : x'.Follows x'') :
    x.Follows x'' where
  toGrows := h.toGrows.trans h'.toGrows
  outer := h'.outer.trans h.outer
  loops := h'.loops.trans h.loops
  self := h'.self.trans h.self
  here := h.here.trans h'.here
  old r hr hid := h.old r (h'.old r hr (hid.trans_le h.function.next)) hid

namespace Backdrop

def Goes (w : Backdrop) (x : Point) (a : Emit Unit) : Prop :=
  ∀ o s, w.Stands x s → match a o s with
    | .ok _ s' => ∃ x', x.Follows x' ∧ w.Stands x' s'
    | .error f _ => f.isFault = true

variable {w : Backdrop} {α β : Type} {x x₀ y : Point} {a : Emit α} {k : α → Emit β}
  {Q : α → Point → Prop} {R : β → Point → Prop}

theorem Lands.goes {a : Emit Unit} {Q : Unit → Point → Prop} (h : w.Lands x a Q) : w.Goes x a := by
  intro o s hs
  have h := h o s hs
  cases hr : a o s with
  | error f s' =>
    rw [hr] at h
    exact h
  | ok v s' =>
    rw [hr] at h
    obtain ⟨x', hx', -, hs', -⟩ := h
    exact ⟨x', hx'.follows, hs'⟩

/-- A sentence goes on after a step. -/
theorem Lands.andGoes {k : α → Emit Unit} (ha : w.Lands x a Q)
    (hk : ∀ v x', x.Leads x' → Q v x' → w.Goes x' (k v)) : w.Goes x (a >>= k) := by
  intro o s hs
  have h := ha o s hs
  rw [Emit.bind_apply]
  cases hr : a o s with
  | error f s' =>
    rw [hr] at h
    exact h
  | ok v s' =>
    rw [hr] at h
    obtain ⟨x', hx', -, hs', hq⟩ := h
    have h' := hk v x' hx' hq o s' hs'
    show match k v o s' with
      | .ok _ s' => _
      | .error f _ => _
    cases hr' : k v o s' with
    | error f s'' =>
      rw [hr'] at h'
      exact h'
    | ok _ s'' =>
      rw [hr'] at h'
      obtain ⟨x'', hx'', hs''⟩ := h'
      exact ⟨x'', hx'.follows.trans hx'', hs''⟩

/-- One sentence after another. -/
theorem Goes.seq {a : Emit Unit} {k : Unit → Emit Unit} (ha : w.Goes x a)
    (hk : ∀ u x', x.Follows x' → w.Goes x' (k u)) : w.Goes x (a >>= k) := by
  intro o s hs
  have h := ha o s hs
  rw [Emit.bind_apply]
  cases hr : a o s with
  | error f s' =>
    rw [hr] at h
    exact h
  | ok u s' =>
    rw [hr] at h
    obtain ⟨x', hx', hs'⟩ := h
    have h' := hk u x' hx' o s' hs'
    show match k u o s' with
      | .ok _ s' => _
      | .error f _ => _
    cases hr' : k u o s' with
    | error f s'' =>
      rw [hr'] at h'
      exact h'
    | ok _ s'' =>
      rw [hr'] at h'
      obtain ⟨x'', hx'', hs''⟩ := h'
      exact ⟨x'', hx'.trans hx'', hs''⟩

/-- What is judged from one point goes on to be judged from an earlier one. -/
theorem Arrives.then (h : x₀.Leads y) (ha : w.Arrives y x a Q)
    (hk : ∀ v x', x₀.Leads x' → y.Leads x' → Q v x' → w.Arrives x₀ x' (k v) R) :
    w.Arrives x₀ x (a >>= k) R := by
  refine Arrives.bind (Q := fun v x' => y.Leads x' ∧ Q v x') ?_
    fun v x' hx' _ hq => hk v x' hx' hq.1 hq.2
  intro o s hs
  have h' := ha o s hs
  cases hr : a o s with
  | error f s' =>
    rw [hr] at h'
    exact h'
  | ok v s' =>
    rw [hr] at h'
    obtain ⟨x', hx', hg, hs', hq⟩ := h'
    exact ⟨x', h.trans hx', hg, hs', hx', hq⟩

end Backdrop

namespace Emit

variable {w : Backdrop} {x : Point} {v : Value} {expect : Expect}

/-! ## Scopes and loops -/

/-- The innermost scope gets another local. -/
theorem goes_declareLocal {l : LocalVar} (hl : l.At x) : w.Goes x (declareLocal l) := by
  intro o s hs
  unfold declareLocal
  rw [bind_apply, function_apply hs.code.func]
  cases hscopes : x.state.scopes with
  | nil => exact absurd hscopes x.scopes
  | cons scope outer =>
    have hlocals : ∀ scope' ∈ (l :: scope) :: outer, ∀ v ∈ scope', ∀ r ∈ v.address.regs,
        r ∈ x.here := by
      intro scope' hscope' v hv
      rcases List.mem_cons.mp hscope' with rfl | hscope'
      · rcases List.mem_cons.mp hv with rfl | hv
        · exact hl
        · exact x.locals scope (hscopes ▸ List.mem_cons_self) v hv
      · exact x.locals scope' (hscopes ▸ List.mem_cons_of_mem _ hscope') v hv
    simp only [hscopes]
    cases scope.find? (·.name.text == l.name.text) with
    | some existing => rfl
    | none => exact ⟨x.withScopes ((l :: scope) :: outer) (List.cons_ne_nil _ _) hlocals,
        ⟨⟨rfl, rfl, .refl _ _⟩, (congrArg List.tail hscopes).symm, rfl, rfl, subset_rfl,
          fun _ h _ => h⟩, stands_setFunction hs rfl⟩

/-- What is done before an action is taken back after it. -/
theorem lands_bracket {before inside after : Emit Unit} (x₁ : Point) {P : Point → Prop}
    (hbefore : ∀ o s, w.Stands x s → match before o s with
      | .ok _ s' => w.Stands x₁ s'
      | .error f _ => f.isFault = true)
    (hinside : ∀ o s, w.Stands x₁ s → match inside o s with
      | .ok _ s' => ∃ x₂, P x₂ ∧ w.Stands x₂ s'
      | .error f _ => f.isFault = true)
    (hafter : ∀ x₂, P x₂ → ∃ x₃, x.Leads x₃ ∧ ∀ o s, w.Stands x₂ s →
      after o s = .ok () { s with func := some x₃.state } ∧ x₃.state.id = x₂.state.id) :
    w.Lands x (do before; inside; after) fun _ _ => True := by
  intro o s hs
  have h := hbefore o s hs
  rw [bind_apply]
  cases hr : before o s with
  | error f s' =>
    rw [hr] at h
    exact h
  | ok u s₁ =>
    rw [hr] at h
    have h' := hinside o s₁ h
    dsimp only
    rw [bind_apply]
    cases hr' : inside o s₁ with
    | error f s' =>
      rw [hr'] at h'
      exact h'
    | ok u s₂ =>
      rw [hr'] at h'
      obtain ⟨x₂, hp, hs₂⟩ := h'
      obtain ⟨x₃, hx₃, hrun⟩ := hafter x₂ hp
      obtain ⟨hrun, hid⟩ := hrun o s₂ hs₂
      dsimp only
      rw [hrun]
      exact ⟨x₃, hx₃, hx₃.toGrows, stands_setFunction hs₂ hid, trivial⟩

/-- A scope of its own leaves the locals as they were. -/
theorem lands_inScope {body : Emit Unit} (hb : ∀ x', x'.here = x.here → w.Goes x' body) :
    w.Lands x (inScope body) fun _ _ => True := by
  let x₁ := x.withScopes ([] :: x.state.scopes) (List.cons_ne_nil _ _) fun scope hscope v hv => by
    rcases List.mem_cons.mp hscope with rfl | hscope
    · cases hv
    · exact x.locals scope hscope v hv
  refine lands_bracket x₁ (fun o s hs => ?_) (hb x₁ rfl) fun x₂ hx₂ => ?_
  · unfold pushScope
    rw [bind_apply, function_apply hs.code.func]
    exact stands_setFunction hs rfl
  · have htail : x₂.state.scopes.tail = x.state.scopes := hx₂.outer
    obtain ⟨inner, hscopes⟩ : ∃ inner, x₂.state.scopes = inner :: x.state.scopes := by
      cases hx₂s : x₂.state.scopes with
      | nil => exact absurd hx₂s x₂.scopes
      | cons inner outer => exact ⟨inner, by rw [← htail, hx₂s]; rfl⟩
    have hdrop : (if x₂.state.scopes.length > 1 then x₂.state.scopes.drop 1
        else x₂.state.scopes) = x.state.scopes := by
      have hlong : (inner :: x.state.scopes).length > 1 :=
        Nat.succ_lt_succ (List.length_pos_iff.mpr x.scopes)
      rw [hscopes, if_pos hlong]
      rfl
    refine ⟨x₂.withScopes x.state.scopes x.scopes fun scope hscope v hv =>
        x₂.locals scope (hscopes ▸ List.mem_cons_of_mem _ hscope) v hv,
      ⟨⟨hx₂.id, hx₂.result, hx₂.function⟩, rfl, hx₂.loops, hx₂.self, hx₂.here, hx₂.old⟩,
      fun o s hs => ⟨?_, rfl⟩⟩
    unfold popScope
    rw [bind_apply, function_apply hs.code.func]
    dsimp only
    rw [hdrop]
    rfl

theorem goes_declareLocals :
    ∀ (ls : List LocalVar) {x : Point}, (∀ l ∈ ls, l.At x) → w.Goes x (declareLocals ls)
  | [], _, _ => by
    unfold declareLocals
    exact (Backdrop.Lands.pure (Q := fun _ _ => True) trivial).goes
  | l :: ls, _, hl => by
    obtain ⟨hl, hls⟩ := List.forall_mem_cons.mp hl
    unfold declareLocals
    refine (goes_declareLocal hl).seq fun _ x' hx' => goes_declareLocals ls fun l hl r hr => ?_
    exact hx'.here (hls l hl r hr)

/-- Entering a loop fails only on a tag that is taken. -/
theorem enterLoop_stands (breakTo continueTo : BlockId) (tag : Option Ident) {o : Options}
    {s : Compiler} (hs : w.Stands x s) :
    (∃ f range, enterLoop tag breakTo continueTo o s = .error (.fault f range) s) ∨
      enterLoop tag breakTo continueTo o s = .ok () { s with func := some { x.state with
        loops := ⟨breakTo, continueTo, tag⟩ :: x.state.loops } } := by
  unfold enterLoop
  rw [bind_apply, function_apply hs.code.func]
  cases tag with
  | none => exact .inr rfl
  | some t =>
    dsimp only
    cases (x.state.loopTagged? t.text).bind LoopTargets.tag with
    | some existing => exact .inl ⟨_, _, rfl⟩
    | none => exact .inr rfl

/-- The body of a loop whose blocks can be jumped to from where it starts. -/
theorem lands_loopBody (tag : Option Ident) {breakTo continueTo : BlockId}
    {locals : List LocalVar} {body : Emit Unit} (hbreak : x.state.Reaches x.start breakTo)
    (hcontinue : x.state.Reaches x.start continueTo) (hl : ∀ l ∈ locals, l.At x)
    (hb : ∀ x, w.Goes x body) :
    w.Lands x (loopBody tag breakTo continueTo locals body) fun _ _ => True := by
  let x₁ := x.withLoops (⟨breakTo, continueTo, tag⟩ :: x.state.loops) fun l hl => by
    rcases List.mem_cons.mp hl with rfl | hl
    · exact ⟨hbreak, hcontinue⟩
    · exact x.loops l hl
  have hinside : w.Lands x₁ (inScope do
      declareLocals locals
      body) fun _ _ => True :=
    lands_inScope fun x' hx' => (goes_declareLocals locals fun l hmem r hr =>
      hx' ▸ hl l hmem r hr).seq fun _ x'' _ => hb x''
  refine lands_bracket x₁ (P := x₁.Leads) (fun o s hs => ?_) (fun o s hs => ?_)
    fun x₂ hx₂ => ?_
  · rcases enterLoop_stands breakTo continueTo tag hs (o := o) with
      ⟨f, range, henter⟩ | henter
    · rw [henter]
      rfl
    · rw [henter]
      exact stands_setFunction hs rfl
  · have h := hinside o s hs
    cases hr : inScope (do
        declareLocals locals
        body) o s with
    | error f s' =>
      rw [hr] at h
      exact h
    | ok u s' =>
      rw [hr] at h
      obtain ⟨x₂, hx₂, -, hs₂, -⟩ := h
      exact ⟨x₂, hx₂, hs₂⟩
  · have hloops : x₂.state.loops = ⟨breakTo, continueTo, tag⟩ :: x.state.loops := hx₂.loops
    refine ⟨x₂.withLoops x.state.loops fun l hl => x₂.loops l (hloops ▸ List.mem_cons_of_mem _ hl),
      ⟨⟨hx₂.id, hx₂.result, hx₂.function⟩, hx₂.scopes, rfl, hx₂.self, hx₂.here, hx₂.old⟩,
      fun o s hs => ⟨?_, rfl⟩⟩
    have hdrop : x₂.state.loops.drop 1 = x.state.loops := by
      rw [hloops]
      rfl
    unfold exitLoop
    rw [bind_apply, function_apply hs.code.func]
    dsimp only
    rw [hdrop]
    rfl

/-! ## Assignments -/

theorem lands_assignedPlace {lhs : Operand} (hl : lhs.Lands w) :
    w.Lands x (assignedPlace lhs) fun v x' => v.At x' := by
  refine (hl x _ Expect.at_nothing).bind fun v x₁ _ hv => ?_
  refine (lands_placeOf hv).bind fun p x₂ _ hp => ?_
  refine (lands_require _ _ hp).bind fun p x₃ _ hp => ?_
  exact lands_unless fun _ => .pure (.refl x₃) hp

theorem lands_lowerAssign {lhs rhs : Operand} (range : Span) (hl : lhs.Lands w)
    (hr : rhs.Lands w) : w.Lands x (lowerAssign lhs rhs range) fun _ _ => True := by
  refine (lands_assignedPlace hl).bind fun p x₁ _ hp => ?_
  refine (hr x₁ _ Expect.at_of).bind fun v x₂ hx₂ hv => lands_guard fun _ => ?_
  refine lands_types.bind fun t x₃ hx₃ _ => ?_
  have hp := hp.mono (hx₂.trans hx₃)
  split
  · refine (lands_place (hv.mono hx₃)).bind fun source x₄ hx₄ hsource => ?_
    refine (lands_callMemberOn range (hp.mono hx₄) fun a ha =>
      List.mem_singleton.mp ha ▸ hsource).bind fun _ _ _ _ => .pure trivial
  · refine (lands_passValue _ _ (hv.mono hx₃)).bind fun ir x₄ hx₄ hir => ?_
    exact lands_store hir (hp.mono hx₄)

theorem lands_assignByMember (op : BinaryOp) {p : Value} (members : List MemberFunction)
    {rhs : Operand} (range : Span) (hp : p.At x) (hr : rhs.Lands w) :
    w.Lands x (assignByMember op p members rhs range) fun _ _ => True := by
  refine (hr x _ Expect.at_maybe).bind fun v x₁ hx₁ hv => ?_
  refine (lands_required _ _ _).bind fun m x₂ hx₂ _ => ?_
  refine (lands_passValues _ [v] m.argTypes fun u hu =>
    List.mem_singleton.mp hu ▸ hv.mono hx₂).bind fun args x₃ hx₃ hargs => ?_
  exact (lands_callMemberOn range (hp.mono ((hx₁.trans hx₂).trans hx₃)) hargs).bind
    fun _ _ _ _ => .pure trivial

theorem lands_lowerOpAssign (op : BinaryOp) {lhs rhs : Operand} (range : Span)
    (hl : lhs.Lands w) (hr : rhs.Lands w) :
    w.Lands x (lowerOpAssign op lhs rhs range) fun _ _ => True := by
  refine (lands_assignedPlace hl).bind fun p x₁ _ hp => lands_types.bind fun t x₂ hx₂ _ => ?_
  dsimp only
  split
  · exact lands_assignByMember op _ range (hp.mono hx₂) hr
  · refine lands_types.bind fun t x₃ hx₃ _ => lands_guard fun _ => ?_
    have hp := hp.mono (hx₂.trans hx₃)
    refine (lands_rvalue hp).bind fun current x₄ hx₄ hcurrent => ?_
    refine (lands_operandRvalue hr Expect.at_of).bind fun right x₅ hx₅ hright => ?_
    refine (lands_foldOrCompute op range (hcurrent.mono hx₅) hright).bind
      fun result x₆ hx₆ hresult => ?_
    exact lands_guard fun _ => lands_store hresult (hp.mono ((hx₄.trans hx₅).trans hx₆))

/-! ## Locals -/

theorem lands_checkLocalType (name : Ident) (ty : Ty) (range : Span) :
    w.Lands x (checkLocalType name ty range) fun _ _ => True :=
  lands_guard fun _ => lands_requireSized ty range

theorem lands_storeInitial {slot : Register} (ty : Ty) (range : Span) (hslot : slot ∈ x.here)
    (hv : v.At x) : w.Lands x (storeInitial slot v ty range) fun _ _ => True := by
  unfold storeInitial
  split
  · exact .pure trivial
  · refine (lands_passValue ty range hv).bind fun ir x₁ hx₁ hir => ?_
    exact lands_store hir (Ir.Value.at_reg (hx₁.here hslot))

/-- The memory that a local with a declared type is built in. -/
theorem at_ownSlot {slot : Register} (ty : Ty) (range : Span) (h : slot ∈ x.here) :
    (Expect.inSlot (.stored slot ty true .tempSlot range)).At x :=
  Expect.at_inSlot.mpr (Value.at_stored.mpr (Ir.Value.at_reg h))

theorem lands_typedLocal (name : Ident) (ty : Ty) {value : Operand} (isVar : Bool) (range : Span)
    (hv : value.Lands w) :
    w.Lands x (typedLocal name ty value isVar range) fun l x' => l.At x' := by
  refine (lands_requireSized ty range).bind fun _ x₁ _ _ => ?_
  refine (lands_alloca _ _).bind fun slot x₂ _ hslot => ?_
  refine (hv x₂ _ (at_ownSlot ty range hslot)).bind fun v x₃ hx₃ hv => ?_
  refine lands_guard fun _ => (lands_checkLocalType name ty range).bind fun _ x₄ hx₄ _ => ?_
  have hslot := hx₄.here (hx₃.here hslot)
  refine (lands_storeInitial ty _ hslot (hv.mono hx₄)).bind fun _ x₅ hx₅ _ => ?_
  exact .pure (Ir.Value.at_reg (hx₅.here hslot))

theorem lands_inferredLocal (name : Ident) {value : Operand} (isVar : Bool) (range : Span)
    (hv : value.Lands w) :
    w.Lands x (inferredLocal name value isVar range) fun l x' => l.At x' := by
  refine (hv x _ Expect.at_nothing).bind fun v x₁ _ hv => ?_
  refine (lands_checkLocalType name _ range).bind fun _ x₂ hx₂ _ => ?_
  have hv := hv.mono hx₂
  dsimp only
  split
  · exact .pure hv
  · refine (lands_alloca _ _).bind fun slot x₃ hx₃ hslot => ?_
    refine (lands_passValue _ _ (hv.mono hx₃)).bind fun ir x₄ hx₄ hir => ?_
    have hslot := Ir.Value.at_reg (hx₄.here hslot)
    exact (lands_store hir hslot).bind fun _ x₅ hx₅ _ => .pure (hslot.mono hx₅)

theorem lands_warnEmpty (name : Ident) (ty : Ty) :
    w.Lands x (warnEmpty name ty) fun _ _ => True :=
  lands_types.bind fun _ _ _ _ => lands_warn _

theorem lands_defaultLocal (view : Viewpoint) (name : Ident) (ty : Ty) (isVar : Bool)
    (range : Span) : w.Lands x (defaultLocal view name ty isVar range) fun l x' => l.At x' := by
  have hrest (x : Point) : w.Lands x (do
      let slot ← alloca ty (some name.text)
      let v ← lowerDefault view ty (.inSlot (.stored slot ty true .tempSlot range)) range
      unless v.ir.isReg slot do store (← passValue v ty range) slot
      return heldLocal name slot ty isVar v.known) fun l x' => l.At x' := by
    refine (lands_alloca _ _).bind fun slot x₁ _ hslot => ?_
    refine (lands_lowerDefault view ty range (at_ownSlot ty range hslot)).bind
      fun v x₂ hx₂ hv => ?_
    have hslot := Ir.Value.at_reg (hx₂.here hslot)
    dsimp only
    split
    · exact .pure hslot
    · refine (lands_passValue ty range hv).bind fun ir x₃ hx₃ hir => ?_
      have hslot := hslot.mono hx₃
      exact (lands_store hir hslot).bind fun _ x₄ hx₄ _ => .pure (hslot.mono hx₄)
  refine (lands_checkLocalType name ty range).bind fun _ x₁ _ _ => ?_
  dsimp only
  split
  · exact (lands_warnEmpty name ty).bind fun _ x₂ _ _ => hrest x₂
  · exact hrest x₁

theorem lands_referenceLocal (name : Ident) (declared : Option Ty) {value : Option Operand}
    (isVar : Bool) (range : Span) (hv : ∀ o, value = some o → o.Lands w) :
    w.Lands x (referenceLocal name declared value isVar range) fun l x' => l.At x' := by
  cases value with
  | none => exact lands_refuse _ _
  | some o =>
    have hrest (v : Value) (x : Point) (hv : v.At x) : w.Lands x (do
        let ty ← intern (.ref v.type.value isVar)
        return ({ name, address := ← passValue v ty o.range, type := ty, isVar, isRef := true } :
          LocalVar)) fun l x' => l.At x' :=
      (lands_intern _).bind fun ty x₁ hx₁ _ => (lands_passValue ty _ (hv.mono hx₁)).bind
        fun ir x₂ _ hir => .pure hir
    unfold referenceLocal
    rw [require, pure_bind]
    refine (hv o rfl x _ Expect.at_maybe).bind fun v x₁ _ hv => ?_
    cases declared with
    | none => exact hrest v x₁ hv
    | some ty => exact lands_guard fun _ => hrest v x₁ hv

theorem goes_lowerLocal (view : Viewpoint) (name : Ident) (type : Option TypeExpr)
    {value : Option Operand} (isVar isRef : Bool) (range : Span)
    (hv : ∀ o, value = some o → o.Lands w) :
    w.Goes x (lowerLocal view name type value isVar isRef range) := by
  refine (lands_resolveTypeOption view type).andGoes fun declared x₁ _ _ => ?_
  split
  · exact (lands_referenceLocal name declared isVar range hv).andGoes fun l _ _ hl =>
      goes_declareLocal hl
  · cases declared with
    | none =>
      cases value with
      | none => exact fun _ _ _ => rfl
      | some o =>
        exact (lands_inferredLocal name isVar range (hv o rfl)).andGoes fun l _ _ hl =>
          goes_declareLocal hl
    | some ty =>
      dsimp only
      split
      · exact fun _ _ _ => rfl
      · cases value with
        | none =>
          exact (lands_defaultLocal view name ty isVar range).andGoes fun l _ _ hl =>
            goes_declareLocal hl
        | some o =>
          exact (lands_typedLocal name ty isVar range (hv o rfl)).andGoes fun l _ _ hl =>
            goes_declareLocal hl

/-! ## Loops -/

theorem lands_lowerWhile {condition : Operand} {body : Emit Unit} (tag : Option Ident)
    (hc : condition.Lands w) (hb : ∀ x, w.Goes x body) :
    w.Lands x (lowerWhile condition body tag) fun _ _ => True := by
  refine (lands_newBlock _).bind fun condBlock x₁ _ ⟨hcond, _⟩ => ?_
  refine (lands_newBlock _).bind fun bodyBlock x₂ hx₂ ⟨hbody, h₂⟩ => ?_
  refine (lands_newBlock _).bind fun endBlock y hy ⟨hend, h₃⟩ => ?_
  have hcond := (hcond.carry hx₂ h₂).carry hy h₃
  have hbody := hbody.carry hy h₃
  have hy₀ := Point.Leads.refl y
  refine (lands_jump (hy₀.reaches hcond)).then hy₀ fun _ x hx _ _ => ?_
  refine (arrives_enter hx hcond).bind fun _ x hx _ _ => ?_
  refine (lands_condition hc).then hx fun cond x hx _ hvalue => ?_
  refine (lands_branch hvalue (hx.reaches hbody) (hx.reaches hend)).then hx fun _ x hx _ _ => ?_
  refine (arrives_enter hx hbody).bind fun _ x hx _ _ => ?_
  refine (lands_loopBody tag (hx.reaches hend) (hx.reaches hcond)
    (fun _ h => by cases h) hb).then hx fun _ x hx _ _ => ?_
  refine (lands_jump (hx.reaches hcond)).then hx fun _ x hx _ _ => ?_
  exact arrives_enter hx hend

theorem lands_lowerLoop {body : Emit Unit} (tag : Option Ident) (hb : ∀ x, w.Goes x body) :
    w.Lands x (lowerLoop body tag) fun _ _ => True := by
  refine (lands_newBlock _).bind fun bodyBlock x₁ _ ⟨hbody, _⟩ => ?_
  refine (lands_newBlock _).bind fun endBlock y hy ⟨hend, h₂⟩ => ?_
  have hbody := hbody.carry hy h₂
  have hy₀ := Point.Leads.refl y
  refine (lands_jump (hy₀.reaches hbody)).then hy₀ fun _ x hx _ _ => ?_
  refine (arrives_enter hx hbody).bind fun _ x hx _ _ => ?_
  refine (lands_loopBody tag (hx.reaches hend) (hx.reaches hbody)
    (fun _ h => by cases h) hb).then hx fun _ x hx _ _ => ?_
  refine (lands_jump (hx.reaches hbody)).then hx fun _ x hx _ _ => ?_
  exact arrives_enter hx hend

/-- The counter is in memory of its own, so each part of the loop loads it again. -/
theorem lands_countedLoop (type : Ty) (index : Option Ident) {body : Emit Unit}
    (tag : Option Ident) {holds : Ir.Value → Emit Register}
    {locals : Ir.Value → Emit (List LocalVar)} (hb : ∀ x, w.Goes x body)
    (hh : ∀ (r : Register) (x' : Point), x.Leads x' → r ∈ x'.here →
      w.Lands x' (holds r) fun r x' => r ∈ x'.here)
    (hl : ∀ (r : Register) (x' : Point), x.Leads x' → r ∈ x'.here →
      w.Lands x' (locals r) fun ls x' => ∀ l ∈ ls, l.At x') :
    w.Lands x (countedLoop type index body tag holds locals) fun _ _ => True := by
  refine (lands_alloca _ _).bind fun slot x₁ hx₁ hslot => ?_
  refine (lands_store (Ir.Value.at_const _) (Ir.Value.at_reg hslot)).bind fun _ x₂ hx₂ _ => ?_
  refine (lands_newBlock _).bind fun condBlock x₃ hx₃ ⟨hcond, _⟩ => ?_
  refine (lands_newBlock _).bind fun bodyBlock x₄ hx₄ ⟨hbody, h₄⟩ => ?_
  refine (lands_newBlock _).bind fun incrBlock x₅ hx₅ ⟨hincr, h₅⟩ => ?_
  refine (lands_newBlock _).bind fun restBlock y hy ⟨hrest, h₆⟩ => ?_
  have hincr := hincr.carry hy h₆
  have hbody := (hbody.carry hx₅ h₅).carry hy h₆
  have hcond := ((hcond.carry hx₄ h₄).carry hx₅ h₅).carry hy h₆
  have hx₁' := (((hx₂.trans hx₃).trans hx₄).trans hx₅).trans hy
  have hxy := hx₁.trans hx₁'
  have hslotAt {x : Point} (hx : y.Leads x) := Ir.Value.at_reg (hx.here (hx₁'.here hslot))
  have hy₀ := Point.Leads.refl y
  refine (lands_jump (hy₀.reaches hcond)).then hy₀ fun _ x hx _ _ => ?_
  refine (arrives_enter hx hcond).bind fun _ x hx _ _ => ?_
  refine (lands_load _ (hslotAt hx)).then hx fun counter x hx _ hcounter => ?_
  refine (hh counter x (hxy.trans hx) hcounter).then hx fun cond x hx _ hvalue => ?_
  refine (lands_branch (Ir.Value.at_reg hvalue) (hx.reaches hbody) (hx.reaches hrest)).then hx
    fun _ x hx _ _ => ?_
  refine (arrives_enter hx hbody).bind fun _ x hx _ _ => ?_
  refine (lands_load _ (hslotAt hx)).then hx fun counter x hx _ hcounter => ?_
  refine (hl counter x (hxy.trans hx) hcounter).then hx fun locals x hx _ hlocals => ?_
  refine (lands_loopBody tag (hx.reaches hrest) (hx.reaches hincr) (fun l hmem => ?_) hb).then hx
    fun _ x hx _ _ => ?_
  · rcases List.mem_append.mp hmem with hmem | hmem
    · exact hlocals l hmem
    · obtain ⟨name, -, rfl⟩ := List.mem_map.mp hmem
      exact hslotAt hx
  · refine (lands_jump (hx.reaches hincr)).then hx fun _ x hx _ _ => ?_
    refine (arrives_enter hx hincr).bind fun _ x hx _ _ => ?_
    refine (lands_load _ (hslotAt hx)).then hx fun counter x hx _ hcounter => ?_
    refine (lands_compute _ (fun _ _ hx => Ir.Instr.at_arith _ (Ir.Value.at_reg (hx.here hcounter))
      (Ir.Value.at_const _)) fun _ => rfl).then hx fun next x hx _ hnext => ?_
    refine (lands_store (Ir.Value.at_reg hnext) (hslotAt hx)).then hx fun _ x hx _ _ => ?_
    refine (lands_jump (hx.reaches hcond)).then hx fun _ x hx _ _ => ?_
    exact arrives_enter hx hrest

theorem lands_lowerTimes {count : Operand} (index : Option Ident) {body : Emit Unit}
    (tag : Option Ident) (hc : count.Lands w) (hb : ∀ x, w.Goes x body) :
    w.Lands x (lowerTimes count index body tag) fun _ _ => True := by
  refine (lands_operandRvalue hc Expect.at_of).bind fun total x₁ _ htotal => ?_
  refine lands_types.bind fun t x₂ hx₂ _ => (lands_required _ _ _).bind fun info x₃ hx₃ _ => ?_
  have htotal := htotal.mono (hx₂.trans hx₃)
  refine lands_countedLoop _ index tag hb (fun r x' hx' hr => ?_) fun _ _ _ _ =>
    .pure fun _ h => by cases h
  exact lands_compute _ (fun _ _ hx => Ir.Instr.at_compare _ (Ir.Value.at_reg (hx.here hr))
    (htotal.mono (hx'.trans hx))) fun _ => rfl

def Sequence.At (s : Sequence) (x : Point) : Prop :=
  s.base.At x ∧ ∀ n, s.length = some n → n.At x

theorem Sequence.At.mono {s : Sequence} {x' : Point} (h : s.At x) (hx : x.Leads x') : s.At x' :=
  ⟨h.1.mono hx, fun n hn => (h.2 n hn).mono hx⟩

theorem lands_storedSequence (element : Ty) (length : Nat) (hv : v.At x) :
    w.Lands x (storedSequence v element length) fun s x' => s.At x' :=
  (lands_place hv).bind fun _ _ _ hp => .pure
    ⟨hp, fun n hn => by cases hn; exact Ir.Value.at_const _⟩

theorem lands_sequenceOf (range : Span) (hv : v.At x) :
    w.Lands x (sequenceOf v range) fun s x' => s.At x' := by
  unfold sequenceOf
  split
  · exact lands_storedSequence _ _ hv
  · exact lands_storedSequence _ _ hv
  · refine (lands_rvalue hv).bind fun slice x₁ _ hslice => ?_
    refine (lands_sliceData _ _ hslice).bind fun data x₂ hx₂ hdata => ?_
    refine (lands_extract _ _ (hslice.mono hx₂)).bind fun length x₃ hx₃ hlength => ?_
    exact .pure ⟨Ir.Value.at_reg (hx₃.here hdata), fun n hn => by
      cases hn
      exact Ir.Value.at_reg hlength⟩
  · refine (lands_rvalue hv).bind fun text x₁ _ htext => ?_
    refine (lands_stringParts htext).bind fun parts x₂ _ hparts => ?_
    exact .pure ⟨Ir.Value.at_reg hparts.1, fun n hn => by
      cases hn
      exact Ir.Value.at_reg hparts.2⟩
  · exact (lands_rvalue hv).bind fun pointer _ _ hp => .pure ⟨hp, fun _ hn => by cases hn⟩
  · exact lands_refuse _ _

/-- A comparison goes to a register that was taken before its operands were computed. -/
theorem lands_hasElement {s : Sequence} {counter : Register} (hs : s.At x)
    (hc : counter ∈ x.here) :
    w.Lands x (hasElement s counter) fun r x' => r ∈ x'.here := by
  refine (lands_fresh _).then (.refl x) fun r x₁ hx₁ _ ⟨hpending, hnew⟩ => ?_
  have hwrite {x₂ : Point} (hx₂ : x.Leads x₂) (hx₁₂ : x₁.Leads x₂) {pred : Ir.Pred}
      {a b : Ir.Value} (ha : a.At x₂) (hb : b.At x₂) :
      w.Arrives x x₂ (do
        push (.compare r pred a b)
        return r) fun r x' => r ∈ x'.here := by
    refine (arrives_push hx₂ (Ir.Instr.at_compare pred ha hb) fun r' hr' => ?_).bind
      fun _ x₃ hx₃ _ hdests => .pure hx₃ (hdests r rfl)
    cases hr'
    exact ⟨hx₁₂.pending hpending, hnew⟩
  have hc := Ir.Value.at_reg (hx₁.here hc)
  dsimp only
  split
  · rename_i length hlength
    exact hwrite hx₁ (.refl x₁) hc ((hs.2 length hlength).mono hx₁)
  · refine (lands_elementPtr _ _ (hs.1.mono hx₁) hc).then hx₁ fun ptr x₂ hx₂ hx₁₂ hptr => ?_
    refine (lands_load _ (Ir.Value.at_reg hptr)).then hx₂ fun byte x₃ hx₃ hx₂₃ hbyte => ?_
    exact hwrite hx₃ (hx₁₂.trans hx₂₃) (Ir.Value.at_reg hbyte) (Ir.Value.at_const _)

theorem lands_lowerForIn {iterable : Operand} (item : Ident) (index : Option Ident)
    {body : Emit Unit} (tag : Option Ident) (hi : iterable.Lands w) (hb : ∀ x, w.Goes x body) :
    w.Lands x (lowerForIn iterable item index body tag) fun _ _ => True := by
  refine (hi x _ Expect.at_nothing).bind fun v x₁ _ hv => ?_
  refine (lands_sequenceOf _ hv).bind fun s x₂ _ hs => ?_
  refine (lands_intern _).bind fun itemType x₃ hx₃ _ => ?_
  have hs := hs.mono hx₃
  refine lands_countedLoop _ index tag hb (fun r x' hx' hr => lands_hasElement (hs.mono hx') hr)
    fun r x' hx' hr => ?_
  refine (lands_elementPtr _ _ (hs.mono hx').1 (Ir.Value.at_reg hr)).bind fun ptr x₄ _ hptr => ?_
  refine .pure fun l hl => ?_
  rw [List.mem_singleton.mp hl]
  exact Ir.Value.at_reg hptr

/-! ## Bodies -/

theorem lands_lowerJump (tag : Option Ident) (word : String) {target : LoopTargets → BlockId}
    (range : Span) (ht : target = LoopTargets.breakTo ∨ target = LoopTargets.continueTo) :
    w.Lands x (lowerJump tag word target range) fun _ _ => True := by
  refine lands_function.bind fun f x₁ _ hf => ?_
  subst hf
  split
  · rename_i l hl
    have hloop := x₁.loops l (mem_of_loopFor hl)
    refine lands_jump ?_
    rcases ht with rfl | rfl
    · exact hloop.1
    · exact hloop.2
  · exact lands_refuse _ _
  · exact lands_refuse _ _

theorem lands_lowerGive {value : Option Operand} (range : Span)
    (hv : ∀ o, value = some o → o.Lands w) :
    w.Lands x (lowerGive value range) fun _ _ => True := by
  refine lands_function.bind fun f x₁ _ _ => ?_
  dsimp only
  split
  · exact lands_guard fun _ => lands_terminate (fun _ h => by cases h) fun _ h => by cases h
  · rename_i o
    refine lands_guard fun _ => (hv o rfl x₁ _ Expect.at_of).bind fun v x₂ _ hv => ?_
    refine lands_guard fun _ => (lands_passValue _ _ hv).bind fun ir x₃ _ hir => ?_
    exact lands_terminate hir fun _ h => by cases h

/-- A branch of a conditional, judged from where its common end was made. -/
theorem arrives_lowerBranch {y : Point} {condition : Operand} {body rest : Emit Unit}
    {endBlock : BlockId} (hx : y.Leads x) (hend : y.Opens endBlock y.here)
    (hc : condition.Lands w) (hb : ∀ x, w.Goes x body)
    (hr : ∀ x, y.Leads x → w.Arrives y x rest fun _ _ => True) :
    w.Arrives y x (lowerBranch condition body endBlock rest) fun _ _ => True := by
  have hscope (x : Point) : w.Lands x (inScope body) fun _ _ => True :=
    lands_inScope fun x' _ => hb x'
  refine (lands_condition hc).then hx fun cond x₁ hx₁ _ hcond => ?_
  split
  · refine (hscope x₁).then hx₁ fun _ x₂ hx₂ _ _ => ?_
    refine (lands_jump (hx₂.reaches hend)).then hx₂ fun _ x₃ hx₃ _ _ => ?_
    exact arrives_enter hx₃ hend
  · exact hr x₁ hx₁
  · refine (lands_newBlock _).then hx₁ fun thenBlock x₂ hx₂ hx₂' ⟨hthen, _⟩ => ?_
    refine (lands_newBlock _).then hx₂ fun nextBlock z hz hz' ⟨hnext, h₃⟩ => ?_
    have hthen := hthen.carry hz' h₃
    have hz₀ := Point.Leads.refl z
    refine (lands_branch (hcond.mono (hx₂'.trans hz')) (hz₀.reaches hthen)
      (hz₀.reaches hnext)).then hz fun _ x₄ hx₄ hx₄' _ => ?_
    refine (arrives_enter hx₄' hthen).then hz fun _ x₅ hx₅ hx₅' _ => ?_
    refine (hscope x₅).then hx₅ fun _ x₆ hx₆ hx₆' _ => ?_
    refine (lands_jump (hx₆.reaches hend)).then hx₆ fun _ x₇ hx₇ hx₇' _ => ?_
    exact (arrives_enter ((hx₅'.trans hx₆').trans hx₇') hnext).then hz fun _ x₈ hx₈ _ _ => hr x₈ hx₈

theorem lands_map (view : Viewpoint) (e : Option Expr) (o : Operand)
    (ho : e.map (operand view) = some o) : o.Lands w := by
  obtain ⟨e, -, rfl⟩ := Option.map_eq_some_iff.mp ho
  exact lands_operand view e

mutual

theorem goes_lowerSentences (view : Viewpoint) :
    ∀ (ss : List Sentence) (x : Point), w.Goes x (lowerSentences view ss)
  | [], _ => by
    unfold lowerSentences
    exact (Backdrop.Lands.pure (Q := fun _ _ => True) trivial).goes
  | s :: ss, _ => by
    unfold lowerSentences
    refine lands_isClosed.andGoes fun closed x₁ _ _ => ?_
    split
    · exact (Backdrop.Lands.pure (Q := fun _ _ => True) trivial).goes
    · exact (goes_lowerSentence view s x₁).seq fun _ x₂ _ => goes_lowerSentences view ss x₂

theorem goes_lowerSentence (view : Viewpoint) :
    ∀ (s : Sentence) (x : Point), w.Goes x (lowerSentence view s)
  | .localVar range name type value isVar isRef, _ => by
    unfold lowerSentence
    exact goes_lowerLocal view name type isVar isRef range (lands_map view value)
  | .assign range lhs rhs, _ => by
    unfold lowerSentence
    exact (lands_lowerAssign range (lands_operand view lhs) (lands_operand view rhs)).goes
  | .opAssign range op lhs rhs, _ => by
    unfold lowerSentence
    exact (lands_lowerOpAssign op range (lands_operand view lhs) (lands_operand view rhs)).goes
  | .expr _ e, x => by
    unfold lowerSentence
    exact ((lands_lowerExpr view e x _ Expect.at_nothing).bind
      (R := fun _ _ => True) fun _ _ _ _ => .pure trivial).goes
  | .cond _ branches otherwise, x => by
    unfold lowerSentence
    refine Backdrop.Lands.goes (Q := fun _ _ => True) ?_
    refine (lands_newBlock _).bind fun endBlock y _ ⟨hend, _⟩ => ?_
    refine arrives_lowerBranches view branches (.refl y) hend fun x₁ hx₁ => ?_
    have hotherwise : w.Lands x₁ (match otherwise with
        | some body => inScope (lowerSentences view body)
        | none => pure ()) fun _ _ => True := by
      cases otherwise with
      | none => exact .pure trivial
      | some body => exact lands_inScope fun x' _ => goes_lowerSentences view body x'
    refine hotherwise.then hx₁ fun _ x₂ hx₂ _ _ => ?_
    refine (lands_jump (hx₂.reaches hend)).then hx₂ fun _ x₃ hx₃ _ _ => ?_
    exact arrives_enter hx₃ hend
  | .whileDo _ condition body tag, _ => by
    unfold lowerSentence
    exact (lands_lowerWhile tag (lands_operand view condition)
      (goes_lowerSentences view body)).goes
  | .times _ count index body tag, _ => by
    unfold lowerSentence
    exact (lands_lowerTimes index tag (lands_operand view count)
      (goes_lowerSentences view body)).goes
  | .loop _ body tag, _ => by
    unfold lowerSentence
    exact (lands_lowerLoop tag (goes_lowerSentences view body)).goes
  | .forIn _ iterable item index body tag, _ => by
    unfold lowerSentence
    exact (lands_lowerForIn item index tag (lands_operand view iterable)
      (goes_lowerSentences view body)).goes
  | .breakLoop range tag, _ => by
    unfold lowerSentence
    exact (lands_lowerJump tag _ range (.inl rfl)).goes
  | .continueLoop range tag, _ => by
    unfold lowerSentence
    exact (lands_lowerJump tag _ range (.inr rfl)).goes
  | .give range value, _ => by
    unfold lowerSentence
    exact (lands_lowerGive range (lands_map view value)).goes
  | .block _ body, _ => by
    unfold lowerSentence
    exact (lands_inScope fun x' _ => goes_lowerSentences view body x').goes
  | .todo range message, _ => by
    unfold lowerSentence
    exact (lands_unfinished message range).goes

theorem arrives_lowerBranches (view : Viewpoint) {y : Point} {endBlock : BlockId}
    {otherwise : Emit Unit} :
    ∀ (bs : List Branch) {x : Point}, y.Leads x → y.Opens endBlock y.here →
      (∀ x, y.Leads x → w.Arrives y x otherwise fun _ _ => True) →
      w.Arrives y x (lowerBranches view endBlock bs otherwise) fun _ _ => True
  | [], x, hx, _, ho => by
    unfold lowerBranches
    exact ho x hx
  | .mk condition body :: bs, _, hx, hend, ho => by
    unfold lowerBranches
    exact arrives_lowerBranch hx hend (lands_operand view condition)
      (goes_lowerSentences view body) fun _ hx' => arrives_lowerBranches view bs hx' hend ho

end

end Emit

end Staged
