/-
  Staged.Proofs.Values.Twin — states that evaluation cannot tell apart.

  Of a state evaluation reads the definitions of types, modules, the names of entities,
  symbols, and the locals of the innermost running call. Of the function under construction
  it sees what its locals are known to be, by their names, and whether the block it is at
  exists, which code that is not written yet needs in a debug build. Two states that agree in
  all of this, but for the calls, are twins (`Compiler.Twin`).

  Runs from twins are followed side by side (`Stacks.RunsAlike`). Both stacks of calls have
  the same calls on top, and below them each has its own: a call puts its frame on both, and
  works on that frame alone.
-/

import Staged.Proofs.Layouts.Evolve
import Staged.Proofs.Values.Untouched

namespace Staged

/-! ## Tables with the same definitions -/

namespace TypeTable

variable {t t' : TypeTable}

/-- What does not look at used types, nor at skills, is the same for the same definitions. -/
theorem SameDefinitions.congr {α : Sort*} {f : TypeTable → α} (h : t.SameDefinitions t')
    (hf : ∀ t types skills, f { t with types, skills } = f t) : f t' = f t := by
  obtain ⟨types, structs, mixes, choices, skills, done, pointerWidth⟩ := t'
  obtain ⟨hstructs, hmixes, hchoices, hdone, hwidth⟩ := h
  dsimp only at hstructs hmixes hchoices hdone hwidth
  subst hstructs hmixes hchoices hdone hwidth
  exact hf t types skills

theorem same_internAll (t : TypeTable) (used : List Ty) :
    t.SameDefinitions (used.foldl TypeTable.intern t) := by
  induction used generalizing t with
  | nil => exact .refl t
  | cons ty used ih => exact (t.same_intern ty).trans (ih _)

theorem SameDefinitions.depth (h : t.SameDefinitions t') : t'.depth = t.depth := by
  unfold TypeTable.depth
  rw [h.structs, h.mixes, h.choices]

theorem SameDefinitions.hasMember (h : t.SameDefinitions t') (ty : Ty) (kind : MemberKind) :
    t'.hasMember ty kind = t.hasMember ty kind := by
  unfold TypeTable.hasMember
  rw [h.membersOf]

theorem SameDefinitions.sizeInBytes? (h : t.SameDefinitions t') (ty : Ty) :
    t'.sizeInBytes? ty = t.sizeInBytes? ty := by
  unfold TypeTable.sizeInBytes?
  refine congrArg _ (Option.ext fun l => ⟨fun hl => ?_, fun hl => ?_⟩)
  · exact h.symm.retains.layout? hl
  · exact h.retains.layout? hl

mutual

theorem SameDefinitions.traitStep (h : t.SameDefinitions t') (trait : Trait) (parts : Ty → Bool) :
    ∀ ty, t'.traitStep trait parts ty = t.traitStep trait parts ty
  | .array element _ => by
    unfold TypeTable.traitStep
    exact h.traitStep trait parts element
  | .vector element _ scalable => by
    unfold TypeTable.traitStep
    rw [h.traitStep trait parts element]
  | .tuple members _ => by
    unfold TypeTable.traitStep
    exact h.traitsStep trait parts members
  | .maybe sub => by
    unfold TypeTable.traitStep
    exact h.traitStep trait parts sub
  | .struct _ => by
    unfold TypeTable.traitStep
    rw [h.structs]
  | .mix _ => by
    unfold TypeTable.traitStep
    rw [h.mixes]
  | .void | .int _ | .uint _ | .float _ | .native _ | .bool | .char | .str | .mark .. | .ref ..
  | .function .. | .future .. | .typed _ | .choice _ => by
    simp only [TypeTable.traitStep]

theorem SameDefinitions.traitsStep (h : t.SameDefinitions t') (trait : Trait)
    (parts : Ty → Bool) : ∀ tys, t'.traitsStep trait parts tys = t.traitsStep trait parts tys
  | [] => by
    unfold TypeTable.traitsStep
    rfl
  | ty :: tys => by
    unfold TypeTable.traitsStep
    rw [h.traitStep trait parts ty, h.traitsStep trait parts tys]

end

theorem SameDefinitions.traitWithin (h : t.SameDefinitions t') (trait : Trait) :
    ∀ fuel, t'.traitWithin trait fuel = t.traitWithin trait fuel
  | 0 => rfl
  | fuel + 1 => by
    unfold TypeTable.traitWithin
    rw [h.traitWithin trait fuel]
    exact funext (h.traitStep trait _)

theorem SameDefinitions.canBePrerun (h : t.SameDefinitions t') (ty : Ty) :
    t'.canBePrerun ty = t.canBePrerun ty := by
  have htrait : t'.prerunTrait = t.prerunTrait := by
    unfold TypeTable.prerunTrait TypeTable.hasCustomLifecycle
    simp only [h.membersOf]
  unfold TypeTable.canBePrerun TypeTable.has
  rw [htrait, h.depth, h.traitWithin]

mutual

theorem SameDefinitions.defaultStep (h : t.SameDefinitions t') (parts : Ty → Except Fault Data) :
    ∀ ty, t'.defaultStep parts ty = t.defaultStep parts ty
  | .native _ => by
    simp only [TypeTable.defaultStep, h.pointerWidth]
  | .choice _ => by
    simp only [TypeTable.defaultStep, h.choices]
  | .mix _ => by
    simp only [TypeTable.defaultStep, h.mixes]
  | .tuple members _ => by
    simp only [TypeTable.defaultStep, h.defaultsStep parts members]
  | .array element _ => by
    simp only [TypeTable.defaultStep, h.defaultStep parts element]
  | .struct _ => by
    simp only [TypeTable.defaultStep, h.structs, h.hasMember, h.canBePrerun]
  | .void | .int _ | .uint _ | .float _ | .bool | .char | .str | .mark .. | .ref .. | .vector ..
  | .function .. | .future .. | .maybe _ | .typed _ => by
    simp only [TypeTable.defaultStep]

theorem SameDefinitions.defaultsStep (h : t.SameDefinitions t') (parts : Ty → Except Fault Data) :
    ∀ tys, t'.defaultsStep parts tys = t.defaultsStep parts tys
  | [] => by
    simp only [TypeTable.defaultsStep]
  | ty :: tys => by
    simp only [TypeTable.defaultsStep, h.defaultStep parts ty, h.defaultsStep parts tys]

end

theorem SameDefinitions.defaultWithin (h : t.SameDefinitions t') :
    ∀ fuel, t'.defaultWithin fuel = t.defaultWithin fuel
  | 0 => rfl
  | fuel + 1 => by
    unfold TypeTable.defaultWithin
    rw [h.defaultWithin fuel]
    exact funext (h.defaultStep _)

theorem SameDefinitions.default (h : t.SameDefinitions t') (ty : Ty) :
    t'.default ty = t.default ty := by
  unfold TypeTable.default
  rw [h.depth, h.defaultWithin]

end TypeTable

/-! ## States -/

namespace Compiler

/-- What evaluation sees of the local of the function under construction that has this name:
its value, if that is known and does not change. -/
def knownLocal? (s : Compiler) (name : String) : Option (Option Constant) :=
  (s.func.bind (·.findLocal? name)).map fun v => if v.isVar then none else v.known

/-- Two states that differ in nothing that evaluation sees, but for the running calls. -/
structure Twin (s s' : Compiler) : Prop where
  definitions : s.types.SameDefinitions s'.types
  modules : s'.modules = s.modules
  entities : s'.entities = s.entities
  symbols : s'.symbols = s.symbols
  locals : ∀ name, s'.knownLocal? name = s.knownLocal? name
  adrift : s'.isAdrift = s.isAdrift

variable {s s' : Compiler}

theorem Twin.intern (h : s.Twin s') (ty : Ty) :
    { s with types := s.types.intern ty }.Twin { s' with types := s'.types.intern ty } where
  definitions := (s.types.same_intern ty).symm.trans (h.definitions.intern ty)
  modules := h.modules
  entities := h.entities
  symbols := h.symbols
  locals := h.locals
  adrift := h.adrift

theorem Twin.reframe (h : s.Twin s') (fs fs' : List Frame) :
    { s with frames := fs }.Twin { s' with frames := fs' } :=
  ⟨h.definitions, h.modules, h.entities, h.symbols, h.locals, h.adrift⟩

/-- A warning is not seen. -/
theorem Twin.warn (h : s.Twin s') (ws ws' : Array Diagnostic) :
    { s with warnings := ws }.Twin { s' with warnings := ws' } :=
  ⟨h.definitions, h.modules, h.entities, h.symbols, h.locals, h.adrift⟩

theorem knownLocal?_abandon {n : Nat} (h : s'.func = s.func.map FunctionState.abandon^[n])
    (name : String) : s'.knownLocal? name = s.knownLocal? name := by
  unfold knownLocal?
  rw [h]
  cases s.func with
  | none => rfl
  | some f =>
    obtain ⟨⟨blocks, current, hf⟩, -⟩ := f.abandon_iterate n
    rw [Option.map_some, hf]
    rfl

theorem not_isAdrift_abandon {n : Nat}
    (h : s'.func = s.func.map FunctionState.abandon^[n + 1]) : s'.isAdrift = false := by
  have hblock (f : FunctionState) :
      (f.abandon.function.block? f.abandon.current).isNone = false := by
    show (((f.function.blocks.modify f.current (·.close .unreachable)).push _)[
      (f.function.blocks.modify f.current (·.close .unreachable)).size]?).isNone = false
    rw [Array.getElem?_push_size]
    rfl
  unfold isAdrift
  rw [h, Function.iterate_succ']
  cases s.func with
  | none => rfl
  | some f => exact hblock _

/-- Scopes stay where code is abandoned, and there is a block to go on in. -/
theorem Twin.abandon (h : s.Twin s') :
    { s with func := s.func.map .abandon }.Twin { s' with func := s'.func.map .abandon } where
  definitions := h.definitions
  modules := h.modules
  entities := h.entities
  symbols := h.symbols
  locals name := (knownLocal?_abandon (n := 1) rfl name).trans
    ((h.locals name).trans (knownLocal?_abandon (n := 1) rfl name).symm)
  adrift := (not_isAdrift_abandon (n := 0) rfl).trans (not_isAdrift_abandon (n := 0) rfl).symm

end Compiler

/-- The running calls of two states: so many that are the same, and below them others. -/
structure Stacks where
  shared : Nat
  below : List Frame
  below' : List Frame

namespace Stacks

def push (k : Stacks) : Stacks := { k with shared := k.shared + 1 }

def Meets (k : Stacks) : Prop := k.shared = 0 → k.below'.head? = k.below.head?

theorem meets_push (k : Stacks) : k.push.Meets := nofun

structure Twins (k : Stacks) (s s' : Compiler) : Prop extends s.Twin s' where
  frames : ∃ fs : List Frame, fs.length = k.shared ∧ s.frames = fs ++ k.below ∧
    s'.frames = fs ++ k.below'

inductive Results {α : Type} (k : Stacks) : EStateM.Result Failure Compiler α →
    EStateM.Result Failure Compiler α → Prop
  | ok {s s' : Compiler} (v : α) : k.Twins s s' → Results k (.ok v s) (.ok v s')
  | error {s s' : Compiler} (f : Failure) : k.Twins s s' → Results k (.error f s) (.error f s')

/-- An action that sees no difference between states that are alike. -/
def RunsAlike {α : Type} (k : Stacks) (a : Emit α) : Prop :=
  ∀ o s s', k.Twins s s' → k.Results (a o s) (a o s')

namespace RunsAlike

variable {k : Stacks} {α β : Type} {a : Emit α} {f : α → Emit β}

theorem pure (v : α) : k.RunsAlike (pure v : Emit α) := fun _ _ _ hs => .ok v hs

theorem bind (ha : k.RunsAlike a) (hf : ∀ v, k.RunsAlike (f v)) : k.RunsAlike (a >>= f) := by
  intro o s s' hs
  have h := ha o s s' hs
  rw [Emit.bind_apply, Emit.bind_apply]
  generalize a o s = r, a o s' = r' at h
  cases h with
  | ok v ht => exact hf v o _ _ ht
  | error f ht => exact .error f ht

theorem map {f : α → β} (ha : k.RunsAlike a) : k.RunsAlike (f <$> a) := by
  rw [← bind_pure_comp]
  exact ha.bind fun v => .pure (f v)

end RunsAlike

end Stacks

/-! ## Actions on the state -/

namespace Emit

variable {k : Stacks} {α β : Type}

theorem alike_refuse (f : Fault) (range : Span) : k.RunsAlike (refuse f range : Emit α) :=
  fun _ _ _ hs => .error _ hs

theorem alike_require (value : Option α) (f : Fault) (range : Span) :
    k.RunsAlike (require value f range) := by
  cases value with
  | none => exact alike_refuse f range
  | some v => exact .pure v

/-- A test that stops everything. -/
theorem alike_guard {c : Prop} [Decidable c] {f : Fault} {range : Span} {next : α → Emit β}
    {rest : Emit β} (hrest : k.RunsAlike rest) :
    k.RunsAlike (if c then refuse f range >>= next else rest) := by
  split
  · exact fun _ _ _ hs => .error _ hs
  · exact hrest

/-- A test that everything depends on. -/
theorem alike_unless {c : Prop} [Decidable c] {f : Fault} {range : Span} {next : α → Emit β}
    {rest : Emit β} (hrest : k.RunsAlike rest) :
    k.RunsAlike (if c then rest else refuse f range >>= next) := by
  split
  · exact hrest
  · exact fun _ _ _ hs => .error _ hs

theorem alike_orRefuse (r : Except Fault α) (range : Span) : k.RunsAlike (orRefuse r range) := by
  cases r with
  | ok v => exact .pure v
  | error f => exact alike_refuse f range

theorem alike_orRefuseFold (r : Except FoldError α) (range : Span) :
    k.RunsAlike (orRefuseFold r range) := by
  cases r with
  | ok v => exact .pure v
  | error f => exact alike_refuse _ range

theorem alike_read : k.RunsAlike read := fun o _ _ hs => .ok o hs

/-- What goes on with the table depends on its definitions alone. -/
theorem alike_definitions {next : TypeTable → Emit α} (hnext : ∀ t, k.RunsAlike (next t))
    (hsame : ∀ t t', t.SameDefinitions t' → next t' = next t) :
    k.RunsAlike (types >>= next) := by
  intro o s s' hs
  show k.Results (next s.types o s) (next s'.types o s')
  rw [hsame _ _ hs.definitions]
  exact hnext s.types o s s' hs

theorem alike_types {next : TypeTable → Emit α} (hnext : ∀ t, k.RunsAlike (next t))
    (hsame : ∀ t types skills, next { t with types, skills } = next t) :
    k.RunsAlike (types >>= next) :=
  alike_definitions hnext fun _ _ h => h.congr hsame

theorem alike_intern (ty : Ty) : k.RunsAlike (intern ty) :=
  fun _ _ _ hs => .ok ty ⟨hs.toTwin.intern ty, hs.frames⟩

theorem alike_modules : k.RunsAlike modules := by
  intro o s s' hs
  show k.Results (.ok s.modules s) (.ok s'.modules s')
  rw [hs.modules]
  exact .ok _ hs

theorem alike_isAccessible (view : Viewpoint) (vis : Visibility) :
    k.RunsAlike (isAccessible view vis) :=
  alike_modules.bind fun _ => .pure _

theorem alike_resolveName (view : Viewpoint) (name : QName) :
    k.RunsAlike (resolveName view name) :=
  alike_modules.bind fun _ => .pure _

theorem alike_resolved (view : Viewpoint) (name : QName) : k.RunsAlike (resolved view name) := by
  refine (alike_resolveName view name).bind fun r => ?_
  cases r with
  | ok found => exact .pure found
  | error e => exact alike_refuse _ _

theorem alike_symbolOf (id : EntityId) (range : Span) : k.RunsAlike (symbolOf id range) := by
  intro o s s' hs
  show k.Results (require (s.symbols.lookup id) (.notReady (s.entities.displayName id)) range o s)
    (require (s'.symbols.lookup id) (.notReady (s'.entities.displayName id)) range o s')
  rw [hs.symbols, hs.entities]
  exact alike_require _ _ range o s s' hs

/-! ## Frames of calls -/

theorem alike_frame? (hk : k.Meets) : k.RunsAlike frame? := by
  intro o s s' hs
  obtain ⟨fs, hlen, hf, hf'⟩ := hs.frames
  have hhead : s'.frames.head? = s.frames.head? := by
    rw [hf, hf']
    cases fs with
    | nil => exact hk hlen.symm
    | cons f fs => rfl
  show k.Results (.ok s.frames.head? s) (.ok s'.frames.head? s')
  rw [hhead]
  exact .ok _ hs

theorem alike_frame (hk : k.Meets) : k.RunsAlike frame := by
  refine (alike_frame? hk).bind fun f => ?_
  cases f with
  | some f => exact .pure f
  | none => exact fun _ _ _ hs => .error _ hs

theorem alike_setFrame (f : Frame) : k.push.RunsAlike (setFrame f) := by
  intro o s s' hs
  obtain ⟨fs, hlen, hf, hf'⟩ := hs.frames
  obtain ⟨g, fs, rfl⟩ := List.exists_cons_of_length_eq_add_one hlen
  exact .ok () ⟨hs.reframe _ _, f :: fs, hlen, congrArg (f :: ·.drop 1) hf,
    congrArg (f :: ·.drop 1) hf'⟩

/-- What is run between two actions is undone by the second, even where it fails. -/
theorem alike_bracket {k' : Stacks} {before after : Emit Unit} {inside : Emit α}
    (hbefore : ∀ o s s', k.Twins s s' → ∃ t t', before o s = .ok () t ∧
      before o s' = .ok () t' ∧ k'.Twins t t')
    (hafter : ∀ o s s', k'.Twins s s' → ∃ t t', after o s = .ok () t ∧
      after o s' = .ok () t' ∧ k.Twins t t')
    (hinside : k'.RunsAlike inside) : k.RunsAlike (bracket before after inside) := by
  intro o s s' hs
  obtain ⟨t, t', hb, hb', ht⟩ := hbefore o s s' hs
  have h := hinside o t t' ht
  rw [bracket_apply, bracket_apply, hb, hb']
  dsimp only
  generalize inside o t = r, inside o t' = r' at h
  cases h with
  | ok v hu =>
    obtain ⟨w, w', ha, ha', hw⟩ := hafter o _ _ hu
    simp only [ha, ha']
    exact .ok v hw
  | error f hu =>
    obtain ⟨w, w', ha, ha', hw⟩ := hafter o _ _ hu
    simp only [ha, ha']
    exact .error f hw

/-- A scope of the running call. -/
theorem alike_inFrameScope {inside : Emit α} (h : k.push.RunsAlike inside) :
    k.push.RunsAlike (inFrameScope inside) := by
  have hchange (change : Frame → Frame) (o : Options) (s s' : Compiler) (hs : k.push.Twins s s') :
      ∃ t t', (do setFrame (change (← frame)) : Emit Unit) o s = .ok () t ∧
        (do setFrame (change (← frame)) : Emit Unit) o s' = .ok () t' ∧ k.push.Twins t t' := by
    obtain ⟨fs, hlen, hf, hf'⟩ := hs.frames
    obtain ⟨g, fs, rfl⟩ := List.exists_cons_of_length_eq_add_one hlen
    exact ⟨_, _, changeFrame_apply change o hf, changeFrame_apply change o hf',
      hs.reframe _ _, change g :: fs, hlen, rfl, rfl⟩
  exact alike_bracket (hchange Frame.push) (hchange Frame.pop) h

/-- A call runs above the others. -/
theorem alike_inFrame (f : Frame) {inside : Emit α} (h : k.push.RunsAlike inside) :
    k.RunsAlike (bracket (pushFrame f) popFrame inside) := by
  refine alike_bracket (fun o s s' hs => ?_) (fun o s s' hs => ?_) h
  · obtain ⟨fs, hlen, hf, hf'⟩ := hs.frames
    exact ⟨_, _, rfl, rfl, hs.reframe _ _, f :: fs, congrArg (· + 1) hlen,
      congrArg (f :: ·) hf, congrArg (f :: ·) hf'⟩
  · obtain ⟨fs, hlen, hf, hf'⟩ := hs.frames
    obtain ⟨g, fs, rfl⟩ := List.exists_cons_of_length_eq_add_one hlen
    exact ⟨_, _, rfl, rfl, hs.reframe _ _, fs, Nat.succ.inj hlen,
      congrArg (List.drop 1) hf, congrArg (List.drop 1) hf'⟩

/-! ## The function under construction -/

def knownOf (name : QName) (rest : Emit Constant) : Option LocalVar → Emit Constant
  | some v =>
    require (if v.isVar then none else v.known) (.notPrerun (.localNamed v.name.text)) name.range
  | none => rest

theorem findLocal?_name {f : FunctionState} {name : String} {v : LocalVar}
    (h : f.findLocal? name = some v) : v.name.text = name := by
  obtain ⟨scope, -, hv⟩ := List.exists_of_findSome?_eq_some h
  have hname := List.find?_some hv
  exact eq_of_beq hname

/-- A local is seen by its name and by what it is known to be. -/
theorem alike_knownOf {rest : Emit Constant} (hrest : k.RunsAlike rest) (name : QName) :
    k.RunsAlike (localOf? name >>= knownOf name rest) := by
  unfold localOf?
  cases name.single? with
  | none => exact hrest
  | some n =>
    have hrun (s : Compiler) (o : Options) :
        (findLocal? n.text >>= knownOf name rest) o s = (match s.knownLocal? n.text with
          | some c => require c (.notPrerun (.localNamed n.text)) name.range
          | none => rest) o s := by
      show knownOf name rest (s.func.bind (·.findLocal? n.text)) o s = _
      unfold Compiler.knownLocal?
      cases hv : s.func.bind (·.findLocal? n.text) with
      | none => rfl
      | some v =>
        obtain ⟨f, -, hf⟩ := Option.bind_eq_some_iff.mp hv
        rw [Option.map_some, ← findLocal?_name hf]
        rfl
    intro o s s' hs
    dsimp only
    rw [hrun, hrun, hs.locals]
    cases s.knownLocal? n.text with
    | none => exact hrest o s s' hs
    | some c => exact alike_require c _ _ o s s' hs

/-- Code that is not written yet is told apart by whether there is a block to end. -/
theorem alike_unfinished (message : Option String) (range : Span) :
    k.RunsAlike (unfinished message range) := by
  intro o s s' hs
  by_cases hmode : o.mode = .release
  · rw [unfinished_release message range s hmode, unfinished_release message range s' hmode]
    exact .error _ hs
  · obtain ⟨d, hrun⟩ := unfinished_debug message range s hmode
    obtain ⟨d', hrun'⟩ := unfinished_debug message range s' hmode
    rw [hrun, hrun', hs.adrift]
    split
    · exact .error _ ⟨hs.warn _ _, hs.frames⟩
    · have hwarned := hs.warn (s.warnings.push d) (s'.warnings.push d')
      exact .ok () ⟨hwarned.abandon, hs.frames⟩

end Emit

end Staged
