/-
  Staged.Proofs.Compile.Enter — the actions a compilation comes to.

  An action is run by running the actions it is made of, one after another. It enters
  another action in a state if that is where it, or one of the actions it is made of, goes
  on with it (`Emit.Enters`). What an action that succeeds has entered has succeeded too
  (`Enters.ok`), and the calls of a compilation that succeeds all succeed. So what one rule
  gives when it succeeds (`Emit.Returns`) it has given wherever a compilation came to it
  (`compile_returns`).

  The bodies of functions are entered at their first sentences, which can be found by running
  the compilation (`starts`).
-/

import Staged.Proofs.Code.Effect
import Staged.Proofs.Compile.Run

namespace Staged

/-! ## Entering -/

namespace Emit

variable {α β : Type} {o : Options} {s t : Compiler}

inductive Enters (o : Options) :
    {α β : Type} → Emit α → Compiler → Emit β → Compiler → Prop
  | here {α : Type} (a : Emit α) (s : Compiler) : Enters o a s a s
  | first {α β γ : Type} {a : Emit α} {b : Emit β} {s t : Compiler} (k : α → Emit γ) :
      Enters o a s b t → Enters o (a >>= k) s b t
  | next {α β γ : Type} {a : Emit α} {k : α → Emit γ} {b : Emit β} {s s₁ t : Compiler} {v : α} :
      a o s = .ok v s₁ → Enters o (k v) s₁ b t → Enters o (a >>= k) s b t

/-- What an action enters succeeds if the action does. -/
theorem Enters.ok {a : Emit α} {b : Emit β} (h : Enters o a s b t) {v : α} {s' : Compiler}
    (ha : a o s = .ok v s') : ∃ w t', b o t = .ok w t' := by
  induction h generalizing s' with
  | here a s => exact ⟨v, s', ha⟩
  | first k _ ih =>
    obtain ⟨u, s₁, hu, -⟩ := bind_ok ha
    exact ih hu
  | next hu _ ih =>
    obtain ⟨u', s₁', hu', hk⟩ := bind_ok ha
    cases hu.symm.trans hu'
    exact ih hk

/-! ## Results -/

/-- What holds of the result of an action from a state, if there is one. -/
def Returns (o : Options) (s : Compiler) (a : Emit α) (Q : α → Compiler → Prop) : Prop :=
  ∀ v s', a o s = .ok v s' → Q v s'

namespace Returns

variable {a : Emit α} {k : α → Emit β} {Q Q' : α → Compiler → Prop} {R : β → Compiler → Prop}

theorem pure {v : α} (h : Q v s) : Returns o s (pure v) Q := by
  intro w s' hr
  cases hr
  exact h

theorem refuse (fault : Fault) (range : Span) : Returns o s (refuse (α := α) fault range) Q :=
  nofun

theorem mono (ha : Returns o s a Q) (h : ∀ v t, Q v t → Q' v t) : Returns o s a Q' :=
  fun v t hr => h v t (ha v t hr)

theorem bind (ha : Returns o s a Q) (hk : ∀ v t, Q v t → Returns o t (k v) R) :
    Returns o s (a >>= k) R := by
  intro w s' hr
  obtain ⟨v, t, hv, hr⟩ := bind_ok hr
  exact hk v t (ha v t hv) w s' hr

/-- A step that nothing is asked of. -/
theorem step (hk : ∀ v t, Returns o t (k v) R) : Returns o s (a >>= k) R :=
  bind (Q := fun _ _ => True) (fun _ _ _ => trivial) fun v t _ => hk v t

theorem guard {c : Prop} [Decidable c] {fault : Fault} {rest : Emit β} {k : α → Emit β}
    (h : ¬c → Returns o s rest R) :
    Returns o s (if c then Emit.refuse fault range >>= k else rest) R := by
  split
  · exact bind (refuse (Q := fun _ _ => False) fault range) fun _ _ => False.elim
  · exact h ‹_›

theorem check {c : Prop} [Decidable c] {fault : Fault} {rest : Emit β} {k : α → Emit β}
    (h : c → Returns o s rest R) :
    Returns o s (if c then rest else Emit.refuse fault range >>= k) R := by
  split
  · exact h ‹_›
  · exact bind (refuse (Q := fun _ _ => False) fault range) fun _ _ => False.elim

theorem require (value : Option α) (fault : Fault) :
    Returns o s (Emit.require value fault range) fun v t => value = some v ∧ t = s := by
  cases value with
  | some w => exact pure ⟨rfl, rfl⟩
  | none => exact refuse fault range

end Returns

theorem returns_types : Returns o s types fun t s' => t = s.types ∧ s' = s := by
  intro t s' h
  cases h
  exact ⟨rfl, rfl⟩

end Emit

/-! ## Compilations -/

variable {α : Type} {p : Program} {o : Options} {out : CompileOutput}

/-- The compilation of a program comes to running an action from a state. -/
def GetsTo (p : Program) (o : Options) (a : Emit α) (s : Compiler) : Prop :=
  ∃ s₀, Registers p o s₀ ∧
    ∃ c ∈ (compileHost o).trace s₀, Emit.Enters o (Emit.runPhase c.id c.phase) c.before a s

/-- In a compilation that succeeds, everything it comes to succeeds, with the result that it
has if it succeeds. -/
theorem compile_returns (h : compile p o = .ok out) {a : Emit α} {s : Compiler}
    (hc : GetsTo p o a s) {Q : α → Compiler → Prop} (ha : Emit.Returns o s a Q) :
    ∃ v s', a o s = .ok v s' ∧ Q v s' := by
  obtain ⟨s₀, stats, s₁, hreg, hrun, -⟩ := compile_ok h
  obtain ⟨s₀', hreg', c, hmem, henters⟩ := hc
  cases hreg.symm.trans hreg'
  obtain ⟨v, s', hv⟩ := henters.ok (Host.trace_run_ok hrun c hmem)
  exact ⟨v, s', hv, ha v s' hv⟩

/-! ## First sentences -/

structure Start where
  view : Viewpoint
  sentence : Sentence
  state : Compiler

namespace Emit

variable {s t : Compiler} {id : EntityId} {phase : Phase} {site : Site}

def openBody (d : FunctionDecl) (f : Ir.FunctionId) (result : Ty) : Emit Unit := do
  let params := (← prototype f).params
  beginFunction f result none
  bindParams d.args params

/-- The first sentence of a body, in the state its parameters leave. -/
def startOfBody? (o : Options) (s : Compiler) (id : EntityId) (site : Site) : Option Start :=
  match site.decl.body, s.symbols.lookup id with
  | .function d, some (.function f (.function result _ _)) => match d.body with
    | some (first :: _) => match openBody d f result o s with
      | .ok _ t => match isClosed o t with
        | .ok false t' => some ⟨{ module := site.module }, first, t'⟩
        | _ => none
      | .error _ _ => none
    | _ => none
  | _, _ => none

/-- The first sentence that a phase lowers, if it lowers the body of a function. -/
def start? (o : Options) (id : EntityId) (phase : Phase) (s : Compiler) : Option Start :=
  match s.sites[id]? with
  | some site =>
    if site.decl.guard.isNone ∧ phase ≠ .one then
      startOfBody? o { s with log := s.log.push (id, phase) } id site
    else none
  | none => none

theorem siteOf_apply (h : s.sites[id]? = some site) : siteOf id o s = .ok site s := by
  show (match s.sites[id]? with
    | some site => (pure site : Emit Site)
    | none => breach (.noDeclaration id)) o s = _
  rw [h]
  rfl

theorem symbolOf_apply {y : Symbol} (range : Span) (h : s.symbols.lookup id = some y) :
    symbolOf id range o s = .ok y s := by
  show require (s.symbols.lookup id) (.notReady (s.entities.displayName id)) range o s = _
  rw [h]
  rfl

theorem enters_lowerSentences {view : Viewpoint} {first : Sentence} {rest : List Sentence}
    (h : isClosed o s = .ok false t) :
    Enters o (lowerSentences view (first :: rest)) s (lowerSentence view first) t := by
  rw [lowerSentences]
  exact .next h (.first _ (.here _ _))

/-- The body of a function is entered at its first sentence, once it has been opened. -/
theorem enters_functionBody {view : Viewpoint} {d : FunctionDecl} {range : Span}
    {first : Sentence} {rest : List Sentence} {f : Ir.FunctionId} {result : Ty} {params : List Ty}
    {variadic : Bool} {u : Unit} {t' : Compiler} (hbody : d.body = some (first :: rest))
    (hsymbol : s.symbols.lookup id = some (.function f (.function result params variadic)))
    (hopen : openBody d f result o s = .ok u t) (hclosed : isClosed o t = .ok false t') :
    Enters o (functionBody view id d range) s (lowerSentence view first) t' := by
  have hsteps := Enters.next (k := fun _ => lowerSentences view (first :: rest) >>= fun _ =>
    finishFunction range) hopen (.first _ (enters_lowerSentences hclosed))
  rw [functionBody, hbody]
  refine .next (symbolOf_apply _ hsymbol) ?_
  simpa only [openBody, bind_assoc] using hsteps

theorem enters_phaseOf {x : Start} (hphase : phase ≠ .one)
    (h : startOfBody? o s id site = some x) :
    Enters o (phaseOf { module := site.module } id site.decl phase) s
      (lowerSentence x.view x.sentence) x.state := by
  unfold startOfBody? at h
  split at h
  next d f result _ _ hd hsymbol =>
    have hfunction : phaseOf { module := site.module } id site.decl phase =
        functionBody { module := site.module } id d site.decl.range := by
      unfold phaseOf
      rw [hd]
      cases phase with
      | one => exact absurd rfl hphase
      | two | three => rfl
    rw [hfunction]
    split at h
    next first rest hbody =>
      split at h
      next u t hopen =>
        split at h
        next t' hclosed =>
          cases h
          exact enters_functionBody hbody hsymbol hopen hclosed
        next => cases h
      next => cases h
    next => cases h
  next => cases h

/-- A phase that lowers the body of a function enters its first sentence. -/
theorem enters_start {x : Start} (h : start? o id phase s = some x) :
    Enters o (runPhase id phase) s (lowerSentence x.view x.sentence) x.state := by
  unfold start? at h
  split at h
  next site hsite =>
    split at h
    next hcond =>
      obtain ⟨hguard, hphase⟩ := hcond
      have hnone := Option.isNone_iff_eq_none.mp hguard
      refine .next rfl (.next (siteOf_apply hsite) (.next (guardHolds_later _ _ _ (.inl hnone)) ?_))
      rw [if_pos rfl]
      exact enters_phaseOf hphase h
    next => cases h
  next => cases h

end Emit

/-- The first sentences of the functions of a program, as its compilation comes to them. -/
def starts (p : Program) (o : Options) : List Start :=
  match Emit.registerProgram p o (Compiler.ofOptions o) with
  | .ok _ s₀ => ((compileHost o).trace s₀).filterMap fun c => Emit.start? o c.id c.phase c.before
  | .error _ _ => []

theorem getsTo_of_mem_starts {x : Start} (h : x ∈ starts p o) :
    GetsTo p o (Emit.lowerSentence x.view x.sentence) x.state := by
  unfold starts at h
  split at h
  next s₀ hreg =>
    obtain ⟨c, hc, hx⟩ := List.mem_filterMap.mp h
    exact ⟨s₀, hreg, c, hc, Emit.enters_start hx⟩
  next => cases h

end Staged
