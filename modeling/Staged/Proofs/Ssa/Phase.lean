/-
  Staged.Proofs.Ssa.Phase — all functions are certified between phases.

  No two declarations owe a body to one function, and a function that is owed one when the
  last phase is next has none yet (`Compiler.Neat`). So the last phase of a declaration
  never finds a body where it is to put one, and certified functions stay so. A call of a
  phase that is due keeps this, and what stops it is a fault of the program.

  Main statements: `preserves_neat` and `isFault_of_run`.
-/

import Staged.Proofs.Code.Valid
import Staged.Proofs.Ssa.Declare

namespace Staged

namespace Emit

/-! ## Brings -/

def Sited (n : Nat) (s : Compiler) : Prop := s.entities.size = n ∧ n ≤ s.sites.size

variable {α β : Type} {P : Compiler → Prop} {n : Nat} {s₀ : Compiler}

theorem safely_get : Safely (· = s₀) (get : Emit Compiler) fun v s => s = s₀ ∧ v = s₀ := by
  rintro o s rfl
  exact ⟨rfl, rfl⟩

theorem safely_modules : Safely P modules fun _ => P := fun _ _ hs => hs

theorem safely_require (value : Option α) (f : Fault) (range : Span) :
    Safely P (require value f range) fun _ => P := by
  cases value with
  | none => exact safely_refuse f range
  | some v => exact .pure fun _ hs => hs

theorem safely_forIn {f : α → Emit Unit} :
    ∀ {as : List α}, (∀ a ∈ as, Safely P (f a) fun _ => P) →
      Safely P (forIn as PUnit.unit fun a _ => do f a; pure (ForInStep.yield PUnit.unit))
        fun _ => P
  | [], _ => .pure fun _ hs => hs
  | a :: as, h => by
    rw [List.forIn_cons, bind_assoc]
    refine (h a List.mem_cons_self).bind fun _ => ?_
    rw [pure_bind]
    exact safely_forIn fun x hx => h x (List.mem_cons_of_mem a hx)

/-- Collecting needs a declaration. -/
theorem safely_collectDependencies {id : EntityId} (hid : id < n) :
    Safely (Sited n) (collectDependencies id) fun _ => Sited n := by
  intro o s hs
  obtain ⟨site, hsite⟩ : ∃ site, s.sites[id]? = some site :=
    ⟨_, Array.getElem?_eq_getElem (hid.trans_le hs.2)⟩
  have hrun : siteOf id o s = .ok site s := by
    unfold siteOf
    rw [bind_apply]
    simp only [show (get : Emit Compiler) o s = .ok s s from rfl, hsite]
    rfl
  unfold collectDependencies
  rw [bind_apply, hrun]
  exact ⟨(EntityGraph.size_addDeps ..).trans hs.1, hs.2⟩

theorem safely_orRefuseBring {α : Type} (r : Except ResolveError α) :
    Safely P (orRefuseBring r) fun _ => P := by
  cases r with
  | ok a => exact .pure fun _ hs => hs
  | error e =>
    show Safely P (refuseBring e) fun _ => P
    unfold refuseBring
    split <;> exact safely_refuse _ _

theorem safely_bringResolved (module : ModId) (found : Resolved) (name : Ident) (vis : Visibility)
    (range : Span) :
    Safely (Sited n) (bringResolved module found name vis range) fun _ => Sited n := by
  cases found with
  | module target => exact fun _ _ hs => hs
  | item item =>
    refine .of_forall fun s hs => safely_get.bind fun v => .of_and fun hv => ?_
    subst hv
    split
    · exact fun _ _ _ => hs
    · exact safely_refuse _ _

theorem safely_bringMembers (view : Viewpoint) (target : ModId) (vis : Visibility) :
    ∀ names : List BroughtName,
      Safely (Sited n) (bringMembers view target vis names) fun _ => Sited n
  | [] => .pure fun _ hs => hs
  | x :: rest => by
    unfold bringMembers
    refine safely_modules.bind fun t => (safely_orRefuseBring _).bind fun r => ?_
    cases r with
    | none =>
      refine Safely.bind (Q := fun _ _ => False) ?_ fun _ _ _ h => h.elim
      show Safely _ (refuseBring _) _
      unfold refuseBring
      split <;> exact safely_refuse _ _
    | some found =>
      exact (safely_bringResolved _ _ _ _ _).bind fun _ => safely_bringMembers view target vis rest

theorem safely_bringItem (view : Viewpoint) (vis : Visibility) (item : BringItem) :
    Safely (Sited n) (bringItem view vis item) fun _ => Sited n := by
  cases item with
  | path path asName =>
    exact safely_modules.bind fun t => (safely_orRefuseBring _).bind fun found =>
      (safely_require _ _ _).bind fun name => safely_bringResolved _ _ _ _ _
  | members source names =>
    exact safely_modules.bind fun t => (safely_orRefuseBring _).bind fun target =>
      safely_bringMembers view target vis names
  | file path asName range =>
    exact safely_modules.bind fun t => (safely_require _ _ _).bind fun target => fun _ _ hs => hs

theorem lt_of_mem_waitingFor {g : EntityGraph} {id j : EntityId} (h : j ∈ waitingFor g id) :
    j < g.size := by
  simp only [waitingFor, List.mem_map, List.mem_filter, Prod.exists, exists_eq_right,
    List.mk_mem_zipIdx_iff_getElem?] at h
  obtain ⟨e, he, -⟩ := h
  simpa [EntityGraph.size] using (List.getElem?_eq_some_iff.mp he).1

theorem safely_bring (view : Viewpoint) (id : EntityId) (d : BringDecl) :
    Safely (Sited n) (bring view id d) fun _ => Sited n := by
  unfold bring settleBring
  refine safely_modules.bind fun t => ?_
  refine (safely_forIn fun item _ => safely_bringItem view _ item).bind fun _ => ?_
  refine Safely.bind (Q := fun _ => Sited n) (fun _ _ hs => hs) fun _ => ?_
  refine Safely.bind (Q := fun _ => Sited n) (fun _ _ hs => hs) fun _ => ?_
  refine .of_forall fun s hs => safely_get.bind fun v => .of_and fun hv => ?_
  subst hv
  refine Safely.mono (P := Sited n) ?_ (fun x hx => hx ▸ hs) fun _ _ h => h
  refine (safely_forIn fun j hj => safely_collectDependencies ?_).bind fun _ => .pure fun _ h => h
  rw [← hs.1]
  exact lt_of_mem_waitingFor hj

/-! ## Every phase -/

variable {view : Viewpoint} {id : EntityId} {phase : Phase}

theorem settles_bring {d : BringDecl} (hsited : s₀.entities.size ≤ s₀.sites.size) :
    Safely (· = s₀) (bring view id d) fun _ s => s₀.Settles s id (.bring d) phase := by
  refine Safely.ran ((safely_bring (n := s₀.entities.size) view id d).mono
    (fun s hs => (by subst hs; exact ⟨rfl, hsited⟩)) fun _ _ h => h) fun o u s hr _ => ?_
  obtain ⟨hcore, hsymbols⟩ := bring_ok hr
  have hf : s.ir.functions = s₀.ir.functions := congrArg (·.ir.functions) hcore
  refine .of_isQuiet rfl (hf.symm ▸ .refl _) fun y hy => ?_
  rw [hsymbols, List.lookup_cons_self] at hy
  cases hy
  exact fun _ _ h => by cases h

/-- Every phase that is due settles its declaration. -/
theorem settles_phaseOf (view : Viewpoint) {d : EntityDecl} (hs₀ : s₀.Fit id d.body phase)
    (hdue : s₀.Due id d.body phase) (hsited : s₀.entities.size ≤ s₀.sites.size)
    (hphase : phase ∈ d.body.kind.phases) :
    Safely (· = s₀) (phaseOf view id d phase) fun _ s => s₀.Settles s id d.body phase := by
  have hrests : ∀ s, s = s₀ → s₀.Rests s := fun s hs => hs ▸ hs₀.rests
  unfold phaseOf
  cases hd : d.body with
  | function f =>
    rw [hd] at hs₀ hdue hphase
    cases phase with
    | one => exact (safely_functionPrototype f d.range).mono hrests fun _ _ h => h
    | two => exact absurd hphase (show Phase.two ∉ [.one, .three] by decide)
    | three => exact settles_functionBody d.range hs₀ hdue
  | struct f =>
    rw [hd] at hs₀ hdue
    cases phase with
    | one => exact (safely_structSkeleton f).mono hrests fun _ _ h => h
    | two => exact (safely_structLayout hs₀ hdue).mono hrests fun _ _ h => h
    | three => exact settles_structBodies hs₀ hdue
  | doSkill f =>
    rw [hd] at hs₀ hdue hphase
    cases phase with
    | one => exact absurd hphase (show Phase.one ∉ [.two, .three] by decide)
    | two => exact (safely_donePrototypes f).mono hrests fun _ _ h => h
    | three => exact settles_doneBodies hs₀ hdue
  | mix m =>
    rw [hd] at hs₀
    cases phase with
    | one => exact (safely_mixSkeleton m).mono hrests fun _ _ h => h
    | _ => exact (safely_mixVariants hs₀).mono hrests fun _ _ h => h
  | typeDef m =>
    rw [hd] at hs₀
    cases phase with
    | one => exact (safely_typeDefinition m).mono hrests fun _ _ h => h
    | _ => exact (safely_checkTypeDefinition hs₀).mono hrests fun _ _ h => h
  | choice c => exact (safely_choiceType c).mono hrests fun _ _ h => h
  | global g => exact (safely_globalValue g).mono hrests fun _ _ h => h
  | prerunGlobal g => exact (safely_prerunGlobal g).mono hrests fun _ _ h => h
  | prerunFunction f => exact (safely_prerunFunction f d.range).mono hrests fun _ _ h => h
  | skill f => exact (safely_skillType f).mono hrests fun _ _ h => h
  | bring b => exact settles_bring hsited

end Emit

/-! ## Guards -/

namespace Compiler

structure Alike (s₀ s : Compiler) : Prop where
  symbols : s.symbols = s₀.symbols
  sites : s.sites = s₀.sites
  size : s.entities.size = s₀.entities.size
  frames : s.frames = []
  func : s.func = none
  functions : s.ir.functions = s₀.ir.functions
  structs : s.types.structs = s₀.types.structs
  done : s.types.done = s₀.types.done

variable {s₀ s s' : Compiler} {id : EntityId} {body : DeclBody} {phase : Phase}

theorem Rests.alike (h : s₀.Rests s) : s₀.Alike s where
  symbols := h.symbols
  sites := congrArg Outer.sites h.outer
  size := congrArg (·.entities.size) h.outer
  frames := h.frames
  func := h.func
  functions := h.functions
  structs := h.structs
  done := h.done

namespace Alike

theorem membersAt (h : s₀.Alike s) (w : Home) : s.types.membersAt w = s₀.types.membersAt w :=
  TypeTable.membersAt_congr h.structs h.done w

theorem keeps_iff (h : s₀.Alike s) {w : Home} : s.Keeps id body w ↔ s₀.Keeps id body w := by
  unfold Keeps
  rw [h.symbols]

theorem owes_iff (h : s₀.Alike s) {i : Ir.FunctionId} : s.Owes id body i ↔ s₀.Owes id body i := by
  unfold Owes
  simp only [h.symbols, h.membersAt, h.keeps_iff]

theorem fit (h : s₀.Alike s) (hs : s₀.Fit id body phase) : s.Fit id body phase where
  calm := ⟨rfl, h.frames, h.func, h.functions ▸ hs.calm.certified⟩
  typed := by
    unfold Outer.Typed
    rw [show s.outer.symbols = s₀.outer.symbols from h.symbols]
    exact hs.typed
  symbol := h.symbols ▸ hs.symbol
  members w ms hw hms := by
    rw [h.membersAt] at hms
    exact h.functions ▸ hs.members w ms (h.keeps_iff.mp hw) hms
  blank hphase i p hi hp := by
    rw [h.functions] at hp
    exact hs.blank hphase i p (h.owes_iff.mp hi) hp

theorem settles (h : s₀.Alike s) (hs : s.Settles s' id body phase) :
    s₀.Settles s' id body phase where
  fills := by
    rw [← h.functions]
    exact hs.fills.mono fun i hi => ⟨hi.1, h.owes_iff.mp hi.2⟩
  new hphase i hi := by
    rw [← h.functions]
    exact hs.new hphase i hi
  old hphase i hi := h.owes_iff.mp (hs.old hphase i hi)
  members := hs.members
  symbol := hs.symbol

end Alike

end Compiler

namespace Emit

variable {s₀ : Compiler} {id : EntityId}

theorem safely_registerName (site : Site) :
    Safely s₀.Rests (registerName id site) fun _ => s₀.Alike := by
  unfold registerName
  split
  · exact .pure fun _ hs => hs.alike
  · refine .of_forall fun s hs => safely_get.bind fun v => .of_and fun hv => ?_
    subst hv
    dsimp only
    split
    · exact fun _ _ _ => { hs.alike with }
    · exact safely_refuse _ _

theorem safely_guardHolds (view : Viewpoint) (id : EntityId) (site : Site) (phase : Phase) :
    Safely s₀.Rests (guardHolds view id site phase) fun _ => s₀.Alike := by
  unfold guardHolds
  split
  · exact .pure fun _ hs => hs.alike
  · split
    · exact .pure fun _ hs => hs.alike
    · refine rests_bind (ends_evaluateCondition view _) fun b _ => ?_
      split
      · exact (safely_registerName site).bind fun _ => .pure fun _ hs => hs
      · intro o s hs
        exact { hs.alike with size := Array.size_modify.trans hs.alike.size }

/-! ## Calls -/

variable {s s' t : Compiler} {o : Options} {phase : Phase} {site : Site}

theorem alike_guarded (hframes : s.frames = []) (hfunc : s.func = none) {b : Bool}
    (hg : guardHolds { module := site.module } id site phase o
      { s with log := s.log.push (id, phase) } = .ok b t) : s.Alike t := by
  have h := safely_guardHolds { module := site.module } id site phase o
    { s with log := s.log.push (id, phase) } (.refl hframes hfunc)
  rw [hg] at h
  exact ⟨h.symbols, h.sites, h.size, h.frames, h.func, h.functions, h.structs, h.done⟩

/-- A phase that runs settles its declaration. -/
theorem settles_runPhase (hs : s.Fit id site.decl.body phase)
    (hdue : s.Due id site.decl.body phase) (hsited : s.entities.size ≤ s.sites.size)
    (hphase : phase ∈ site.decl.body.kind.phases)
    (hg : guardHolds { module := site.module } id site phase o
      { s with log := s.log.push (id, phase) } = .ok true t) {r : EStateM.Result Failure Compiler Unit}
    (hr : phaseOf { module := site.module } id site.decl phase o t = r) :
    match r with
    | .ok _ s' => s.Settles s' id site.decl.body phase
    | .error f _ => f.isFault = true := by
  have halike := alike_guarded hs.calm.frames hs.calm.func hg
  have h := settles_phaseOf { module := site.module } (halike.fit hs)
    (hdue.after (passes_guarded hdue.whole hg)) (by rw [halike.size, halike.sites]; exact hsited)
    hphase o t rfl
  rw [hr] at h
  cases r with
  | error f s' => exact h
  | ok u s' => exact halike.settles h

end Emit

/-! ## Between calls -/

/-- The third phase is the last one. -/
theorem EntityKind.not_three_twice {k : EntityKind} {n : Nat} (h : k.phases[n]? = some .three) :
    k.phases[n + 1]? ≠ some .three := by
  cases k <;> rcases n with _ | _ | _ | n <;> cases h <;> exact fun h => by cases h

namespace Compiler

structure Neat (s : Compiler) : Prop where
  certified : ∀ f ∈ s.ir.functions, f.IsCertified
  typed : s.outer.Typed
  symbol : ∀ id site, s.sites[id]? = some site → ∀ y, s.symbols.lookup id = some y →
    site.decl.body.Shapes y
  members : ∀ id site, s.sites[id]? = some site → ∀ w ms, s.Keeps id site.decl.body w →
    s.types.membersAt w = some ms → Ir.Members s.ir.functions ms
  apart : ∀ id site, s.sites[id]? = some site → ∀ id' site', s.sites[id']? = some site' →
    ∀ i, s.Owes id site.decl.body i → s.Owes id' site'.decl.body i → id = id'
  blank : ∀ id site, s.sites[id]? = some site → s.entities.nextPhase? id = some .three →
    ∀ i p, s.Owes id site.decl.body i → s.ir.functions[i]? = some p → p.blocks = #[]

variable {s s' : Compiler} {id : EntityId} {site : Site} {phase : Phase}

theorem Neat.fit (h : s.Neat) (hframes : s.frames = []) (hfunc : s.func = none)
    (hsite : s.sites[id]? = some site) (hnext : s.entities.nextPhase? id = some phase) :
    s.Fit id site.decl.body phase where
  calm := ⟨rfl, hframes, hfunc, h.certified⟩
  typed := h.typed
  symbol := h.symbol id site hsite
  members := h.members id site hsite
  blank hphase := h.blank id site hsite (hphase ▸ hnext)

/-- A declaration that is skipped changes nothing about functions. -/
theorem Neat.skipped (h : s.Neat) (hm : s.outer.Moved s'.outer id) (ha : s.Alike s')
    (hnone : s'.entities.nextPhase? id = none) : s'.Neat where
  certified := ha.functions ▸ h.certified
  typed := by
    unfold Outer.Typed
    rw [show s'.outer.symbols = s.outer.symbols from ha.symbols]
    exact h.typed
  symbol := ha.sites ▸ ha.symbols ▸ h.symbol
  members j site' hsite' w ms hw hms := by
    rw [ha.sites] at hsite'
    rw [ha.membersAt] at hms
    exact ha.functions ▸ h.members j site' hsite' w ms (ha.keeps_iff.mp hw) hms
  apart j site' hsite' k site'' hsite'' i hi hi' := by
    rw [ha.sites] at hsite' hsite''
    exact h.apart j site' hsite' k site'' hsite'' i (ha.owes_iff.mp hi) (ha.owes_iff.mp hi')
  blank j site' hsite' hn i p hi hp := by
    have hj : j ≠ id := by
      rintro rfl
      rw [hnone] at hn
      cases hn
    rw [ha.sites] at hsite'
    rw [ha.functions] at hp
    exact h.blank j site' hsite' ((nextPhase_of_moved hm hj).symm.trans hn) i p
      (ha.owes_iff.mp hi) hp

/-- A phase that settles its declaration leaves those of others as they were. -/
theorem Neat.settles (h : s.Neat) (ha : s.Accounts) (hm : s.outer.Moved s'.outer id)
    (hsite : s.sites[id]? = some site) (he : s.Effect s' id site.decl.body phase)
    (hset : s.Settles s' id site.decl.body phase)
    (hlast : s'.entities.nextPhase? id = some .three → phase ≠ .three) : s'.Neat := by
  have hsites : s'.sites = s.sites := sites_of_moved hm
  have hold {j : EntityId} {site' : Site} (hj : j ≠ id) (hsite' : s.sites[j]? = some site')
      {i : Ir.FunctionId} : s'.Owes j site'.decl.body i ↔ s.Owes j site'.decl.body i :=
    owes_of_moved hm hj fun w hw => (ha.other hsite he hj hsite' hw).2
  have hlt {j : EntityId} {site' : Site} (hsite' : s.sites[j]? = some site')
      {i : Ir.FunctionId} (hi : s.Owes j site'.decl.body i) : i < s.ir.functions.size := by
    obtain ⟨f, hf, -⟩ := ha.owed j site' hsite' i hi
    exact (Array.getElem?_eq_some_iff.mp hf).1
  -- what this declaration owes, no other one did
  have hapart {j : EntityId} {site' : Site} (hj : j ≠ id) (hsite' : s.sites[j]? = some site')
      {i : Ir.FunctionId} (hi : s.Owes j site'.decl.body i) : ¬s'.Owes id site.decl.body i := by
    intro hi'
    by_cases hphase : phase = .three
    · exact hj (h.apart j site' hsite' id site hsite i hi (hset.old hphase i hi'))
    · exact absurd (hset.new hphase i hi') (Nat.not_le.mpr (hlt hsite' hi))
  refine ⟨hset.fills.certified h.certified, fun j i ty hy => ?_, fun j site' hsite' y hy => ?_,
    fun j site' hsite' w ms hw hms => ?_, fun j site' hsite' k site'' hsite'' i hi hi' => ?_,
    fun j site' hsite' hn i p hi hp => ?_⟩
  all_goals try rw [hsites] at hsite'
  · by_cases hj : j = id
    · subst hj
      exact (hset.symbol _ hy).typed i ty rfl
    · exact h.typed j i ty ((hm.lookup j hj).symm.trans hy)
  · by_cases hj : j = id
    · subst hj
      cases hsite.symm.trans hsite'
      exact hset.symbol y hy
    · exact h.symbol j site' hsite' y ((hm.lookup j hj).symm.trans hy)
  · by_cases hj : j = id
    · subst hj
      cases hsite.symm.trans hsite'
      exact hset.members w ms hw hms
    · have hw := (keeps_of_moved hm hj).mp hw
      rw [(ha.other hsite he hj hsite' hw).2] at hms
      exact (h.members j site' hsite' w ms hw hms).mono hset.fills fun m hm =>
        hlt hsite' (.inr ⟨w, ms, m, hw, hms, hm, rfl⟩)
  · rw [hsites] at hsite''
    by_cases hj : j = id <;> by_cases hk : k = id
    · exact hj.trans hk.symm
    · subst hj
      cases hsite.symm.trans hsite'
      exact absurd hi (hapart hk hsite'' ((hold hk hsite'').mp hi'))
    · subst hk
      cases hsite.symm.trans hsite''
      exact absurd hi' (hapart hj hsite' ((hold hj hsite').mp hi))
    · exact h.apart j site' hsite' k site'' hsite'' i ((hold hj hsite').mp hi)
        ((hold hk hsite'').mp hi')
  · refine by_contra fun hne => ?_
    by_cases hj : j = id
    · subst hj
      cases hsite.symm.trans hsite'
      have hphase := hlast hn
      rcases hset.fills.blank i p hp hne with hpaid | ⟨q, hq, -⟩
      · exact hphase hpaid.1
      · have := (Array.getElem?_eq_some_iff.mp hq).1
        exact absurd (hset.new hphase i hi) (Nat.not_le.mpr this)
    · have hi := (hold hj hsite').mp hi
      rcases hset.fills.blank i p hp hne with ⟨hphase, hpaid⟩ | ⟨q, hq, hne'⟩
      · exact hj (h.apart j site' hsite' id site hsite i hi hpaid)
      · exact hne' (h.blank j site' hsite' ((nextPhase_of_moved hm hj).symm.trans hn) i q hi hq)

end Compiler

variable {o : Options} {s s' : Compiler}

/-- Where the phases begin, there are no functions. -/
theorem Compiler.Fresh.neat (h : s.Fresh (Compiler.ofOptions o).core) : s.Neat := by
  have hlookup (id : EntityId) (y : Symbol) : s.symbols.lookup id ≠ some y := by
    rw [h.symbols]
    exact fun hy => by cases hy
  have hfunctions : s.ir.functions = #[] := congrArg (·.ir.functions) h.core
  have hkeeps (id : EntityId) (body : DeclBody) (w : Home) : ¬s.Keeps id body w :=
    fun ⟨y, hy, _⟩ => hlookup id y hy
  have howes (id : EntityId) (body : DeclBody) (i : Ir.FunctionId) : ¬s.Owes id body i := by
    rintro (⟨y, hy, -⟩ | ⟨w, ms, m, hw, -⟩)
    · exact hlookup id y hy
    · exact hkeeps id body w hw
  refine ⟨fun f hf => ?_, fun id i ty hy => absurd hy (hlookup id _),
    fun id _ _ y hy => absurd hy (hlookup id y), fun id _ _ w _ hw => absurd hw (hkeeps id _ w),
    fun id _ _ _ _ _ i hi => absurd hi (howes id _ i),
    fun id _ _ _ i _ hi => absurd hi (howes id _ i)⟩
  rw [hfunctions] at hf
  exact absurd hf (Array.not_mem_empty f)

structure Compiler.Sane (s : Compiler) : Prop extends s.Ready, s.Accounts, s.Neat

namespace Compiler.Sane

theorem fit (h : s.Sane) {id : EntityId} {site : Site} {phase : Phase}
    (hsite : s.sites[id]? = some site) (hnext : s.entities.nextPhase? id = some phase) :
    s.Fit id site.decl.body phase :=
  h.toNeat.fit h.frames h.whole.func hsite hnext

theorem mem_phases (h : s.Sane) {id : EntityId} {site : Site} {phase : Phase}
    (hsite : s.sites[id]? = some site) (hnext : s.entities.nextPhase? id = some phase) :
    phase ∈ site.decl.body.kind.phases := by
  obtain ⟨e, he, hp⟩ := EntityGraph.get?_of_nextPhase? hnext
  rw [← h.coherent.kind id site e hsite he]
  exact List.mem_of_getElem? hp

end Compiler.Sane

theorem Compiler.Fresh.sane (h : s.Fresh (Compiler.ofOptions o).core) : s.Sane :=
  ⟨h.ready, h.accounts, h.neat⟩

/-- Every call keeps functions certified. -/
theorem preserves_neat (o : Options) : (compileHost o).Preserves Compiler.Sane := by
  intro p id s s' hs ha hd hr
  obtain ⟨⟨hready', haccounts'⟩, ha'⟩ :=
    preserves_accounts o p id s s' ⟨hs.toReady, hs.toAccounts⟩ ha hd hr
  refine ⟨⟨hready', haccounts', ?_⟩, ha'⟩
  obtain ⟨site, hsite⟩ := site_of_due hs.toReady hd
  obtain ⟨hnext, hready⟩ := Host.due_iff.mp hd
  obtain ⟨e, he, hp⟩ := EntityGraph.get?_of_nextPhase? hnext
  obtain ⟨b, t, hg, hrun⟩ := Emit.runPhase_ok hsite hr
  rcases hrun with ⟨rfl, rfl⟩ | ⟨rfl, hrun⟩
  · have hskips := Emit.skips_runPhase hs.coherent hs.frames hsite hready hg
    have hmoved := hs.coherent.moved hsite hnext (.inr hskips)
    have halike := Emit.alike_guarded hs.frames hs.whole.func hg
    refine hs.toNeat.skipped hmoved { halike with size := ?_ } hskips.nextPhase?
    exact hmoved.size
  · obtain ⟨hruns, heffect⟩ := Emit.effect_runPhase hs.coherent hs.frames hsite hnext hready
      (settled_of_ahead ha) (hs.toAccounts.due hsite hnext) hg hrun
    have hmoved := hs.coherent.moved hsite hnext (.inl hruns)
    have hset : s.Settles s' id site.decl.body p := Emit.settles_runPhase (hs.fit hsite hnext)
      (hs.toAccounts.due hsite hnext) hs.coherent.size.ge (hs.mem_phases hsite hnext) hg hrun
    have hgraph : s'.Passes ((compileHost o).finished p id s') fun _ => False :=
      Compiler.passes_of_core heffect.whole rfl rfl
    refine hs.toNeat.settles hs.toAccounts hmoved hsite (heffect.next hgraph)
      ⟨hset.fills, hset.new, hset.old, hset.members, hset.symbol⟩ fun hthree hphase => ?_
    have hafter := (hruns.nextPhase? he hp).symm.trans hthree
    subst hphase
    exact absurd hafter (EntityKind.not_three_twice hp)

end Staged
