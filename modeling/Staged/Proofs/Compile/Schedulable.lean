/-
  Staged.Proofs.Compile.Schedulable — which programs are scheduled.

  In a program without guards and brings, all ask for what they have always asked for
  (`Compiler.Steady`). Its declarations are never stuck if they can be scheduled, that is, if what
  they need is there, not after the phase it is needed for, and nothing waits for itself. So the
  phases of such a program end as they should: they run through or a call fails if it can be
  scheduled, and a call fails or declarations are stuck if it cannot (`phases_end`).

  A bring looks up its names in the first phase. Whatever it brings has to begin there, and so no
  program compiles that brings a global (`uses_begin`, `brings_no_global`).

  Types ask for types. Type definitions need in the first phase that the types they mention are
  begun, and all types need in the second one that those are complete which they contain; a
  future contains what it promises. A program of types is never stuck unless type definitions
  mention each other in a circle or types contain each other in one (`types_schedule`).
-/

import Staged.Proofs.Compile.Order

namespace Staged

variable {o : Options} {p : Program} {s s' : Compiler} {id x y : EntityId} {site target : Site}
  {d : Dependency} {phase : Phase}

/-! ## What is stuck -/

def Compiler.Fixed (s : Compiler) : Prop :=
  ∀ (x : EntityId) (site : Site), s.sites[x]? = some site →
    site.decl.guard = none ∧ site.decl.body.kind ≠ .bring

structure Compiler.Steady (start s : Compiler) : Prop where
  ready : s.Ready
  sites : s.sites = start.sites
  exact : s.entities.Exact
  deps : ∀ x e, s.entities.get? x = some e →
    ∃ e₀, start.entities.get? x = some e₀ ∧ e.deps = e₀.deps

theorem preserves_steady (o : Options) {start : Compiler} (hfixed : start.Fixed) :
    (compileHost o).Preserves start.Steady := by
  intro p id s s' hs ha hd hr
  obtain ⟨hready, ha'⟩ := preserves_ready o p id s s' hs.ready ha hd hr
  obtain ⟨site, hsite⟩ := site_of_due hs.ready hd
  have hcomes := comes_run hs.ready ha hd hsite
  rw [hr] at hcomes
  obtain ⟨-, hmoves⟩ := hcomes
  have hmoved := hs.ready.coherent.moved hsite (Host.due_iff.mp hd).1 hmoves
  obtain ⟨hguard, hbring⟩ := hfixed id site (by rw [← hs.sites, hsite])
  have hruns := hmoves.resolve_right fun hskips => hskips.guarded hguard
  have hentities : s'.entities = s.entities := by
    have hsame : ∀ ω', s.outer.Runs id site p ω' → ω'.entities = s.entities := by
      intro ω' h
      cases h with
      | defined => rfl
      | continued => rfl
      | brought _ _ _ _ hkind => exact absurd hkind hbring
    exact hsame s'.outer hruns
  refine ⟨⟨hready, hmoved.sites.trans hs.sites,
    (closed_compileHost o).exact_finished hs.exact hd hr, fun x e he => ?_⟩, ha'⟩
  rw [show ((compileHost o).finished p id s').entities =
    s'.entities.modify id (Entity.finish p) from rfl, hentities, EntityGraph.get?_modify] at he
  split at he
  · obtain ⟨e', he', rfl⟩ := Option.map_eq_some_iff.mp he
    rw [Entity.deps_finish]
    exact hs.deps x e' he'
  · exact hs.deps x e he

/-- A dependency of an entity is something that was collected for its declaration. -/
theorem Registers.needs (h : Registers p o s) (hfixed : s.Fixed) (hs : s.Steady s') {e : Entity}
    (he : s'.entities.get? x = some e) {q : Phase} (hq : e.nextPhase? = some q) (hd : d ∈ e.deps)
    (hle : d.phase.le q = true) : s.Needs x q d := by
  obtain ⟨e₀, he₀, hdeps⟩ := hs.deps x e he
  have hlt : x < s.sites.size := h.fresh.1.size.symm ▸ EntityGraph.lt_size_of_get? he₀
  have hsite := Array.getElem?_eq_getElem hlt
  have hmerges := Entity.merges_nil.mergeDeps ((s.collected x s.sites[x]).filter (·.entity ≠ x))
  rw [List.nil_append, ← h.collected x _ e₀ hsite he₀, ← hdeps] at hmerges
  obtain ⟨hcollected, hne⟩ := List.mem_filter.mp (hmerges.strongest d hd).1
  have hkind := hs.ready.coherent.kind x s.sites[x] e (by rw [show s'.outer.sites = s'.sites from
    rfl, hs.sites, hsite]) he
  have hphase : q ∈ s.sites[x].decl.body.kind.phases := hkind ▸ List.mem_of_getElem? hq
  exact ⟨⟨_, hsite, (hfixed x _ hsite).1, hphase, hcollected⟩, of_decide_eq_true hne, hle⟩

/-- Whatever a stuck entity misses, its declaration needs it, and it is not for a later phase. -/
theorem Registers.needs_missing (h : Registers p o s) (hfixed : s.Fixed) (hs : s.Steady s')
    (hschedulable : s.Schedulable) {report : StuckReport} (hb : Host.Blocked s'.entities report)
    {x : Stuck} (hx : x ∈ report.stuck) (hd : d ∈ x.missing) :
    s.Needs x.id report.phase d ∧ s'.entities.isSatisfied d = false ∧
      ∃ e, s'.entities.get? d.entity = some e ∧ s.Gives d (e.kind.metAfter d.need) := by
  obtain ⟨e, he, hunmet⟩ := hb.missing x hx
  obtain ⟨hd, hle, hunsatisfied⟩ := (hunmet d).mp hd
  have hnext : e.nextPhase? = some report.phase := by
    rw [← EntityGraph.nextPhase?_of_get? he]
    exact (hb.contains x.id).mp (List.any_eq_true.mpr ⟨x, hx, beq_self_eq_true _⟩)
  have hneeds := h.needs hfixed hs he hnext hd hle
  obtain ⟨target, htarget⟩ := hschedulable.there _ _ d hneeds
  have htarget' : s'.sites[d.entity]? = some target := by rw [hs.sites, htarget]
  have hlt : d.entity < s'.entities.size :=
    hs.ready.coherent.size ▸ (Array.getElem?_eq_some_iff.mp htarget').1
  have hentity := Array.getElem?_eq_getElem hlt
  have hkind := hs.ready.coherent.kind d.entity target _ htarget' hentity
  exact ⟨hneeds, hunsatisfied, _, hentity, target, htarget, (hfixed _ target htarget).1,
    by rw [hkind]⟩

/-- Without guards and brings, entities are stuck only if their declarations cannot be
scheduled. -/
theorem Compiler.Schedulable.not_sticks (hs : s.Schedulable) (hreg : Registers p o s)
    (hfixed : s.Fixed) :
    ¬(compileHost o).Sticks ((compileHost o).trace s) ((compileHost o).runPhases s) := by
  intro hsticks
  have hsteady₀ : s.Steady s :=
    ⟨hreg.fresh.1.ready, rfl, hreg.exact, fun x e he => ⟨e, he, rfl⟩⟩
  have hsteady := (preserves_steady o hfixed).sticks hsteady₀ hsticks
  obtain ⟨t, report, hr, -, hb⟩ := hsticks
  rw [hr] at hsteady
  have hneeds {x : Stuck} (hx : x ∈ report.stuck) {d : Dependency} (hd : d ∈ x.missing) :=
    hreg.needs_missing hfixed hsteady hs hb hx hd
  obtain ⟨id, hround⟩ := hb.circle hsteady.exact fun x hx d hd hlate => by
    obtain ⟨hneeds, -, e, he, hgives⟩ := hneeds hx hd
    exact Nat.not_lt_of_le (Phase.le_iff.mp (hs.inTime _ _ d _ hneeds hgives)) (hlate e he)
  refine hs.acyclic report.phase id (Relation.TransGen.mono (fun a b hab => ?_) _ _ hround)
  -- the one that is missed is stuck in the same phase, so it is that phase which it is missed for
  obtain ⟨⟨x, hx, rfl, d, hd, rfl⟩, y, hy, hyd⟩ := hab
  obtain ⟨hneeds, hunmet, e, he, hgives⟩ := hneeds hx hd
  obtain ⟨q, hq, hmet⟩ := hsteady.exact.unmet hunmet he
  have hnext := (hb.contains d.entity).mp (List.any_eq_true.mpr ⟨y, hy, beq_iff_eq.mpr hyd⟩)
  have hsame : q = report.phase :=
    Option.some.inj (((EntityGraph.nextPhase?_of_get? he).trans hq).symm.trans hnext)
  have hphase := Phase.le_antisymm (hs.inTime _ _ d _ hneeds hgives) (hsame ▸ hmet)
  exact ⟨d, hneeds, rfl, hphase ▸ hgives⟩

/-- Without guards and brings: a program that can be scheduled has its phases run through, unless
a call fails; one that cannot be scheduled has a call that fails or entities that are stuck. -/
theorem phases_end (hreg : Registers p o s) (hfixed : s.Fixed) :
    let host := compileHost o
    let calls := host.trace s
    let r := host.runPhases s
    (s.Schedulable ∧ (host.Completes calls r ∨ Host.Breaks calls r)) ∨
      (¬s.Schedulable ∧ (Host.Breaks calls r ∨ host.Sticks calls r)) := by
  intro host calls r
  have hends : host.Completes calls r ∨ Host.Breaks calls r ∨ host.Sticks calls r :=
    (closed_compileHost o).ends s
  by_cases hs : s.Schedulable
  · exact .inl ⟨hs, hends.imp_right (·.resolve_right (hs.not_sticks hreg hfixed))⟩
  · refine .inr ⟨hs, hends.resolve_left ?_⟩
    rintro ⟨stats, t, hr, -⟩
    exact hs (schedulable_of_ok hreg hr)

/-! ## Uses -/

/-- What is meant by a use of an unguarded declaration is needed by every phase of it that the
use is for, or a later one. -/
theorem Compiler.needs_of_meant {u : Use} {q : Phase} (hsite : s.sites[x]? = some site)
    (hguard : site.decl.guard = none) (hq : q ∈ site.decl.body.kind.phases)
    (hu : u ∈ site.decl.body.uses) (hle : u.phase.le q = true)
    (hmeant : s.modules.meant? { module := site.module } u = some y) (hne : y ≠ x) :
    ∃ need, s.Needs x q ⟨y, need, u.phase⟩ := by
  obtain ⟨need, hneed⟩ := UseSite.mem_dependencies_of_meant
    { tree := s.modules, view := { module := site.module }
      pendingBrings := Emit.pendingFor s x site } hmeant
  exact ⟨need, ⟨site, hsite, hguard, hq, List.mem_flatMap.mpr
    ⟨u, List.mem_append_right _ hu, hneed⟩⟩, hne, hle⟩

theorem EntityKind.firstPhase_le_metAfter (k : EntityKind) (n : Need) :
    k.firstPhase.le (k.metAfter n) = true := by
  cases k <;> cases n <;> decide

/-- What a declaration uses for a phase begins by then: so in every program whose phases succeed,
for unguarded declarations. -/
theorem uses_begin (hreg : Registers p o s) {stats : Stats}
    (hr : (compileHost o).runPhases s = .ok stats s') {u : Use} {q : Phase}
    (hsite : s.sites[x]? = some site) (hguard : site.decl.guard = none)
    (hq : q ∈ site.decl.body.kind.phases) (hu : u ∈ site.decl.body.uses)
    (hle : u.phase.le q = true) (hmeant : s.modules.meant? { module := site.module } u = some y)
    (htarget : s.sites[y]? = some target) (htguard : target.decl.guard = none) (hne : y ≠ x) :
    target.decl.body.kind.firstPhase.le q = true := by
  obtain ⟨need, hneeds⟩ := s.needs_of_meant hsite hguard hq hu hle hmeant hne
  have hmet := (schedulable_of_ok hreg hr).inTime x q _ _ hneeds ⟨target, htarget, htguard, rfl⟩
  exact Phase.le_trans (EntityKind.firstPhase_le_metAfter _ need) hmet

theorem allAt_bring (b : BringDecl) : AllAt .one (DeclBody.bring b).uses := by
  refine allAt_flatMap fun item => ?_
  cases item with
  | path path asName => exact QName.allAt_uses .one [] .partially path
  | members source names => exact allAt_flatMap fun n => QName.allAt_uses .one [] .partially _
  | file path asName range => exact allAt_nil .one

/-- No program compiles in which a bring names a global, and no guard decides on either. -/
theorem brings_no_global (hreg : Registers p o s) {b : BringDecl} {g : GlobalDecl} {u : Use}
    (hsite : s.sites[x]? = some site) (hguard : site.decl.guard = none)
    (hbring : site.decl.body = .bring b) (hu : u ∈ b.items.flatMap BringItem.uses)
    (hmeant : s.modules.meant? { module := site.module } u = some y)
    (htarget : s.sites[y]? = some target) (htguard : target.decl.guard = none)
    (hglobal : target.decl.body = .global g) : ∀ out, compile p o ≠ .ok out := by
  intro out h
  obtain ⟨s₀, stats, t, hreg₀, hr, -⟩ := compile_output h
  obtain rfl : s₀ = s := (EStateM.Result.ok.inj (hreg₀.symm.trans hreg)).2
  have hne : y ≠ x := by
    rintro rfl
    rw [htarget] at hsite
    cases hsite
    rw [hglobal] at hbring
    cases hbring
  have hu' : u ∈ site.decl.body.uses := by rw [hbring]; exact hu
  have hle : u.phase.le .one = true := by rw [allAt_bring b u hu]; rfl
  have hq : Phase.one ∈ site.decl.body.kind.phases := by
    rw [hbring]
    exact List.mem_singleton.mpr rfl
  have hbegins := uses_begin hreg hr hsite hguard hq hu' hle hmeant htarget htguard hne
  rw [hglobal] at hbegins
  cases hbegins

/-! ## Types -/

def DeclBody.IsType : DeclBody → Prop
  | .struct d => d.members = []
  | .mix _ | .typeDef _ => True
  | _ => False

def Expr.isNumber : Expr → Bool
  | .int _ _ suffix => suffix.isNone
  | _ => false

mutual

def TypeExpr.hasLengths : TypeExpr → Bool
  | .array _ element length => element.hasLengths && length.isNumber
  | .mark _ sub owner _ _ _ => sub.hasLengths && ownerHasLengths owner
  | .ref _ sub _ | .vector _ sub _ _ | .future _ sub _ | .maybe _ sub | .typed _ sub =>
    sub.hasLengths
  | .tuple _ members _ => typesHaveLengths members
  | .function _ result args _ => result.hasLengths && typesHaveLengths args
  | .named .. | .int .. | .uint .. | .float .. | .bool _ | .char _ | .void _ | .str _
  | .native .. => true

def ownerHasLengths : Owner TypeExpr → Bool
  | .type owner => owner.hasLengths
  | .anonymous | .heap => true

def typesHaveLengths : List TypeExpr → Bool
  | [] => true
  | ty :: tys => ty.hasLengths && typesHaveLengths tys

end

def AllInPart (us : List Use) : Prop := ∀ u ∈ us, u.need = .partially

theorem allInPart_append {us vs : List Use} :
    AllInPart (us ++ vs) ↔ AllInPart us ∧ AllInPart vs := by
  simp only [AllInPart, List.mem_append]
  grind

theorem Expr.uses_of_isNumber {e : Expr} (h : e.isNumber = true) (phase : Phase)
    (locals : List String) : e.uses phase locals = [] := by
  cases e with
  | int range value suffix =>
    cases suffix with
    | none => rw [Expr.uses, suffixUses]
    | some ty => cases h
  | _ => cases h

section

variable (phase : Phase) (locals : List String)

mutual

/-- A type of which a part is asked for asks for parts. -/
theorem TypeExpr.allInPart_uses : ∀ ty : TypeExpr, ty.hasLengths = true →
    AllInPart (ty.uses phase locals .partially)
  | .named _ name, _ => by
    intro u hu
    rw [TypeExpr.uses] at hu
    rw [List.mem_singleton.mp hu]
  | .mark _ sub owner _ _ _, h => by
    rw [TypeExpr.hasLengths, Bool.and_eq_true] at h
    rw [TypeExpr.uses, allInPart_append]
    exact ⟨sub.allInPart_uses h.1, allInPart_ownerUses owner h.2⟩
  | .array _ element length, h => by
    rw [TypeExpr.hasLengths, Bool.and_eq_true] at h
    rw [TypeExpr.uses, Expr.uses_of_isNumber h.2, List.append_nil]
    exact element.allInPart_uses h.1
  | .function _ result args _, h => by
    rw [TypeExpr.hasLengths, Bool.and_eq_true] at h
    rw [TypeExpr.uses, allInPart_append]
    exact ⟨result.allInPart_uses h.1, allInPart_typesUses args h.2⟩
  | .tuple _ members _, h => by
    rw [TypeExpr.hasLengths] at h
    rw [TypeExpr.uses]
    exact allInPart_typesUses members h
  | .ref _ sub _, h | .vector _ sub _ _, h | .future _ sub _, h | .maybe _ sub, h
  | .typed _ sub, h => by
    rw [TypeExpr.hasLengths] at h
    rw [TypeExpr.uses]
    exact sub.allInPart_uses h
  | .int .., _ | .uint .., _ | .float .., _ | .bool _, _ | .char _, _ | .void _, _ | .str _, _
  | .native .., _ => by
    rw [TypeExpr.uses]
    exact nofun

theorem allInPart_ownerUses : ∀ owner : Owner TypeExpr, ownerHasLengths owner = true →
    AllInPart (ownerUses phase locals owner)
  | .type owner, h => by
    rw [ownerHasLengths] at h
    rw [ownerUses]
    exact owner.allInPart_uses h
  | .anonymous, _ | .heap, _ => by
    rw [ownerUses]
    exact nofun

theorem allInPart_typesUses : ∀ tys : List TypeExpr, typesHaveLengths tys = true →
    AllInPart (typesUses phase locals .partially tys)
  | [], _ => by
    rw [typesUses]
    exact nofun
  | ty :: tys, h => by
    rw [typesHaveLengths, Bool.and_eq_true] at h
    rw [typesUses, allInPart_append]
    exact ⟨ty.allInPart_uses h.1, allInPart_typesUses tys h.2⟩

end

end

/-- A program of types: structs without members, mixes and type definitions, none of them guarded.
Lengths in type definitions are written as numbers, and names mean types. -/
structure Compiler.OfTypes (s : Compiler) : Prop where
  isType : ∀ (x : EntityId) (site : Site), s.sites[x]? = some site →
    site.decl.guard = none ∧ site.decl.body.IsType
  lengths : ∀ (x : EntityId) (site : Site) d, s.sites[x]? = some site →
    site.decl.body = .typeDef d → d.type.hasLengths = true
  names : ∀ (x : EntityId) (site : Site) u, s.sites[x]? = some site → u ∈ site.decl.body.uses →
    ∃ item, s.modules.resolve site.module u.name { module := site.module } = .ok (.item item) ∧
      item.kind ∈ [.struct, .mix, .typeDef]

def Compiler.Mentions (s : Compiler) (x y : EntityId) : Prop :=
  ∃ site d u, s.sites[x]? = some site ∧ site.decl.body = .typeDef d ∧
    u ∈ d.type.uses .one [] .partially ∧
    s.modules.meant? { module := site.module } u = some y

def Compiler.Contains (s : Compiler) (x y : EntityId) : Prop :=
  ∃ site u, s.sites[x]? = some site ∧ u ∈ site.decl.body.uses ∧ u.phase = .two ∧
    u.need = .complete ∧ s.modules.meant? { module := site.module } u = some y

/-- Types use types in the second phase; type definitions also do in the first one. -/
theorem DeclBody.IsType.uses {body : DeclBody} (h : body.IsType) {u : Use} (hu : u ∈ body.uses) :
    u.phase = .two ∨ ∃ d, body = .typeDef d ∧ u ∈ d.type.uses .one [] .partially := by
  cases body with
  | struct d =>
    have hmembers : d.members = [] := h
    rw [DeclBody.uses, hmembers] at hu
    rcases List.mem_append.mp hu with hu | hu
    · exact .inl (allAt_flatMap (fun f : FieldDecl => f.type.allAt_uses .two [] .complete) u hu)
    · cases hu
  | mix d =>
    exact .inl (allAt_flatMap (fun v : MixVariantDecl => allAt_typeUses _ _ v.payload) u hu)
  | typeDef d =>
    rcases List.mem_append.mp hu with hu | hu
    · exact .inr ⟨d, rfl, hu⟩
    · exact .inl (d.type.allAt_uses .two [] .complete u hu)
  | _ => cases h

/-- Types begin in the first phase, and are complete after the second. -/
theorem DeclBody.IsType.metAfter {body : DeclBody} (h : body.IsType) (n : Need) :
    body.kind.metAfter n = match n with
      | .partially => .one
      | .complete => .two := by
  cases body <;> cases n <;> first | rfl | cases h

theorem DeclBody.IsType.kind_ne_bring {body : DeclBody} (h : body.IsType) :
    body.kind ≠ .bring := by
  intro hkind
  cases body with
  | bring => cases h
  | _ => cases hkind

namespace Compiler.OfTypes

/-- What is collected for a type is what its uses mean and need. -/
theorem use_of_collected (h : s.OfTypes) (hsite : s.sites[x]? = some site)
    (hd : d ∈ s.collected x site) : ∃ u ∈ site.decl.body.uses,
      s.modules.meant? { module := site.module } u = some d.entity ∧ d.need = u.need ∧
        d.phase = u.phase := by
  obtain ⟨u, hu, hd⟩ := List.mem_flatMap.mp hd
  have hu : u ∈ site.decl.body.uses := by
    rw [EntityDecl.uses, (h.isType x site hsite).1, optionUses] at hu
    exact hu
  obtain ⟨item, hitem, hkind⟩ := h.names x site u hsite hu
  rw [UseSite.dependencies] at hd
  split at hd
  · cases hd
  · rename_i hlocal
    simp only [hitem, List.mem_singleton] at hd
    subst hd
    refine ⟨u, hu, ?_, ?_, rfl⟩
    · have hends : s.modules.endsInMember { module := site.module } u.name = false := by
        simp only [ModuleTree.endsInMember, hitem]
      unfold ModuleTree.meant?
      rw [if_neg (show ¬u.isLocal = true from hlocal), hends]
      exact (s.modules.entityNamed?_eq_some).mpr ⟨item, hitem, rfl⟩
    · simp only [List.mem_cons, List.not_mem_nil, or_false] at hkind
      rcases hkind with hkind | hkind | hkind <;> rw [hkind] <;> rfl

/-- In the first phase only parts are needed, and only of type definitions. -/
theorem needs_cases (h : s.OfTypes) {q : Phase} (hneeds : s.Needs x q d) :
    (d.phase = .one ∧ d.need = .partially ∧ s.Mentions x d.entity) ∨
      d.phase = .two ∧ (d.need = .complete → s.Contains x d.entity) := by
  obtain ⟨site, hsite, -, -, hd⟩ := hneeds.collected
  obtain ⟨u, hu, hmeant, hneed, hphase⟩ := h.use_of_collected hsite hd
  rcases (h.isType x site hsite).2.uses hu with htwo | ⟨def', hbody, hu'⟩
  · exact .inr ⟨hphase.trans htwo, fun hc => ⟨site, u, hsite, hu, htwo, hneed ▸ hc, hmeant⟩⟩
  · refine .inl ⟨hphase.trans (def'.type.allAt_uses .one [] .partially u hu'), ?_,
      site, def', u, hsite, hbody, hu', hmeant⟩
    exact hneed.trans (def'.type.allInPart_uses .one [] (h.lengths x site def' hsite hbody) u hu')

theorem gives_cases (h : s.OfTypes) {m : Phase} (hgives : s.Gives d m) :
    d.need = .partially ∧ m = .one ∨ d.need = .complete ∧ m = .two := by
  obtain ⟨target, htarget, -, rfl⟩ := hgives
  have hmet := (h.isType d.entity target htarget).2.metAfter
  cases hneed : d.need with
  | partially => exact .inl ⟨rfl, hmet .partially⟩
  | complete => exact .inr ⟨rfl, hmet .complete⟩

/-- Types can be scheduled if type definitions do not mention each other in a circle and types do
not contain each other in one. -/
theorem schedulable (h : s.OfTypes) (hreg : Registers p o s)
    (hmentions : ∀ x, ¬Relation.TransGen s.Mentions x x)
    (hcontains : ∀ x, ¬Relation.TransGen s.Contains x x) : s.Schedulable where
  there x q d hneeds := by
    obtain ⟨site, hsite, -, -, hd⟩ := hneeds.collected
    obtain ⟨u, -, hmeant, -, -⟩ := h.use_of_collected hsite hd
    obtain ⟨i, hi, -, target, -, htarget, -⟩ := hreg.fresh.1.items.meant? hmeant
    exact ⟨target, hi ▸ htarget⟩
  inTime x q d m hneeds hgives := by
    rcases h.gives_cases hgives with ⟨-, rfl⟩ | ⟨hneed, rfl⟩
    · cases q <;> rfl
    · rcases h.needs_cases hneeds with ⟨-, hpart, -⟩ | ⟨hphase, -⟩
      · rw [hneed] at hpart
        cases hpart
      · exact hphase ▸ hneeds.early
  acyclic q x hround := by
    cases q with
    | one =>
      refine hmentions x (Relation.TransGen.mono (fun a b hab => ?_) _ _ hround)
      obtain ⟨d, hneeds, rfl, -⟩ := hab
      rcases h.needs_cases hneeds with ⟨-, -, hmentions⟩ | ⟨hphase, -⟩
      · exact hmentions
      · have hearly := hneeds.early
        rw [hphase] at hearly
        cases hearly
    | two =>
      refine hcontains x (Relation.TransGen.mono (fun a b hab => ?_) _ _ hround)
      obtain ⟨d, hneeds, rfl, hgives⟩ := hab
      have hcomplete : d.need = .complete :=
        ((h.gives_cases hgives).resolve_left fun hone => nomatch hone.2).1
      rcases h.needs_cases hneeds with ⟨-, hpart, -⟩ | ⟨-, hcontains⟩
      · rw [hcomplete] at hpart
        cases hpart
      · exact hcontains hcomplete
    | three =>
      obtain ⟨y, ⟨d, -, -, hgives⟩, -⟩ := Relation.TransGen.head'_iff.mp hround
      rcases h.gives_cases hgives with ⟨-, hm⟩ | ⟨-, hm⟩ <;> cases hm

end Compiler.OfTypes

/-- The types of a program are never stuck, unless type definitions mention each other in a circle
or types contain each other in one. -/
theorem types_schedule (hreg : Registers p o s) (h : s.OfTypes)
    (hmentions : ∀ x, ¬Relation.TransGen s.Mentions x x)
    (hcontains : ∀ x, ¬Relation.TransGen s.Contains x x) :
    ¬(compileHost o).Sticks ((compileHost o).trace s) ((compileHost o).runPhases s) := by
  refine (h.schedulable hreg hmentions hcontains).not_sticks hreg fun x site hsite => ?_
  obtain ⟨hguard, htype⟩ := h.isType x site hsite
  exact ⟨hguard, htype.kind_ne_bring⟩

end Staged
