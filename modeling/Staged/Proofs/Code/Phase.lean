/-
  Staged.Proofs.Code.Phase — every phase has its effect.

  A function is declared in its first phase, and members in the phase that lays out what
  keeps them. The third phase lowers the bodies of exactly the functions that were
  declared before. The guard of a declaration comes before its first phase; it changes no
  code.

  Main statements: `Emit.runPhase_ok`, `Emit.skips_runPhase` and `Emit.effect_runPhase`. A
  call that succeeds skips its declaration, or has the effect of its phase.
-/

import Staged.Proofs.Code.Effect
import Staged.Proofs.Compile.Phase

namespace Staged

namespace Emit

variable {o : Options} {s s₀ s' t : Compiler} {view : Viewpoint} {id : EntityId} {E : Extent}
  {P : Prop} {u : Unit} {body : DeclBody} {w : Home} {ms : List MemberFunction}

/-! ## Functions -/

/-- The function of a declaration with a body is added. -/
theorem effect_declared {f : Ir.Function} {d : FunctionDecl} {ty : Ty} (h : s.Quiet s₀)
    (hbody : d.body.isSome = true) (hext : f.external = false) (hblocks : f.blocks = #[])
    {t : Compiler} (ht : Compiler.Passes { s₀ with ir := (s₀.ir.addFunction f).1 } t fun _ => False) :
    s.Effect { t with symbols := (id, .function s₀.ir.functions.size ty) :: t.symbols } id
      (.function d) .one := by
  obtain ⟨hadd, hplain⟩ := passes_addFunction h.whole hext hblocks
  have hplain := ht.advances.plain _ hplain
  have hlt : s₀.ir.functions.size < t.core.extent.functions := by
    obtain ⟨g, hg, -⟩ := hplain
    exact (Array.getElem?_eq_some_iff.mp hg).1
  have hlookup : List.lookup id ((id, Symbol.function s₀.ir.functions.size ty) :: t.symbols) =
      some (.function s₀.ir.functions.size ty) := by
    rw [List.lookup_cons_self]
  have howes : Compiler.Owes
      { t with symbols := (id, .function s₀.ir.functions.size ty) :: t.symbols } id (.function d)
      s₀.ir.functions.size := .inl ⟨_, hlookup, if_pos hbody⟩
  have hkeeps (w : Home) : ¬Compiler.Keeps
      { t with symbols := (id, .function s₀.ir.functions.size ty) :: t.symbols } id (.function d)
      w := by
    rintro ⟨y, -, hy⟩
    cases hy
  refine ⟨⟨ht.whole.func, ht.whole.code, fun y hy => ?_⟩, fun i hi => ?_, fun i hi => ?_,
    fun i hi => ?_, fun w hw _ => ?_, fun w hw => absurd hw (hkeeps w),
    fun _ w hw => absurd hw (hkeeps w), fun _ w _ hw => absurd hw (hkeeps w), fun h => by cases h⟩
  · rcases List.mem_cons.mp hy with rfl | hy
    · exact Extent.covers_cons.mpr ⟨hlt, Extent.covers_nil⟩
    · exact ht.whole.symbols y hy
  · exact ht.advances.plain i (hadd.advances.plain i (h.advances.plain i hi))
  · rcases hadd.advances.lacks i ((ht.advances.lacks i hi).resolve_right not_false) with hi | rfl
    · exact .inl ((h.advances.lacks i hi).resolve_right not_false)
    · exact .inr ⟨rfl, howes⟩
  · obtain ⟨y, hy, hf⟩ | ⟨w, -, -, hw, -⟩ := hi
    · cases hlookup.symm.trans hy
      cases (if_pos hbody).symm.trans hf
      exact hplain
    · exact absurd hw (hkeeps w)
  · exact (ht.membersAt w).trans (h.members w hw)

theorem effect_functionPrototype {d : FunctionDecl} {range : Span} (hs : s.Whole)
    (hr : functionPrototype view id d range o s = .ok u s') :
    s.Effect s' id (.function d) .one := by
  obtain ⟨params, t, h, -, hr⟩ := quiet_bind (.refl hs) (fun E => emits_paramTypes _ _ _) hr
  obtain ⟨result, t, h, -, hr⟩ := quiet_bind h (fun E => emits_resultTypeOf _ _) hr
  cases hd : d.body with
  | none =>
    rw [hd] at hr
    obtain ⟨f, t, h, hf, hr⟩ := quiet_bind h (fun E => emits_declareExternal _ _ _ _) hr
    obtain ⟨ty, t', hty, hr⟩ := bind_ok hr
    cases hty
    refine (quiet_setSymbol (h.retype (TypeTable.membersAt_intern _ _))
      ?_ hr).effect ?_ id .one
    · exact Extent.covers_cons.mpr ⟨hf, Extent.covers_nil⟩
    · exact Option.isNone_iff_eq_none.mpr hd
  | some body =>
    rw [hd] at hr
    obtain ⟨tree, t', htree, hr⟩ := bind_ok (guard_ok hr)
    cases htree
    obtain ⟨f, t', hf, hr⟩ := bind_ok hr
    cases hf
    obtain ⟨hadd, -⟩ := passes_addFunction h.whole (f := .ofSignature
      (t.modules.fullNameOf view.module d.name.text) params result) rfl rfl
    obtain ⟨ty, t', ht, -, hr⟩ := passes_bind (.refl hadd.whole) (fun E => emits_intern _) hr
    cases hr
    exact effect_declared h (by rw [hd]; rfl) rfl rfl ht

/-! ## Members -/

theorem membersAt_addStruct (t : TypeTable) (d : StructDef) (w : Home) :
    (t.addStruct d).1.membersAt w =
      if w = .struct t.structs.size then some d.members else t.membersAt w := by
  rw [show (t.addStruct d).1.membersAt w =
    ({ t with structs := t.structs.push d } : TypeTable).membersAt w from
      TypeTable.membersAt_intern _ _ w]
  cases w with
  | struct i =>
    simp only [TypeTable.membersAt, Array.getElem?_push, Home.struct.injEq]
    split <;> rfl
  | done k => rfl

theorem membersAt_addDone (t : TypeTable) (d : DoneSkill) (w : Home) :
    (t.addDone d).1.membersAt w =
      if w = .done t.done.size then some d.members else t.membersAt w := by
  cases w with
  | struct i => rfl
  | done k =>
    simp only [TypeTable.addDone, TypeTable.membersAt, Array.getElem?_push, Home.done.injEq]
    split <;> rfl

theorem membersAt_struct_size (t : TypeTable) : t.membersAt (.struct t.structs.size) = none := by
  simp [TypeTable.membersAt]

theorem membersAt_done_size (t : TypeTable) : t.membersAt (.done t.done.size) = none := by
  simp [TypeTable.membersAt]

theorem membersAt_setFields (t : TypeTable) (sid : Nat) (fields : Option (List FieldDef))
    (w : Home) : (t.setFields (.struct sid) fields).membersAt w = t.membersAt w := by
  cases w with
  | struct i =>
    simp only [TypeTable.setFields, TypeTable.modifyStruct, TypeTable.membersAt,
      Array.getElem?_modify]
    split
    · rw [Option.map_map]
      rfl
    · rfl
  | done k => rfl

/-- Types with one more home, which keeps no members, are sound. -/
theorem sound_of_newHome {t t' : TypeTable} {w : Home} (h : t.Sound E)
    (hnew : ∀ w', t'.membersAt w' = if w' = w then some [] else t.membersAt w') : t'.Sound E := by
  rw [TypeTable.sound_iff] at h ⊢
  intro w' ms hms m hm
  rw [hnew] at hms
  split at hms
  · cases hms
    cases hm
  · exact h w' ms hms m hm

structure Houses (s t : Compiler) (id : EntityId) (body : DeclBody) (w : Home) : Prop where
  whole : t.Whole
  advances : s.core.Advances t.core fun _ => False
  symbol : ∃ y, t.symbols.lookup id = some y ∧ body.home? y = some w ∧ body.function? y = none
  own : t.types.membersAt w = some []
  other : ∀ w', w' ≠ w → s.types.membersAt w' ≠ none →
    t.types.membersAt w' = s.types.membersAt w'
  fresh : s.Keeps id body w ∨ s.types.membersAt w = none

/-- A declaration has got the symbol that names its home. -/
theorem houses_define {y : Symbol} {types : TypeTable} (h : s.Quiet t)
    (hnew : ∀ w', types.membersAt w' = if w' = w then some [] else t.types.membersAt w')
    (hw : t.types.membersAt w = none) (hy : body.home? y = some w)
    (hf : body.function? y = none) (hr : y.refs = []) :
    Houses s { t with types, symbols := (id, y) :: t.symbols } id body w where
  whole := ⟨h.whole.func, { h.whole.code with types := sound_of_newHome h.whole.code.types hnew },
    fun z hz => by
      rcases List.mem_cons.mp hz with rfl | hz
      · rw [hr]
        exact Extent.covers_nil
      · exact h.whole.symbols z hz⟩
  advances := ⟨h.advances.plain, h.advances.lacks⟩
  symbol := ⟨y, by rw [List.lookup_cons_self], hy, hf⟩
  own := (hnew w).trans (if_pos rfl)
  other w' hne hw' := by
    rw [show Compiler.types { t with types, symbols := (id, y) :: t.symbols } = types from rfl,
      hnew, if_neg hne]
    exact h.members w' hw'
  fresh := by
    refine .inr (Classical.byContradiction fun hn => hn ?_)
    rw [← h.members w hn]
    exact hw

theorem Houses.keeps_iff (h : Houses s t id body w) {w' : Home} :
    t.Keeps id body w' ↔ w' = w := by
  obtain ⟨y, hy, hw, -⟩ := h.symbol
  refine ⟨fun ⟨z, hz, hw'⟩ => ?_, fun hw' => ⟨y, hy, hw' ▸ hw⟩⟩
  rw [hy] at hz
  cases hz
  rw [hw] at hw'
  exact (Option.some.inj hw').symm

/-- Once members are declared for its home, a declaration owes just their bodies. -/
theorem Houses.owes_iff (h : Houses s t id body w) (hg : t.Gains s' w ms) {i : Ir.FunctionId} :
    s'.Owes id body i ↔ ∃ m ∈ ms, m.function = i := by
  have hmembers : s'.types.membersAt w = some ms := by
    rw [hg.own, h.own]
    rfl
  have hkeeps {w' : Home} : s'.Keeps id body w' ↔ w' = w := by
    unfold Compiler.Keeps
    rw [hg.symbols]
    exact h.keeps_iff
  constructor
  · rintro (⟨y, hy, hf⟩ | ⟨w', ms', m, hw', hms', hm, rfl⟩)
    · obtain ⟨z, hz, -, hnone⟩ := h.symbol
      rw [hg.symbols, hz] at hy
      cases hy
      rw [hnone] at hf
      cases hf
    · rw [hkeeps.mp hw', hmembers] at hms'
      cases hms'
      exact ⟨m, hm, rfl⟩
  · rintro ⟨m, hm, rfl⟩
    exact .inr ⟨w, ms, m, hkeeps.mpr rfl, hmembers, hm, rfl⟩

theorem Houses.gains (h : Houses s t id body w) (hg : t.Gains s' w ms)
    (hlen : ms.length = body.members.length) (hd : body.kind.declares .two = true) :
    s.Effect s' id body .two := by
  have hmembers : s'.types.membersAt w = some ms := by
    rw [hg.own, h.own]
    rfl
  have hkeeps {w' : Home} (hw' : s'.Keeps id body w') : w' = w := by
    unfold Compiler.Keeps at hw'
    rw [hg.symbols] at hw'
    exact h.keeps_iff.mp hw'
  refine ⟨hg.whole, fun i hi => hg.advances.plain i (h.advances.plain i hi), fun i hi => ?_,
    fun i hi => ?_, fun w' hw' hn => ?_, fun w' hw' => ?_, nofun,
    fun _ w' ms' hw' hms' => ?_, nofun⟩
  · rcases hg.advances.lacks i hi with hi | hi
    · exact .inl ((h.advances.lacks i hi).resolve_right not_false)
    · exact .inr ⟨hd, (h.owes_iff hg).mpr hi⟩
  · obtain ⟨m, hm, rfl⟩ := (h.owes_iff hg).mp hi
    exact hg.plain m hm
  · have hne : w' ≠ w := by
      rintro rfl
      refine hn ?_
      unfold Compiler.Keeps
      rw [hg.symbols]
      exact h.keeps_iff.mpr rfl
    rw [hg.other w' hne, h.other w' hne hw']
  · rw [hkeeps hw']
    exact ⟨by rw [hmembers]; exact Option.some_ne_none _, h.fresh⟩
  · rw [hkeeps hw', hmembers] at hms'
    cases hms'
    exact hlen

theorem Houses.effect (h : Houses s s' id body w) : s.Effect s' id body .one := by
  have hnone : s'.Gains s' w [] := by
    refine ⟨h.whole, rfl, .refl _, ?_, fun _ _ => rfl, (Core.Advances.refl _).mono fun _ h => h.elim,
      fun _ hm => by cases hm⟩
    rw [h.own]
    rfl
  have howes (i : Ir.FunctionId) : ¬s'.Owes id body i := by
    intro hi
    obtain ⟨m, hm, -⟩ := (h.owes_iff hnone).mp hi
    cases hm
  refine ⟨h.whole, h.advances.plain, fun i hi => .inl ((h.advances.lacks i hi).resolve_right
    not_false), fun i hi => absurd hi (howes i), fun w' hw' hn => ?_, fun w' hw' => ?_,
    fun _ w' hw' => ?_, nofun, nofun⟩
  · exact h.other w' (fun hw => hn (h.keeps_iff.mpr hw)) hw'
  · rw [h.keeps_iff.mp hw', h.own]
    exact ⟨Option.some_ne_none _, h.fresh⟩
  · rw [h.keeps_iff.mp hw']
    exact h.own

theorem effect_structSkeleton {d : StructDecl} (hs : s.Whole)
    (hr : structSkeleton view id d o s = .ok u s') : s.Effect s' id (.struct d) .one := by
  obtain ⟨name, t, h, -, hr⟩ := quiet_bind (.refl hs) (fun E => emits_fullNameOf _ _) hr
  obtain ⟨vis, t, h, -, hr⟩ := quiet_bind h (fun E => emits_visibilityOf _ _ _) hr
  cases hr
  exact (houses_define h (membersAt_addStruct t.types ⟨d.name, name, view.module, vis, none, []⟩)
    (membersAt_struct_size t.types) rfl rfl rfl).effect

/-- The fields are worked out and set, and then the members are declared. -/
theorem structLayout_ok {d : StructDecl} (hs : s.Whole)
    (hr : structLayout view id d o s = .ok u s') : ∃ sid fields t ms,
      s.symbols.lookup id = some (.type (.struct sid)) ∧
      structFields view (.struct sid) d.name [] d.fields o s = .ok fields t ∧
      s.Passes t (fun _ => False) ∧ ms.length = d.members.length ∧
      Compiler.Gains { t with types := t.types.setFields (.struct sid) (some fields) } s'
        (.struct sid) ms := by
  obtain ⟨ty, t, hty, hr⟩ := bind_ok hr
  obtain ⟨hlookup, rfl⟩ := typeSymbol_ok hty
  cases ty with
  | struct sid =>
    obtain ⟨fields, t₁, hfields, hr⟩ := bind_ok hr
    obtain ⟨hpasses, -⟩ := passes_of_emits (fun E => emits_structFields _ _ _ _) hs hfields
    obtain ⟨u₁, t₂, hset, hr⟩ := bind_ok hr
    cases hset
    obtain ⟨types, t₂, htypes, hr⟩ := bind_ok hr
    cases htypes
    have hquiet := hpasses.quiet.retype (membersAt_setFields t₁.types sid (some fields))
    obtain ⟨ms, hlen, hgains⟩ := gains_memberPrototypes (w := .struct sid) hquiet.whole hr
    exact ⟨sid, fields, t₁, ms, hlookup, hfields, hpasses, hlen, hgains⟩
  | _ => cases hr

theorem effect_structLayout {d : StructDecl} (hs : s.Due id (.struct d) .two)
    (hr : structLayout view id d o s = .ok u s') : s.Effect s' id (.struct d) .two := by
  obtain ⟨sid, fields, t, ms, hlookup, -, h, hlen, hgains⟩ := structLayout_ok hs.whole hr
  have hkeeps : s.Keeps id (.struct d) (.struct sid) := ⟨_, hlookup, rfl⟩
  have hsame (w : Home) : (t.types.setFields (.struct sid) (some fields)).membersAt w =
      t.types.membersAt w := membersAt_setFields _ _ _ w
  have hquiet := h.quiet.retype hsame
  refine Houses.gains ⟨hquiet.whole, hquiet.advances, ⟨.type (.struct sid), ?_, rfl, rfl⟩, ?_,
    fun w' _ hw' => hquiet.members w' hw', .inl hkeeps⟩ hgains hlen rfl
  · exact (congrArg (List.lookup id) h.symbols).trans hlookup
  · exact (hsame _).trans ((h.membersAt _).trans (hs.empty rfl _ hkeeps))

/-- An implementation is listed without members, and then these are declared. -/
theorem donePrototypes_ok {d : DoSkillDecl} (hs : s.Whole)
    (hr : donePrototypes view id d o s = .ok u s') : ∃ skill target t ms,
      s.Passes t (fun _ => False) ∧ ms.length = d.members.length ∧
      Compiler.Gains
        { t with
          types := (t.types.addDone ⟨skill, target, view.module, [], d.range⟩).1
          symbols := (id, .doneSkill t.types.done.size) :: t.symbols }
        s' (.done t.types.done.size) ms := by
  obtain ⟨target, t, h, -, hr⟩ := passes_bind (.refl hs) (fun E => emits_skillTarget _ _) hr
  obtain ⟨skill, t, h, -, hr⟩ := passes_bind h (fun E => emits_skillNamed _ _) hr
  obtain ⟨k, t₁, hk, hr⟩ := bind_ok hr
  cases hk
  obtain ⟨u₁, t₁, hset, hr⟩ := bind_ok hr
  cases hset
  obtain ⟨types, t₁, htypes, hr⟩ := bind_ok hr
  cases htypes
  obtain ⟨u₂, t₂, hmembers, hr⟩ := bind_ok hr
  have hhouses : Houses s _ id (.doSkill d) (.done t.types.done.size) :=
    houses_define (y := .doneSkill t.types.done.size) h.quiet
      (membersAt_addDone t.types ⟨skill, target, view.module, [], d.range⟩)
      (membersAt_done_size t.types) rfl rfl rfl
  obtain ⟨ms, hlen, hgains⟩ := gains_memberPrototypes (w := .done t.types.done.size)
    hhouses.whole hmembers
  refine ⟨skill, target, t, ms, h, hlen, hgains.passes ?_⟩
  dsimp only at hr
  cases hskill : skill.bind fun x => t.types.skills[x]? with
  | some found =>
    rw [hskill] at hr
    obtain ⟨types, t₃, htypes, hcheck⟩ := bind_ok hr
    cases htypes
    exact (passes_of_emits (fun E => emits_checkProvided _ _ _ _ _) hgains.whole hcheck).1
  | none =>
    rw [hskill] at hr
    cases hr
    exact .refl hgains.whole

theorem effect_donePrototypes {d : DoSkillDecl} (hs : s.Whole)
    (hr : donePrototypes view id d o s = .ok u s') : s.Effect s' id (.doSkill d) .two := by
  obtain ⟨skill, target, t, ms, h, hlen, hgains⟩ := donePrototypes_ok hs hr
  exact (houses_define (y := .doneSkill t.types.done.size) h.quiet
    (membersAt_addDone t.types ⟨skill, target, view.module, [], d.range⟩)
    (membersAt_done_size t.types) rfl rfl rfl).gains hgains hlen rfl

/-! ## Bodies -/

theorem effect_functionBody {d : FunctionDecl} {range : Span}
    (hs : s.Due id (.function d) .three) (hr : functionBody view id d range o s = .ok u s') :
    s.Effect s' id (.function d) .three := by
  have howes {i : Ir.FunctionId} {ty : Ty} (hy : s.symbols.lookup id = some (.function i ty))
      (hbody : d.body.isSome = true) : s.Owes id (.function d) i :=
    .inl ⟨_, hy, if_pos hbody⟩
  obtain ⟨hpasses, hpaid⟩ := passes_functionBody hs.whole hr fun i ty hy hbody =>
    hs.owed i (howes hy hbody)
  refine hs.paid hpasses fun i hi => ?_
  rcases hi with ⟨y, hy, hf⟩ | ⟨w, -, -, ⟨y, -, hw⟩, -⟩
  · cases y with
    | function j ty =>
      by_cases hbody : d.body.isSome = true
      · cases (if_pos hbody).symm.trans hf
        exact hpaid i ty hy hbody
      · cases (if_neg hbody).symm.trans hf
    | _ => cases hf
  · cases hw

/-- The members that a declaration keeps are functions. -/
theorem plain_members {y : Symbol} {phase : Phase} (hs : s.Due id body phase)
    (hy : s.symbols.lookup id = some y)
    (hms : ((body.home? y).bind s.types.membersAt).getD [] = ms) :
    ∀ m ∈ ms, s.core.Plain m.function := by
  intro m hm
  rw [← hms] at hm
  cases hw : body.home? y with
  | none =>
    rw [hw] at hm
    cases hm
  | some w =>
    rw [hw, Option.bind_some] at hm
    obtain ⟨ms', hms'⟩ := Option.ne_none_iff_exists'.mp (hs.kept w ⟨y, hy, hw⟩)
    rw [hms', Option.getD_some] at hm
    exact hs.owed _ (.inr ⟨w, ms', m, ⟨y, hy, hw⟩, hms', hm, rfl⟩)

/-- The bodies of the members that a declaration keeps. -/
theorem effect_memberBodies {module : ModId} {y : Symbol} (hs : s.Due id body .three)
    (hy : s.symbols.lookup id = some y) (hfunction : body.function? y = none)
    (hms : ((body.home? y).bind s.types.membersAt).getD [] = ms)
    (hr : memberBodies module ms body.members o s = .ok u s') : s.Effect s' id body .three := by
  have hkeeps {w : Home} {ms' : List MemberFunction} (hw : body.home? y = some w)
      (hms' : s.types.membersAt w = some ms') : ms' = ms := by
    rw [← hms, hw, Option.bind_some, hms']
    rfl
  obtain ⟨hpasses, hpaid⟩ := passes_memberBodies hs.whole (plain_members hs hy hms) hr
  refine hs.paid hpasses fun i hi => ?_
  rcases hi with ⟨z, hz, hf⟩ | ⟨w, ms', m, ⟨z, hz, hw⟩, hms', hm, rfl⟩ <;>
    cases hy.symm.trans hz
  · rw [hfunction] at hf
    cases hf
  · cases hkeeps hw hms'
    exact hpaid (hs.full rfl w _ ⟨y, hy, hw⟩ hms').le m hm

theorem effect_structBodies {d : StructDecl} (hs : s.Due id (.struct d) .three)
    (hr : structBodies view id d o s = .ok u s') : s.Effect s' id (.struct d) .three := by
  obtain ⟨ty, t, hty, hrest⟩ := bind_ok hr
  obtain ⟨hlookup, rfl⟩ := typeSymbol_ok hty
  cases ty with
  | struct sid =>
    obtain ⟨types, t', htypes, hbodies⟩ := bind_ok hrest
    cases htypes
    exact effect_memberBodies hs hlookup rfl rfl hbodies
  | _ => cases hrest

theorem effect_doneBodies {d : DoSkillDecl} (hs : s.Due id (.doSkill d) .three)
    (hr : doneBodies view id d o s = .ok u s') : s.Effect s' id (.doSkill d) .three := by
  obtain ⟨y, t, hy, hrest⟩ := bind_ok hr
  obtain ⟨hlookup, rfl⟩ := symbolOf_ok hy
  cases y with
  | doneSkill k =>
    obtain ⟨types, t', htypes, hbodies⟩ := bind_ok hrest
    cases htypes
    exact effect_memberBodies hs hlookup rfl rfl hbodies
  | _ => cases hrest

/-! ## Every phase -/

theorem effect_phaseOf {d : EntityDecl} {phase : Phase} (hs : s.Due id d.body phase)
    (hphase : phase ∈ d.body.kind.phases) (hr : phaseOf view id d phase o s = .ok u s') :
    s.Effect s' id d.body phase := by
  unfold phaseOf at hr
  cases hd : d.body with
  | function f =>
    rw [hd] at hr hs hphase
    cases phase with
    | one => exact effect_functionPrototype hs.whole hr
    | two => exact absurd hphase (show Phase.two ∉ [.one, .three] by decide)
    | three => exact effect_functionBody hs hr
  | struct f =>
    rw [hd] at hr hs
    cases phase with
    | one => exact effect_structSkeleton hs.whole hr
    | two => exact effect_structLayout hs hr
    | three => exact effect_structBodies hs hr
  | doSkill f =>
    rw [hd] at hr hs hphase
    cases phase with
    | one => exact absurd hphase (show Phase.one ∉ [.two, .three] by decide)
    | two => exact effect_donePrototypes hs.whole hr
    | three => exact effect_doneBodies hs hr
  | mix m =>
    rw [hd] at hr
    cases phase with
    | one => exact (quiet_mixSkeleton hs.whole hr).effect rfl id _
    | _ => exact (quiet_mixVariants hs.whole hr).effect rfl id _
  | typeDef m =>
    rw [hd] at hr
    cases phase with
    | one => exact (quiet_typeDefinition hs.whole hr).effect rfl id _
    | _ => exact (quiet_checkTypeDefinition hs.whole hr).effect rfl id _
  | choice c =>
    rw [hd] at hr
    exact (quiet_choiceType hs.whole hr).effect rfl id _
  | global g =>
    rw [hd] at hr
    exact (quiet_globalValue hs.whole hr).effect rfl id _
  | prerunGlobal g =>
    rw [hd] at hr
    exact (quiet_prerunGlobal hs.whole hr).effect rfl id _
  | prerunFunction f =>
    rw [hd] at hr
    exact (quiet_prerunFunction hs.whole hr).effect rfl id _
  | skill f =>
    rw [hd] at hr
    exact (quiet_skillType hs.whole hr).effect rfl id _
  | bring f =>
    rw [hd] at hr
    exact (quiet_bring hs.whole hr).effect rfl id _

/-! ## Guards -/

theorem emits_evaluateCondition (view : Viewpoint) (e : Expr) :
    Emits E P (evaluateCondition view e) fun _ => True :=
  emits_of_keeps fun _ hw => keeps_evaluateCondition hw.sound
    (hw.coversAll view (e.uses .one []))

/-- Registering a name changes the module tree alone. -/
theorem registerName_ok {site : Site} (hr : registerName id site o s = .ok u s') :
    ∃ tree, s' = { s with modules := tree } := by
  unfold registerName at hr
  cases hname : site.decl.body.name? with
  | none =>
    rw [hname] at hr
    cases hr
    exact ⟨_, rfl⟩
  | some name =>
    rw [hname] at hr
    obtain ⟨t, t', ht, hadd⟩ := bind_ok hr
    cases ht
    dsimp only at hadd
    cases hitem : s.modules.addItem site.module ⟨name, id, site.decl.body.kind,
        s.modules.visibility site.decl.body.vis site.module none⟩ with
    | ok modules =>
      rw [hitem] at hadd
      cases hadd
      exact ⟨modules, rfl⟩
    | error d =>
      rw [hitem] at hadd
      cases hadd

/-- Judging a guard is to evaluate it, if that is due, and changes nothing else than names
and what is left to do. -/
theorem guardHolds_ok {site : Site} {phase : Phase} {b : Bool}
    (hr : guardHolds view id site phase o s = .ok b s') :
    s' = s ∨ ∃ g c t, evaluateCondition view g o s = .ok c t ∧
      ∃ tree graph, s' = { t with modules := tree, entities := graph } := by
  by_cases hlater : site.decl.guard = none ∨ phase ≠ site.decl.body.kind.firstPhase
  · rw [guardHolds_later _ o s hlater] at hr
    cases hr
    exact .inl rfl
  · simp only [not_or, ne_eq, not_not] at hlater
    obtain ⟨hguard, rfl⟩ := hlater
    obtain ⟨g, hg⟩ := Option.ne_none_iff_exists'.mp hguard
    rw [guardHolds_first _ o s hg] at hr
    cases hc : evaluateCondition view g o s with
    | error f t =>
      rw [hc] at hr
      cases hr
    | ok c t =>
      refine .inr ⟨g, c, t, hc, ?_⟩
      rw [hc] at hr
      cases c with
      | false =>
        cases hr
        exact ⟨_, _, rfl⟩
      | true =>
        cases hn : registerName id site o t with
        | error f t' =>
          simp only [hn] at hr
          cases hr
        | ok _ t' =>
          simp only [hn] at hr
          cases hr
          obtain ⟨tree, rfl⟩ := registerName_ok hn
          exact ⟨tree, _, rfl⟩

theorem passes_guardHolds {site : Site} {phase : Phase} {b : Bool} (hs : s.Whole)
    (hr : guardHolds view id site phase o s = .ok b s') : s.Passes s' fun _ => False := by
  rcases guardHolds_ok hr with rfl | ⟨g, c, t, hc, tree, graph, rfl⟩
  · exact .refl hs
  · obtain ⟨hpasses, -⟩ := passes_of_emits (fun E => emits_evaluateCondition _ _) hs hc
    exact hpasses.next (Compiler.passes_of_core hpasses.whole rfl rfl)

/-! ## Calls -/

/-- A call that succeeds has judged the guard, and run its phase if the guard holds. -/
theorem runPhase_ok {site : Site} {phase : Phase} (hsite : s.sites[id]? = some site)
    (hr : runPhase id phase o s = .ok u s') : ∃ b t,
      guardHolds { module := site.module } id site phase o
        { s with log := s.log.push (id, phase) } = .ok b t ∧
      (b = false ∧ t = s' ∨
        b = true ∧ phaseOf { module := site.module } id site.decl phase o t = .ok u s') := by
  rw [runPhase_eq o hsite] at hr
  cases hg : guardHolds { module := site.module } id site phase o
      { s with log := s.log.push (id, phase) } with
  | error f t =>
    rw [hg] at hr
    cases hr
  | ok b t =>
    rw [hg] at hr
    cases b with
    | false =>
      cases hr
      exact ⟨false, _, rfl, .inl ⟨rfl, rfl⟩⟩
    | true => exact ⟨true, t, rfl, .inr ⟨rfl, hr⟩⟩

theorem passes_guarded {site : Site} {phase : Phase} {b : Bool} (hs : s.Whole)
    (hg : guardHolds { module := site.module } id site phase o
      { s with log := s.log.push (id, phase) } = .ok b t) : s.Passes t fun _ => False := by
  have hlog : s.Passes { s with log := s.log.push (id, phase) } fun _ => False :=
    Compiler.passes_of_core hs rfl rfl
  exact hlog.next (passes_guardHolds hlog.whole hg)

/-- A declaration whose guard does not hold is skipped. -/
theorem skips_runPhase {site : Site} {phase : Phase} (hω : s.outer.Coherent) (hf : s.frames = [])
    (hsite : s.sites[id]? = some site) (hready : s.entities.isReady id phase = true)
    (hg : guardHolds { module := site.module } id site phase o
      { s with log := s.log.push (id, phase) } = .ok false s') :
    s.outer.Skips id site phase s'.outer := by
  have hguard := @guardHolds_spec s.outer id phase site (s.log.push (id, phase)) o
    { s with log := s.log.push (id, phase) } hω hsite hready ⟨rfl, hf⟩
  rw [hg] at hguard
  obtain ⟨hguarded, hfirst, hout, -⟩ := hguard
  rw [hout]
  exact .skipped _ hguarded hfirst

/-- A phase that runs has its effect. -/
theorem effect_runPhase {site : Site} {phase : Phase} (hω : s.outer.Coherent) (hf : s.frames = [])
    (hsite : s.sites[id]? = some site) (hnext : s.entities.nextPhase? id = some phase)
    (hready : s.entities.isReady id phase = true)
    (hsettled : phase = .three → ∀ j q, s.entities.nextPhase? j = some q → q = .three)
    (hs : s.Due id site.decl.body phase)
    (hg : guardHolds { module := site.module } id site phase o
      { s with log := s.log.push (id, phase) } = .ok true t)
    (hr : phaseOf { module := site.module } id site.decl phase o t = .ok u s') :
    s.outer.Runs id site phase s'.outer ∧ s.Effect s' id site.decl.body phase := by
  have hpasses := passes_guarded hs.whole hg
  have hguard := @guardHolds_spec s.outer id phase site (s.log.push (id, phase)) o
    { s with log := s.log.push (id, phase) } hω hsite hready ⟨rfl, hf⟩
  rw [hg] at hguard
  obtain ⟨tree, hnames, hsame, ht⟩ := hguard
  have hcomes := comes_phaseOf o hω hsite hnext hready hsettled hnames hsame ht
  rw [hr] at hcomes
  refine ⟨hcomes.2, Compiler.Effect.after (effect_phaseOf (hs.after hpasses) ?_ hr) hpasses⟩
  obtain ⟨e, he, hp⟩ := EntityGraph.get?_of_nextPhase? hnext
  rw [← hω.kind id site e hsite he]
  exact List.mem_of_getElem? hp

end Emit

end Staged
