/-
  Staged.Proofs.Code.Members — prototypes, and where members are kept.

  A struct keeps its members in its definition and an implementation of a skill in its
  entry; both are homes of members. Declaring a member adds a function without a body and
  hands the member to its home; no other home is touched (`Compiler.Gains`). As many
  members are gained as are declared.
-/

import Staged.Declare.Type
import Staged.Proofs.Code.Body
import Staged.Proofs.Lowering.Declare

namespace Staged

/-! ## Homes of members -/

inductive Home where
  | struct (id : Nat)
  | done (id : DoneSkillId)
  deriving DecidableEq, Repr

namespace TypeTable

variable {t : TypeTable} {e : Extent}

def membersAt (t : TypeTable) : Home → Option (List MemberFunction)
  | .struct id => t.structs[id]?.map StructDef.members
  | .done id => t.done[id]?.map DoneSkill.members

def addMember (t : TypeTable) (m : MemberFunction) : Home → TypeTable
  | .struct id => t.modifyStruct id fun s => { s with members := s.members ++ [m] }
  | .done id => t.modifyDone id fun s => { s with members := s.members ++ [m] }

theorem membersAt_congr {t' : TypeTable} (hs : t'.structs = t.structs) (hd : t'.done = t.done)
    (w : Home) : t'.membersAt w = t.membersAt w := by
  cases w <;> simp only [membersAt, hs, hd]

theorem membersAt_intern (t : TypeTable) (ty : Ty) (w : Home) :
    (t.intern ty).membersAt w = t.membersAt w :=
  membersAt_congr (t.same_intern ty).structs (t.same_intern ty).done w

theorem membersAt_addMember (t : TypeTable) (m : MemberFunction) (w w' : Home) :
    (t.addMember m w).membersAt w' =
      if w = w' then (t.membersAt w').map (· ++ [m]) else t.membersAt w' := by
  cases w <;> cases w' <;>
    simp only [addMember, membersAt, modifyStruct, modifyDone, Array.getElem?_modify,
      Home.struct.injEq, Home.done.injEq, reduceCtorEq, if_false]
  all_goals
    split
    · simp only [Option.map_map]
      rfl
    · rfl

theorem sameParts_addMember (t : TypeTable) (m : MemberFunction) (w : Home) :
    t.SameParts (t.addMember m w) := by
  cases w with
  | struct id => exact t.sameParts_modifyStruct id fun _ => rfl
  | done id => exact ⟨fun _ => rfl, rfl, rfl⟩

theorem Sound.function_lt (h : t.Sound e) {w : Home} {ms : List MemberFunction}
    (hw : t.membersAt w = some ms) {m : MemberFunction} (hm : m ∈ ms) :
    m.function < e.functions := by
  cases w with
  | struct id =>
    obtain ⟨d, hd, rfl⟩ := Option.map_eq_some_iff.mp hw
    exact h.structs d (Array.mem_of_getElem? hd) m hm
  | done id =>
    obtain ⟨d, hd, rfl⟩ := Option.map_eq_some_iff.mp hw
    exact h.done d (Array.mem_of_getElem? hd) m hm

/-- Types are sound if the functions of all members that are kept exist. -/
theorem sound_iff : t.Sound e ↔
    ∀ w ms, t.membersAt w = some ms → ∀ m ∈ ms, m.function < e.functions := by
  refine ⟨fun h w ms hw m hm => h.function_lt hw hm, fun h => ⟨fun d hd => ?_, fun d hd => ?_⟩⟩
  · obtain ⟨id, hid⟩ := Array.mem_iff_getElem?.mp hd
    exact h (.struct id) _ (by simp only [membersAt, hid, Option.map_some])
  · obtain ⟨id, hid⟩ := Array.mem_iff_getElem?.mp hd
    exact h (.done id) _ (by simp only [membersAt, hid, Option.map_some])

theorem Sound.addMember (h : t.Sound e) {m : MemberFunction} (hm : m.function < e.functions)
    (w : Home) : (t.addMember m w).Sound e := by
  rw [sound_iff] at h ⊢
  intro w' ms hms x hx
  rw [membersAt_addMember] at hms
  split at hms
  · obtain ⟨ms', hms', rfl⟩ := Option.map_eq_some_iff.mp hms
    rcases List.mem_append.mp hx with hx | hx
    · exact h w' ms' hms' x hx
    · exact List.mem_singleton.mp hx ▸ hm
  · exact h w' ms hms x hx

end TypeTable

/-! ## Outside of bodies -/

namespace Compiler

variable {s s₁ s₂ : Compiler} {new : Ir.FunctionId → Prop}

theorem Passes.membersAt (h : s.Passes s₁ new) (w : Home) :
    s₁.types.membersAt w = s.types.membersAt w :=
  TypeTable.membersAt_congr h.types.structs h.types.done w

structure Gains (s s' : Compiler) (w : Home) (ms : List MemberFunction) : Prop where
  whole : s'.Whole
  symbols : s'.symbols = s.symbols
  types : s.types.SameParts s'.types
  own : s'.types.membersAt w = (s.types.membersAt w).map (· ++ ms)
  other : ∀ w', w' ≠ w → s'.types.membersAt w' = s.types.membersAt w'
  advances : s.core.Advances s'.core fun i => ∃ m ∈ ms, m.function = i
  plain : ∀ m ∈ ms, s'.core.Plain m.function

theorem Gains.passes {w : Home} {ms : List MemberFunction} (h : s.Gains s₁ w ms)
    (hp : s₁.Passes s₂ fun _ => False) : s.Gains s₂ w ms where
  whole := hp.whole
  symbols := hp.symbols.trans h.symbols
  types := h.types.trans hp.types.sameParts
  own := (hp.membersAt w).trans h.own
  other w' hw' := (hp.membersAt w').trans (h.other w' hw')
  advances := (h.advances.trans hp.advances).mono fun _ hi => hi.resolve_right not_false
  plain m hm := hp.advances.plain _ (h.plain m hm)

end Compiler

namespace Emit

variable {α β : Type} {o : Options} {s s₀ s' : Compiler} {new : Ir.FunctionId → Prop}
  {E : Extent} {P : Prop}

/-- A step of a sequence outside of bodies. -/
theorem passes_bind {a : Emit α} {k : α → Emit β} {Q : Extent → α → Prop} {v : β}
    (h : s₀.Passes s new) (ha : ∀ E, Emits E True a (Q E)) (hr : (a >>= k) o s = .ok v s') :
    ∃ x t, s₀.Passes t new ∧ Q t.core.extent x ∧ k x o t = .ok v s' := by
  obtain ⟨x, t, hx, hr⟩ := bind_ok hr
  obtain ⟨hpasses, hq⟩ := passes_of_emits ha h.whole hx
  exact ⟨x, t, h.next hpasses, hq, hr⟩

/-! ## Prototypes -/

/-- A function without a body is added. -/
theorem passes_addFunction {f : Ir.Function} (hs : s.Whole) (hext : f.external = false)
    (hblocks : f.blocks = #[]) :
    s.Passes { s with ir := (s.ir.addFunction f).1 } (· = s.ir.functions.size) ∧
      Core.Plain { s.core with ir := (s.ir.addFunction f).1 } s.ir.functions.size := by
  have hle : s.core.extent.Le
      (Core.extent { s.core with ir := (s.ir.addFunction f).1 }) :=
    ⟨by simp only [Core.extent, Ir.Module.addFunction, Array.size_push]; exact Nat.le_succ _,
      Nat.le_refl _, Nat.le_refl _⟩
  have hcode := hs.code.mono hle hs.func
  have hget (i : Nat) : (s.ir.functions.push f)[i]? =
      if i = s.ir.functions.size then some f else s.ir.functions[i]? := Array.getElem?_push
  refine ⟨⟨⟨hs.func, { hcode with functions := fun g hg => ?_ }, fun y hy =>
    (hs.symbols y hy).mono hle⟩, rfl, .refl _, ⟨fun i hi => ?_, fun i hi => ?_⟩⟩, ?_⟩
  · rcases Array.mem_push.mp hg with hg | rfl
    · exact hcode.functions g hg
    · exact ⟨by simp [Ir.Function.refs, hblocks], by simp [hblocks], by simp [hblocks],
        fun _ => hblocks⟩
  · obtain ⟨g, hg, hx⟩ := hi
    refine ⟨g, ?_, hx⟩
    have hlt : i < s.ir.functions.size := (Array.getElem?_eq_some_iff.mp hg).1
    exact (hget i).trans ((if_neg hlt.ne).trans hg)
  · obtain ⟨g, hg, hx, hb⟩ := hi
    by_cases h : i = s.ir.functions.size
    · exact .inr h
    · exact .inl ⟨g, ((hget i).trans (if_neg h)).symm.trans hg, hx, hb⟩
  · exact ⟨f, (hget _).trans (if_pos rfl), hext⟩

theorem emits_checkArity (parent : Ty) (kind : MemberKind) (d : MemberDecl) :
    Emits E P (checkArity parent kind d) fun _ => True :=
  emits_of_keeps fun _ _ => keeps_checkArity parent kind d

theorem emits_checkUnique (what : String) (names : List Ident) :
    Emits E P (checkUnique what names) fun _ => True :=
  emits_of_keeps fun _ _ => keeps_checkUnique what names

theorem emits_memberArgs (view : Viewpoint) (parent : Ty) (kind : MemberKind)
    (args : List Argument) :
    Emits E P (args.mapM (memberArg view parent kind)) fun _ => True :=
  emits_of_keeps fun _ hw => keeps_mapM fun a _ =>
    keeps_memberArg parent kind hw.sound (hw.coversAll view (typeUses .partially .one a.type))

theorem emits_otherArg (parent : Ty) (kind : MemberKind) (range : Span) :
    Emits E P (otherArg parent kind range) fun _ => True :=
  emits_of_keeps fun _ _ => keeps_otherArg parent kind range

theorem emits_memberResult (view : Viewpoint) (kind : MemberKind) (d : MemberDecl) :
    Emits E P (memberResult view kind d) fun _ => True :=
  emits_of_keeps fun _ hw =>
    keeps_memberResult kind hw.sound (hw.coversAll view (typeUses .partially .one d.result))

theorem emits_checkClash (m : MemberFunction) : Emits E P (checkClash m) fun _ => True :=
  emits_of_keeps fun _ _ => keeps_checkClash m

theorem emits_modules : Emits E P modules fun _ => True :=
  emits_same fun _ _ _ _ h => by
    cases h
    exact ⟨rfl, rfl, fun _ _ _ => trivial⟩

theorem emits_selfTypes (parent : Ty) (kind : MemberKind) :
    Emits E P (selfTypes parent kind) fun _ => True := by
  unfold selfTypes
  split
  · exact (emits_intern _).bind fun _ => .pure fun _ => trivial
  · exact .pure fun _ => trivial

/-- The prototype of a member is a function without a body. -/
theorem passes_memberPrototype {view : Viewpoint} {parent : Ty} {owner : String} {position : Nat}
    {d : MemberDecl} {m : MemberFunction} (hs : s.Whole)
    (hr : memberPrototype view parent owner position d o s = .ok m s') :
    s.Passes s' (· = m.function) ∧ s'.core.Plain m.function := by
  rw [memberPrototype_eq] at hr
  obtain ⟨-, t, h, -, hr⟩ := passes_bind (.refl hs) (fun E => emits_checkArity _ _ _) hr
  obtain ⟨-, t, h, -, hr⟩ := passes_bind h (fun E => emits_checkUnique _ _) hr
  obtain ⟨args, t, h, -, hr⟩ := passes_bind h (fun E => emits_memberArgs _ _ _ _) hr
  obtain ⟨other, t, h, -, hr⟩ := passes_bind h (fun E => emits_otherArg _ _ _) hr
  obtain ⟨result, t, h, -, hr⟩ := passes_bind h (fun E => emits_memberResult _ _ _) hr
  obtain ⟨self, t, h, -, hr⟩ := passes_bind h (fun E => emits_selfTypes _ _) hr
  obtain ⟨i, t', hi, hr⟩ := bind_ok hr
  cases hi
  obtain ⟨hadd, hplain⟩ := passes_addFunction h.whole (f := .ofSignature
    s!"{owner}'{d.form.name}.{position}" (self ++ (args ++ other).map MemberArg.type) result)
    rfl rfl
  have h := h.trans hadd
  obtain ⟨tree, t', h', -, hr⟩ := passes_bind (.refl hadd.whole) (fun E => emits_modules) hr
  obtain ⟨-, t', h', -, hr⟩ := passes_bind h' (fun E => emits_checkClash _) hr
  cases hr
  have hall := h.next h'
  refine ⟨{ hall with advances := hall.advances.mono fun i hi => ?_ }, h'.advances.plain _ hplain⟩
  exact hi.resolve_left not_false

/-- Declaring members for a home, one after another. -/
theorem gains_memberPrototypes {view : Viewpoint} {parent : Ty} {owner : String} {w : Home} :
    ∀ {ds : List MemberDecl} {position : Nat} {s : Compiler} {u : Unit}, s.Whole →
      memberPrototypes view parent owner (fun m => modifyTypes (·.addMember m w)) position ds o s =
        .ok u s' →
      ∃ ms, ms.length = ds.length ∧ s.Gains s' w ms
  | [], position, s, u, hs, hr => by
    unfold memberPrototypes at hr
    cases hr
    refine ⟨[], rfl, hs, rfl, .refl _, ?_, fun _ _ => rfl, ?_, fun m hm => by cases hm⟩
    · cases s'.types.membersAt w <;> simp
    · exact (Core.Advances.refl s'.core).mono fun _ h => h.elim
  | d :: ds, position, s, u, hs, hr => by
    unfold memberPrototypes at hr
    obtain ⟨m, t, hm, hr⟩ := bind_ok hr
    obtain ⟨hpasses, hplain⟩ := passes_memberPrototype hs hm
    obtain ⟨u', t', hadd, hr⟩ := bind_ok hr
    cases hadd
    have hlt : m.function < t.core.extent.functions := by
      obtain ⟨f, hf, -⟩ := hplain
      exact (Array.getElem?_eq_some_iff.mp hf).1
    have hwhole : Compiler.Whole { t with types := t.types.addMember m w } :=
      ⟨hpasses.whole.func, { hpasses.whole.code with
        types := hpasses.whole.code.types.addMember hlt w }, hpasses.whole.symbols⟩
    obtain ⟨ms, hlen, hgains⟩ := gains_memberPrototypes hwhole hr
    refine ⟨m :: ms, by simp only [List.length_cons, hlen], hgains.whole,
      hgains.symbols.trans hpasses.symbols,
      (hpasses.types.sameParts.trans (t.types.sameParts_addMember m w)).trans hgains.types, ?_,
      fun w' hw' => ?_, ?_, fun x hx => ?_⟩
    · rw [hgains.own, TypeTable.membersAt_addMember, if_pos rfl, hpasses.membersAt,
        Option.map_map]
      congr 1
      funext old
      simp
    · rw [hgains.other w' hw', TypeTable.membersAt_addMember, if_neg (Ne.symm hw'),
        hpasses.membersAt]
    · have hadvances : t.core.Advances s'.core fun i => ∃ x ∈ ms, x.function = i :=
        ⟨hgains.advances.plain, hgains.advances.lacks⟩
      refine (hpasses.advances.trans hadvances).mono fun i hi => ?_
      rcases hi with rfl | ⟨x, hx, rfl⟩
      · exact ⟨m, List.mem_cons_self, rfl⟩
      · exact ⟨x, List.mem_cons_of_mem m hx, rfl⟩
    · rcases List.mem_cons.mp hx with rfl | hx
      · exact hgains.advances.plain _ hplain
      · exact hgains.plain x hx

end Emit

end Staged
