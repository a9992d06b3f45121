/-
  Staged.Proofs.Halting.Types — recursion through definitions ends.

  Where chains of definitions are no longer than there are definitions, the plain recursion
  through them gives what the recursion gives that is cut off there: layouts, traits and
  default values. In a grounded table that is the case for every type.

  Each rule is first compared one definition deep, along the tree of a type, and then by
  induction on the length of chains.
-/

import Staged.Proofs.Halting.Nesting
import Staged.Proofs.Halting.Unbounded

namespace Staged

open TypeTable

variable {t : TypeTable} {part : Ty → Prop} {n m : Nat} {ty : Ty}

namespace Unbounded

/-! ## Layouts -/

section

variable {parts : Ty → Option Layout}

theorem layouts_parts : ∀ {ps : List Ty}, (∀ p ∈ ps, ComesTo (layout t · p) (parts p)) →
    ComesTo (fun depth => layouts (layout t depth) ps) (ps.mapM parts)
  | [], _ => .pure _
  | p :: ps, h => by
    rw [List.forall_mem_cons] at h
    rw [List.mapM_cons]
    refine h.1.bind ?_
    cases parts p with
    | none => exact .pure _
    | some l =>
      refine (layouts_parts h.2).bind ?_
      cases ps.mapM parts <;> exact .pure _

mutual

theorem layout_step (h : ∀ p, part p → ComesTo (layout t · p) (parts p)) (ty : Ty)
    (hty : t.NestsStep part ty) : ComesTo (layout t · ty) (t.layoutStep parts ty) :=
  .later <| match ty, hty with
  | .array element _, hty | .vector element _ _, hty | .maybe element, hty => by
    rw [layoutStep]
    exact (layout_step h element hty).map _
  | .tuple members _, hty => by
    rw [layoutStep]
    exact (layouts_step h members hty).map _
  | .struct id, hty => by
    simp only [layout, layoutStep]
    cases hd : t.structs[id]? with
    | none => exact .pure _
    | some d =>
      have hparts := layouts_parts fun p hp => h p (hty.fieldTypes hd p hp)
      cases hf : d.fields? with
      | none => simpa [hf] using ComesTo.pure none
      | some fields =>
        simp only [StructDef.fieldTypes, StructDef.fields, hf, Option.getD_some] at hparts
        simpa [hf, List.mapM_map, Option.map_eq_bind, Function.comp_def] using
          hparts.map (Option.map (Layout.aggregate false))
  | .mix id, hty => by
    simp only [layout, layoutStep]
    cases hd : t.mixes[id]? with
    | none => exact .pure _
    | some d =>
      have hparts := layouts_parts fun p hp => h p (hty.payloads hd p hp)
      cases hv : d.variants? with
      | none => simpa [hv] using ComesTo.pure none
      | some variants =>
        simpa [hv, Option.map_eq_bind] using hparts.map (Option.map fun payloads =>
          Layout.tagged d.packed (.scalar d.tagBits) (Layout.largest payloads))
  | .choice id, hty => by
    simp only [layout, layoutStep]
    cases hd : t.choices[id]? with
    | none => exact .pure _
    | some d => exact h d.underlying (hty.underlying hd)
  | .float kind, _ => by cases kind <;> exact .pure _
  | .void, _ | .function .., _ | .typed _, _ | .int _, _ | .uint _, _ | .char, _ | .bool, _
  | .str, _ | .mark .., _ | .ref .., _ | .future .., _ | .native _, _ => by
    rw [layoutStep]
    exact .pure _

theorem layouts_step (h : ∀ p, part p → ComesTo (layout t · p) (parts p)) :
    ∀ tys, t.NestAllStep part tys →
      ComesTo (fun depth => layouts (layout t depth) tys) (t.layoutsStep parts tys)
  | [], _ => by
    rw [layoutsStep]
    exact .pure _
  | ty :: tys, htys => by
    rw [layoutsStep]
    refine (layout_step h ty htys.1).bind ?_
    cases t.layoutStep parts ty with
    | none => exact .pure _
    | some l =>
      refine (layouts_step h tys htys.2).bind ?_
      cases t.layoutsStep parts tys <;> exact .pure _

end

end

theorem layout_eq (h : t.NestsWithin n ty) (hle : n ≤ m) :
    ComesTo (layout t · ty) (t.layoutWithin? m ty) := by
  induction n generalizing m ty with
  | zero => cases h
  | succ n ih =>
    obtain ⟨m, rfl⟩ : ∃ k, m = k + 1 := ⟨m - 1, by omega⟩
    exact layout_step (fun p hp => ih hp (by omega)) ty h

/-- A struct that holds itself has no size: no depth is enough to work it out. -/
theorem layout_endless {id : Nat} {d : StructDef} {f : FieldDef} {fs : List FieldDef}
    (hd : t.structs[id]? = some d) (hf : d.fields? = some (f :: fs)) (hself : f.type = .struct id)
    (depth : Nat) : layout t depth (.struct id) = none := by
  induction depth with
  | zero => rfl
  | succ depth ih =>
    simp only [layout, hd, hf, List.map_cons, hself, layouts, ih]
    rfl

/-! ## Traits -/

section

variable {trait : Trait} {parts : Ty → Bool}

theorem allHaveTrait_parts :
    ∀ {ps : List Ty}, (∀ p ∈ ps, ComesTo (hasTrait t trait · p) (parts p)) →
      ComesTo (fun depth => allHaveTrait (hasTrait t trait depth) ps) (ps.all parts)
  | [], _ => .pure _
  | p :: ps, h => by
    rw [List.forall_mem_cons] at h
    rw [List.all_cons]
    refine h.1.bind ?_
    cases parts p with
    | false => exact .pure _
    | true => exact allHaveTrait_parts h.2

mutual

theorem hasTrait_step (h : ∀ p, part p → ComesTo (hasTrait t trait · p) (parts p)) (ty : Ty)
    (hty : t.NestsStep part ty) :
    ComesTo (hasTrait t trait · ty) (t.traitStep trait parts ty) :=
  .later <| match ty, hty with
  | .array element _, hty | .maybe element, hty => by
    rw [traitStep]
    exact hasTrait_step h element hty
  | .vector element _ scalable, hty => by
    simp only [hasTrait, traitStep]
    have helement := hasTrait_step h element hty
    cases trait.scalable || !scalable with
    | false => exact .pure _
    | true => exact helement
  | .tuple members _, hty => by
    rw [traitStep]
    exact allHaveTrait_step h members hty
  | .struct id, hty => by
    simp only [hasTrait, traitStep]
    cases hd : t.structs[id]? with
    | none => exact .pure _
    | some d =>
      have hparts := allHaveTrait_parts fun p hp => h p (hty.fieldTypes hd p hp)
      dsimp only
      cases trait.struct (.struct id) d with
      | false => exact .pure _
      | true => exact hparts
  | .mix id, hty => by
    simp only [hasTrait, traitStep]
    cases hd : t.mixes[id]? with
    | none => exact .pure _
    | some d => exact allHaveTrait_parts fun p hp => h p (hty.payloads hd p hp)
  | .int _, _ | .uint _, _ | .float _, _ | .char, _ | .bool, _ | .void, _ | .str, _ | .mark .., _
  | .ref .., _ | .choice _, _ | .function .., _ | .future .., _ | .typed _, _ | .native _, _ => by
    rw [traitStep] <;> first | exact .pure _ | nofun

theorem allHaveTrait_step (h : ∀ p, part p → ComesTo (hasTrait t trait · p) (parts p)) :
    ∀ tys, t.NestAllStep part tys →
      ComesTo (fun depth => allHaveTrait (hasTrait t trait depth) tys)
        (t.traitsStep trait parts tys)
  | [], _ => by
    rw [traitsStep]
    exact .pure _
  | ty :: tys, htys => by
    have hrest := allHaveTrait_step h tys htys.2
    rw [traitsStep]
    refine (hasTrait_step h ty htys.1).bind ?_
    cases t.traitStep trait parts ty with
    | false => exact .pure _
    | true => exact hrest

end

end

theorem hasTrait_eq {trait : Trait} (h : t.NestsWithin n ty) (hle : n ≤ m) :
    ComesTo (hasTrait t trait · ty) (t.traitWithin trait m ty) := by
  induction n generalizing m ty with
  | zero => cases h
  | succ n ih =>
    obtain ⟨m, rfl⟩ : ∃ k, m = k + 1 := ⟨m - 1, by omega⟩
    exact hasTrait_step (fun p hp => ih hp (by omega)) ty h

/-! ## Defaults -/

section

variable {parts : Ty → Except Fault Data}

/-- A default that is made of a part's. -/
theorem ComesTo.andThen {α β : Type} {a : Nat → ExceptT Fault Option α} {r : Except Fault α}
    {k : Nat → α → ExceptT Fault Option β} {l : α → Except Fault β}
    (h : ComesTo (fun depth => (a depth).run) r)
    (hk : ∀ v, ComesTo (fun depth => (k depth v).run) (l v)) :
    ComesTo (fun depth => (a depth >>= k depth).run) (r >>= l) := by
  cases r with
  | error f => exact h.bind (.pure _)
  | ok v => exact h.bind (hk v)

theorem ComesTo.lift {α β : Type} {a : Nat → Option α} {v : α} {r : Except Fault β}
    {k : Nat → α → ExceptT Fault Option β} (h : ComesTo a v)
    (hk : ComesTo (fun depth => (k depth v).run) r) :
    ComesTo (fun depth => (liftM (a depth) >>= k depth).run) r :=
  h.both hk fun depth ha => by rw [ha]; rfl

theorem mapM_default_parts : ∀ {ps : List Ty}, (∀ p ∈ ps, ComesTo (default t · p) (parts p)) →
    ComesTo (fun depth => (ps.mapM (default t depth)).run) (ps.mapM parts)
  | [], _ => .pure _
  | p :: ps, h => by
    rw [List.forall_mem_cons] at h
    simp only [List.mapM_cons]
    exact h.1.andThen fun d => (mapM_default_parts h.2).andThen fun ds => .pure _

mutual

theorem default_step (hprerun : ∀ ty, ComesTo (canBePrerun t · ty) (t.canBePrerun ty))
    (h : ∀ p, part p → ComesTo (default t · p) (parts p)) (ty : Ty)
    (hty : t.NestsStep part ty) : ComesTo (default t · ty) (t.defaultStep parts ty) :=
  .later <| match ty, hty with
  | .array element _, hty => by
    rw [defaultStep]
    exact (default_step hprerun h element hty).andThen fun d => .pure _
  | .tuple members _, hty => by
    rw [defaultStep]
    exact (defaults_step hprerun h members hty).andThen fun ds => .pure _
  | .struct id, hty => by
    simp only [default, defaultStep]
    cases t.hasMember (.struct id) .defaultConstructor with
    | true => exact .pure _
    | false =>
      refine (hprerun (.struct id)).lift ?_
      cases t.canBePrerun (.struct id) with
      | false => exact .pure _
      | true =>
        cases hd : t.structs[id]? with
        | none => exact .pure _
        | some d =>
          have hparts := mapM_default_parts fun p hp => h p (hty.fieldTypes hd p hp)
          exact hparts.andThen fun ds => .pure _
  | .mix id, hty => by
    simp only [default, defaultStep]
    cases hd : t.mixes[id]? with
    | none => exact .pure _
    | some d =>
      unfold defaultMix
      cases hi : d.default with
      | none =>
        simp only [hi]
        exact .pure _
      | some i =>
        simp only [hi]
        cases hv : (d.variants[i]?).bind MixVariant.payload with
        | none => exact .pure _
        | some payload =>
          have hmem : payload ∈ d.payloads := by
            obtain ⟨v, hv, hpayload⟩ := Option.bind_eq_some_iff.mp hv
            exact List.mem_filterMap.mpr ⟨v, List.mem_of_getElem? hv, hpayload⟩
          exact (h payload (hty.payloads hd payload hmem)).andThen fun d => .pure _
  | .choice id, _ => by
    simp only [default, defaultStep]
    cases t.choices[id]? <;> exact .pure _
  | .native kind, _ => by
    simp only [default, defaultStep]
    cases kind.repr t.pointerWidth <;> exact .pure _
  | .mark _ _ nullable .., _ => by
    rw [defaultStep]
    cases nullable <;> exact .pure _
  | .int _, _ | .uint _, _ | .float _, _ | .char, _ | .bool, _ | .void, _ | .str, _ | .ref .., _
  | .vector .., _ | .maybe _, _ | .function .., _ | .future .., _ | .typed _, _ => by
    rw [defaultStep] <;> first | exact .pure _ | nofun

theorem defaults_step (hprerun : ∀ ty, ComesTo (canBePrerun t · ty) (t.canBePrerun ty))
    (h : ∀ p, part p → ComesTo (default t · p) (parts p)) : ∀ tys, t.NestAllStep part tys →
      ComesTo (fun depth => (tys.mapM (default t depth)).run) (t.defaultsStep parts tys)
  | [], _ => by
    rw [defaultsStep]
    exact .pure _
  | ty :: tys, htys => by
    have hrest := defaults_step hprerun h tys htys.2
    simp only [List.mapM_cons, defaultsStep]
    exact (default_step hprerun h ty htys.1).andThen fun d => hrest.andThen fun ds => .pure _

end

end

theorem default_eq (hprerun : ∀ ty, ComesTo (canBePrerun t · ty) (t.canBePrerun ty))
    (h : t.NestsWithin n ty) (hle : n ≤ m) :
    ComesTo (default t · ty) (t.defaultWithin m ty) := by
  induction n generalizing m ty with
  | zero => cases h
  | succ n ih =>
    obtain ⟨m, rfl⟩ : ∃ k, m = k + 1 := ⟨m - 1, by omega⟩
    exact default_step hprerun (fun p hp => ih hp (by omega)) ty h

end Unbounded

/-! ## Grounded tables -/

namespace TypeTable.Grounded

open Unbounded (ComesTo)

variable (h : t.Grounded)
include h

theorem layout (ty : Ty) : ComesTo (Unbounded.layout t · ty) (t.layout? ty) :=
  Unbounded.layout_eq (h.nests ty) t.card_known_lt

theorem canBePrerun (ty : Ty) : ComesTo (Unbounded.canBePrerun t · ty) (t.canBePrerun ty) :=
  Unbounded.hasTrait_eq (h.nests ty) t.card_known_lt

theorem default (ty : Ty) : ComesTo (Unbounded.default t · ty) (t.defaultWithin t.depth ty) :=
  Unbounded.default_eq h.canBePrerun (h.nests ty) t.card_known_lt

end TypeTable.Grounded

end Staged
