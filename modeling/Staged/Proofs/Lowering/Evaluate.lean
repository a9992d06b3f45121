/-
  Staged.Proofs.Lowering.Evaluate — compile-time evaluation asks only for what collecting
  dependencies takes care of.

  An expression is evaluated where the locals of the running call have names, and its uses
  are collected with those names as locals. When every use means something that may be
  asked for, and so does every callee that a local shadows, evaluation keeps the setting.
-/

import Staged.Proofs.Lowering.Known

open Std.Do

set_option mvcgen.warning false

namespace Staged

namespace Setting

variable (w : Setting)

def CoversAll (view : Viewpoint) (us : List Use) : Prop := ∀ u ∈ us, w.Covers view u

@[simp] theorem coversAll_nil (view : Viewpoint) : w.CoversAll view [] := by
  intro u hu
  cases hu

@[simp] theorem coversAll_append {view : Viewpoint} {us vs : List Use} :
    w.CoversAll view (us ++ vs) ↔ w.CoversAll view us ∧ w.CoversAll view vs :=
  List.forall_mem_append

def Calls (call : Emit.Caller) : Prop :=
  ∀ f args range, w.Callable f → args.length = f.args.length → w.Keeps (call f args range)

end Setting

namespace Emit

variable {w : Setting} {call : Caller} {view : Viewpoint} {phase : Phase} {locals : List String}

/-- What a callee names may be asked for, whether or not a local hides it. -/
theorem finds_callee {callee : Expr} (hu : w.CoversAll view (callee.uses phase locals))
    (hs : w.CoversAll view (callee.shadowed phase locals)) (range : Span) (name : QName)
    (hc : callee = .entity range name) : w.Finds view name := by
  subst hc
  cases h : name.isSingle && name.headIn locals with
  | false => exact (hu _ (List.mem_singleton.mpr rfl)).finds h
  | true =>
    have hmem : (⟨name, .complete, phase, false⟩ : Use) ∈
        (Expr.entity range name).shadowed phase locals := by
      simp only [Expr.shadowed, h, ↓reduceIte, List.mem_singleton]
    exact (hs _ hmem).finds (Bool.and_false _)

mutual

theorem keeps_resolveTypeWith (hcall : w.Calls call) (hl : w.HasLocals locals) :
    ∀ (ty : TypeExpr) {need : Need}, w.CoversAll view (ty.uses phase locals need) →
      w.CoversAll view (ty.shadowedCalls phase locals) → w.Keeps (resolveTypeWith call view ty)
  | .int .., _, _, _ | .uint .., _, _, _ | .float .., _, _, _ | .bool _, _, _, _
  | .char _, _, _, _ | .void _, _, _, _ | .str _, _, _, _ | .native .., _, _, _ => by
    mvcgen [resolveTypeWith]
  | .named _ name, _, hu, _ => by
    unfold resolveTypeWith
    exact keeps_namedType ((hu _ (List.mem_singleton.mpr rfl)).hasLocal_or_finds hl)
  | .mark _ sub owner _ _ _, _, hu, hs => by
    simp only [TypeExpr.uses, TypeExpr.shadowedCalls, Setting.coversAll_append] at hu hs
    have hsub := keeps_resolveTypeWith hcall hl sub hu.1 hs.1
    have howner := keeps_resolveOwnerWith hcall hl owner hu.2 hs.2
    mvcgen [resolveTypeWith, hsub, howner]
  | .ref _ sub _, _, hu, hs => by
    have hsub := keeps_resolveTypeWith hcall hl sub hu hs
    mvcgen [resolveTypeWith, hsub]
    simp_all
  | .array _ element length, _, hu, hs => by
    simp only [TypeExpr.uses, TypeExpr.shadowedCalls, Setting.coversAll_append] at hu hs
    have helement := keeps_resolveTypeWith hcall hl element hu.1 hs.1
    have hlength := keeps_evaluateWith hcall hl length hu.2 hs.2
    mvcgen [resolveTypeWith, helement, hlength] <;> simp_all
  | .vector _ element _ _, _, hu, hs => by
    have helement := keeps_resolveTypeWith hcall hl element hu hs
    mvcgen [resolveTypeWith, helement]
    simp_all
  | .tuple _ members _, _, hu, hs => by
    have hmembers := keeps_resolveTypesWith hcall hl members hu hs
    mvcgen [resolveTypeWith, hmembers]
  | .function _ result args _, _, hu, hs => by
    simp only [TypeExpr.uses, TypeExpr.shadowedCalls, Setting.coversAll_append] at hu hs
    have hresult := keeps_resolveTypeWith hcall hl result hu.1 hs.1
    have hargs := keeps_resolveTypesWith hcall hl args hu.2 hs.2
    mvcgen [resolveTypeWith, hresult, hargs]
  | .future _ sub _, _, hu, hs | .maybe _ sub, _, hu, hs | .typed _ sub, _, hu, hs => by
    have hsub := keeps_resolveTypeWith hcall hl sub hu hs
    mvcgen [resolveTypeWith, hsub]

theorem keeps_resolveOwnerWith (hcall : w.Calls call) (hl : w.HasLocals locals) :
    ∀ owner : Owner TypeExpr, w.CoversAll view (ownerUses phase locals owner) →
      w.CoversAll view (ownerShadowedCalls phase locals owner) →
      w.Keeps (resolveOwnerWith call view owner)
  | .anonymous, _, _ | .heap, _, _ => by
    mvcgen [resolveOwnerWith]
  | .type owner, hu, hs => by
    have howner := keeps_resolveTypeWith hcall hl owner hu hs
    mvcgen [resolveOwnerWith, howner]

theorem keeps_resolveTypesWith (hcall : w.Calls call) (hl : w.HasLocals locals) :
    ∀ (tys : List TypeExpr) {need : Need}, w.CoversAll view (typesUses phase locals need tys) →
      w.CoversAll view (typesShadowedCalls phase locals tys) →
      w.Keeps (resolveTypesWith call view tys)
  | [], _, _, _ => by
    mvcgen [resolveTypesWith]
  | ty :: tys, _, hu, hs => by
    simp only [typesUses, typesShadowedCalls, Setting.coversAll_append] at hu hs
    have hty := keeps_resolveTypeWith hcall hl ty hu.1 hs.1
    have htys := keeps_resolveTypesWith hcall hl tys hu.2 hs.2
    mvcgen [resolveTypesWith, hty, htys]

theorem keeps_suffixWith (hcall : w.Calls call) (hl : w.HasLocals locals) :
    ∀ suffix : Option TypeExpr, w.CoversAll view (suffixUses phase locals suffix) →
      w.CoversAll view (suffixShadowedCalls phase locals suffix) →
      w.Keeps (suffixWith call view suffix)
  | none, _, _ => by
    mvcgen [suffixWith]
  | some ty, hu, hs => by
    have hty := keeps_resolveTypeWith hcall hl ty hu hs
    mvcgen [suffixWith, hty]

theorem keeps_evaluateWith (hcall : w.Calls call) (hl : w.HasLocals locals) :
    ∀ e : Expr, w.CoversAll view (e.uses phase locals) →
      w.CoversAll view (e.shadowedCalls phase locals) →
      ∀ expected : Option Ty, w.Keeps (evaluateWith call view e expected)
  | .int _ _ suffix, hu, hs, expected | .float _ _ suffix, hu, hs, expected => by
    have hsuffix := keeps_suffixWith hcall hl suffix hu hs
    mvcgen [evaluateWith, hsuffix]
  | .bool .., _, _, _ | .char .., _, _, _ | .str .., _, _, _ => by
    mvcgen [evaluateWith]
  | .null _, _, _, _ | .default _, _, _, _ | .none _, _, _, _ => by
    mvcgen [evaluateWith] <;> simp_all
  | .some _ inner, hu, hs, _ => by
    have hinner := keeps_evaluateWith hcall hl inner hu hs
    mvcgen [evaluateWith, hinner]
  | .tuple _ items, hu, hs, _ => by
    have hitems := gives_evaluateEachWith hcall hl items hu hs
    mvcgen [evaluateWith, hitems]
    simp_all
  | .array _ items, hu, hs, _ => by
    have hitems := keeps_evaluateItemsWith hcall hl items hu hs
    mvcgen [evaluateWith, hitems]
    simp_all
  | .entity _ name, hu, _, expected => by
    unfold evaluateWith
    exact keeps_namedConstant hl (hu _ (List.mem_singleton.mpr rfl)) expected
  | .unary range op operand, hu, hs, expected => by
    have hoperand := keeps_evaluateWith hcall hl operand hu hs
    have hsuffix : ∀ range value suffix, operand = .int range value suffix →
        w.Keeps (suffixWith call view suffix) := by
      cases operand with
      | int range value suffix =>
        intro _ _ _ h
        cases h
        exact keeps_suffixWith hcall hl suffix hu hs
      | _ =>
        intro _ _ _ h
        cases h
    obtain ⟨r, v, s, hoperand', heq⟩ | heq :=
      evaluateWith_unary call view range op operand expected
    · have hliteral := hsuffix r v s hoperand'
      rw [heq]
      mvcgen [hliteral]
    · rw [heq]
      mvcgen [hoperand]
  | .binary _ _ lhs rhs, hu, hs, _ => by
    simp only [Expr.uses, Expr.shadowedCalls, Setting.coversAll_append] at hu hs
    have hlhs := keeps_evaluateWith hcall hl lhs hu.1 hs.1
    have hrhs := keeps_evaluateWith hcall hl rhs hu.2 hs.2
    mvcgen [evaluateWith, hlhs, hrhs] <;> simp_all
  | .index _ base position, hu, hs, _ => by
    simp only [Expr.uses, Expr.shadowedCalls, Setting.coversAll_append] at hu hs
    have hbase := keeps_evaluateWith hcall hl base hu.1 hs.1
    have hposition := keeps_evaluateWith hcall hl position hu.2 hs.2
    mvcgen [evaluateWith, hbase, hposition] <;> simp_all
  | .member _ base _, hu, hs, _ => by
    have hbase := keeps_evaluateWith hcall hl base hu hs
    mvcgen [evaluateWith, hbase]
    simp_all
  | .call range callee args, hu, hs, _ => by
    simp only [Expr.uses, Expr.shadowedCalls, Setting.coversAll_append] at hu hs
    have hcallee := gives_calledFunction? (finds_callee hu.1 hs.1.1)
    have hargs := gives_evaluateEachWith hcall hl args hu.2 hs.2
    have hcall' (f : PrerunFunction) (vs : List Constant) (hf : w.Callable f)
        (hlen : vs.length = f.args.length) := hcall f vs range hf hlen
    mvcgen [evaluateWith, hcallee, hargs, hcall'] <;> simp_all
  | .cast _ value target, hu, hs, _ => by
    simp only [Expr.uses, Expr.shadowedCalls, Setting.coversAll_append] at hu hs
    have hvalue := keeps_evaluateWith hcall hl value hu.1 hs.1
    have htarget := keeps_resolveTypeWith hcall hl target hu.2 hs.2
    mvcgen [evaluateWith, hvalue, htarget]
  | .ifElse _ condition thenValue elseValue, hu, hs, _ => by
    simp only [Expr.uses, Expr.shadowedCalls, Setting.coversAll_append] at hu hs
    have hcondition := keeps_evaluateWith hcall hl condition hu.1.1 hs.1.1
    have hthen := keeps_evaluateWith hcall hl thenValue hu.1.2 hs.1.2
    have helse := keeps_evaluateWith hcall hl elseValue hu.2 hs.2
    mvcgen [evaluateWith, hcondition, hthen, helse]
  | .sizeOf _ type, hu, hs, _ | .typeValue _ type, hu, hs, _ => by
    have htype := keeps_resolveTypeWith hcall hl type hu hs
    mvcgen [evaluateWith, htype] <;> simp_all
  | .variant _ type _ value, hu, hs, _ => by
    simp only [Expr.uses, Expr.shadowedCalls, Setting.coversAll_append] at hu hs
    have htype := keeps_resolveTypeWith hcall hl type hu.1 hs.1
    have hvalue := keeps_evaluateOptionWith hcall hl value hu.2 hs.2
    mvcgen [evaluateWith, htype, hvalue]
    simp_all
  | .plain range type _ values, hu, hs, _ => by
    simp only [Expr.uses, Expr.shadowedCalls, Setting.coversAll_append] at hu hs
    have htype := keeps_resolveTypeWith hcall hl type hu.1 hs.1
    have hvalues := keeps_evaluateFieldsWith hcall hl range values hu.2 hs.2
    mvcgen [evaluateWith, htype, hvalues] <;> simp_all
  | .todo .., _, _, _ => by
    mvcgen [evaluateWith]
  | .self _, _, _, _ | .selfMember .., _, _, _ | .deref .., _, _, _ | .addressOf .., _, _, _
  | .copy .., _, _, _ | .move .., _, _, _ | .methodCall .., _, _, _ | .construct .., _, _, _
  | .heapGet .., _, _, _ | .heapPut .., _, _, _ | .heapGrow .., _, _, _ | .await .., _, _, _
  | .assembly .., _, _, _ => by
    mvcgen [evaluateWith] <;> simp_all

theorem gives_evaluateEachWith (hcall : w.Calls call) (hl : w.HasLocals locals) :
    ∀ es : List Expr, w.CoversAll view (exprsUses phase locals es) →
      w.CoversAll view (exprsShadowedCalls phase locals es) →
      ∀ hints : List Ty, w.Gives (evaluateEachWith call view es hints) (·.length = es.length)
  | [], _, _, _ => by
    mvcgen [evaluateEachWith]
  | e :: es, hu, hs, _ => by
    simp only [exprsUses, exprsShadowedCalls, Setting.coversAll_append] at hu hs
    have he := keeps_evaluateWith hcall hl e hu.1 hs.1
    have hes := gives_evaluateEachWith hcall hl es hu.2 hs.2
    mvcgen [evaluateEachWith, he, hes]
    simp_all

theorem keeps_evaluateItemsWith (hcall : w.Calls call) (hl : w.HasLocals locals) :
    ∀ es : List Expr, w.CoversAll view (exprsUses phase locals es) →
      w.CoversAll view (exprsShadowedCalls phase locals es) →
      ∀ element : Option Ty, w.Keeps (evaluateItemsWith call view es element)
  | [], _, _, _ => by
    mvcgen [evaluateItemsWith]
  | e :: es, hu, hs, _ => by
    simp only [exprsUses, exprsShadowedCalls, Setting.coversAll_append] at hu hs
    have he := keeps_evaluateWith hcall hl e hu.1 hs.1
    have hes := keeps_evaluateItemsWith hcall hl es hu.2 hs.2
    mvcgen [evaluateItemsWith, he, hes]
    simp_all

theorem keeps_evaluateOptionWith (hcall : w.Calls call) (hl : w.HasLocals locals) :
    ∀ e : Option Expr, w.CoversAll view (optionUses phase locals e) →
      w.CoversAll view (optionShadowedCalls phase locals e) →
      ∀ expected : Option Ty, w.Keeps (evaluateOptionWith call view e expected)
  | none, _, _, _ => by
    mvcgen [evaluateOptionWith]
  | some e, hu, hs, _ => by
    have he := keeps_evaluateWith hcall hl e hu hs
    mvcgen [evaluateOptionWith, he]

theorem keeps_evaluateFieldsWith (hcall : w.Calls call) (hl : w.HasLocals locals)
    (range : Span) :
    ∀ es : List Expr, w.CoversAll view (exprsUses phase locals es) →
      w.CoversAll view (exprsShadowedCalls phase locals es) →
      ∀ (types : List Ty) (order : List Nat),
        w.Keeps (evaluateFieldsWith call view range es types order)
  | [], _, _, _, _ => by
    mvcgen [evaluateFieldsWith]
  | _ :: _, _, _, _, [] => by
    mvcgen [evaluateFieldsWith]
  | e :: es, hu, hs, _, _ :: _ => by
    simp only [exprsUses, exprsShadowedCalls, Setting.coversAll_append] at hu hs
    have he := keeps_evaluateWith hcall hl e hu.1 hs.1
    have hes := keeps_evaluateFieldsWith hcall hl range es hu.2 hs.2
    mvcgen [evaluateFieldsWith, he, hes]
    simp_all

end

end Emit

end Staged
