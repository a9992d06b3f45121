/-
  Staged.Proofs.Halting.Evaluate — evaluation that nothing bounds ends by itself.

  Where no type holds itself, a run of the unbounded rules ends and comes to what the
  bounded ones come to (`Unbounded.Reaches`): in a step at once, in a sequence because its
  parts do, in a loop because the iterations are counted, in a body because it is finite.
  A caller is taken as a parameter that settles its calls (`Unbounded.Settles`), and the
  callers are settled by induction on how many calls may still nest.

  Main statement: `Unbounded.settles`.
-/

import Staged.Proofs.Halting.Types
import Staged.Proofs.Values.Calls

namespace Staged

open Unbounded (Run step outcome)

def Ground.grounded (outer : Outer) : Ground where
  toDomain := .all TypeTable.Grounded
  outer := outer
  admits _ := True
  code c := c.types.Grounded
  code_intern {c} ty h := h.extends (c.types.same_intern ty).sameParts.extends
  code_abandon _ _ h := h
  knows_types h := h
  locals _ _ _ _ := trivial
  symbols _ _ := trivial
  defines _ _ := trivial
  allows _ := True
  allows_fault _ _ := trivial
  allows_missing _ _ _ := trivial
  warned _ := True
  warned_push _ _ := trivial

namespace Unbounded

variable {α β : Type} {outer : Outer} {o : Options} {n : Nat}

theorem bind_some {a : Run α} {o : Options} {s s' : Compiler} {v : α}
    (h : a o s = some (.ok (v, s'))) (k : α → Run β) : (a >>= k) o s = k v o s' := by
  show Option.bind (a o s) _ = _
  rw [h]
  rfl

theorem bind_error {a : Run α} {o : Options} {s : Compiler} {f : Failure}
    (h : a o s = some (.error f)) (k : α → Run β) : (a >>= k) o s = some (.error f) := by
  show Option.bind (a o s) _ = _
  rw [h]
  rfl

/-! ## Runs and actions -/

/-- With `n` calls running, the run ends and comes to what the action comes to. -/
def Reaches (outer : Outer) (o : Options) (n : Nat) (a : Nat → Run α) (b : Emit α) : Prop :=
  ∀ s, (Ground.grounded outer).Stands n s → ComesTo (fun depth => a depth o s) (outcome (b o s))

namespace Reaches

variable {a : Nat → Run α} {b : Emit α} {k : Nat → α → Run β} {l : α → Emit β} {Q : α → Prop}

theorem pure (v : α) : Reaches outer o n (fun _ => pure v) (pure v) := fun _ _ => .pure _

theorem lift (b : Emit α) : Reaches outer o n (fun _ => liftM b) b := fun _ _ => .pure _

theorem later (h : Reaches outer o n (fun depth => a (depth + 1)) b) : Reaches outer o n a b :=
  fun s hs => (h s hs).later

theorem earlier (h : Reaches outer o n a b) : Reaches outer o n (fun depth => a (depth + 1)) b :=
  fun s hs => (h s hs).earlier

theorem bind (h : Reaches outer o n a b) (hends : (Ground.grounded outer).Ends n b Q)
    (hk : ∀ v, Q v → Reaches outer o n (k · v) (l v)) :
    Reaches outer o n (fun depth => a depth >>= k depth) (b >>= l) := by
  intro s hs
  have ha := h s hs
  have hb := hends o trivial s hs
  rw [Emit.bind_apply]
  cases hr : b o s with
  | ok v s' =>
    rw [hr] at ha hb
    exact ha.both (hk v hb.2 s' hb.1) fun depth ha => bind_some ha (k depth)
  | error f s' =>
    rw [hr] at ha
    exact ha.both (.pure _) fun depth ha => bind_error ha (k depth)

/-- What comes after an action that recurses into nothing. -/
theorem step {b : Emit α} (hends : (Ground.grounded outer).Ends n b Q)
    (hk : ∀ v, Q v → Reaches outer o n (k · v) (l v)) :
    Reaches outer o n (fun depth => liftM b >>= k depth) (b >>= l) := (lift b).bind hends hk

theorem require {value : Option α} {f : Fault} {range : Span}
    (hk : ∀ v, Reaches outer o n (k · v) (l v)) :
    Reaches outer o n (fun depth => liftM (Emit.require value f range) >>= k depth)
      (Emit.require value f range >>= l) :=
  step (Emit.ends_require (Q := fun _ => True) f range fun _ _ => trivial) fun v _ => hk v

theorem orRefuse {r : Except Fault α} {range : Span}
    (hk : ∀ v, Reaches outer o n (k · v) (l v)) :
    Reaches outer o n (fun depth => liftM (Emit.orRefuse r range) >>= k depth)
      (Emit.orRefuse r range >>= l) :=
  step (Emit.ends_orRefuse (Q := fun _ => True) range fun _ _ => trivial) fun v _ => hk v

theorem orRefuseFold {r : Except FoldError α} {range : Span}
    (hk : ∀ v, Reaches outer o n (k · v) (l v)) :
    Reaches outer o n (fun depth => liftM (Emit.orRefuseFold r range) >>= k depth)
      (Emit.orRefuseFold r range >>= l) :=
  step (Emit.ends_orRefuseFold (Q := fun _ => True) range fun _ _ => trivial) fun v _ => hk v

/-- The table at hand is grounded. -/
theorem types {k : Nat → TypeTable → Run β} {l : TypeTable → Emit β}
    (hk : ∀ t, t.Grounded → Reaches outer o n (k · t) (l t)) :
    Reaches outer o n (fun depth => liftM Emit.types >>= k depth) (Emit.types >>= l) :=
  step Emit.ends_types hk

theorem ite {c : Prop} [Decidable c] {a' : Nat → Run α} {b' : Emit α}
    (h : c → Reaches outer o n a b) (h' : ¬c → Reaches outer o n a' b') :
    Reaches outer o n (fun depth => if c then a depth else a' depth) (if c then b else b') := by
  by_cases hc : c
  · simp only [hc, if_true]
    exact h hc
  · simp only [hc, if_false]
    exact h' hc

theorem guard {c : Prop} [Decidable c] {f : Fault} {range : Span} {a' : Nat → Run β} {b' : Emit β}
    (h : ¬c → Reaches outer o n a' b') :
    Reaches outer o n
      (fun depth => if c then liftM (Emit.refuse f range) >>= k depth else a' depth)
      (if c then Emit.refuse f range >>= l else b') :=
  .ite (fun _ => step (Emit.ends_refuse (Q := fun _ => False) f range) fun _ h => h.elim) h

theorem test {c : Prop} [Decidable c] {f : Fault} {range : Span} {a' : Nat → Run β} {b' : Emit β}
    (h : c → Reaches outer o n a' b') :
    Reaches outer o n
      (fun depth => if c then a' depth else liftM (Emit.refuse f range) >>= k depth)
      (if c then b' else Emit.refuse f range >>= l) :=
  .ite h fun _ => step (Emit.ends_refuse (Q := fun _ => False) f range) fun _ h => h.elim

-- the two sides may read their limits at different places
theorem read {k : Nat → Options → Run β} {b : Emit β} (h : Reaches outer o n (k · o) b) :
    Reaches outer o n (fun depth => MonadReader.read >>= k depth) b := h

theorem read' {a : Nat → Run β} {l : Options → Emit β} (h : Reaches outer o n a (l o)) :
    Reaches outer o n a (MonadReader.read >>= l) := h

/-- A recursion through types that is known to end. -/
theorem option {x : Nat → Option α} {v : α} {b : Emit β} (hx : ComesTo x v)
    (h : Reaches outer o n (k · v) b) :
    Reaches outer o n (fun depth => liftM (x depth) >>= k depth) b :=
  fun s hs => hx.both (h s hs) fun depth hx => by
    show (liftM (x depth) >>= k depth) o s = k depth v o s
    rw [hx]
    rfl

/-- A test on how many calls are running. -/
theorem calls {limit : Nat} {a a' : Nat → Run α} {b : Emit α}
    (h : limit ≤ n → Reaches outer o n a b) (h' : ¬limit ≤ n → Reaches outer o n a' b) :
    Reaches outer o n
      (fun depth => do if limit ≤ (← get).frames.length then a depth else a' depth) b := by
  intro s hs
  show ComesTo (fun depth => (if limit ≤ s.frames.length then a depth else a' depth) o s) _
  rw [hs.calls]
  by_cases hc : limit ≤ n
  · simp only [hc, if_true]
    exact h hc s hs
  · simp only [hc, if_false]
    exact h' hc s hs

/-- What comes after is only run when the inside did not fail. -/
theorem bracket {m : Nat} {before after : Emit Unit} {inside : Nat → Run α} {inside' : Emit α}
    (h : Emit.Brackets (.grounded outer) n m before after)
    (hinside : Reaches outer o m inside inside')
    (hends : (Ground.grounded outer).Ends m inside' Q)
    (hk : ∀ v, Q v → Reaches outer o n (k · v) (l v)) :
    Reaches outer o n (fun depth => do
      liftM before
      let v ← inside depth
      liftM after
      k depth v) (Emit.bracket before after inside' >>= l) := by
  intro s hs
  obtain ⟨s₁, hb, hs₁⟩ := h.enters o s hs
  have hrun := hinside s₁ hs₁
  have hin := hends o trivial s₁ hs₁
  rw [Emit.bind_apply, Emit.bracket_apply, hb]
  dsimp only
  cases hr : inside' o s₁ with
  | ok v s₂ =>
    rw [hr] at hrun hin
    obtain ⟨s₃, ha, -, hs₃⟩ := h.leaves o s₂ hin.1.toStops
    simp only [ha]
    refine hrun.both (hk v hin.2 s₃ (hs₃ hin.1)) fun depth hrun => ?_
    rw [bind_some (congrArg (some ∘ outcome) hb), bind_some hrun,
      bind_some (congrArg (some ∘ outcome) ha)]
  | error f s₂ =>
    rw [hr] at hrun hin
    obtain ⟨s₃, ha, -⟩ := h.leaves o s₂ hin.1
    simp only [ha]
    refine hrun.both (.pure _) fun depth hrun => ?_
    rw [bind_some (congrArg (some ∘ outcome) hb)]
    exact bind_error hrun _

end Reaches

/-! ## Types and expressions -/

open Emit

variable {caller : Caller} {view : Viewpoint}

theorem reaches_defaultOf (ty : Ty) (range : Span) : Reaches outer o n (defaultOf · ty range)
    (do orRefuse ((← types).default ty) range) := by
  refine .types fun t ht => .option (ht.default ty) fun s _ => ?_
  unfold TypeTable.default
  cases t.defaultWithin t.depth ty <;> exact .pure _

structure Settles (outer : Outer) (o : Options) (n : Nat) (caller : Caller) : Prop where
  calls : (Ground.grounded outer).Calls caller
  reaches : ∀ f args range, Reaches outer o n (call · f args range) (caller f args range)

theorem reaches_foldOperands (op : BinaryOp) (l r : Constant) (range : Span) :
    Reaches outer o n (fun _ => do
        liftM (orRefuse ((← liftM types).checkOperands op l.type r.type) range)
        liftM (orRefuseFold ((← liftM types).foldBinary op l r) range)) (do
      orRefuse ((← types).checkOperands op l.type r.type) range
      orRefuseFold ((← types).foldBinary op l r) range) := by
  exact .types fun t _ => .orRefuse fun _ => .types fun t _ => .lift _

section

variable {range : Span} {expected : Option Ty}

theorem reaches_unary {op : UnaryOp} {operand : Expr} (h : Settles outer o n caller)
    (hsuffix : ∀ r v s, operand = .int r v s →
      Reaches outer o n (fun depth => resolveSuffix (resolveType depth view) s)
        (suffixWith caller view s))
    (hoperand : Reaches outer o n (evaluate · view operand expected)
      (evaluateWith caller view operand expected)) :
    Reaches outer o n (fun depth => evaluate (depth + 1) view (.unary range op operand) expected)
      (evaluateWith caller view (.unary range op operand) expected) := by
  by_cases hneg : ∃ r v s, op = .negate ∧ operand = .int r v s
  · obtain ⟨r, v, s, rfl, rfl⟩ := hneg
    simp only [evaluate, evaluateWith]
    exact (hsuffix r v s rfl).bind (ends_suffixWith h.calls _) fun _ _ => .lift _
  · have hother r v s : op = .negate → operand = .int r v s → False :=
      fun hop hoperand => hneg ⟨r, v, s, hop, hoperand⟩
    simp only [evaluate, evaluateWith]
    refine hoperand.bind (ends_evaluateWith h.calls _ _) fun _ _ => ?_
    exact .types fun t _ => .lift _

theorem reaches_binary {op : BinaryOp} {lhs rhs : Expr} (h : Settles outer o n caller)
    (hlhs : ∀ ty, Reaches outer o n (evaluate · view lhs ty) (evaluateWith caller view lhs ty))
    (hrhs : ∀ ty, Reaches outer o n (evaluate · view rhs ty) (evaluateWith caller view rhs ty)) :
    Reaches outer o n (fun depth => evaluate (depth + 1) view (.binary range op lhs rhs) expected)
      (evaluateWith caller view (.binary range op lhs rhs) expected) := by
  simp only [evaluate, evaluateWith]
  refine .ite (fun _ => ?_) fun _ => .ite (fun _ => ?_) fun _ => ?_
  · refine (hlhs _).bind (ends_evaluateWith h.calls _ _) fun l _ => ?_
    refine .step (ends_asCondition l _) fun left _ => .ite (fun _ => .pure _) fun _ => ?_
    refine (hrhs _).bind (ends_evaluateWith h.calls _ _) fun r _ => ?_
    exact .step (ends_asCondition r _) fun right _ => .pure _
  · refine (hrhs _).bind (ends_evaluateWith h.calls _ _) fun r _ => ?_
    refine (hlhs _).bind (ends_evaluateWith h.calls _ _) fun l _ => ?_
    exact reaches_foldOperands op l r range
  · refine (hlhs _).bind (ends_evaluateWith h.calls _ _) fun l _ => ?_
    refine (hrhs _).bind (ends_evaluateWith h.calls _ _) fun r _ => ?_
    exact reaches_foldOperands op l r range

theorem reaches_call {callee : Expr} {args : List Expr} (h : Settles outer o n caller)
    (hargs : ∀ hints, Reaches outer o n (fun depth => evaluateEach (evaluate depth view) args hints)
      (evaluateEachWith caller view args hints)) :
    Reaches outer o n (fun depth => evaluate (depth + 1) view (.call range callee args) expected)
      (evaluateWith caller view (.call range callee args) expected) := by
  simp only [evaluate, evaluateWith]
  refine .step (ends_calledFunction? view callee) fun _ _ => .require fun f => ?_
  refine .step (ends_checkArgCount f _ _) fun _ _ => ?_
  exact (hargs _).bind (ends_evaluateEachWith h.calls _ _) fun vs _ => h.reaches f vs range

theorem reaches_variant {type : TypeExpr} {name : Ident} {value : Option Expr}
    (h : Settles outer o n caller)
    (htype : Reaches outer o n (resolveType · view type) (resolveTypeWith caller view type))
    (hvalue : ∀ ty, Reaches outer o n (fun depth => evaluateOption (evaluate depth view) value ty)
      (evaluateOptionWith caller view value ty)) :
    Reaches outer o n
      (fun depth => evaluate (depth + 1) view (.variant range type name value) expected)
      (evaluateWith caller view (.variant range type name value) expected) := by
  simp only [evaluate, evaluateWith]
  refine htype.bind (ends_resolveTypeWith h.calls _) fun ty _ => .types fun t _ => ?_
  refine (hvalue _).bind (ends_evaluateOptionWith h.calls _ _) fun _ _ => ?_
  exact .types fun t _ => .lift _

theorem reaches_plain {type : TypeExpr} {fields : Option (List Ident)} {values : List Expr}
    (h : Settles outer o n caller)
    (htype : Reaches outer o n (resolveType · view type) (resolveTypeWith caller view type))
    (hvalues : ∀ tys order, Reaches outer o n
      (fun depth => evaluateFields (evaluate depth view) range values tys order)
      (evaluateFieldsWith caller view range values tys order)) :
    Reaches outer o n
      (fun depth => evaluate (depth + 1) view (.plain range type fields values) expected)
      (evaluateWith caller view (.plain range type fields values) expected) := by
  simp only [evaluate, evaluateWith]
  refine htype.bind (ends_resolveTypeWith h.calls _) fun ty _ => ?_
  refine .types fun t ht => .option (ht.canBePrerun ty) (.test fun _ => ?_)
  refine .step (ends_fieldOrder view ty fields _ range) fun order _ => .types fun t _ => ?_
  refine (hvalues _ order).bind (ends_evaluateFieldsWith h.calls _ _ _ _) fun _ _ => ?_
  exact .require fun _ => .pure _

end

mutual

theorem reaches_resolveType (h : Settles outer o n caller) (ty : TypeExpr) :
    Reaches outer o n (resolveType · view ty) (resolveTypeWith caller view ty) :=
  .later <| match ty with
  | .int .. | .uint .. | .float .. | .native .. | .named .. => by
    simp only [resolveType, resolveTypeWith]
    exact .lift _
  | .bool _ | .char _ | .void _ | .str _ => by
    simp only [resolveType, resolveTypeWith]
    exact .pure _
  | .mark _ sub owner _ _ _ => by
    simp only [resolveType, resolveTypeWith]
    refine (reaches_resolveType h sub).bind (ends_resolveTypeWith h.calls _) fun _ _ => ?_
    exact (reaches_resolveOwner h owner).bind (ends_resolveOwnerWith h.calls _) fun _ _ => .lift _
  | .ref _ sub _ => by
    simp only [resolveType, resolveTypeWith]
    refine (reaches_resolveType h sub).bind (ends_resolveTypeWith h.calls _) fun _ _ => ?_
    exact .guard fun _ => .lift _
  | .array _ element length => by
    simp only [resolveType, resolveTypeWith]
    refine (reaches_resolveType h element).bind (ends_resolveTypeWith h.calls _) fun _ _ => ?_
    refine (reaches_evaluate h length _).bind (ends_evaluateWith h.calls _ _) fun c _ => ?_
    cases c.asInt? with
    | none => exact .lift _
    | some l => exact .types fun t _ => .ite (fun _ => .lift _) fun _ => .lift _
  | .vector _ element _ _ => by
    simp only [resolveType, resolveTypeWith]
    refine (reaches_resolveType h element).bind (ends_resolveTypeWith h.calls _) fun _ _ => ?_
    exact .types fun t _ => .test fun _ => .lift _
  | .tuple _ members _ => by
    simp only [resolveType, resolveTypeWith]
    exact (reaches_resolveTypes h members).bind (ends_resolveTypesWith h.calls _) fun _ _ => .lift _
  | .function _ result args _ => by
    simp only [resolveType, resolveTypeWith]
    refine (reaches_resolveType h result).bind (ends_resolveTypeWith h.calls _) fun _ _ => ?_
    exact (reaches_resolveTypes h args).bind (ends_resolveTypesWith h.calls _) fun _ _ => .lift _
  | .future _ sub _ | .maybe _ sub | .typed _ sub => by
    simp only [resolveType, resolveTypeWith]
    exact (reaches_resolveType h sub).bind (ends_resolveTypeWith h.calls _) fun _ _ => .lift _

theorem reaches_resolveOwner (h : Settles outer o n caller) : ∀ owner : Owner TypeExpr,
    Reaches outer o n (fun depth => resolveOwner (resolveType depth view) owner)
      (resolveOwnerWith caller view owner)
  | .anonymous | .heap => by
    simp only [resolveOwner, resolveOwnerWith]
    exact .pure _
  | .type owner => by
    simp only [resolveOwner, resolveOwnerWith]
    exact (reaches_resolveType h owner).bind (ends_resolveTypeWith h.calls _) fun _ _ => .pure _

theorem reaches_resolveTypes (h : Settles outer o n caller) : ∀ tys : List TypeExpr,
    Reaches outer o n (fun depth => resolveTypes (resolveType depth view) tys)
      (resolveTypesWith caller view tys)
  | [] => by
    simp only [resolveTypes, resolveTypesWith]
    exact .pure _
  | ty :: tys => by
    simp only [resolveTypes, resolveTypesWith]
    refine (reaches_resolveType h ty).bind (ends_resolveTypeWith h.calls _) fun _ _ => ?_
    exact (reaches_resolveTypes h tys).bind (ends_resolveTypesWith h.calls _) fun _ _ => .pure _

theorem reaches_resolveSuffix (h : Settles outer o n caller) : ∀ suffix : Option TypeExpr,
    Reaches outer o n (fun depth => resolveSuffix (resolveType depth view) suffix)
      (suffixWith caller view suffix)
  | none => by
    simp only [resolveSuffix, suffixWith]
    exact .pure _
  | some ty => by
    simp only [resolveSuffix, suffixWith]
    exact (reaches_resolveType h ty).bind (ends_resolveTypeWith h.calls _) fun _ _ => .pure _

theorem reaches_evaluate (h : Settles outer o n caller) (e : Expr) (expected : Option Ty) :
    Reaches outer o n (evaluate · view e expected) (evaluateWith caller view e expected) :=
  .later <| match e, expected with
  | .int _ _ suffix, expected | .float _ _ suffix, expected => by
    simp only [evaluate, evaluateWith]
    exact (reaches_resolveSuffix h suffix).bind (ends_suffixWith h.calls _) fun _ _ => .lift _
  | .bool .., _ | .char .., _ | .str .., _ => by
    simp only [evaluate, evaluateWith]
    exact .pure _
  | .null range, expected => by
    simp only [evaluate, evaluateWith]
    exact .require fun _ => .pure _
  | .default range, expected => by
    simp only [evaluate, evaluateWith]
    exact .require fun _ => reaches_defaultOf _ _
  | .none range, expected => by
    simp only [evaluate, evaluateWith]
    exact .require fun _ => .pure _
  | .some _ inner, expected => by
    simp only [evaluate, evaluateWith]
    refine (reaches_evaluate h inner _).bind (ends_evaluateWith h.calls _ _) fun _ _ => ?_
    exact .step (ends_intern _) fun _ _ => .pure _
  | .tuple _ items, expected => by
    unfold evaluate evaluateWith
    refine (reaches_evaluateEach h items _).bind (ends_evaluateEachWith h.calls _ _) fun _ _ => ?_
    exact .step (ends_intern _) fun _ _ => .pure _
  | .array _ items, expected => by
    simp only [evaluate, evaluateWith]
    refine (reaches_evaluateItems h items _).bind (ends_evaluateItemsWith h.calls _ _) fun _ _ => ?_
    refine .require fun _ => ?_
    exact .step (ends_intern _) fun _ _ => .pure _
  | .entity .., _ | .self .., _ | .selfMember .., _ | .deref .., _ | .addressOf .., _ | .copy .., _
  | .move .., _ | .methodCall .., _ | .construct .., _ | .heapGet .., _ | .heapPut .., _
  | .heapGrow .., _ | .await .., _ | .assembly .., _ => by
    simp only [evaluate, evaluateWith]
    exact .lift _
  | .unary range op operand, expected => by
    refine reaches_unary h ?_ (reaches_evaluate h operand expected)
    cases operand with
    | int range value suffix =>
      intro _ _ _ heq
      cases heq
      exact reaches_resolveSuffix h suffix
    | _ => exact nofun
  | .binary range op lhs rhs, _ =>
    reaches_binary h (reaches_evaluate h lhs) (reaches_evaluate h rhs)
  | .index range base position, _ => by
    simp only [evaluate, evaluateWith]
    refine (reaches_evaluate h base _).bind (ends_evaluateWith h.calls _ _) fun _ _ => ?_
    refine (reaches_evaluate h position _).bind (ends_evaluateWith h.calls _ _) fun _ _ => ?_
    exact .require fun _ => .lift _
  | .member _ base _, _ => by
    simp only [evaluate, evaluateWith]
    refine (reaches_evaluate h base _).bind (ends_evaluateWith h.calls _ _) fun _ _ => ?_
    exact .types fun t _ => .lift _
  | .call range callee args, _ => reaches_call h (reaches_evaluateEach h args)
  | .cast range value target, _ => by
    simp only [evaluate, evaluateWith]
    refine (reaches_resolveType h target).bind (ends_resolveTypeWith h.calls _) fun _ _ => ?_
    refine (reaches_evaluate h value _).bind (ends_evaluateWith h.calls _ _) fun _ _ => ?_
    exact .types fun t _ => .lift _
  | .ifElse _ condition thenValue elseValue, expected => by
    simp only [evaluate, evaluateWith]
    refine (reaches_evaluate h condition _).bind (ends_evaluateWith h.calls _ _) fun c _ => ?_
    refine .step (ends_asCondition c _) fun holds _ => .ite (fun _ => ?_) fun _ => ?_
    · exact reaches_evaluate h thenValue expected
    · exact reaches_evaluate h elseValue expected
  | .sizeOf range type, _ => by
    simp only [evaluate, evaluateWith]
    refine (reaches_resolveType h type).bind (ends_resolveTypeWith h.calls _) fun ty _ => ?_
    refine .types fun t ht => .option (ht.layout ty) ?_
    exact .require fun _ => .pure _
  | .typeValue _ type, _ => by
    simp only [evaluate, evaluateWith]
    exact (reaches_resolveType h type).bind (ends_resolveTypeWith h.calls _) fun ty _ => .lift _
  | .variant _ type _ value, _ =>
    reaches_variant h (reaches_resolveType h type) (reaches_evaluateOption h value)
  | .plain range type fields values, _ =>
    reaches_plain h (reaches_resolveType h type) (reaches_evaluateFields h range values)
  | .todo range message, _ => by
    simp only [evaluate, evaluateWith]
    exact .step (ends_unfinished message range) fun _ _ => .pure _

theorem reaches_evaluateEach (h : Settles outer o n caller) : ∀ (es : List Expr) (hints : List Ty),
    Reaches outer o n (fun depth => evaluateEach (evaluate depth view) es hints)
      (evaluateEachWith caller view es hints)
  | [], _ => by
    simp only [evaluateEach, evaluateEachWith]
    exact .pure _
  | e :: es, hints => by
    simp only [evaluateEach, evaluateEachWith]
    refine (reaches_evaluate h e _).bind (ends_evaluateWith h.calls _ _) fun _ _ => ?_
    exact (reaches_evaluateEach h es _).bind (ends_evaluateEachWith h.calls _ _) fun _ _ => .pure _

theorem reaches_evaluateItems (h : Settles outer o n caller) :
    ∀ (es : List Expr) (element : Option Ty),
      Reaches outer o n (fun depth => evaluateItems (evaluate depth view) es element)
        (evaluateItemsWith caller view es element)
  | [], _ => by
    simp only [evaluateItems, evaluateItemsWith]
    exact .pure _
  | e :: es, element => by
    have hrest (v : Constant) := (reaches_evaluateItems h es (some v.type)).bind
      (ends_evaluateItemsWith h.calls _ _) (k := fun _ r => pure (r.1, v.data :: r.2))
      fun _ _ => .pure _
    simp only [evaluateItems, evaluateItemsWith]
    refine (reaches_evaluate h e _).bind (ends_evaluateWith h.calls _ _) fun v _ => ?_
    cases element with
    | none => exact hrest v
    | some ty => exact .guard fun _ => hrest v

theorem reaches_evaluateOption (h : Settles outer o n caller) :
    ∀ (e : Option Expr) (expected : Option Ty),
      Reaches outer o n (fun depth => evaluateOption (evaluate depth view) e expected)
        (evaluateOptionWith caller view e expected)
  | none, _ => by
    simp only [evaluateOption, evaluateOptionWith]
    exact .pure _
  | some e, expected => by
    simp only [evaluateOption, evaluateOptionWith]
    exact (reaches_evaluate h e _).bind (ends_evaluateWith h.calls _ _) fun _ _ => .pure _

theorem reaches_evaluateFields (h : Settles outer o n caller) (range : Span) :
    ∀ (es : List Expr) (tys : List Ty) (order : List Nat),
      Reaches outer o n (fun depth => evaluateFields (evaluate depth view) range es tys order)
        (evaluateFieldsWith caller view range es tys order)
  | [], _, _ | _ :: _, _, [] => by
    unfold evaluateFields evaluateFieldsWith
    exact .pure _
  | e :: es, tys, i :: order => by
    simp only [evaluateFields, evaluateFieldsWith]
    refine (reaches_evaluate h e _).bind (ends_evaluateWith h.calls _ _) fun _ _ => ?_
    refine .guard fun _ => ?_
    exact (reaches_evaluateFields h range es tys order).bind
      (ends_evaluateFieldsWith h.calls _ _ _ _) fun _ _ => .pure _

end

/-! ## Sentences -/

/-- The rest of a loop, after a body. -/
theorem reaches_afterBody {next : Nat → Run Flow} {next' : Emit Flow} (tag : Option Ident)
    (flow : Flow) (hnext : Reaches outer o n next next') :
    Reaches outer o n (fun depth => match leaves tag flow with
      | none => next depth
      | some flow => pure flow) (afterBody tag flow next') := by
  cases flow with
  | normal => exact hnext
  | brk t =>
    unfold afterBody leaves
    dsimp only
    cases Flow.targets t (tag.map Ident.text) <;> exact .pure _
  | cont t =>
    unfold afterBody leaves
    dsimp only
    cases Flow.targets t (tag.map Ident.text) with
    | true => exact hnext
    | false => exact .pure _
  | give v => exact .pure _

theorem reaches_inScope {body : Nat → Run Flow} {body' : Emit Flow} {Q : Flow → Prop}
    (hbody : Reaches outer o (n + 1) body body')
    (hends : (Ground.grounded outer).Ends (n + 1) body' Q) :
    Reaches outer o (n + 1) (fun depth => inScope (body depth)) (inFrameScope body') := by
  rw [← bind_pure (inFrameScope _)]
  exact .bracket (brackets_scope _ n) hbody hends fun _ _ => .pure _

/-- The bound counts down what the unbounded loop counts up. -/
theorem reaches_runWhile (range : Span) (tag : Option Ident) {goesOn : Nat → Run Bool}
    {goesOn' : Emit Bool} {body : Nat → Run Flow} {body' : Emit Flow} {Q : Flow → Prop}
    (hcondition : Reaches outer o (n + 1) goesOn goesOn')
    (hgoes : (Ground.grounded outer).Ends (n + 1) goesOn' fun _ => True)
    (hbody : Reaches outer o (n + 1) body body')
    (hends : (Ground.grounded outer).Ends (n + 1) body' Q) {left count : Nat}
    (hleft : left = o.loopLimit - count) :
    Reaches outer o (n + 1)
      (fun depth => runWhile range tag (goesOn depth) (body depth) depth count)
      (Emit.runWhile range tag goesOn' (inFrameScope body') left) := by
  -- the condition and the body keep the depth they have while the loop uses up its own
  induction left generalizing goesOn body count with
  | zero =>
    refine .later (.read ?_)
    simp only [if_pos (show o.loopLimit ≤ count by omega)]
    exact .lift _
  | succ left ih =>
    refine .later (.read ?_)
    simp only [if_neg (show ¬o.loopLimit ≤ count by omega)]
    refine hcondition.earlier.bind hgoes fun goOn _ => .ite (fun _ => ?_) fun _ => .pure _
    refine (reaches_inScope hbody.earlier hends).bind (ends_inFrameScope hends) fun flow _ => ?_
    exact reaches_afterBody tag flow (ih hcondition.earlier hbody.earlier (by omega))

theorem reaches_runItems (range : Span) (tag : Option Ident) (item? : Nat → Option Constant)
    {iteration : Nat → Nat → Constant → Run Flow} {iteration' : Nat → Constant → Emit Flow}
    {Q : Flow → Prop}
    (hiteration : ∀ i v, Reaches outer o (n + 1) (iteration · i v) (iteration' i v))
    (hends : ∀ i v, (Ground.grounded outer).Ends (n + 1) (iteration' i v) Q)
    {left position : Nat} (hleft : left = o.loopLimit - position) :
    Reaches outer o (n + 1) (fun depth => runItems range tag item? (iteration depth) depth position)
      (Emit.runItems range tag item? (fun i v => inFrameScope (iteration' i v)) position left) := by
  induction left generalizing iteration position with
  | zero =>
    refine .later ?_
    simp only [runItems, Emit.runItems]
    cases item? position with
    | none => exact .pure _
    | some v =>
      refine .read ?_
      simp only [if_pos (show o.loopLimit ≤ position by omega)]
      exact .lift _
  | succ left ih =>
    refine .later ?_
    simp only [runItems, Emit.runItems]
    cases item? position with
    | none => exact .pure _
    | some v =>
      refine .read ?_
      simp only [if_neg (show ¬o.loopLimit ≤ position by omega)]
      refine (reaches_inScope (hiteration position v).earlier (hends position v)).bind
        (ends_inFrameScope (hends position v)) fun flow _ => ?_
      exact reaches_afterBody tag flow (ih (fun i v => (hiteration i v).earlier) (by omega))

section

variable {body : Nat → Run Flow} {body' : Emit Flow} {Q : Flow → Prop}
  (hends : (Ground.grounded outer).Ends (n + 1) body' Q)
include hends

theorem ends_iteration (item index : Option Ident) (i : Nat) (v : Constant) :
    (Ground.grounded outer).Ends (n + 1) (do
      if let some n := item then
        let _ ← declareKnown n.text v false
      if let some n := index then
        let _ ← declareKnown n.text (if item.isSome then .int .usize i else v) false
      inFrameScope body') Q := by
  have hindexed (w : Constant) : (Ground.grounded outer).Ends (n + 1) (do
      if let some n := index then
        let _ ← declareKnown n.text w false
      inFrameScope body') Q := by
    have hscope := ends_inFrameScope hends
    cases index with
    | none => exact hscope
    | some name => exact (ends_declareKnown name.text false trivial).bind fun _ _ => hscope
  cases item with
  | none => exact hindexed v
  | some name =>
    exact (ends_declareKnown name.text false trivial).bind fun _ _ => hindexed (.int .usize i)

theorem reaches_iteration (hbody : Reaches outer o (n + 1) body body') (item index : Option Ident)
    (i : Nat) (v : Constant) :
    Reaches outer o (n + 1) (fun depth => iteration item index (body depth) i v) (do
      if let some n := item then
        let _ ← declareKnown n.text v false
      if let some n := index then
        let _ ← declareKnown n.text (if item.isSome then .int .usize i else v) false
      inFrameScope body') := by
  have hindexed (w : Constant) : Reaches outer o (n + 1) (fun depth => do
      if let some n := index then
        let _ ← (declareKnown n.text w false : Emit Bool)
      inScope (body depth)) (do
      if let some n := index then
        let _ ← declareKnown n.text w false
      inFrameScope body') := by
    have hscope := reaches_inScope hbody hends
    cases index with
    | none => exact hscope
    | some name => exact .step (ends_declareKnown name.text false trivial) fun _ _ => hscope
  cases item with
  | none => exact hindexed v
  | some name =>
    exact .step (ends_declareKnown name.text false trivial) fun _ _ => hindexed (.int .usize i)

end

theorem Settles.ends (h : Settles outer o (n + 1) caller) (view : Viewpoint)
    (body : List Sentence) : (Ground.grounded outer).Ends (n + 1)
      (runSentencesWith caller view body) (Flow.Holds fun _ => True) :=
  ends_runSentencesWith h.calls body

theorem reaches_initial (h : Settles outer o n caller) (name : Ident) (range : Span)
    (value : Option Expr) (declared : Option Ty) : Reaches outer o n
      (fun depth => initial (evaluate depth view) (defaultOf depth) name range value declared)
      (knownInitial name declared (value.map (evaluateWith caller view · declared)) range) := by
  cases value with
  | some e => exact reaches_evaluate h e declared
  | none => cases declared with
    | some ty => exact reaches_defaultOf ty range
    | none => exact .lift _

theorem reaches_localVar (h : Settles outer o (n + 1) caller) (range : Span) (name : Ident)
    (type : Option TypeExpr) (value : Option Expr) (isVar isRef : Bool) :
    Reaches outer o (n + 1)
      (fun depth => runSentence (depth + 1) view (.localVar range name type value isVar isRef))
      (runSentenceWith caller view (.localVar range name type value isVar isRef)) := by
  simp only [runSentence, runSentenceWith]
  have hdeclare (v : Constant) : Reaches outer o (n + 1) (fun _ => do
      unless ← declareKnown name.text v isVar do
        refuse (.duplicateLocal name.text none) name.range
      return Flow.normal) (do
      unless ← declareKnown name.text v isVar do
        refuse (.duplicateLocal name.text none) name.range
      return Flow.normal) :=
    .step (ends_declareKnown name.text isVar trivial) fun _ _ =>
      .test fun _ => .pure _
  refine .guard fun _ => ?_
  have hends (declared : Option Ty) : (Ground.grounded outer).Ends (n + 1) (knownInitial name
      declared (value.map (evaluateWith caller view · declared)) range) fun _ => True := by
    refine ends_knownInitial name declared range fun a ha => ?_
    obtain ⟨e, -, rfl⟩ := Option.map_eq_some_iff.mp ha
    exact ends_evaluateWith h.calls e declared
  cases type with
  | none =>
    exact (reaches_initial h name range value none).bind (hends none) fun v _ => hdeclare v
  | some ty =>
    simp only [bind_map_left]
    refine (reaches_resolveType h ty).bind (ends_resolveTypeWith h.calls _) fun ty _ => ?_
    refine (reaches_initial h name range value (some ty)).bind (hends (some ty)) fun v _ => ?_
    exact .guard fun _ => hdeclare v

theorem reaches_opAssign (h : Settles outer o (n + 1) caller) (range : Span) (op : BinaryOp)
    (lhs rhs : Expr) : Reaches outer o (n + 1)
      (fun depth => runSentence (depth + 1) view (.opAssign range op lhs rhs))
      (runSentenceWith caller view (.opAssign range op lhs rhs)) := by
  simp only [runSentence, runSentenceWith]
  refine .step (ends_assignedName lhs) fun name _ => ?_
  refine .step (ends_assignedType name) fun ty _ => ?_
  refine (reaches_evaluate h lhs _).bind (ends_evaluateWith h.calls _ _) fun current _ => ?_
  refine (reaches_evaluate h rhs _).bind (ends_evaluateWith h.calls _ _) fun v _ => ?_
  refine .types fun t _ => ?_
  refine .orRefuse fun _ => ?_
  refine .types fun t _ => ?_
  refine .orRefuseFold fun result => .guard fun _ => ?_
  exact .step (ends_assignKnown name trivial) fun _ _ => .pure _

mutual

theorem reaches_runSentences (h : Settles outer o (n + 1) caller) : ∀ body : List Sentence,
    Reaches outer o (n + 1) (fun depth => runSentences (runSentence depth view) body)
      (runSentencesWith caller view body)
  | [] => by
    simp only [runSentences, runSentencesWith]
    exact .pure _
  | s :: rest => by
    simp only [runSentences, runSentencesWith]
    refine (reaches_runSentence h s).bind (ends_runSentenceWith h.calls s) fun flow _ => ?_
    cases flow with
    | normal => exact reaches_runSentences h rest
    | _ => exact .pure _

theorem reaches_runSentence (h : Settles outer o (n + 1) caller) (s : Sentence) :
    Reaches outer o (n + 1) (runSentence · view s) (runSentenceWith caller view s) :=
  .later <| match s with
  | .localVar range name type value isVar isRef =>
    reaches_localVar h range name type value isVar isRef
  | .assign _ lhs rhs => by
    simp only [runSentence, runSentenceWith]
    refine .step (ends_assignedName lhs) fun name _ => ?_
    refine .step (ends_assignedType name) fun ty _ => ?_
    refine (reaches_evaluate h rhs _).bind (ends_evaluateWith h.calls _ _) fun v hv => ?_
    refine .guard fun _ => ?_
    exact .step (ends_assignKnown name hv) fun _ _ => .pure _
  | .opAssign range op lhs rhs => reaches_opAssign h range op lhs rhs
  | .expr _ e => by
    simp only [runSentence, runSentenceWith]
    exact (reaches_evaluate h e _).bind (ends_evaluateWith h.calls _ _) fun _ _ => .pure _
  | .cond _ branches otherwise => by
    unfold runSentence runSentenceWith
    refine reaches_runBranches h branches otherwise ?_
    cases otherwise with
    | none => nofun
    | some body =>
      rintro _ ⟨⟩
      exact reaches_runSentences h body
  | .whileDo range condition body tag => by
    simp only [runSentence, runSentenceWith]
    refine .read' (reaches_runWhile range tag ?_ ?_ (reaches_runSentences h body)
      (h.ends view body) rfl)
    · exact (reaches_evaluate h condition _).bind (ends_evaluateWith h.calls _ _) fun _ _ => .lift _
    · exact (ends_evaluateWith h.calls condition _).bind fun c _ => ends_asCondition c _
  | .loop range body tag => by
    simp only [runSentence, runSentenceWith]
    exact .read' (reaches_runWhile range tag (.pure _) (.pure trivial) (reaches_runSentences h body)
      (h.ends view body) rfl)
  | .times range count index body tag => by
    have hbody := reaches_runSentences h body
    have hends := h.ends view body
    simp only [runSentence, runSentenceWith]
    refine (reaches_evaluate h count _).bind (ends_evaluateWith h.calls _ _) fun c _ => ?_
    refine .types fun t _ => .test fun _ => ?_
    refine .require fun total => ?_
    exact .read' (reaches_runItems range tag _ (reaches_iteration hends hbody none index)
      (ends_iteration hends none index) rfl)
  | .forIn range iterable item index body tag => by
    have hbody := reaches_runSentences h body
    have hends := h.ends view body
    simp only [runSentence, runSentenceWith]
    refine (reaches_evaluate h iterable _).bind (ends_evaluateWith h.calls _ _) fun c hc => ?_
    refine .step (ends_loopItems range hc) fun items _ => ?_
    exact .read' (reaches_runItems range tag _ (reaches_iteration hends hbody (some item) index)
      (ends_iteration hends (some item) index) rfl)
  | .breakLoop _ _ | .continueLoop _ _ => by
    simp only [runSentence, runSentenceWith]
    exact .pure _
  | .give _ value => by
    simp only [runSentence, runSentenceWith]
    refine .step ends_frame fun f _ => ?_
    cases value with
    | none => exact .pure _
    | some e =>
      exact (reaches_evaluate h e _).bind (ends_evaluateWith h.calls _ _) fun _ _ => .pure _
  | .block _ body => by
    simp only [runSentence, runSentenceWith]
    exact reaches_inScope (reaches_runSentences h body) (h.ends view body)
  | .todo range message => by
    simp only [runSentence, runSentenceWith]
    exact .step (ends_unfinished message range) fun _ _ => .pure _

theorem reaches_runBranches (h : Settles outer o (n + 1) caller) :
    ∀ (branches : List Branch) (otherwise : Option (List Sentence)),
      (∀ body, otherwise = some body → Reaches outer o (n + 1)
        (fun depth => runSentences (runSentence depth view) body)
        (runSentencesWith caller view body)) →
      Reaches outer o (n + 1)
        (fun depth => runBranches (evaluate depth view) (runSentence depth view) branches otherwise)
        (runBranchesWith caller view branches <| match otherwise with
          | some body => inFrameScope (runSentencesWith caller view body)
          | none => return .normal)
  | [], otherwise, hother => by
    cases otherwise with
    | none =>
      simp only [runBranches, runBranchesWith]
      exact .pure _
    | some body =>
      simp only [runBranches, runBranchesWith]
      exact reaches_inScope (hother body rfl) (h.ends view body)
  | .mk condition body :: rest, otherwise, hother => by
    simp only [runBranches, runBranchesWith]
    refine (reaches_evaluate h condition _).bind (ends_evaluateWith h.calls _ _) fun c _ => ?_
    refine .step (ends_asCondition c _) fun holds _ => .ite (fun _ => ?_) fun _ => ?_
    · exact reaches_inScope (reaches_runSentences h body) (h.ends view body)
    · exact reaches_runBranches h rest otherwise hother

end

/-! ## Calls -/

/-- As many calls may still nest as there are below the limit. -/
theorem settles (outer : Outer) {left : Nat} (hleft : left = o.callDepth - n) :
    Settles outer o n (callKnown left) := by
  refine ⟨calls_known left, fun f args range => .later ?_⟩
  simp only [call]
  induction left generalizing n f args range with
  | zero => exact .read (.calls (fun _ => .read (.read' (.lift _))) fun _ => by omega)
  | succ left ih =>
    refine .read (.calls (fun _ => by omega) fun _ => ?_)
    -- in the body, one call more is running and one less may nest
    have hnested : Settles outer o (n + 1) (callKnown left) := by
      refine ⟨calls_known left, fun f args range => .later ?_⟩
      simp only [call]
      exact ih (by omega) f args range
    have hempty : Frame.Holds (Ground.grounded outer).holds
        { function := f.fullName, result := f.result } := fun _ _ _ _ => trivial
    have hends := hnested.ends { module := f.module } f.body
    refine .step (ends_bindArgs f range f.args args (fun _ _ => trivial) hempty)
      fun frame hframe => ?_
    exact .bracket (brackets_frame hframe)
      (reaches_inScope (reaches_runSentences hnested f.body) hends)
      (ends_inFrameScope hends) fun flow _ => .lift _

end Unbounded

end Staged
