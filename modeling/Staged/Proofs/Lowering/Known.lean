/-
  Staged.Proofs.Lowering.Known — the rules that compile-time evaluation goes by.

  The rules on values, and the actions that look a name up. A name is no trouble when it
  is that of a local of the running call, or when what it means is ready: the item itself,
  or for `Type::member` the type (`Setting.Serves`). A callee is looked up whether or not
  there is a local of its name.
-/

import Staged.Known.Evaluate
import Staged.Proofs.Lowering.Logic
import Staged.Proofs.Names

open Std.Do

set_option mvcgen.warning false

namespace Staged

/-! ## Rules on values -/

def Plain {α : Type} (result : Except Fault α) : Prop :=
  ∀ f, result = .error f → f.isPlain = true

namespace Plain

variable {α β : Type}

theorem ok (a : α) : Plain (.ok a) := by
  intro f hf
  cases hf

theorem error {f : Fault} (hf : f.isPlain = true) : Plain (.error f : Except Fault α) := by
  intro f' hf'
  cases hf'
  exact hf

theorem bind {x : Except Fault α} {k : α → Except Fault β} (hx : Plain x)
    (hk : ∀ a, Plain (k a)) : Plain (x >>= k) := by
  cases x with
  | error e => exact error (hx e rfl)
  | ok a => exact hk a

theorem mapM {k : α → Except Fault β} (hk : ∀ a, Plain (k a)) (as : List α) :
    Plain (as.mapM k) := by
  induction as with
  | nil => exact ok []
  | cons a as ih =>
    rw [List.mapM_cons]
    exact (hk a).bind fun b => ih.bind fun bs => ok (b :: bs)

end Plain

@[simp] theorem plain_index (c : Constant) (i : Int) : Plain (c.index i) := by
  unfold Constant.index
  repeat' split
  all_goals first | exact .ok _ | exact .error rfl

namespace TypeTable

variable (t : TypeTable)

@[simp] theorem plain_checkOperands (op : BinaryOp) (l r : Ty) :
    Plain (t.checkOperands op l r) := by
  unfold checkOperands
  simp only
  repeat' split
  all_goals first | exact .ok _ | exact .error rfl

@[simp] theorem plain_intLiteral (value : Nat) (negative : Bool) (ty : Ty) :
    Plain (t.intLiteral value negative ty) := by
  unfold intLiteral
  simp only
  repeat' split
  all_goals first | exact .ok _ | exact .error rfl

@[simp] theorem plain_knownMember (c : Constant) (name : String) :
    Plain (t.knownMember c name) := by
  unfold knownMember
  simp only
  repeat' split
  all_goals first | exact .ok _ | exact .error rfl

@[simp] theorem plain_knownVariant (ty : Ty) (variant : String) (payload : Option Constant) :
    Plain (t.knownVariant ty variant payload) := by
  unfold knownVariant
  repeat' split
  all_goals first | exact .ok _ | exact .error rfl

theorem plain_defaultChoice (d : ChoiceDef) : Plain (defaultChoice d) := by
  unfold defaultChoice
  split
  · exact .ok _
  · exact .error rfl

theorem plain_defaultMix {parts : Ty → Except Fault Data} (hp : ∀ ty, Plain (parts ty))
    (d : MixDef) : Plain (defaultMix parts d) := by
  unfold defaultMix
  split
  · exact .error rfl
  · split
    · exact .ok _
    · exact (hp _).bind fun _ => .ok _

mutual

theorem plain_defaultStep {parts : Ty → Except Fault Data} (hp : ∀ ty, Plain (parts ty)) :
    ∀ ty : Ty, Plain (t.defaultStep parts ty)
  | .tuple members _ => by
    unfold defaultStep
    exact (plain_defaultsStep hp members).bind fun _ => .ok _
  | .array element _ => by
    unfold defaultStep
    exact (plain_defaultStep hp element).bind fun _ => .ok _
  | .struct id => by
    unfold defaultStep
    split
    · exact .error rfl
    · split
      · exact (Plain.mapM hp _).bind fun _ => .ok _
      · exact .ok _
  | .mix id => by
    unfold defaultStep
    split
    · exact plain_defaultMix hp _
    · exact .error rfl
  | .choice id => by
    unfold defaultStep
    split
    · exact plain_defaultChoice _
    · exact .error rfl
  | .mark .. | .native _ | .int _ | .uint _ | .float _ | .bool | .char | .str | .maybe _ => by
    unfold defaultStep
    repeat' split
    all_goals first | exact .ok _ | exact .error rfl
  | .void | .ref .. | .vector .. | .function .. | .future .. | .typed _ => by
    unfold defaultStep
    exact .error rfl

theorem plain_defaultsStep {parts : Ty → Except Fault Data} (hp : ∀ ty, Plain (parts ty)) :
    ∀ tys : List Ty, Plain (t.defaultsStep parts tys)
  | [] => by
    unfold defaultsStep
    exact .ok []
  | ty :: tys => by
    unfold defaultsStep
    exact (plain_defaultStep hp ty).bind fun _ => (plain_defaultsStep hp tys).bind fun _ => .ok _

end

theorem plain_defaultWithin : ∀ (fuel : Nat) (ty : Ty), Plain (t.defaultWithin fuel ty) := by
  intro fuel
  induction fuel with
  | zero => intro ty; exact .error rfl
  | succ fuel ih => intro ty; exact t.plain_defaultStep ih ty

@[simp] theorem plain_default (ty : Ty) : Plain (t.default ty) :=
  (t.plain_defaultWithin t.depth ty).bind fun _ => .ok _

end TypeTable

/-- Named initializers fail at a field, and for a plain reason. -/
theorem StructDef.namedOrder_error (d : StructDef) (ty : Ty) :
    ∀ (names before : List Ident) (f : Fault × Span),
      d.namedOrder ty before names = .error f → f.1.isPlain = true := by
  intro names
  induction names with
  | nil => intro before f hf; cases hf
  | cons name rest ih =>
    intro before f hf
    unfold namedOrder at hf
    split at hf
    · cases hf; rfl
    · split at hf
      · cases hf; rfl
      · cases hrest : d.namedOrder ty (before ++ [name]) rest with
        | error e => rw [hrest] at hf; cases hf; exact ih _ _ hrest
        | ok order => rw [hrest] at hf; cases hf

theorem StructDef.fieldOrder_error {d : StructDef} {ty : Ty} {names : Option (List Ident)}
    {count : Nat} {range : Span} {f : Fault × Span}
    (hf : d.fieldOrder ty names count range = .error f) : f.1.isPlain = true := by
  unfold fieldOrder at hf
  cases names with
  | none =>
    simp only at hf
    split at hf <;> cases hf
    rfl
  | some names =>
    simp only at hf
    cases ho : d.namedOrder ty [] names with
    | error e => rw [ho] at hf; cases hf; exact d.namedOrder_error ty _ _ _ ho
    | ok order =>
      rw [ho] at hf
      simp only [bind, Except.bind] at hf
      split at hf <;> cases hf
      rfl

/-! ## Helpers of evaluation -/

namespace Emit

variable {w : Setting} {α : Type}

theorem finally_apply {α : Type} (inside : EStateM Failure Compiler α)
    (after : EStateM Failure Compiler Unit) (s : Compiler) :
    tryFinally' inside (fun _ => after) s = match inside s with
      | .ok v s => match after s with
        | .ok u s => .ok (v, u) s
        | .error e s => .error e s
      | .error e s => match after s with
        | .ok _ s => .error e s
        | .error e s => .error e s := by
  simp only [tryFinally']
  cases inside s with
  | ok v s => dsimp only; cases after s <;> rfl
  | error e s => dsimp only; cases after s <;> rfl

theorem bracket_apply {α : Type} (before after : Emit Unit) (inside : Emit α) (o : Options)
    (s : Compiler) :
    bracket before after inside o s = match before o s with
      | .error e s => .error e s
      | .ok _ s => match inside o s with
        | .ok v s => match after o s with
          | .ok _ s => .ok v s
          | .error e s => .error e s
        | .error e s => match after o s with
          | .ok _ s => .error e s
          | .error e s => .error e s := by
  show EStateM.bind (before o) (fun _ => (tryFinally inside after : Emit α) o) s = _
  unfold EStateM.bind
  cases before o s with
  | error e s => rfl
  | ok _ s =>
    dsimp only
    show EStateM.map Prod.fst (tryFinally' (inside o) fun _ => after o) s = _
    unfold EStateM.map
    rw [finally_apply]
    cases inside o s with
    | ok v s => dsimp only; cases after o s <;> rfl
    | error e s => dsimp only; cases after o s <;> rfl

@[spec] theorem gives_orRefuse {result : Except Fault α} (range : Span) (hr : Plain result) :
    w.Keeps (orRefuse result range) := by
  cases result with
  | ok a => mvcgen [orRefuse]
  | error f =>
    have hf := hr f rfl
    mvcgen [orRefuse] <;> simp_all

@[spec] theorem keeps_orRefuseFold (result : Except FoldError α) (range : Span) :
    w.Keeps (orRefuseFold result range) := by
  mvcgen [orRefuseFold] <;> simp_all

@[spec] theorem keeps_asCondition (c : Constant) (range : Span) :
    w.Keeps (asCondition c range) := by
  mvcgen [asCondition]
  simp_all

@[spec] theorem keeps_literalType (suffix : Option (Ty × Span)) (expected : Option Ty) :
    w.Keeps (literalType suffix expected) := by
  mvcgen [literalType]
  simp_all

@[spec] theorem keeps_intLiteral (value : Nat) (negative : Bool) (suffix : Option (Ty × Span))
    (expected : Option Ty) (range : Span) :
    w.Keeps (intLiteral value negative suffix expected range) := by
  mvcgen [intLiteral]
  simp_all

@[spec] theorem keeps_floatLiteral (value : Binary64) (suffix : Option (Ty × Span))
    (expected : Option Ty) (range : Span) :
    w.Keeps (floatLiteral value suffix expected range) := by
  mvcgen [floatLiteral]
  simp_all

@[spec] theorem keeps_defineValue (d : Define) (expected : Option Ty) :
    w.Keeps (defineValue d expected) := by
  mvcgen [defineValue]

@[spec] theorem keeps_typeConstant (ty : Ty) : w.Keeps (typeConstant ty) := by
  mvcgen [typeConstant]

@[spec] theorem keeps_definedAs (name : QName) (e : ResolveError) (expected : Option Ty) :
    w.Keeps (definedAs name e expected) := by
  mvcgen [definedAs] <;> simp_all

@[spec] theorem gives_checkArgCount (f : PrerunFunction) (given : Nat) (range : Span) :
    w.Gives (checkArgCount f given range) fun _ => given = f.args.length := by
  mvcgen [checkArgCount] <;> simp_all

@[spec] theorem gives_frame? :
    w.Gives frame? fun f => ∃ fs, w.frames fs ∧ f = fs.head? := by
  mvcgen [frame?]
  rename_i h
  exact ⟨h, _, h.2.1, rfl⟩

@[spec] theorem keeps_fieldOrder (view : Viewpoint) (ty : Ty) (names : Option (List Ident))
    (count : Nat) (range : Span) : w.Keeps (fieldOrder view ty names count range) := by
  mvcgen [fieldOrder]
  case inv1 | inv2 =>
    exact post⟨fun _ _ s => ⌜w.Holds s⌝,
      fun f s => ⌜s.outer = w.outer ∧ w.Allows f ∧ w.code s.core⌝⟩
  all_goals first
    | (intros; exact StructDef.fieldOrder_error ‹_›)
    | simp_all

end Emit

/-! ## Names -/

namespace Setting

variable (w : Setting)

def HasLocal (name : QName) : Prop :=
  ∀ fs, w.frames fs →
    ∃ f n, fs.head? = some f ∧ name.single? = some n ∧ (f.get? n.text).isSome = true

/-- An entity may be asked for: it is ready, or the setting blames it. -/
def Serves (id : Option EntityId) : Prop :=
  ∀ y, id = some y → w.outer.symbols.lookup y = none → w.blames y

def Finds (view : Viewpoint) (name : QName) : Prop :=
  w.Serves (w.outer.modules.entityNamed? view name)

def Covers (view : Viewpoint) (u : Use) : Prop := w.Serves (w.outer.modules.meant? view u)

def Callable (f : PrerunFunction) : Prop :=
  ∃ id, w.outer.symbols.lookup id = some (.prerunFunction f)

def HasLocals (locals : List String) : Prop :=
  ∀ fs, w.frames fs → ∀ n ∈ locals, ∃ f, fs.head? = some f ∧ (f.get? n).isSome = true

variable {w}

theorem Finds.serves {view : Viewpoint} {name : QName} {item : Item} (hf : w.Finds view name)
    (hi : w.outer.modules.resolve view.module name view = .ok (.item item)) :
    w.outer.symbols.lookup item.entity = none → w.blames item.entity :=
  hf _ (w.outer.modules.entityNamed?_eq_some.mpr ⟨item, hi, rfl⟩)

/-- A local of the collector is a local of the running call. -/
theorem HasLocals.hasLocal {locals : List String} {name : QName} (hl : w.HasLocals locals)
    (hs : name.isSingle = true) (hn : name.headIn locals = true) : w.HasLocal name := by
  obtain ⟨up, segments, range⟩ := name
  unfold QName.isSingle at hs
  simp only [Bool.and_eq_true, beq_iff_eq] at hs
  obtain ⟨first, rfl⟩ := List.length_eq_one_iff.mp hs.2
  simp only [QName.headIn, List.contains_eq_mem, decide_eq_true_eq] at hn
  intro fs hfs
  obtain ⟨f, hf, hg⟩ := hl fs hfs _ hn
  refine ⟨f, first, hf, ?_, hg⟩
  simp [QName.single?, QName.isSingle, QName.last?, hs.1]

theorem Covers.finds {view : Viewpoint} {u : Use} (hc : w.Covers view u)
    (hl : u.isLocal = false) : w.Finds view u.name := by
  intro y hy
  refine hc y ?_
  unfold ModuleTree.meant?
  have hm : w.outer.modules.endsInMember view u.name = false := by
    obtain ⟨item, hi, -⟩ := w.outer.modules.entityNamed?_eq_some.mp hy
    unfold ModuleTree.endsInMember
    rw [hi]
  rw [hl, hm]
  exact hy

theorem Covers.finds_owner {view : Viewpoint} {u : Use} (hc : w.Covers view u)
    (hl : u.isLocal = false) (hm : w.outer.modules.endsInMember view u.name = true)
    (ho : u.owner.isLocal = false) : w.Finds view u.name.owner := by
  intro y hy
  refine hc y ?_
  unfold ModuleTree.meant?
  rw [hl, hm]
  unfold ModuleTree.reached?
  rw [ho]
  exact hy

/-- A name that collecting takes care of is a local, or what it means may be asked for. -/
theorem Covers.hasLocal_or_finds {view : Viewpoint} {phase : Phase} {locals : List String}
    {need : Need} {name : QName} (hl : w.HasLocals locals)
    (hc : w.Covers view ⟨name, need, phase, name.headIn locals⟩) :
    w.HasLocal name ∨ w.Finds view name := by
  cases h : name.isSingle && name.headIn locals with
  | true =>
    rw [Bool.and_eq_true] at h
    exact .inl (hl.hasLocal h.1 h.2)
  | false => exact .inr (hc.finds h)

theorem Covers.owner {view : Viewpoint} {phase : Phase} {locals : List String}
    {need : Need} {name : QName} {e : ResolveError} (hl : w.HasLocals locals)
    (hc : w.Covers view ⟨name, need, phase, name.headIn locals⟩)
    (he : w.outer.modules.resolve view.module name view = .error e)
    (hm : e.isNotAModule = true) (hlen : name.segments.length > 1) :
    w.HasLocal name.owner ∨ w.Finds view name.owner := by
  have hsingle : name.isSingle = false := by
    unfold QName.isSingle
    simp only [Bool.and_eq_false_iff, beq_eq_false_iff_ne]
    exact .inr (by omega)
  have hlocal : Use.isLocal ⟨name, need, phase, name.headIn locals⟩ = false := by
    unfold Use.isLocal
    rw [hsingle, Bool.false_and]
  have hends := w.outer.modules.endsInMember_eq_true.mpr ⟨e, he, hm, hlen⟩
  cases h : name.owner.isSingle && name.headIn locals with
  | false => exact .inr (hc.finds_owner hlocal hends h)
  | true =>
    rw [Bool.and_eq_true] at h
    refine .inl (hl.hasLocal h.1 ?_)
    -- the owner of a longer name begins like the name
    obtain ⟨up, segments, range⟩ := name
    match segments, hlen with
    | first :: second :: rest, _ => exact h.2

end Setting

namespace Emit

variable {w : Setting}

theorem not_hasLocal {name : QName} {frame : Option Frame}
    (hframe : ∃ fs, w.frames fs ∧ frame = fs.head?)
    (h : (frame.bind fun f => name.single?.bind fun n => f.get? n.text) = none) :
    ¬w.HasLocal name := by
  intro hl
  obtain ⟨fs, hfs, rfl⟩ := hframe
  obtain ⟨f, n, hf, hn, hg⟩ := hl fs hfs
  simp only [hf, hn, Option.bind_some] at h
  rw [h] at hg
  cases hg

theorem keeps_namedType {view : Viewpoint} {name : QName}
    (hn : w.HasLocal name ∨ w.Finds view name) : w.Keeps (namedType view name) := by
  mvcgen [namedType]
  case vc9.hid =>
    rename_i hnone _ _ hframe _ _ _ _ _ hi
    exact hn.elim (fun h => absurd h (not_hasLocal hframe.2 hnone)) fun h => h.serves hi.2
  all_goals simp_all

theorem keeps_typeMember {view : Viewpoint} {name : QName}
    (hn : w.HasLocal name.owner ∨ w.Finds view name.owner) :
    w.Keeps (typeMember view name) := by
  have howner := keeps_namedType hn
  unfold QName.owner at howner
  mvcgen [typeMember, howner]
  simp_all

theorem keeps_namedConstant {view : Viewpoint} {phase : Phase} {locals : List String}
    {need : Need} {name : QName} (hl : w.HasLocals locals)
    (hc : w.Covers view ⟨name, need, phase, name.headIn locals⟩) (expected : Option Ty) :
    w.Keeps (namedConstant view name expected) := by
  mvcgen [namedConstant, keeps_typeMember]
  case vc11.hid =>
    rename_i hnone _ _ hframe _ _ _ _ _ _ _ _ _ _ hi
    exact (hc.hasLocal_or_finds hl).elim (fun h => absurd h (not_hasLocal hframe.2 hnone))
      fun h => h.serves hi.2.symm
  case vc19.hn =>
    rename_i hm _ _ he
    rw [Bool.and_eq_true, decide_eq_true_eq] at hm
    exact hc.owner hl he.2.symm hm.1 hm.2
  all_goals simp_all

theorem gives_calledFunction? {view : Viewpoint} {callee : Expr}
    (hc : ∀ range name, callee = .entity range name → w.Finds view name) :
    w.Gives (calledFunction? view callee) fun r => ∀ f, r = some f → w.Callable f := by
  mvcgen [calledFunction?]
  case vc3.hid =>
    rename_i hcallee _ _ _ _ _ _ _ _ hi
    exact (hc _ _ hcallee).serves hi.2
  case vc5.h_1.post.success.h_2.post.success.h_1 =>
    rename_i hy
    refine ⟨hy.1, fun f hf => ?_⟩
    cases hf
    exact ⟨_, hy.2⟩
  all_goals simp_all

end Emit

end Staged
