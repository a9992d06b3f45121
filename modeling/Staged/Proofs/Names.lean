/-
  Staged.Proofs.Names — what the names of a declaration mean.

  A use means an entity (`ModuleTree.meant?`): the item of that name, or the type when the
  name is `Type::member`. Collecting dependencies in a tree records every entity that a
  use means there. Calls at compile time are the one place where a local does not hide
  what its module declares; `shadowedCalls` are the calls for which this matters.
-/

import Staged.Entity.Dependencies
import Staged.Proofs.Tree

namespace Staged

/-! ## The entity behind a use -/

def QName.owner (n : QName) : QName := { n with segments := n.front }

namespace Use

def isLocal (u : Use) : Bool := u.name.isSingle && u.headLocal

def owner (u : Use) : Use := { u with name := u.name.owner, need := .complete }

end Use

namespace ModuleTree

variable (t : ModuleTree)

def entityNamed? (view : Viewpoint) (name : QName) : Option EntityId :=
  match t.resolve view.module name view with
  | .ok (.item item) => some item.entity
  | _ => none

/-- The name goes through something that is no module, as `Type::member` does. -/
def endsInMember (view : Viewpoint) (name : QName) : Bool :=
  match t.resolve view.module name view with
  | .error e => e.isNotAModule && decide (name.segments.length > 1)
  | .ok _ => false

def reached? (view : Viewpoint) (u : Use) : Option EntityId :=
  if u.isLocal then none else t.entityNamed? view u.name

/-- The entity that a use means. -/
def meant? (view : Viewpoint) (u : Use) : Option EntityId :=
  if u.isLocal then none
  else if t.endsInMember view u.name then t.reached? view u.owner
  else t.entityNamed? view u.name

theorem entityNamed?_eq_some {view : Viewpoint} {name : QName} {id : EntityId} :
    t.entityNamed? view name = some id ↔
      ∃ item, t.resolve view.module name view = .ok (.item item) ∧ item.entity = id := by
  unfold entityNamed?
  split
  · rename_i item h
    simp [h]
  · rename_i h
    constructor
    · intro hn
      cases hn
    · rintro ⟨item, hi, -⟩
      exact absurd hi (h item)

theorem Fits.entityNamed? {P : Item → Prop} {t : ModuleTree} (ht : t.Fits P) {view : Viewpoint}
    {name : QName} {id : EntityId} (h : t.entityNamed? view name = some id) :
    ∃ i : Item, i.entity = id ∧ P i := by
  obtain ⟨item, hi, rfl⟩ := t.entityNamed?_eq_some.mp h
  exact ⟨item, rfl, (ht.resolve hi).2⟩

/-- A use means the entity of an item that was declared. -/
theorem Fits.meant? {P : Item → Prop} {t : ModuleTree} (ht : t.Fits P) {view : Viewpoint}
    {u : Use} {id : EntityId} (h : t.meant? view u = some id) : ∃ i : Item, i.entity = id ∧ P i := by
  unfold ModuleTree.meant? ModuleTree.reached? at h
  split at h
  · cases h
  · split at h
    · split at h
      · cases h
      · exact ht.entityNamed? h
    · exact ht.entityNamed? h

/-- A use means the same inside a member of a type. -/
theorem Fits.meant?_congr {P : Item → Prop} {t : ModuleTree} (ht : t.Fits P) {a b : Viewpoint}
    (hab : a.module = b.module) (u : Use) : t.meant? a u = t.meant? b u := by
  have hnamed (name : QName) : t.entityNamed? a name = t.entityNamed? b name := by
    simp only [ModuleTree.entityNamed?, hab, ht.resolve_congr hab]
  have hends (name : QName) : t.endsInMember a name = t.endsInMember b name := by
    simp only [endsInMember, hab, ht.resolve_congr hab]
  unfold ModuleTree.meant? reached?
  rw [hends, hnamed, hnamed]

theorem endsInMember_eq_true {view : Viewpoint} {name : QName} :
    t.endsInMember view name = true ↔
      ∃ e, t.resolve view.module name view = .error e ∧ e.isNotAModule = true ∧
        name.segments.length > 1 := by
  unfold endsInMember
  split <;> simp_all

end ModuleTree

namespace UseSite

variable (site : UseSite)

/-- The item that a name means is a dependency. -/
theorem mem_dependencies_of_reached {u : Use} {id : EntityId}
    (h : site.tree.reached? site.view u = some id) :
    ∃ need, ⟨id, need, u.phase⟩ ∈ site.dependencies u := by
  unfold ModuleTree.reached? at h
  split at h
  · cases h
  · rename_i hl
    obtain ⟨item, hi, rfl⟩ := site.tree.entityNamed?_eq_some.mp h
    refine ⟨item.kind.needed u.need, ?_⟩
    rw [dependencies, if_neg (show ¬(u.name.isSingle && u.headLocal) = true from hl), hi]
    exact List.mem_singleton.mpr rfl

/-- What a use means is a dependency. -/
theorem mem_dependencies_of_meant {u : Use} {id : EntityId}
    (h : site.tree.meant? site.view u = some id) :
    ∃ need, ⟨id, need, u.phase⟩ ∈ site.dependencies u := by
  unfold ModuleTree.meant? at h
  split at h
  · cases h
  · rename_i hl
    split at h
    · rename_i hm
      obtain ⟨e, he, hn, hlen⟩ := site.tree.endsInMember_eq_true.mp hm
      obtain ⟨need, hd⟩ := site.mem_dependencies_of_reached h
      refine ⟨need, ?_⟩
      rw [dependencies, if_neg (show ¬(u.name.isSingle && u.headLocal) = true from hl), he]
      simp only [hn, hlen, and_self, ↓reduceDIte]
      exact hd
    · refine site.mem_dependencies_of_reached ?_
      unfold ModuleTree.reached?
      rw [if_neg hl, h]

end UseSite

/-! ## The phase of a use -/

/-- All uses are for one phase. -/
def AllAt (phase : Phase) (us : List Use) : Prop := ∀ u ∈ us, u.phase = phase

@[simp] theorem allAt_nil (phase : Phase) : AllAt phase [] := by
  intro u hu
  cases hu

@[simp] theorem allAt_append {phase : Phase} {us vs : List Use} :
    AllAt phase (us ++ vs) ↔ AllAt phase us ∧ AllAt phase vs := by
  simp only [AllAt, List.mem_append]
  grind

theorem allAt_flatMap {α : Type} {phase : Phase} {as : List α} {f : α → List Use}
    (h : ∀ a, AllAt phase (f a)) : AllAt phase (as.flatMap f) := by
  intro u hu
  obtain ⟨a, -, hu⟩ := List.mem_flatMap.mp hu
  exact h a u hu

section

variable (phase : Phase) (locals : List String)

theorem QName.allAt_uses (need : Need) (n : QName) : AllAt phase (n.uses phase locals need) := by
  intro u hu
  rw [List.mem_singleton.mp hu]

mutual

theorem TypeExpr.allAt_uses : ∀ (ty : TypeExpr) (need : Need),
    AllAt phase (ty.uses phase locals need)
  | .named _ name, need => by
    rw [TypeExpr.uses]
    exact name.allAt_uses phase locals need
  | .mark _ sub owner _ _ _, _ => by
    rw [TypeExpr.uses, allAt_append]
    exact ⟨sub.allAt_uses .partially, allAt_ownerUses owner⟩
  | .array _ element length, need => by
    rw [TypeExpr.uses, allAt_append]
    exact ⟨element.allAt_uses need, length.allAt_uses⟩
  | .function _ result args _, _ => by
    rw [TypeExpr.uses, allAt_append]
    exact ⟨result.allAt_uses .partially, allAt_typesUses args .partially⟩
  | .tuple _ members _, need => by
    rw [TypeExpr.uses]
    exact allAt_typesUses members need
  | .ref _ sub _, _ | .typed _ sub, _ => by
    rw [TypeExpr.uses]
    exact sub.allAt_uses .partially
  | .vector _ sub _ _, need | .future _ sub _, need | .maybe _ sub, need => by
    rw [TypeExpr.uses]
    exact sub.allAt_uses need
  | .int .., _ | .uint .., _ | .float .., _ | .bool _, _ | .char _, _ | .void _, _ | .str _, _
  | .native .., _ => by
    rw [TypeExpr.uses]
    exact allAt_nil phase

theorem allAt_ownerUses : ∀ owner : Owner TypeExpr, AllAt phase (ownerUses phase locals owner)
  | .type owner => by
    rw [ownerUses]
    exact owner.allAt_uses .partially
  | .anonymous | .heap => by
    rw [ownerUses]
    exact allAt_nil phase

theorem allAt_typesUses : ∀ (tys : List TypeExpr) (need : Need),
    AllAt phase (typesUses phase locals need tys)
  | [], _ => by
    rw [typesUses]
    exact allAt_nil phase
  | ty :: tys, need => by
    rw [typesUses, allAt_append]
    exact ⟨ty.allAt_uses need, allAt_typesUses tys need⟩

/-- Everything an expression mentions is needed at the phase in which it is evaluated. -/
theorem Expr.allAt_uses : ∀ e : Expr, AllAt phase (e.uses phase locals)
  | .int _ _ suffix | .float _ _ suffix => by
    rw [Expr.uses]
    exact allAt_suffixUses suffix
  | .bool .. | .char .. | .str .. | .null _ | .default _ | .none _ | .self _
  | .selfMember .. | .todo .. => by
    rw [Expr.uses]
    exact allAt_nil phase
  | .entity _ name => by
    rw [Expr.uses]
    exact name.allAt_uses phase locals .complete
  | .some _ e | .deref _ e | .copy _ e | .move _ e | .heapPut _ e | .await _ e
  | .unary _ _ e | .addressOf _ e _ | .member _ e _ => by
    rw [Expr.uses]
    exact e.allAt_uses
  | .tuple _ items | .array _ items => by
    rw [Expr.uses]
    exact allAt_exprsUses items
  | .index _ a b | .binary _ _ a b => by
    rw [Expr.uses, allAt_append]
    exact ⟨a.allAt_uses, b.allAt_uses⟩
  | .call _ e args | .methodCall _ e _ args _ => by
    rw [Expr.uses, allAt_append]
    exact ⟨e.allAt_uses, allAt_exprsUses args⟩
  | .construct _ type args | .plain _ type _ args => by
    rw [Expr.uses, allAt_append]
    exact ⟨type.allAt_uses .complete, allAt_exprsUses args⟩
  | .variant _ type _ value | .heapGet _ type value => by
    rw [Expr.uses, allAt_append]
    exact ⟨type.allAt_uses .complete, allAt_optionUses value⟩
  | .heapGrow _ type pointer count => by
    rw [Expr.uses, allAt_append, allAt_append]
    exact ⟨⟨type.allAt_uses .complete, pointer.allAt_uses⟩, count.allAt_uses⟩
  | .cast _ value target => by
    rw [Expr.uses, allAt_append]
    exact ⟨value.allAt_uses, target.allAt_uses .complete⟩
  | .assembly _ _ _ args result _ => by
    rw [Expr.uses, allAt_append]
    exact ⟨allAt_exprsUses args, result.allAt_uses .complete⟩
  | .ifElse _ condition thenValue elseValue => by
    rw [Expr.uses, allAt_append, allAt_append]
    exact ⟨⟨condition.allAt_uses, thenValue.allAt_uses⟩, elseValue.allAt_uses⟩
  | .sizeOf _ type => by
    rw [Expr.uses]
    exact type.allAt_uses .complete
  | .typeValue _ type => by
    rw [Expr.uses]
    exact type.allAt_uses .partially

theorem allAt_suffixUses : ∀ suffix : Option TypeExpr,
    AllAt phase (suffixUses phase locals suffix)
  | some ty => by
    rw [suffixUses]
    exact ty.allAt_uses .complete
  | none => by
    rw [suffixUses]
    exact allAt_nil phase

theorem allAt_optionUses : ∀ e : Option Expr, AllAt phase (optionUses phase locals e)
  | some e => by
    rw [optionUses]
    exact e.allAt_uses
  | none => by
    rw [optionUses]
    exact allAt_nil phase

theorem allAt_exprsUses : ∀ es : List Expr, AllAt phase (exprsUses phase locals es)
  | [] => by
    rw [exprsUses]
    exact allAt_nil phase
  | e :: es => by
    rw [exprsUses, allAt_append]
    exact ⟨e.allAt_uses, allAt_exprsUses es⟩

end

end

mutual

theorem Sentence.allAt_uses (phase : Phase) : ∀ (s : Sentence) (locals : List String),
    AllAt phase (s.uses phase locals)
  | .localVar _ _ none value _ _, locals => by
    simp only [Sentence.uses, List.nil_append]
    exact allAt_optionUses phase locals value
  | .localVar _ _ (some ty) value _ isRef, locals => by
    simp only [Sentence.uses, allAt_append]
    exact ⟨ty.allAt_uses phase locals _, allAt_optionUses phase locals value⟩
  | .assign _ lhs rhs, locals | .opAssign _ _ lhs rhs, locals => by
    rw [Sentence.uses, allAt_append]
    exact ⟨lhs.allAt_uses phase locals, rhs.allAt_uses phase locals⟩
  | .expr _ e, locals => by
    rw [Sentence.uses]
    exact e.allAt_uses phase locals
  | .cond _ branches none, locals => by
    simp only [Sentence.uses, List.append_nil]
    exact allAt_branchesUses phase branches locals
  | .cond _ branches (some body), locals => by
    simp only [Sentence.uses, allAt_append]
    exact ⟨allAt_branchesUses phase branches locals, allAt_sentencesUses phase body locals⟩
  | .whileDo _ condition body _, locals => by
    rw [Sentence.uses, allAt_append]
    exact ⟨condition.allAt_uses phase locals, allAt_sentencesUses phase body locals⟩
  | .times _ count index body _, locals => by
    rw [Sentence.uses, allAt_append]
    exact ⟨count.allAt_uses phase locals, allAt_sentencesUses phase body _⟩
  | .loop _ body _, locals | .block _ body, locals => by
    rw [Sentence.uses]
    exact allAt_sentencesUses phase body locals
  | .forIn _ iterable item index body _, locals => by
    rw [Sentence.uses, allAt_append]
    exact ⟨iterable.allAt_uses phase locals, allAt_sentencesUses phase body _⟩
  | .give _ value, locals => by
    rw [Sentence.uses]
    exact allAt_optionUses phase locals value
  | .breakLoop .., _ | .continueLoop .., _ | .todo .., _ => by
    rw [Sentence.uses]
    exact allAt_nil phase

theorem allAt_sentencesUses (phase : Phase) : ∀ (ss : List Sentence) (locals : List String),
    AllAt phase (sentencesUses phase locals ss)
  | [], _ => by
    rw [sentencesUses]
    exact allAt_nil phase
  | s :: ss, locals => by
    rw [sentencesUses, allAt_append]
    exact ⟨s.allAt_uses phase locals, allAt_sentencesUses phase ss _⟩

theorem allAt_branchesUses (phase : Phase) : ∀ (bs : List Branch) (locals : List String),
    AllAt phase (branchesUses phase locals bs)
  | [], _ => by
    rw [branchesUses]
    exact allAt_nil phase
  | .mk condition body :: bs, locals => by
    rw [branchesUses, allAt_append, allAt_append]
    exact ⟨⟨condition.allAt_uses phase locals, allAt_sentencesUses phase body locals⟩,
      allAt_branchesUses phase bs locals⟩

end

section

variable (phase : Phase)

theorem allAt_argsUses (need : Need) (args : List Argument) :
    AllAt phase (argsUses need phase args) := by
  refine allAt_flatMap fun a => ?_
  cases a.type with
  | none => exact allAt_nil phase
  | some ty => exact ty.allAt_uses phase [] need

theorem allAt_typeUses (need : Need) (type : Option TypeExpr) :
    AllAt phase (typeUses need phase type) := by
  cases type with
  | none => exact allAt_nil phase
  | some ty => exact ty.allAt_uses phase [] need

end

/-! ## Calls of a name that is also a local -/

/-- A callee that is the name of a local, as a use that the local does not hide. -/
def Expr.shadowed (phase : Phase) (locals : List String) : Expr → List Use
  | .entity _ name =>
    if name.isSingle && name.headIn locals then [⟨name, .complete, phase, false⟩] else []
  | _ => []

mutual

def TypeExpr.shadowedCalls (phase : Phase) (locals : List String) : TypeExpr → List Use
  | .mark _ sub owner _ _ _ =>
    sub.shadowedCalls phase locals ++ ownerShadowedCalls phase locals owner
  | .array _ element length =>
    element.shadowedCalls phase locals ++ length.shadowedCalls phase locals
  | .function _ result args _ =>
    result.shadowedCalls phase locals ++ typesShadowedCalls phase locals args
  | .tuple _ members _ => typesShadowedCalls phase locals members
  | .ref _ sub _ | .vector _ sub _ _ | .future _ sub _ | .maybe _ sub | .typed _ sub =>
    sub.shadowedCalls phase locals
  | .named .. | .int .. | .uint .. | .float .. | .bool _ | .char _ | .void _ | .str _
  | .native .. => []

def ownerShadowedCalls (phase : Phase) (locals : List String) : Owner TypeExpr → List Use
  | .type owner => owner.shadowedCalls phase locals
  | .anonymous | .heap => []

def typesShadowedCalls (phase : Phase) (locals : List String) : List TypeExpr → List Use
  | [] => []
  | ty :: tys => ty.shadowedCalls phase locals ++ typesShadowedCalls phase locals tys

def Expr.shadowedCalls (phase : Phase) (locals : List String) : Expr → List Use
  | .int _ _ suffix | .float _ _ suffix => suffixShadowedCalls phase locals suffix
  | .bool .. | .char .. | .str .. | .null _ | .default _ | .none _ | .self _
  | .selfMember .. | .todo .. | .entity .. => []
  | .some _ e | .deref _ e | .copy _ e | .move _ e | .heapPut _ e | .await _ e
  | .unary _ _ e | .addressOf _ e _ | .member _ e _ => e.shadowedCalls phase locals
  | .tuple _ items | .array _ items => exprsShadowedCalls phase locals items
  | .index _ base position =>
    base.shadowedCalls phase locals ++ position.shadowedCalls phase locals
  | .binary _ _ lhs rhs => lhs.shadowedCalls phase locals ++ rhs.shadowedCalls phase locals
  | .call _ callee args =>
    callee.shadowed phase locals ++ callee.shadowedCalls phase locals ++
      exprsShadowedCalls phase locals args
  | .methodCall _ base _ args _ =>
    base.shadowedCalls phase locals ++ exprsShadowedCalls phase locals args
  | .construct _ type args | .plain _ type _ args =>
    type.shadowedCalls phase locals ++ exprsShadowedCalls phase locals args
  | .variant _ type _ value | .heapGet _ type value =>
    type.shadowedCalls phase locals ++ optionShadowedCalls phase locals value
  | .heapGrow _ type pointer count =>
    type.shadowedCalls phase locals ++ pointer.shadowedCalls phase locals ++
      count.shadowedCalls phase locals
  | .cast _ value target =>
    value.shadowedCalls phase locals ++ target.shadowedCalls phase locals
  | .assembly _ _ _ args result _ =>
    exprsShadowedCalls phase locals args ++ result.shadowedCalls phase locals
  | .ifElse _ condition thenValue elseValue =>
    condition.shadowedCalls phase locals ++ thenValue.shadowedCalls phase locals ++
      elseValue.shadowedCalls phase locals
  | .sizeOf _ type | .typeValue _ type => type.shadowedCalls phase locals

def suffixShadowedCalls (phase : Phase) (locals : List String) : Option TypeExpr → List Use
  | some ty => ty.shadowedCalls phase locals
  | none => []

def optionShadowedCalls (phase : Phase) (locals : List String) : Option Expr → List Use
  | some e => e.shadowedCalls phase locals
  | none => []

def exprsShadowedCalls (phase : Phase) (locals : List String) : List Expr → List Use
  | [] => []
  | e :: es => e.shadowedCalls phase locals ++ exprsShadowedCalls phase locals es

end

theorem QName.headIn_nil (n : QName) : n.headIn [] = false := by
  unfold QName.headIn
  split <;> rfl

theorem Expr.shadowed_nil (phase : Phase) (e : Expr) : e.shadowed phase [] = [] := by
  unfold Expr.shadowed
  split
  · rw [QName.headIn_nil, Bool.and_false]
    rfl
  · rfl

mutual

theorem TypeExpr.shadowedCalls_nil (phase : Phase) :
    ∀ ty : TypeExpr, ty.shadowedCalls phase [] = []
  | .mark _ sub owner _ _ _ => by
    rw [TypeExpr.shadowedCalls, sub.shadowedCalls_nil, ownerShadowedCalls_nil, List.nil_append]
  | .array _ element length => by
    rw [TypeExpr.shadowedCalls, element.shadowedCalls_nil, length.shadowedCalls_nil,
      List.nil_append]
  | .function _ result args _ => by
    rw [TypeExpr.shadowedCalls, result.shadowedCalls_nil, typesShadowedCalls_nil, List.nil_append]
  | .tuple _ members _ => by rw [TypeExpr.shadowedCalls, typesShadowedCalls_nil]
  | .ref _ sub _ | .vector _ sub _ _ | .future _ sub _ | .maybe _ sub | .typed _ sub => by
    rw [TypeExpr.shadowedCalls, sub.shadowedCalls_nil]
  | .named .. | .int .. | .uint .. | .float .. | .bool _ | .char _ | .void _ | .str _
  | .native .. => by rw [TypeExpr.shadowedCalls]

theorem ownerShadowedCalls_nil (phase : Phase) :
    ∀ owner : Owner TypeExpr, ownerShadowedCalls phase [] owner = []
  | .type owner => by rw [ownerShadowedCalls, owner.shadowedCalls_nil]
  | .anonymous | .heap => by rw [ownerShadowedCalls]

theorem typesShadowedCalls_nil (phase : Phase) :
    ∀ tys : List TypeExpr, typesShadowedCalls phase [] tys = []
  | [] => by rw [typesShadowedCalls]
  | ty :: tys => by
    rw [typesShadowedCalls, ty.shadowedCalls_nil, typesShadowedCalls_nil phase tys,
      List.nil_append]

/-- Where there are no locals, nothing is shadowed. -/
theorem Expr.shadowedCalls_nil (phase : Phase) : ∀ e : Expr, e.shadowedCalls phase [] = []
  | .int _ _ suffix | .float _ _ suffix => by
    rw [Expr.shadowedCalls, suffixShadowedCalls_nil]
  | .bool .. | .char .. | .str .. | .null _ | .default _ | .none _ | .self _
  | .selfMember .. | .todo .. | .entity .. => by rw [Expr.shadowedCalls]
  | .some _ e | .deref _ e | .copy _ e | .move _ e | .heapPut _ e | .await _ e
  | .unary _ _ e | .addressOf _ e _ | .member _ e _ => by
    rw [Expr.shadowedCalls, e.shadowedCalls_nil]
  | .tuple _ items | .array _ items => by rw [Expr.shadowedCalls, exprsShadowedCalls_nil]
  | .index _ a b | .binary _ _ a b => by
    rw [Expr.shadowedCalls, a.shadowedCalls_nil, b.shadowedCalls_nil, List.nil_append]
  | .call _ callee args => by
    rw [Expr.shadowedCalls, callee.shadowed_nil, callee.shadowedCalls_nil,
      exprsShadowedCalls_nil, List.nil_append, List.nil_append]
  | .methodCall _ base _ args _ => by
    rw [Expr.shadowedCalls, base.shadowedCalls_nil, exprsShadowedCalls_nil, List.nil_append]
  | .construct _ type args | .plain _ type _ args => by
    rw [Expr.shadowedCalls, type.shadowedCalls_nil, exprsShadowedCalls_nil, List.nil_append]
  | .variant _ type _ value | .heapGet _ type value => by
    rw [Expr.shadowedCalls, type.shadowedCalls_nil, optionShadowedCalls_nil, List.nil_append]
  | .heapGrow _ type pointer count => by
    rw [Expr.shadowedCalls, type.shadowedCalls_nil, pointer.shadowedCalls_nil,
      count.shadowedCalls_nil, List.nil_append, List.nil_append]
  | .cast _ value target => by
    rw [Expr.shadowedCalls, value.shadowedCalls_nil, target.shadowedCalls_nil, List.nil_append]
  | .assembly _ _ _ args result _ => by
    rw [Expr.shadowedCalls, exprsShadowedCalls_nil, result.shadowedCalls_nil, List.nil_append]
  | .ifElse _ condition thenValue elseValue => by
    rw [Expr.shadowedCalls, condition.shadowedCalls_nil, thenValue.shadowedCalls_nil,
      elseValue.shadowedCalls_nil, List.nil_append, List.nil_append]
  | .sizeOf _ type | .typeValue _ type => by
    rw [Expr.shadowedCalls, type.shadowedCalls_nil]

theorem suffixShadowedCalls_nil (phase : Phase) :
    ∀ suffix : Option TypeExpr, suffixShadowedCalls phase [] suffix = []
  | some ty => by rw [suffixShadowedCalls, ty.shadowedCalls_nil]
  | none => by rw [suffixShadowedCalls]

theorem optionShadowedCalls_nil (phase : Phase) :
    ∀ e : Option Expr, optionShadowedCalls phase [] e = []
  | some e => by rw [optionShadowedCalls, e.shadowedCalls_nil]
  | none => by rw [optionShadowedCalls]

theorem exprsShadowedCalls_nil (phase : Phase) :
    ∀ es : List Expr, exprsShadowedCalls phase [] es = []
  | [] => by rw [exprsShadowedCalls]
  | e :: es => by
    rw [exprsShadowedCalls, e.shadowedCalls_nil, exprsShadowedCalls_nil phase es,
      List.nil_append]

end

mutual

def Sentence.shadowedCalls (phase : Phase) (locals : List String) : Sentence → List Use
  | .localVar _ _ type value _ _ =>
    suffixShadowedCalls phase locals type ++ optionShadowedCalls phase locals value
  | .assign _ lhs rhs | .opAssign _ _ lhs rhs =>
    lhs.shadowedCalls phase locals ++ rhs.shadowedCalls phase locals
  | .expr _ e => e.shadowedCalls phase locals
  | .cond _ branches otherwise =>
    branchesShadowedCalls phase locals branches ++
      (match otherwise with
        | some body => sentencesShadowedCalls phase locals body
        | none => [])
  | .whileDo _ condition body _ =>
    condition.shadowedCalls phase locals ++ sentencesShadowedCalls phase locals body
  | .times _ count index body _ =>
    count.shadowedCalls phase locals ++
      sentencesShadowedCalls phase (identTexts index ++ locals) body
  | .loop _ body _ | .block _ body => sentencesShadowedCalls phase locals body
  | .forIn _ iterable item index body _ =>
    iterable.shadowedCalls phase locals ++
      sentencesShadowedCalls phase (item.text :: identTexts index ++ locals) body
  | .give _ value => optionShadowedCalls phase locals value
  | .breakLoop .. | .continueLoop .. | .todo .. => []

def sentencesShadowedCalls (phase : Phase) (locals : List String) : List Sentence → List Use
  | [] => []
  | s :: rest =>
    s.shadowedCalls phase locals ++ sentencesShadowedCalls phase (s.declared ++ locals) rest

def branchesShadowedCalls (phase : Phase) (locals : List String) : List Branch → List Use
  | [] => []
  | .mk condition body :: rest =>
    condition.shadowedCalls phase locals ++ sentencesShadowedCalls phase locals body ++
      branchesShadowedCalls phase locals rest

end

/-- The calls of a declaration that name a local: only the body of a compile-time function
runs where there are locals. -/
def DeclBody.shadowedCalls : DeclBody → List Use
  | prerunFunction d => sentencesShadowedCalls .one (argNames d.args) d.body
  | _ => []

end Staged
