/-
  Staged.Proofs.Typing.Declare — functions are declared as they are.

  A declaration adds to what there is: an entity becomes something, a type is defined or
  gets a member, a function without a body is added (`Compiler.Adds`). A function that is
  added has the prototype of the symbol or the member that it is added for; an external one
  may be there already, with whatever prototype it was added for first. Every prototype
  that a function was declared with is declared from then on, so what fitted still fits.
-/

import Staged.Proofs.Code.Phase
import Staged.Proofs.Members.Home
import Staged.Proofs.Typing.Body

namespace Staged

/-! ## What is added -/

namespace Compiler

variable {s t : Compiler} {id : EntityId} {y : Symbol} {types : TypeTable} {f : Ir.Function}

structure Adds (s t : Compiler) : Prop where
  frames : t.frames = s.frames
  func : t.func = s.func
  functions : Extends s.ir.functions t.ir.functions
  types : s.types.Retains t.types
  symbols : ∀ id y, t.symbols.lookup id = some y →
    s.symbols.lookup id = some y ∨ y.Typed t.types
  members : ∀ ty, ∀ m ∈ t.types.membersOf ty,
    m ∈ s.types.membersOf ty ∨ m.Proper ty ∧ m.Declared t.ir.functions
  symbolsKept : ∀ y ∈ s.symbols, y ∈ t.symbols
  membersKept : ∀ ty, ∀ m ∈ s.types.membersOf ty, m ∈ t.types.membersOf ty

theorem Adds.declares (h : s.Adds t) (id : Ir.FunctionId) (p : Prototype) (hp : s.Declares id p) :
    t.Declares id p := hp.mono h.symbolsKept h.membersKept h.functions

namespace Typed

theorem adds (h : s.Typed) (ha : s.Adds t) (hfits : Fitting t.Declares t.ir.functions) :
    t.Typed := by
  refine ⟨ha.frames.trans h.frames, fun id y hy => ?_, fun ty m hm => ?_, hfits, fun f hf => ?_⟩
  · rcases ha.symbols id y hy with hold | hnew
    · exact (h.symbols id y hold).retained ha.types
    · exact hnew
  · rcases ha.members ty m hm with hold | hnew
    · exact (h.members ty m hold).imp_right (·.extends ha.functions)
    · exact hnew
  · obtain ⟨htyped, hheading⟩ := h.func f (ha.func ▸ hf)
    exact ⟨(htyped.retained ha.types).mono ha.declares, ha.functions _ _ hheading⟩

/-- Nothing changes that types have to do with. -/
theorem of_core (h : s.Typed) (hcore : t.core = s.core) (hsymbols : t.symbols = s.symbols)
    (hframes : t.frames = []) : t.Typed := by
  obtain ⟨htypes, hir, hfunc⟩ := Core.mk.inj hcore
  cases s
  cases t
  cases htypes
  cases hir
  cases hfunc
  cases hsymbols
  exact ⟨hframes, h.symbols, h.members, h.fits, h.func⟩

/-- No function is added. -/
theorem adds_same (h : s.Typed) (ha : s.Adds t) (hf : t.ir.functions = s.ir.functions) :
    t.Typed := h.adds ha (hf ▸ h.fits.mono ha.declares)

/-- A function without a body is added, and declared. -/
theorem adds_function (h : s.Typed) (ha : s.Adds t)
    (hf : t.ir.functions = s.ir.functions.push f) (hblocks : f.blocks = #[])
    (hdeclared : t.Declares s.ir.functions.size f.prototype) : t.Typed :=
  h.adds ha (hf ▸ (h.fits.mono ha.declares).push hblocks hdeclared)

end Typed

/-- An entity becomes something, with other types that retain what is known. -/
theorem adds_symbol (s : Compiler) (id : EntityId) {ir : Ir.Module}
    (hf : Extends s.ir.functions ir.functions) (ht : s.types.Retains types) (hm : ∀ ty, types.membersOf ty = s.types.membersOf ty)
    (hy : y.Typed types) :
    s.Adds { s with ir := ir, types := types, symbols := (id, y) :: s.symbols } where
  frames := rfl
  func := rfl
  functions := hf
  types := ht
  symbols j z hz := by
    rw [List.lookup_cons] at hz
    split at hz
    · cases hz
      exact .inr hy
    · exact .inl hz
  members ty m hmem := .inl (hm ty ▸ hmem)
  symbolsKept z hz := List.mem_cons_of_mem _ hz
  membersKept ty m hmem := (hm ty).symm ▸ hmem

namespace Typed

theorem define (h : s.Typed) (ht : s.types.Retains types)
    (hm : ∀ ty, types.membersOf ty = s.types.membersOf ty) (hy : y.Typed types) :
    Typed { s with types, symbols := (id, y) :: s.symbols } :=
  h.adds_same (adds_symbol s id (.refl _) ht hm hy) rfl

theorem setSymbol (h : s.Typed) (hy : y.Typed s.types) :
    Typed { s with symbols := (id, y) :: s.symbols } := h.define (.refl _) (fun _ => rfl) hy

theorem retype (h : s.Typed) (ht : s.types.Retains types)
    (hm : ∀ ty, types.membersOf ty = s.types.membersOf ty) : Typed { s with types } :=
  h.adds_same ⟨rfl, rfl, .refl _, ht, fun _ _ hy => .inl hy, fun ty _ hmem => .inl (hm ty ▸ hmem),
    fun _ hy => hy, fun ty _ hmem => (hm ty).symm ▸ hmem⟩ rfl

/-- An entity becomes a function, one that is added for it or one that was there. -/
theorem function (h : s.Typed) {ir : Ir.Module} {i : Ir.FunctionId} {result : Ty}
    {params : List Ty} {variadic : Bool}
    (hir : ir.functions = s.ir.functions ∨ i = s.ir.functions.size ∧ ∃ f : Ir.Function,
      ir.functions = s.ir.functions.push f ∧ f.blocks = #[] ∧
        f.prototype = ⟨params, result, variadic⟩) :
    Typed { s with
      ir
      types := s.types.intern (.function result params variadic)
      symbols := (id, .function i (.function result params variadic)) :: s.symbols } := by
  have hsame := s.types.same_intern (.function result params variadic)
  have hadds (hf : Extends s.ir.functions ir.functions) :=
    s.adds_symbol id (y := .function i (.function result params variadic)) hf hsame.retains
      hsame.membersOf (Symbol.typed_of_value rfl)
  rcases hir with hsame | ⟨rfl, f, hf, hblocks, hprototype⟩
  · exact h.adds_same (hadds (hsame ▸ .refl _)) hsame
  · refine h.adds_function (hadds (hf ▸ extends_push _ f)) hf hblocks ?_
    rw [hprototype]
    exact .function List.mem_cons_self

end Typed

structure Prepares (s t : Compiler) (f : Ir.Function) (parent : Ty) (m : MemberFunction) :
    Prop where
  typed : t.Typed
  types : s.types.SameDefinitions t.types
  function : m.function = t.ir.functions.size
  blocks : f.blocks = #[]
  prototype : f.prototype = m.prototype
  proper : m.Proper parent

/-- The function is added, and the member to its type. -/
theorem Prepares.member {parent : Ty} {m : MemberFunction} (h : s.Prepares t f parent m) {w : Home}
    (hw : t.types.typeAt w = some parent) :
    Typed { t with ir := (t.ir.addFunction f).1, types := t.types.addMember m w } := by
  have hpush : Extends t.ir.functions (t.ir.functions.push f) := extends_push _ f
  have hdeclared : m.Declared (t.ir.functions.push f) := by
    refine ⟨f.name, ?_⟩
    rw [headingAt_push, if_pos h.function, ← h.prototype]
    rfl
  have hnew : m ∈ (t.types.addMember m w).membersOf parent :=
    TypeTable.mem_membersOf_addMember.mpr (.inr ⟨rfl, hw⟩)
  refine h.typed.adds_function ⟨rfl, rfl, hpush, t.types.retains_addMember m w,
    fun _ _ hy => .inl hy, fun ty m' hm' => ?_, fun _ hy => hy, fun ty m' hm' =>
      TypeTable.mem_membersOf_addMember.mpr (.inl hm')⟩ rfl h.blocks ?_
  · rcases TypeTable.mem_membersOf_addMember.mp hm' with hold | ⟨rfl, hty⟩
    · exact .inl hold
    · cases hw.symm.trans hty
      exact .inr ⟨h.proper, hdeclared⟩
  · rw [h.prototype]
    exact .member hnew h.function

end Compiler

namespace Emit

variable {o : Options} {s s' : Compiler} {id : EntityId} {view : Viewpoint} {u : Unit}
  {parent : Ty} {owner : String} {m : MemberFunction}

/-! ## Functions -/

theorem typed_functionPrototype {d : FunctionDecl} {range : Span} (h : s.Typed)
    (hr : functionPrototype view id d range o s = .ok u s') : s'.Typed := by
  obtain ⟨params, t, ht, -, hr⟩ := Compiler.stands_bind h.stands (ends_paramTypes _ _ _) hr
  obtain ⟨result, t, ht, -, hr⟩ := Compiler.stands_bind ht (ends_resultTypeOf _ _) hr
  have h := h.of_stands ht
  cases hd : d.body with
  | none =>
    rw [hd] at hr
    obtain ⟨-, hcases⟩ := t.ir.declareExternal_cases d.name.text params result d.variadic rfl
    cases hr
    refine h.function (hcases.imp (congrArg Ir.Module.functions) ?_)
    rintro ⟨hid, hpush⟩
    exact ⟨hid, _, hpush, rfl, Ir.Function.prototype_ofExternal _ _ _ _⟩
  | some body =>
    rw [hd] at hr
    have hvariadic : d.variadic = false := by
      cases hv : d.variadic with
      | false => rfl
      | true =>
        rw [hv] at hr
        cases hr
    rw [hvariadic] at hr
    cases hr
    exact h.function (.inr ⟨rfl, _, rfl, rfl, Ir.Function.prototype_ofSignature _ _ _⟩)

/-! ## Members -/

theorem checkClash_ok (hr : checkClash m o s = .ok u s') : s' = s := by
  obtain ⟨t, s₁, ht, hr⟩ := bind_ok hr
  cases ht
  cases hfind : (s.types.membersOf m.parent).find? (·.clashes m) with
  | some existing =>
    rw [hfind] at hr
    cases hr
  | none =>
    rw [hfind] at hr
    cases hr
    rfl

theorem memberPrototype_ok {position : Nat} {d : MemberDecl} (h : s.Typed)
    (hparent : parent.isRef = false)
    (hr : memberPrototype view parent owner position d o s = .ok m s') :
    ∃ t f, s.Prepares t f parent m ∧ s' = { t with ir := (t.ir.addFunction f).1 } := by
  rw [memberPrototype_eq] at hr
  obtain ⟨-, t, ht, harity, hr⟩ := Compiler.stands_bind h.stands (ends_checkArity _ _ _) hr
  obtain ⟨-, t, ht, -, hr⟩ := Compiler.stands_bind ht (ends_checkUnique _ _) hr
  obtain ⟨args, t, ht, hargs, hr⟩ := Compiler.stands_bind ht
    (ends_mapM (ends_memberArg view _ _) _) hr
  obtain ⟨other, t, ht, hother, hr⟩ := Compiler.stands_bind ht (ends_otherArg _ _ _) hr
  obtain ⟨result, t, ht, -, hr⟩ := Compiler.stands_bind ht (ends_memberResult _ _ _) hr
  obtain ⟨self, t, ht, hself, hr⟩ := Compiler.stands_bind ht (ends_selfTypes _ _) hr
  obtain ⟨i, t₁, hi, hr⟩ := bind_ok hr
  cases hi
  obtain ⟨tree, t₁, htree, hr⟩ := bind_ok hr
  cases htree
  obtain ⟨u, t₁, hclash, hr⟩ := bind_ok hr
  cases checkClash_ok hclash
  cases hr
  refine ⟨t, _, ⟨h.of_stands ht, ht.code.types, rfl, rfl, ?_, rfl, hparent, fun hfixed => ?_⟩, rfl⟩
  · rw [Ir.Function.prototype_ofSignature, hself]
    rfl
  · have hnil : args = [] := List.eq_nil_of_length_eq_zero (hargs.trans (harity 0 hfixed))
    rw [MemberFunction.argTypes, hnil]
    exact hother

theorem typed_memberPrototypes {w : Home} (hparent : parent.isRef = false) :
    ∀ {ds : List MemberDecl} {position : Nat} {s : Compiler} {u : Unit}, s.Typed →
      s.types.typeAt w = some parent →
      memberPrototypes view parent owner (fun m => modifyTypes (·.addMember m w)) position ds o s =
        .ok u s' → s'.Typed
  | [], _, _, _, h, _, hr => by
    cases hr
    exact h
  | d :: ds, position, s, _, h, hw, hr => by
    unfold memberPrototypes at hr
    obtain ⟨m, t', hm, hr⟩ := bind_ok hr
    obtain ⟨t, f, hp, rfl⟩ := memberPrototype_ok h hparent hm
    obtain ⟨u, t'', hadd, hr⟩ := bind_ok hr
    cases hadd
    have hw : t.types.typeAt w = some parent := (hp.types.typeAt w).trans hw
    exact typed_memberPrototypes hparent (hp.member hw)
      ((TypeTable.typeAt_addMember m w w).trans hw) hr

end Emit

end Staged
