/-
  Staged.Proofs.Typing.Body — the bodies of functions and members.

  Between phases, symbols and members are as lowering needs them, every call in the code
  fits, and every function is declared with the prototype that it has (`Compiler.Typed`).
  Each such state is a basis, and what stays on its ground is one again. A body is begun
  with the registers of its parameters, which have the types of the prototype, and a
  finished body takes the place of a function that looks the same from outside.
-/

import Staged.Declare.Member
import Staged.Proofs.Code.Body
import Staged.Proofs.Typing.Sentence

namespace Staged

/-! ## States -/

structure Symbol.Typed (t : TypeTable) (y : Symbol) : Prop where
  known : ∀ k, y.value? = some k → k.Solid t
  globals : ∀ i ty isVar k, y = .global i ty isVar k → k.type = ty

theorem Symbol.typed_of_value {t : TypeTable} {y : Symbol} (h : y.value? = none) : y.Typed t := by
  refine ⟨fun k hk => ?_, ?_⟩
  · rw [h] at hk
    cases hk
  · rintro i ty isVar k rfl
    cases h

theorem Symbol.Typed.retained {t t' : TypeTable} {y : Symbol} (h : y.Typed t)
    (hr : t.Retains t') : y.Typed t' := ⟨fun k hk => (h.known k hk).retained hr, h.globals⟩

def MemberFunction.Declared (functions : Array Ir.Function) (m : MemberFunction) : Prop :=
  ∃ name, headingAt functions m.function = some (name, m.prototype)

theorem MemberFunction.Declared.extends {functions functions' : Array Ir.Function}
    {m : MemberFunction} (h : m.Declared functions) (hf : Extends functions functions') :
    m.Declared functions' := h.imp fun _ hname => hf _ _ hname

namespace Compiler

def Declares (s : Compiler) : Ir.FunctionId → Prototype → Prop :=
  Staged.Declares s.symbols s.types s.ir.functions

structure Typed (s : Compiler) : Prop where
  frames : s.frames = []
  symbols : ∀ id y, s.symbols.lookup id = some y → y.Typed s.types
  members : ∀ ty, ∀ m ∈ s.types.membersOf ty, m.Proper ty ∧ m.Declared s.ir.functions
  fits : Fitting s.Declares s.ir.functions
  func : ∀ f, s.func = some f → f.Typed s.types s.Declares ∧
    headingAt s.ir.functions f.id = some f.function.heading

variable {s s' t : Compiler} {α β : Type} {a : Emit α} {k : α → Emit β} {Q : α → Prop}
  {o : Options} {v : α} {w : β} {b : Basis}

def Typed.basis (h : s.Typed) : Basis where
  table := s.types
  outer := s.outer
  functions := s.ir.functions
  known hy hk := (h.symbols _ _ hy).known _ hk
  globals hy := (h.symbols _ _ hy).globals _ _ _ _ rfl
  members hm := (h.members _ _ hm).1

theorem Typed.stands (h : s.Typed) : h.basis.ground.Stands 0 s := by
  refine ⟨⟨rfl, congrArg List.length h.frames, ⟨.refl _, .refl _, h.fits, h.func⟩, trivial⟩, ?_⟩
  intro f hf
  rw [h.frames] at hf
  cases hf

/-- Lowering and evaluation lead to such states again. -/
theorem Typed.of_stands (h : s.Typed) (ht : h.basis.ground.Stands 0 t) : t.Typed := by
  obtain ⟨htypes, hextends, hfits, hfunc⟩ := ht.code
  have hsymbols : t.symbols = s.symbols := congrArg Outer.symbols ht.outer
  have hmembers (ty : Ty) : t.types.membersOf ty = s.types.membersOf ty := htypes.membersOf ty
  have hdeclares (id : Ir.FunctionId) (p : Prototype)
      (hp : h.basis.declares t.ir.functions id p) : t.Declares id p :=
    hp.mono (fun _ hy => hsymbols ▸ hy) (fun ty _ hm => hmembers ty ▸ hm) (.refl _)
  refine ⟨List.eq_nil_of_length_eq_zero ht.calls, fun id y hy => ?_, fun ty m hm => ?_,
    hfits.mono hdeclares, fun f hf => ?_⟩
  · exact (h.symbols id y (hsymbols ▸ hy)).retained htypes.retains
  · exact (h.members ty m (hmembers ty ▸ hm)).imp_right (·.extends hextends)
  · obtain ⟨htyped, hheading⟩ := hfunc f hf
    exact ⟨(htyped.retained htypes.retains).mono hdeclares, hheading⟩

/-! ## Running actions -/

theorem stands_run (hs : b.ground.Stands 0 s) (ha : b.Ends a Q) (hr : a o s = .ok v s') :
    b.ground.Stands 0 s' ∧ Q v := by
  have h := ha o trivial s hs
  rw [hr] at h
  exact h

theorem stands_bind (hs : b.ground.Stands 0 s) (ha : b.Ends a Q)
    (hr : (a >>= k) o s = .ok w s') :
    ∃ v t, b.ground.Stands 0 t ∧ Q v ∧ k v o t = .ok w s' := by
  obtain ⟨v, t, hv, hr⟩ := Emit.bind_ok hr
  obtain ⟨ht, hq⟩ := stands_run hs ha hv
  exact ⟨v, t, ht, hq, hr⟩

theorem Typed.run (h : s.Typed) (ha : h.basis.Ends a Q) (hr : a o s = .ok v s') :
    s'.Typed ∧ Q v := (stands_run h.stands ha hr).imp_left h.of_stands

/-! ## From the beginning of a body to its end -/

theorem Typed.begun (h : s.Typed) {i : Ir.FunctionId} {p : Ir.Function} (result : Ty)
    {self : Option Instance} (hp : s.ir.functions[i]? = some p)
    (hself : ∀ inst, self = some inst → inst.Typed) :
    Typed { s with func := some (Emit.begun i p result self) } := by
  refine ⟨h.frames, h.symbols, h.members, h.fits, fun f hf => ?_⟩
  cases hf
  refine ⟨⟨fun scope hscope l hl => ?_, hself, ?_⟩, (headingAt_of_getElem hp :)⟩
  · cases List.mem_singleton.mp hscope
    cases hl
  · exact (h.fits.calls p (Array.mem_of_getElem? hp)).newBlock _

theorem heading_closeAll {f done : Ir.Function} {result : Ty}
    (h : Emit.closeAll? f result = some done) : done.heading = f.heading := by
  obtain ⟨blocks, -, hdone⟩ := Option.bind_eq_some_iff.mp h
  cases hdone
  rfl

theorem callsFit_closeAll {declared : Ir.FunctionId → Prototype → Prop} {f done : Ir.Function}
    {result : Ty} (h : Emit.closeAll? f result = some done) (hf : f.CallsFit declared) :
    done.CallsFit declared := by
  intro c hc
  obtain ⟨i, hi, rfl⟩ := List.mem_iff_getElem.mp (Array.mem_toList_iff.mpr hc)
  have hended := (Emit.closeAll_spec h).2
  have hi' : i < f.blocks.toList.length := hended.length_eq ▸ hi
  have hbefore := hf _ (Array.mem_toList_iff.mp (List.getElem_mem hi'))
  obtain ⟨-, hsame | ⟨t, -, hclose⟩⟩ := hended.get hi' hi
  · rw [List.get_eq_getElem, List.get_eq_getElem] at hsame
    rw [hsame]
    exact hbefore
  · rw [List.get_eq_getElem, List.get_eq_getElem] at hclose
    rw [hclose]
    exact Ir.Block.fits_close t hbefore

theorem Typed.finished (h : s.Typed) {range : Span} {u : Unit}
    (hr : Emit.finishFunction range o s = .ok u s') :
    s'.Typed ∧ Extends s.ir.functions s'.ir.functions := by
  obtain ⟨f, done, hf, hdone, rfl⟩ := Emit.finishFunction_ok hr
  obtain ⟨htyped, hheading⟩ := h.func f hf
  have hsame (id : Ir.FunctionId) :
      headingAt (s.ir.functions.modify f.id fun _ => done) id = headingAt s.ir.functions id :=
    headingAt_modify hheading (heading_closeAll hdone)
  have hextends : Extends s.ir.functions (s.ir.functions.modify f.id fun _ => done) :=
    fun id q hq => (hsame id).trans hq
  refine ⟨⟨h.frames, h.symbols, fun ty m hm => ?_, ?_, fun f hf => by cases hf⟩, hextends⟩
  · exact (h.members ty m hm).imp_right (·.extends hextends)
  · have hcalls := callsFit_closeAll hdone htyped.fits
    exact (h.fits.modify hheading (heading_closeAll hdone) hcalls).mono fun _ _ hp =>
      hp.grow hextends

end Compiler

namespace Emit

variable {b : Basis} {o : Options} {s s' : Compiler} {u : Unit}

/-! ## Parameters -/

theorem ends_bindParam (name : Ident) {r : Ir.Register} {ty : Ty} (isVar : Bool)
    (hr : r.type = ty) : b.Ends (bindParam name r ty isVar) fun _ => True := by
  unfold bindParam
  split
  · exact ends_declareLocal ⟨fun _ => .inl hr, fun h => (by cases h), fun _ hc => by cases hc⟩
  · refine (ends_requireSized ty _).bind fun _ _ => (ends_alloca ty _).bind fun slot hslot =>
      (ends_store _ _).bind fun _ _ => ends_declareLocal ?_
    exact ⟨fun h => (by cases h), fun _ => congrArg Ty.target? hslot, fun _ hc => by cases hc⟩

theorem ends_bindParams :
    ∀ (args : List Argument) (rs : List Ir.Register), b.Ends (bindParams args rs) fun _ => True
  | [], _ => .pure trivial
  | _ :: _, [] => .pure trivial
  | a :: args, _ :: rs => by
    unfold bindParams
    exact (ends_bindParam a.name a.isVar rfl).bind fun _ _ => ends_bindParams args rs

theorem ends_bindMemberArgs (parent : Ty) (self : Option Instance) :
    ∀ (args : List MemberArg) (rs : List Ir.Register),
      rs.map Ir.Register.type = args.map MemberArg.type →
      b.Ends (bindMemberArgs parent self args rs) fun _ => True
  | [], _, _ => .pure trivial
  | _ :: _, [], _ => .pure trivial
  | a :: args, r :: rs, h => by
    obtain ⟨hr, hrest⟩ := List.cons.inj h
    have hnext := ends_bindMemberArgs parent self args rs hrest
    unfold bindMemberArgs
    dsimp only
    split
    · exact (ends_fieldPtr _ _ _ _).bind fun _ _ => (ends_store _ _).bind fun _ _ => hnext
    · exact (ends_bindParam a.name a.isVar hr).bind fun _ _ => hnext

/-- The first parameter of a member is its instance, if it has one. -/
theorem splitParams_typed {m : MemberFunction} {params rest : List Ir.Register}
    {self : Option Instance} (hparams : params.map Ir.Register.type = m.selfParams ++ m.argTypes)
    (hr : splitParams m params o s = .ok (self, rest) s') :
    s' = s ∧ (∀ inst, self = some inst → inst.Typed) ∧
      rest.map Ir.Register.type = m.argTypes := by
  unfold splitParams at hr
  unfold MemberFunction.selfParams at hparams
  split at hr
  · rename_i hself
    rw [if_pos hself] at hparams
    cases params with
    | nil => cases hparams
    | cons r params =>
      obtain ⟨hr', hrest⟩ := List.cons.inj hparams
      cases hr
      refine ⟨rfl, fun inst hinst => ?_, hrest⟩
      cases hinst
      exact congrArg Ty.target? hr'
  · rename_i hself
    rw [if_neg hself] at hparams
    cases hr
    exact ⟨rfl, fun _ h => (by cases h), hparams⟩

/-! ## Bodies -/

theorem typed_functionBody {view : Viewpoint} {id : EntityId} {d : FunctionDecl} {range : Span}
    (h : s.Typed) (hr : functionBody view id d range o s = .ok u s') : s'.Typed := by
  unfold functionBody at hr
  cases hbody : d.body with
  | none =>
    rw [hbody] at hr
    cases hr
    exact h
  | some body =>
    rw [hbody] at hr
    obtain ⟨symbol, t, hsymbol, hr⟩ := bind_ok hr
    obtain ⟨-, rfl⟩ := symbolOf_ok hsymbol
    cases symbol with
    | function f type =>
      cases type with
      | function result params variadic =>
        obtain ⟨p, t', hp, hrun⟩ := bind_ok hr
        obtain ⟨-, rfl⟩ := prototype_ok hp
        obtain ⟨u₁, t₁, hbegin, hr⟩ := bind_ok hrun
        obtain ⟨p', hp', rfl⟩ := beginFunction_ok hbegin
        have hself (inst : Instance) (h : none = some inst) : inst.Typed := by cases h
        have hbegun := h.begun result hp' hself
        obtain ⟨u₂, t₂, h₂, -, hr⟩ := Compiler.stands_bind hbegun.stands
          (ends_bindParams d.args p.params) hr
        obtain ⟨u₃, t₃, h₃, -, hr⟩ := Compiler.stands_bind h₂ (ends_lowerSentences view body) hr
        exact ((hbegun.of_stands h₃).finished hr).1
      | _ => cases hr
    | _ => cases hr

theorem typed_memberBody {module : ModId} {m : MemberFunction} {d : MemberDecl} (h : s.Typed)
    (hm : m.Declared s.ir.functions) (hr : memberBody module m d o s = .ok u s') :
    s'.Typed ∧ Extends s.ir.functions s'.ir.functions := by
  obtain ⟨p, t, hp, hrun⟩ := bind_ok hr
  obtain ⟨hp, rfl⟩ := prototype_ok hp
  obtain ⟨⟨self, rest⟩, t', hsplit, hrest⟩ := bind_ok hrun
  obtain ⟨name, hname⟩ := hm
  have hprototype : p.prototype = m.prototype :=
    congrArg Prod.snd (Option.some.inj ((headingAt_of_getElem hp).symm.trans hname))
  obtain ⟨rfl, hself, htypes⟩ := splitParams_typed (congrArg Prototype.params hprototype) hsplit
  obtain ⟨u₁, t₁, hbegin, hr⟩ := bind_ok hrest
  obtain ⟨p', hp', rfl⟩ := beginFunction_ok hbegin
  have hbegun := h.begun m.result hp' hself
  obtain ⟨u₂, t₂, h₂, -, hr⟩ := Compiler.stands_bind hbegun.stands
    (ends_bindMemberArgs m.parent self m.args rest htypes) hr
  obtain ⟨u₃, t₃, h₃, -, hr⟩ := Compiler.stands_bind h₂ (ends_lowerSentences _ d.body) hr
  exact ((hbegun.of_stands h₃).finished hr).imp_right h₃.code.functions.trans

theorem typed_memberBodies {module : ModId} :
    ∀ {ms : List MemberFunction} {ds : List MemberDecl} {s : Compiler}, s.Typed →
      (∀ m ∈ ms, m.Declared s.ir.functions) →
      memberBodies module ms ds o s = .ok u s' → s'.Typed
  | [], _, _, h, _, hr => by
    cases hr
    exact h
  | _ :: _, [], _, h, _, hr => by
    cases hr
    exact h
  | m :: ms, d :: ds, s, h, hms, hr => by
    rw [List.forall_mem_cons] at hms
    unfold memberBodies at hr
    obtain ⟨u₁, t, hbody, hr⟩ := bind_ok hr
    obtain ⟨ht, hextends⟩ := typed_memberBody h hms.1 hbody
    exact typed_memberBodies ht (fun m' hm' => (hms.2 m' hm').extends hextends) hr

end Emit

end Staged
