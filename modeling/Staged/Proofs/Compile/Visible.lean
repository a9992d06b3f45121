/-
  Staged.Proofs.Compile.Visible — where fields are named and member functions are called.

  Code names a field where it takes a member of a struct and where it builds a struct from
  values for its fields. In a compilation that succeeds, both happen only where the field is
  visible (`compile_member_visible`, `compile_fieldOrder_visible`).

  Member functions are found by name (methods and static functions), by the type that is built
  (constructors, convertors from a value and default constructors) and by the type that is cast
  to. In a compilation that succeeds, each of these ways leads only to members that are visible
  (`compile_method_visible`, `compile_static_visible`, `compile_default_visible`,
  `compile_constructor_visible`, `compile_convertor_visible`). Operators, copies, moves and
  assignments find their members without a viewpoint.
-/

import Staged.Proofs.Compile.Enter

namespace Staged

namespace Emit

variable {o : Options} {view : Viewpoint} {s : Compiler} {range : Span}

theorem returns_isAccessible (vis : Visibility) : Returns o s (isAccessible view vis) fun b t =>
    b = s.modules.isAccessible vis view ∧ t = s := by
  intro b t h
  cases h
  exact ⟨rfl, rfl⟩

/-- A member of a struct is a field that is visible. -/
theorem returns_lowerMember_struct {whole : Value} {name : Ident} {id : Nat}
    (hstruct : whole.type.value = .struct id) :
    Returns o s (lowerMember view whole name range) fun _ _ => ∃ index f,
      (s.types.structs[id]?).bind (·.field? name.text) = some (index, f) ∧
        s.modules.isAccessible f.vis view = true := by
  unfold lowerMember
  dsimp only
  generalize whole.type.value = ty at hstruct ⊢
  split
  case h_4 =>
    cases hstruct
    refine returns_types.bind fun t _ ⟨ht, hs⟩ => (Returns.require _ _).bind fun found _ ⟨hf, hs'⟩ => ?_
    cases ht
    cases hs
    cases hs'
    refine (returns_isAccessible _).bind fun visible _ ⟨hv, _⟩ => .check fun hvisible => ?_
    exact fun _ _ _ => ⟨found.1, found.2, hf, hv ▸ hvisible⟩
  all_goals first | exact .refuse _ _ | cases hstruct

/-! ## Values for fields -/

/-- A loop that goes on after each item has found what it looks for in all of them. -/
theorem returns_forIn {α : Type} {f : α → PUnit → Emit (ForInStep PUnit)} {P : α → Prop} :
    ∀ {as : List α}, (∀ a ∈ as, Returns o s (f a ⟨⟩) fun r t => r = .yield ⟨⟩ ∧ P a ∧ t = s) →
      Returns o s (forIn as PUnit.unit f) fun _ t => (∀ a ∈ as, P a) ∧ t = s
  | [], _ => .pure ⟨nofun, rfl⟩
  | a :: as, h => by
    rw [List.forIn_cons]
    refine (h a List.mem_cons_self).bind fun r t ⟨hr, ha, ht⟩ => ?_
    cases hr
    cases ht
    refine (returns_forIn fun b hb => h b (List.mem_cons_of_mem a hb)).mono fun _ t ⟨has, ht⟩ => ?_
    exact ⟨fun b hb => (List.mem_cons.mp hb).elim (fun e => e ▸ ha) (has b), ht⟩

/-- The fields that values are given for are visible. -/
theorem returns_fieldOrder (ty : Ty) (names : Option (List Ident)) (count : Nat) :
    Returns o s (fieldOrder view ty names count range) fun order t => t = s ∧ ∃ d,
      s.types.structOf? ty = some d ∧ d.fieldOrder ty names count range = .ok order ∧
        ∀ i ∈ order, ∀ f, d.fields[i]? = some f → s.modules.isAccessible f.vis view = true := by
  refine returns_types.bind fun t _ ⟨ht, hs⟩ => (Returns.require _ _).bind fun d _ ⟨hd, hs'⟩ => ?_
  cases ht
  cases hs
  cases hs'
  refine .check fun _ => ?_
  cases horder : d.fieldOrder ty names count range with
  | error e => exact .refuse _ _
  | ok order =>
    refine (returns_forIn (P := fun i => ∀ f, d.fields[i]? = some f →
      s.modules.isAccessible f.vis view = true) fun i _ => ?_).bind fun _ _ ⟨hvisible, hs⟩ =>
        .pure ⟨hs, d, hd, horder, hvisible⟩
    cases hfield : d.fields[i]? with
    | none => exact .pure ⟨rfl, nofun, rfl⟩
    | some field =>
      refine (returns_isAccessible _).bind fun b _ ⟨hb, hs⟩ => .check fun hvisible => ?_
      cases hs
      refine .pure ⟨rfl, ?_, rfl⟩
      rintro f ⟨⟩
      exact hb ▸ hvisible

/-! ## Member functions -/

theorem returns_checkMemberAccess (m : MemberFunction) (name : Ident) :
    Returns o s (checkMemberAccess view m name) fun _ t =>
      s.modules.isAccessible m.vis view = true ∧ t = s := by
  refine (returns_isAccessible _).bind fun visible _ ⟨hv, hs⟩ => ?_
  split
  · rename_i hvisible
    exact .pure ⟨hv ▸ hvisible, hs⟩
  · exact .refuse _ _

theorem returns_lowerMethodCall (base : Value) (name : Ident) (args : List Operand)
    (variation : Bool) :
    Returns o s (lowerMethodCall view base name args variation range) fun _ _ =>
      ∃ self ty t m, methodInstance base name.text range o s = .ok (self, ty) t ∧
        t.types.method? ty name.text = some m ∧ t.modules.isAccessible m.vis view = true := by
  refine Returns.bind (fun _ _ h => h) fun (self, ty) t hself => ?_
  refine returns_types.bind fun types _ ⟨htypes, hs⟩ => ?_
  refine (Returns.require _ _).bind fun m _ ⟨hm, hs'⟩ => ?_
  cases htypes
  cases hs
  cases hs'
  refine (returns_checkMemberAccess m name).bind fun _ _ ⟨hvisible, _⟩ => ?_
  exact fun _ _ _ => ⟨self, ty, t, m, hself, hm, hvisible⟩

theorem returns_lowerStaticCall {ty : Ty} {name : Ident} {args : List Operand} {expect : Expect}
    {m : MemberFunction} (hname : name.text ≠ "from")
    (hm : ((s.types.membersOf ty).find? fun m => m.kind == .static && m.name == name.text) =
      some m) :
    Returns o s (lowerStaticCall view ty name args expect range) fun _ _ =>
      s.modules.isAccessible m.vis view = true := by
  unfold lowerStaticCall
  rw [if_neg hname]
  refine returns_types.bind fun types _ ⟨htypes, hs⟩ => ?_
  cases htypes
  cases hs
  rw [hm]
  refine (returns_checkMemberAccess m name).bind fun _ _ ⟨hvisible, _⟩ => ?_
  exact fun _ _ _ => hvisible

theorem returns_lowerDefault {ty : Ty} {expect : Expect} {m : MemberFunction}
    (hm : s.types.member? ty .defaultConstructor = some m) :
    Returns o s (lowerDefault view ty expect range) fun _ _ =>
      s.modules.isAccessible m.vis view = true := by
  refine returns_types.bind fun types _ ⟨htypes, hs⟩ => ?_
  cases htypes
  cases hs
  rw [hm]
  refine (returns_isAccessible _).bind fun visible _ ⟨hv, _⟩ => .check fun hvisible => ?_
  exact fun _ _ _ => hv ▸ hvisible

/-- The constructor or convertor that takes the values of all arguments is visible where
they are lowered. -/
theorem returns_construct {type : Ty} {args : List Operand} {expect : Expect}
    {first : MemberFunction} {others : List MemberFunction} (hargs : args ≠ [])
    (hm : constructors s.types type.value args.length = first :: others) :
    Returns o s (construct view type args expect range) fun _ _ => ∃ hints vs t m,
      lowerHinted args hints o s = .ok vs t ∧
        (first :: others).find? (acceptsAll · vs) = some m ∧
        t.modules.isAccessible m.vis view = true := by
  unfold construct
  dsimp only
  rw [if_neg (by rwa [List.isEmpty_iff])]
  refine returns_types.bind fun types _ ⟨htypes, hs⟩ => ?_
  cases htypes
  cases hs
  rw [hm]
  refine Returns.bind (fun _ _ h => h) fun vs t hvs => ?_
  refine (Returns.require _ _).bind fun m _ ⟨hm, hs'⟩ => ?_
  cases hs'
  refine (returns_isAccessible _).bind fun visible _ ⟨hv, _⟩ => .check fun hvisible => ?_
  exact fun _ _ _ => ⟨_, vs, t, m, hvs, hm, hv ▸ hvisible⟩

theorem returns_castValue {v : Value} {target : Ty} {m : MemberFunction}
    (hm : s.types.convertor? v.type.value target = some m) :
    Returns o s (castValue view v target range) fun _ _ =>
      s.modules.isAccessible m.vis view = true := by
  refine returns_types.bind fun types _ ⟨htypes, hs⟩ => ?_
  cases htypes
  cases hs
  rw [hm]
  refine (returns_isAccessible _).bind fun visible _ ⟨hv, _⟩ => .check fun hvisible => ?_
  exact fun _ _ _ => hv ▸ hvisible

end Emit

/-! ## Compilations -/

variable {p : Program} {o : Options} {out : CompileOutput} {view : Viewpoint} {s : Compiler}
  {range : Span}

/-- In a compilation that succeeds, what an action needs for its success is given wherever the
compilation comes to it. -/
theorem compile_given (h : compile p o = .ok out) {α : Type} {a : Emit α} (hc : GetsTo p o a s)
    {P : Prop} (ha : Emit.Returns o s a fun _ _ => P) : P := by
  obtain ⟨-, -, -, hgiven⟩ := compile_returns h hc ha
  exact hgiven

/-- In a compilation that succeeds, members of structs are fields that are visible where they
are taken. -/
theorem compile_member_visible (h : compile p o = .ok out) {whole : Value} {name : Ident}
    (hc : GetsTo p o (Emit.lowerMember view whole name range) s) {id : Nat}
    (hstruct : whole.type.value = .struct id) :
    ∃ index f, (s.types.structs[id]?).bind (·.field? name.text) = some (index, f) ∧
      s.modules.isAccessible f.vis view = true :=
  compile_given h hc (Emit.returns_lowerMember_struct hstruct)

/-- In a compilation that succeeds, structs are built from values for fields that are visible
where they are built. -/
theorem compile_fieldOrder_visible (h : compile p o = .ok out) {ty : Ty}
    {names : Option (List Ident)} {count : Nat}
    (hc : GetsTo p o (Emit.fieldOrder view ty names count range) s) :
    ∃ d order, s.types.structOf? ty = some d ∧ d.fieldOrder ty names count range = .ok order ∧
      ∀ i ∈ order, ∀ f, d.fields[i]? = some f → s.modules.isAccessible f.vis view = true := by
  obtain ⟨order, -, -, -, d, hd, horder, hvisible⟩ :=
    compile_returns h hc (Emit.returns_fieldOrder ty names count)
  exact ⟨d, order, hd, horder, hvisible⟩

/-- In a compilation that succeeds, a method is called where it is visible. -/
theorem compile_method_visible (h : compile p o = .ok out) {base : Value} {name : Ident}
    {args : List Operand} {variation : Bool}
    (hc : GetsTo p o (Emit.lowerMethodCall view base name args variation range) s) :
    ∃ self ty t m, Emit.methodInstance base name.text range o s = .ok (self, ty) t ∧
      t.types.method? ty name.text = some m ∧ t.modules.isAccessible m.vis view = true :=
  compile_given h hc (Emit.returns_lowerMethodCall base name args variation)

/-- In a compilation that succeeds, a static function is called where it is visible. -/
theorem compile_static_visible (h : compile p o = .ok out) {ty : Ty} {name : Ident}
    {args : List Operand} {expect : Expect} {m : MemberFunction}
    (hc : GetsTo p o (Emit.lowerStaticCall view ty name args expect range) s)
    (hname : name.text ≠ "from")
    (hm : ((s.types.membersOf ty).find? fun m => m.kind == .static && m.name == name.text) =
      some m) : s.modules.isAccessible m.vis view = true :=
  compile_given h hc (Emit.returns_lowerStaticCall hname hm)

/-- In a compilation that succeeds, values of a type with a default constructor are made by
default only where it is visible. -/
theorem compile_default_visible (h : compile p o = .ok out) {ty : Ty} {expect : Expect}
    {m : MemberFunction} (hc : GetsTo p o (Emit.lowerDefault view ty expect range) s)
    (hm : s.types.member? ty .defaultConstructor = some m) :
    s.modules.isAccessible m.vis view = true :=
  compile_given h hc (Emit.returns_lowerDefault hm)

/-- In a compilation that succeeds, what is built from arguments by a member is built by the
first one that takes them all, and this one is visible. -/
theorem compile_constructor_visible (h : compile p o = .ok out) {type : Ty}
    {args : List Operand} {expect : Expect}
    (hc : GetsTo p o (Emit.construct view type args expect range) s) (hargs : args ≠ [])
    {first : MemberFunction} {others : List MemberFunction}
    (hm : Emit.constructors s.types type.value args.length = first :: others) :
    ∃ hints vs t m, Emit.lowerHinted args hints o s = .ok vs t ∧
      (first :: others).find? (Emit.acceptsAll · vs) = some m ∧
      t.modules.isAccessible m.vis view = true :=
  compile_given h hc (Emit.returns_construct hargs hm)

/-- In a compilation that succeeds, a cast for which a type has a convertor is made where this
is visible. -/
theorem compile_convertor_visible (h : compile p o = .ok out) {v : Value} {target : Ty}
    {m : MemberFunction} (hc : GetsTo p o (Emit.castValue view v target range) s)
    (hm : s.types.convertor? v.type.value target = some m) :
    s.modules.isAccessible m.vis view = true :=
  compile_given h hc (Emit.returns_castValue hm)

end Staged
