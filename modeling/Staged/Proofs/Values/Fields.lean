/-
  Staged.Proofs.Values.Fields — which field each value of an initializer is for.

  A plain initializer lists values for the fields of a struct, in their order or with their
  names. The order that is found for the values holds every field exactly once
  (`StructDef.fieldOrder_assigns`): names are of fields, no name is given twice, and no field is
  left out. Fields of one name would not pass that, so nothing is said of structs.

  Names and values are two lists of the syntax, and only values without names are counted.
  Values go to the fields of the order as long as there are both. Where an initializer is
  evaluated, each field must have got one in the end (`Emit.returns_evaluate_plain`). Where it
  is lowered, nothing looks, and the fields without values are left as they are in memory. So
  every field has its value, and every value its field, where there are as many values as names
  (`Emit.returns_lowerPlain_every`). The code that stores them is one store for each field, behind
  the address of the field and what loads the value (`Emit.StoresFields`).
-/

import Staged.Proofs.Compile.Visible
import Staged.Proofs.Strings.Blocks

namespace Staged

open Ir (Instr Register)

/-- Whether an instruction reads memory and does nothing else. -/
def Ir.Instr.isLoad : Instr → Bool
  | load .. => true
  | _ => false

/-! ## The order of fields -/

namespace StructDef

variable {d : StructDef} {ty : Ty} {names before : List Ident} {name : Ident} {order : List Nat}
  {i : Nat} {range : Span}

/-- A name is that of the field at a position. -/
def Denotes (d : StructDef) (name : Ident) (i : Nat) : Prop :=
  ∃ f, d.fields[i]? = some f ∧ f.name.text = name.text

theorem denotes_of_field? {f : FieldDef} (h : d.field? name.text = some (i, f)) :
    d.Denotes name i := by
  obtain ⟨⟨f', i'⟩, hfind, heq⟩ := Option.map_eq_some_iff.mp h
  cases heq
  have hname : (f.name.text == name.text) = true :=
    List.find?_some (p := fun x : FieldDef × Nat => x.1.name.text == name.text) hfind
  exact ⟨f, List.mem_zipIdx_iff_getElem?.mp (List.mem_of_find?_eq_some hfind), beq_iff_eq.mp hname⟩

theorem Denotes.lt (h : d.Denotes name i) : i < d.fields.length := by
  obtain ⟨f, hf, -⟩ := h
  exact (List.getElem?_eq_some_iff.mp hf).1

/-- A field has one name. -/
theorem Denotes.text_eq {name' : Ident} (h : d.Denotes name i) (h' : d.Denotes name' i) :
    name.text = name'.text := by
  obtain ⟨f, hf, hname⟩ := h
  obtain ⟨f', hf', hname'⟩ := h'
  cases hf.symm.trans hf'
  exact hname.symm.trans hname'

/-- An order gives each name its field, and no name is one that came before. -/
theorem namedOrder_ok (h : d.namedOrder ty before names = .ok order) :
    List.Forall₂ d.Denotes names order ∧
      (∀ n ∈ names, ∀ b ∈ before, b.text ≠ n.text) ∧ (names.map Ident.text).Nodup := by
  -- each name joins those that the later ones are compared with
  induction names generalizing before order with
  | nil =>
    cases h
    exact ⟨.nil, nofun, .nil⟩
  | cons name names ih =>
    unfold namedOrder at h
    split at h
    · cases h
    · rename_i i f hfield
      split at h
      · cases h
      · rename_i hfirst
        cases hrest : d.namedOrder ty (before ++ [name]) names with
        | error e =>
          rw [hrest] at h
          cases h
        | ok rest =>
          rw [hrest] at h
          cases h
          obtain ⟨hdenote, hbefore, hnodup⟩ := ih hrest
          refine ⟨.cons (denotes_of_field? hfield) hdenote, fun n hn b hb => ?_, ?_⟩
          · rcases List.mem_cons.mp hn with rfl | hn
            · intro heq
              exact List.find?_eq_none.mp hfirst b hb (beq_iff_eq.mpr heq)
            · exact hbefore n hn b (List.mem_append_left _ hb)
          · rw [List.map_cons, List.nodup_cons]
            refine ⟨fun hmem => ?_, hnodup⟩
            obtain ⟨n, hn, heq⟩ := List.mem_map.mp hmem
            exact hbefore n hn name (List.mem_append_right _ (List.mem_singleton.mpr rfl)) heq.symm

/-- Different names are of different fields. -/
theorem nodup_of_denotes (h : List.Forall₂ d.Denotes names order)
    (hnames : (names.map Ident.text).Nodup) : order.Nodup := by
  induction h with
  | nil => exact .nil
  | @cons name i names order hname hrest ih =>
    obtain ⟨hnew, hnames⟩ := List.nodup_cons.mp hnames
    refine List.nodup_cons.mpr ⟨fun hi => hnew ?_, ih hnames⟩
    obtain ⟨k, hk, rfl⟩ := List.getElem_of_mem hi
    have hk' : k < names.length := hrest.length_eq ▸ hk
    have hsame : d.Denotes names[k] order[k] := hrest.get hk' hk
    exact List.mem_map.mpr ⟨names[k], List.getElem_mem hk', hsame.text_eq hname⟩

/-- The fields that the values of an initializer are for, in the order of the values: every
field of the struct stands there once, where its name is given if names are, and in its place
otherwise. -/
structure Assigns (d : StructDef) (names : Option (List Ident)) (order : List Nat) : Prop where
  every : order.Perm (List.range d.fields.length)
  named : ∀ ns, names = some ns → List.Forall₂ d.Denotes ns order
  positional : names = none → order = List.range d.fields.length

theorem Assigns.length {given : Option (List Ident)} (h : d.Assigns given order) :
    order.length = d.fields.length := by
  rw [h.every.length_eq, List.length_range]

theorem Assigns.nodup {given : Option (List Ident)} (h : d.Assigns given order) : order.Nodup :=
  h.every.nodup_iff.mpr List.nodup_range

theorem Assigns.lt {given : Option (List Ident)} (h : d.Assigns given order) (hi : i ∈ order) :
    i < d.fields.length :=
  List.mem_range.mp (h.every.mem_iff.mp hi)

/-- What is accepted gives every field one value; without names, there are as many values as
fields. -/
theorem fieldOrder_assigns {given : Option (List Ident)} {count : Nat}
    (h : d.fieldOrder ty given count range = .ok order) :
    d.Assigns given order ∧ (given = none → count = order.length) := by
  cases given with
  | none =>
    simp only [fieldOrder] at h
    split at h
    · cases h
    · rename_i hcount
      cases h
      have heq : count = d.fields.length := not_not.mp hcount
      subst heq
      exact ⟨⟨.refl _, nofun, fun _ => rfl⟩, fun _ => List.length_range.symm⟩
  | some names =>
    simp only [fieldOrder] at h
    cases horder : d.namedOrder ty [] names with
    | error e =>
      rw [horder] at h
      cases h
    | ok order' =>
      rw [horder] at h
      simp only [bind, Except.bind] at h
      split at h
      · cases h
      · rename_i hmissing
        cases h
        obtain ⟨hdenotes, -, hnames⟩ := namedOrder_ok horder
        -- names are of fields, and no field is missing
        have hevery : order.Perm (List.range d.fields.length) := by
          refine (List.perm_ext_iff_of_nodup (nodup_of_denotes hdenotes hnames)
            List.nodup_range).mpr fun i => ?_
          rw [List.mem_range]
          constructor
          · intro hi
            obtain ⟨k, hk, rfl⟩ := List.getElem_of_mem hi
            exact (hdenotes.get (hdenotes.length_eq ▸ hk) hk : d.Denotes _ order[k]).lt
          · intro hi
            have hin := List.find?_eq_none.mp hmissing (d.fields[i], i)
              (List.mem_zipIdx_iff_getElem?.mpr (List.getElem?_eq_getElem hi))
            simpa using hin
        refine ⟨⟨hevery, ?_, nofun⟩, nofun⟩
        rintro ns ⟨⟩
        exact hdenotes

/-- The names of two fields, and one value: the order is accepted, and it is longer. -/
example :
    let range : Span := ⟨0, 0, 0⟩
    let field (name : String) : FieldDef := ⟨⟨name, range⟩, .int 32, true, .pub⟩
    let pair : StructDef := ⟨⟨"Pair", range⟩, "app::Pair", 0, .pub, some [field "x", field "y"], []⟩
    pair.fieldOrder (.struct 0) (some [⟨"y", range⟩, ⟨"x", range⟩]) 1 range = .ok [1, 0] := by
  rfl

end StructDef

namespace Emit

/-! ## Values of fields -/

/-- The fields of a struct are put together from values if each of them has one. -/
theorem placed_ok {n : Nat} {given : List (Nat × Data)} {items : List Data}
    (h : placed n given = some items) :
    items.length = n ∧ (∀ i < n, i ∈ given.map Prod.fst) ∧
      ((given.map Prod.fst).Nodup → ∀ x ∈ given, x.1 < n → items[x.1]? = some x.2) := by
  have hall := mapM_eq_some_iff.mp h
  have hlength : items.length = n := by rw [← hall.length_eq, List.length_range]
  have hlookup (i : Nat) (hi : i < n) : given.lookup i = items[i]? := by
    have hget := hall.get (i := i) (by rwa [List.length_range]) (hlength ▸ hi)
    rw [List.get_eq_getElem, List.get_eq_getElem, List.getElem_range] at hget
    rw [hget, List.getElem?_eq_getElem]
  refine ⟨hlength, fun i hi => ?_, fun hnodup x hx hlt => ?_⟩
  · have hi' : i < items.length := hlength ▸ hi
    have hsome : given.lookup i = some items[i] := by
      rw [hlookup i hi, List.getElem?_eq_getElem]
    exact List.mem_map.mpr ⟨_, mem_of_lookup hsome, rfl⟩
  · rw [← hlookup x.1 hlt, lookup_of_mem hnodup hx]

section

variable {o : Options} {s t : Compiler} {call : Caller} {view : Viewpoint} {range : Span}

/-- Values are evaluated each for its field, as long as there are fields and values. -/
theorem returns_evaluateFieldsWith (fieldTypes : List Ty) : ∀ (es : List Expr) (order : List Nat),
    ∀ s, Returns o s (evaluateFieldsWith call view range es fieldTypes order)
      fun given _ => given.map Prod.fst = order.take es.length
  | [], order, s => by
    unfold evaluateFieldsWith
    exact .pure (by simp)
  | e :: es, [], s => by
    unfold evaluateFieldsWith
    exact .pure rfl
  | e :: es, i :: order, s => by
    unfold evaluateFieldsWith
    refine .step fun v s₁ => .guard fun _ => ?_
    refine (returns_evaluateFieldsWith fieldTypes es order s₁).bind fun given _ hgiven => .pure ?_
    rw [List.map_cons, hgiven]
    rfl

/-- A struct that is evaluated from an initializer has an item for each field, which is the value
that is given for the field. Every field has one, and there are at least as many values. -/
theorem returns_evaluate_plain (type : TypeExpr) (names : Option (List Ident))
    (values : List Expr) (expected : Option Ty) :
    Returns o s (evaluateWith call view (.plain range type names values) expected) fun c t =>
      ∃ s₁ d order given items, resolveTypeWith call view type o s = .ok c.type s₁ ∧
        s₁.types.structOf? c.type = some d ∧ d.Assigns names order ∧
        order.length ≤ values.length ∧
        evaluateFieldsWith call view range values d.fieldTypes order o s₁ = .ok given t ∧
        given.map Prod.fst = order ∧ c.data = .struct items ∧
        items.length = d.fields.length ∧ ∀ x ∈ given, items[x.1]? = some x.2 := by
  unfold evaluateWith
  refine Returns.bind (Q := fun ty s₁ => resolveTypeWith call view type o s = .ok ty s₁)
    (fun _ _ hr => hr) fun ty s₁ hty => ?_
  refine returns_types.bind fun _ _ ⟨_, hs⟩ => .check fun _ => ?_
  cases hs.symm
  refine (returns_fieldOrder ty names values.length).bind
    fun order _ ⟨hs, d, hd, horder, _⟩ => ?_
  cases hs.symm
  refine returns_types.bind fun _ _ ⟨ht, hs⟩ => ?_
  cases ht.symm
  cases hs.symm
  obtain ⟨hassigns, -⟩ := StructDef.fieldOrder_assigns horder
  rw [hd]
  refine Returns.bind (Q := fun given t =>
    evaluateFieldsWith call view range values d.fieldTypes order o s₁ = .ok given t)
    (fun _ _ hr => hr) fun given t hgiven => ?_
  refine (Returns.require _ _).bind fun items _ ⟨hplaced, ht⟩ => .pure ?_
  cases ht.symm
  have hkeys := returns_evaluateFieldsWith d.fieldTypes values order s₁ given t hgiven
  obtain ⟨hlength, hevery, hitems⟩ := placed_ok hplaced
  have hfields : d.fieldTypes.length = d.fields.length := List.length_map _
  have hlt (i : Nat) (hi : i ∈ given.map Prod.fst) : i < d.fields.length := by
    rw [hkeys] at hi
    exact hassigns.lt (List.mem_of_mem_take hi)
  -- values went to a part of the order only, and still no field is without an item
  have hle : order.length ≤ values.length := by
    have hsub : List.range d.fields.length ⊆ order.take values.length := fun i hi =>
      hkeys ▸ hevery i (hfields ▸ List.mem_range.mp hi)
    have := (List.nodup_range.subperm hsub).length_le
    rw [List.length_range, List.length_take, ← hassigns.length] at this
    omega
  rw [List.take_of_length_le hle] at hkeys
  refine ⟨s₁, d, order, given, items, hty, hd, hassigns, hle, hgiven, hkeys, rfl,
    hlength.trans hfields, fun x hx => ?_⟩
  refine hitems (hkeys ▸ hassigns.nodup) x hx (hfields ▸ hlt x.1 (List.mem_map_of_mem hx))

end

/-! ## Code in line -/

section

variable {α β : Type} {a : Emit α} {k : α → Emit β} {P P' : α → List Instr → Prop}
  {R : β → List Instr → Prop} {range : Span}

/-- All that an action does to the function under construction is to write code at the end of
the current block. -/
def Appends (a : Emit α) (P : α → List Instr → Prop) : Prop :=
  ∀ o s v t f, s.func = some f → a o s = .ok v t →
    ∃ n code, t.func = some (f.write n code) ∧ P v code

theorem Appends.bind {Q : α → β → List Instr → Prop} (ha : Appends a P)
    (hk : ∀ v, Appends (k v) (Q v))
    (h : ∀ v first w rest, P v first → Q v w rest → R w (first ++ rest)) : Appends (a >>= k) R := by
  intro o s w t f hf hr
  obtain ⟨v, s₁, hv, hr⟩ := bind_ok hr
  obtain ⟨n, first, hfunc, hp⟩ := ha o s v s₁ f hf hv
  obtain ⟨m, rest, hfunc', hq⟩ := hk v o s₁ w t _ hfunc hr
  exact ⟨n + m, first ++ rest, by rw [hfunc', FunctionState.write_write], h v first w rest hp hq⟩

theorem Appends.mono (ha : Appends a P) (h : ∀ v code, P v code → P' v code) : Appends a P' := by
  intro o s v t f hf hr
  obtain ⟨n, code, hfunc, hp⟩ := ha o s v t f hf hr
  exact ⟨n, code, hfunc, h v code hp⟩

/-- No code. -/
theorem write_nil (f : FunctionState) : f.write 0 [] = f := by
  have hblocks : f.function.blocks.modify f.current (·.append []) = f.function.blocks := by
    refine Array.ext_getElem? fun i => ?_
    rw [Array.getElem?_modify]
    split
    · cases f.function.blocks[i]? <;> simp [Ir.Block.append]
    · rfl
  unfold FunctionState.write Ir.Function.modifyBlock
  rw [hblocks]
  rfl

/-- Code behind a new register. -/
theorem write_register (f : FunctionState) (type : Ty) (n : Nat) (code : List Instr) :
    FunctionState.write { f with function := (f.function.newRegister type).1 } n code =
      f.write (1 + n) code := by
  unfold FunctionState.write
  simp only [Ir.Function.newRegister, Nat.add_assoc]
  rfl

/-- An action that leaves the function under construction alone. -/
theorem appends_nothing (h : ∀ o s v t, a o s = .ok v t → t.func = s.func ∧ P v []) :
    Appends a P := by
  intro o s v t f hf hr
  obtain ⟨hfunc, hp⟩ := h o s v t hr
  exact ⟨0, [], by rw [hfunc, hf, write_nil], hp⟩

theorem appends_pure {v : α} (h : P v []) : Appends (pure v) P := by
  refine appends_nothing fun o s w t hr => ?_
  cases hr
  exact ⟨rfl, h⟩

theorem appends_refuse (fault : Fault) (range : Span) : Appends (refuse fault range) P :=
  appends_nothing fun _ _ _ _ hr => by cases hr

theorem appends_push (i : Instr) : Appends (push i) fun _ code => code = [i] := by
  intro o s v t f hf hr
  refine ⟨0, [i], ?_, rfl⟩
  rw [modifyCurrent_ok hf hr]
  show some (f.modifyBlock f.current (·.push i)) = some (f.write 0 [i])
  unfold FunctionState.write Ir.Block.append
  simp only [← Array.push_eq_append]
  rfl

theorem appends_compute (type : Ty) (instr : Register → Instr) :
    Appends (compute type instr) fun r code => code = [instr r] := by
  intro o s r t f hf hr
  obtain ⟨r', s₁, hfresh, hr⟩ := bind_ok hr
  rw [fresh_apply type hf] at hfresh
  cases hfresh
  obtain ⟨_, s₂, hpush, hr⟩ := bind_ok hr
  cases hr
  obtain ⟨n, code, hfunc, rfl⟩ := appends_push _ o _ _ _ _ rfl hpush
  exact ⟨1 + n, _, hfunc.trans (congrArg some (write_register f type n _)), rfl⟩

theorem appends_intern (ty : Ty) : Appends (intern ty) fun _ code => code = [] :=
  appends_nothing fun _ _ _ _ hr => by
    cases hr
    exact ⟨rfl, rfl⟩

theorem appends_fieldPtr (base : Ir.Value) (aggregate : Ty) (index : Nat) (member : Ty) :
    Appends (fieldPtr base aggregate index member)
      fun r code => code = [.fieldPtr r base aggregate index] :=
  (appends_intern _).bind (fun ty => appends_compute ty _) fun _ _ _ _ hfirst hrest => by
    rw [hfirst, hrest]
    rfl

theorem appends_store (value ptr : Ir.Value) :
    Appends (store value ptr) fun _ code => code = [.store value ptr] := appends_push _

/-! ## Values that are handed on -/

def OnlyLoads (a : Emit α) : Prop := Appends a fun _ code => ∀ i ∈ code, i.isLoad = true

theorem OnlyLoads.bind (ha : OnlyLoads a) (hk : ∀ v, OnlyLoads (k v)) : OnlyLoads (a >>= k) :=
  Appends.bind ha hk fun _ _ _ _ hfirst hrest i hi =>
    (List.mem_append.mp hi).elim (hfirst i) (hrest i)

theorem onlyLoads_pure (v : α) : OnlyLoads (pure v : Emit α) := appends_pure nofun

theorem onlyLoads_refuse (fault : Fault) : OnlyLoads (refuse fault range : Emit α) :=
  appends_refuse fault range

theorem onlyLoads_guard {c : Prop} [Decidable c] {fault : Fault} {rest : Emit β}
    {k : α → Emit β} (h : OnlyLoads rest) :
    OnlyLoads (if c then refuse fault range >>= k else rest) := by
  split
  · intro o s v t f _ hr
    cases hr
  · exact h

theorem onlyLoads_require (value : Option α) (fault : Fault) (range : Span) :
    OnlyLoads (require value fault range) := by
  cases value with
  | none => exact onlyLoads_refuse fault
  | some v => exact onlyLoads_pure v

theorem onlyLoads_load (ptr : Ir.Value) (type : Ty) : OnlyLoads (load ptr type) :=
  (appends_compute type _).mono fun r code hcode i hi => by
    rw [hcode] at hi
    cases List.mem_singleton.mp hi
    rfl

theorem onlyLoads_types : OnlyLoads types :=
  appends_nothing fun _ _ _ _ hr => by
    cases hr
    exact ⟨rfl, nofun⟩

theorem onlyLoads_constant (c : Constant) (range : Span) : OnlyLoads (constant c range) :=
  appends_nothing fun _ _ _ _ hr => by
    cases hr
    exact ⟨rfl, nofun⟩

theorem onlyLoads_referenceAddress (v : Value) : OnlyLoads (referenceAddress v) := by
  unfold referenceAddress
  split
  · exact onlyLoads_pure _
  · exact (onlyLoads_load _ _).bind fun _ => onlyLoads_pure _

theorem onlyLoads_rvalue (v : Value) : OnlyLoads (rvalue v) := by
  unfold rvalue
  split
  · exact (onlyLoads_referenceAddress v).bind fun _ =>
      (onlyLoads_load _ _).bind fun _ => onlyLoads_pure _
  · split
    · exact onlyLoads_pure _
    · split
      · exact onlyLoads_constant _ _
      · exact (onlyLoads_load _ _).bind fun _ => onlyLoads_pure _

theorem onlyLoads_place? (v : Value) : OnlyLoads (place? v) := by
  unfold place?
  split
  · exact (onlyLoads_referenceAddress v).bind fun _ => onlyLoads_pure _
  · exact onlyLoads_pure _

theorem onlyLoads_passValue (v : Value) (target : Ty) (range : Span) :
    OnlyLoads (passValue v target range) := by
  unfold passValue
  split
  · exact onlyLoads_guard (onlyLoads_guard ((onlyLoads_referenceAddress v).bind fun _ =>
      onlyLoads_pure _))
  · exact onlyLoads_guard ((onlyLoads_place? v).bind fun p => (onlyLoads_require p _ _).bind
      fun _ => onlyLoads_guard (onlyLoads_pure _))
  · refine onlyLoads_guard ?_
    split
    · exact onlyLoads_pure _
    · refine onlyLoads_types.bind fun _ => ?_
      split
      · exact (onlyLoads_rvalue v).bind fun _ => onlyLoads_pure _
      · exact onlyLoads_refuse _

/-! ## Stores to fields -/

inductive StoresFields (slot : Ir.Value) (type : Ty) : List Nat → List Instr → Prop
  | nil : StoresFields slot type [] []
  | cons {i : Nat} {order : List Nat} {loads code : List Instr} (value : Ir.Value)
      (ptr : Register) : (∀ x ∈ loads, x.isLoad = true) → StoresFields slot type order code →
      StoresFields slot type (i :: order)
        (loads ++ .fieldPtr ptr slot type i :: .store value ptr :: code)

theorem appends_storeFields (slot : Ir.Value) (type : Ty) :
    ∀ fields : List (Nat × Ty × Value), Appends (storeFields slot type fields)
      fun _ code => StoresFields slot type (fields.map Prod.fst) code
  | [] => appends_pure .nil
  | (i, ty, v) :: rest => by
    unfold storeFields
    refine Appends.bind (onlyLoads_passValue v ty v.range)
      (Q := fun operand _ code => ∃ ptr tail,
        code = .fieldPtr ptr slot type i :: .store operand ptr :: tail ∧
          StoresFields slot type (rest.map Prod.fst) tail) (fun operand => ?_) ?_
    · refine (appends_fieldPtr slot type i ty).bind (Q := fun ptr _ code => ∃ tail,
        code = .store operand ptr :: tail ∧ StoresFields slot type (rest.map Prod.fst) tail)
        (fun ptr => ?_) ?_
      · refine (appends_store operand ptr).bind
          (fun _ => appends_storeFields slot type rest) fun _ _ _ tail hstore htail => ?_
        exact ⟨tail, by rw [hstore]; rfl, htail⟩
      · rintro ptr _ _ _ rfl ⟨tail, rfl, htail⟩
        exact ⟨ptr, tail, rfl, htail⟩
    · rintro operand loads _ _ hloads ⟨ptr, tail, rfl, htail⟩
      exact .cons operand ptr hloads htail

end

section

variable {o : Options} {view : Viewpoint} {range : Span}

/-- Values are lowered each for its field, as long as there are fields and values. -/
theorem returns_lowerFields (fieldTypes : List Ty) : ∀ (values : List Operand) (order : List Nat),
    ∀ s, Returns o s (lowerFields fieldTypes values order)
      fun fields _ => fields.map Prod.fst = order.take values.length
  | [], order, s => by
    unfold lowerFields
    exact .pure (by simp)
  | v :: values, [], s => by
    unfold lowerFields
    exact .pure rfl
  | v :: values, i :: order, s => by
    unfold lowerFields
    refine .step fun value s₁ => .guard fun _ => ?_
    refine (returns_lowerFields fieldTypes values order s₁).bind fun fields _ hfields => .pure ?_
    rw [List.map_cons, hfields]
    rfl

/-- What is known of a struct whose values are all known. -/
theorem knownFields?_ok {n : Nat} {fields : List (Nat × Ty × Value)} {items : List Data}
    (h : knownFields? n fields = some items) :
    items.length = n ∧ (∀ i < n, i ∈ fields.map Prod.fst) ∧
      ((fields.map Prod.fst).Nodup → ∀ x ∈ fields, x.1 < n →
        items[x.1]? = x.2.2.fixed?.map Constant.data) := by
  obtain ⟨known, hknown, hplaced⟩ := Option.bind_eq_some_iff.mp h
  have hall := mapM_eq_some_iff.mp hknown
  have hkeys : known.map Prod.fst = fields.map Prod.fst := by
    clear hknown hplaced h
    induction hall with
    | nil => rfl
    | cons hx _ ih =>
      obtain ⟨c, -, rfl⟩ := Option.map_eq_some_iff.mp hx
      rw [List.map_cons, List.map_cons, ih]
  obtain ⟨hlength, hevery, hitems⟩ := placed_ok hplaced
  rw [hkeys] at hevery hitems
  refine ⟨hlength, hevery, fun hnodup x hx hlt => ?_⟩
  obtain ⟨_, hmem, hx⟩ := exists_mem_of_mapM hknown hx
  obtain ⟨c, hc, rfl⟩ := Option.map_eq_some_iff.mp hx
  rw [hitems hnodup _ hmem hlt, hc]
  rfl

theorem returns_constant_known (c : Constant) (s : Compiler) :
    Returns o s (constant c range) fun v _ => v.known = some c := by
  intro v t hr
  cases hr
  rfl

/-- What a struct comes to whose fields are given values: it is a constant with an item for each
field, or the value of each field is stored in its memory. -/
inductive Initializes (o : Options) (type : Ty) (count : Nat) (fields : List (Nat × Ty × Value))
    (v : Value) (t : Compiler) : Prop
  | known (items : List Data) : v.known = some ⟨.struct items, type⟩ → items.length = count →
    (∀ i < count, i ∈ fields.map Prod.fst) →
    (∀ x ∈ fields, items[x.1]? = x.2.2.fixed?.map Constant.data) →
    Initializes o type count fields v t
  | stored (u : Compiler) : storeFields v.ir type fields o u = .ok () t →
    (∀ f, u.func = some f → ∃ n code, t.func = some (f.write n code) ∧
      StoresFields v.ir type (fields.map Prod.fst) code) → Initializes o type count fields v t

/-- An initializer gives values to the fields in its order, as long as there are values. -/
theorem returns_lowerPlain (type : Ty) (names : Option (List Ident)) (values : List Operand)
    (expect : Expect) (s : Compiler) :
    Returns o s (lowerPlain view type names values expect range) fun v t =>
      ∃ d order fields s₁, s.types.structOf? type.value = some d ∧ d.Assigns names order ∧
        (names = none → values.length = order.length) ∧
        lowerFields d.fieldTypes values order o s = .ok fields s₁ ∧
        fields.map Prod.fst = order.take values.length ∧
        Initializes o type.value d.fields.length fields v t := by
  unfold lowerPlain
  dsimp only
  refine (returns_fieldOrder type.value names values.length).bind
    fun order _ ⟨hs, d, hd, horder, _⟩ => ?_
  cases hs.symm
  refine returns_types.bind fun _ _ ⟨ht, hs⟩ => ?_
  cases ht.symm
  cases hs.symm
  obtain ⟨hassigns, hcount⟩ := StructDef.fieldOrder_assigns horder
  rw [hd]
  refine Returns.bind
    (Q := fun fields t => lowerFields d.fieldTypes values order o s = .ok fields t)
    (fun _ _ hr => hr) fun fields s₁ hfields => ?_
  have hkeys := returns_lowerFields d.fieldTypes values order s fields s₁ hfields
  refine .step fun types u => ?_
  refine Returns.mono (Q := fun v t => Initializes o type.value d.fields.length fields v t) ?_
    fun v t h => ⟨d, order, fields, s₁, rfl, hassigns, hcount, hfields, hkeys, h⟩
  split
  · rename_i items hknown
    split at hknown
    · obtain ⟨hlength, hevery, hitems⟩ := knownFields?_ok hknown
      have hcounts : d.fieldTypes.length = d.fields.length := List.length_map _
      have hnodup : (fields.map Prod.fst).Nodup :=
        hkeys ▸ hassigns.nodup.sublist (List.take_sublist _ _)
      refine (returns_constant_known _ u).mono fun v t hv => .known items hv (hlength.trans hcounts)
        (fun i hi => hevery i (hcounts ▸ hi)) fun x hx => hitems hnodup x hx ?_
      have hmem : x.1 ∈ order.take values.length := hkeys ▸ List.mem_map_of_mem hx
      exact hcounts ▸ hassigns.lt (List.mem_of_mem_take hmem)
    · cases hknown
  · refine .step fun slot u' => ?_
    refine Returns.bind (Q := fun _ t => storeFields slot.ir type.value fields o u' = .ok () t)
      (fun _ _ hr => hr) fun _ t hstore => .pure (.stored u' hstore fun f hf => ?_)
    exact appends_storeFields slot.ir type.value fields o u' () t f hf hstore

/-- Where there is a value for each name, an initializer gives each field of the struct exactly one
value, and each value to a field. -/
theorem returns_lowerPlain_every (type : Ty) {names : Option (List Ident)} {values : List Operand}
    (expect : Expect) (s : Compiler) (hcount : ∀ ns, names = some ns → values.length = ns.length) :
    Returns o s (lowerPlain view type names values expect range) fun v t =>
      ∃ d order fields s₁, s.types.structOf? type.value = some d ∧ d.Assigns names order ∧
        order.length = values.length ∧
        lowerFields d.fieldTypes values order o s = .ok fields s₁ ∧
        fields.map Prod.fst = order ∧ Initializes o type.value d.fields.length fields v t := by
  refine (returns_lowerPlain type names values expect s).mono ?_
  rintro v t ⟨d, order, fields, s₁, hd, hassigns, hpositional, hfields, hkeys, hinit⟩
  have hlength : order.length = values.length := by
    cases names with
    | none => exact (hpositional rfl).symm
    | some ns => rw [hcount ns rfl, (hassigns.named ns rfl).length_eq]
  rw [← hlength, List.take_length] at hkeys
  exact ⟨d, order, fields, s₁, hd, hassigns, hlength, hfields, hkeys, hinit⟩

end

end Emit

end Staged
