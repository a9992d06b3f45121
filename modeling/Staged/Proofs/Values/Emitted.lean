/-
  Staged.Proofs.Values.Emitted — a constant of emitted code tells which value it is.

  In code, a string is its number in the string table, a character is a number, a variant of a
  mix is a number before its payload, and an empty maybe has zero where another one has what it
  holds. A type of values in code contains, by value, no types and no void
  (`TypeTable.Emittable`). For values of the form of such a type (`Data.Shaped`), emitting writes
  a constant that stands for the value (`Ir.Const.Stands`, `Data.settles_emitted`). Under one
  string table a value has one constant, a constant of a type stands for one value, and nothing
  in it is undefined (`Stands.const_unique`, `Stands.data_unique`, `Stands.isDefined`).

  The string table only grows, at its end, and a string keeps its number (`Numbers.append`). So
  two constants that are emitted at different times can be compared in the later table.

  Main statement: `Constant.emitted_eq_iff`.
-/

import Staged.Proofs.Layouts.Evolve
import Staged.Proofs.Values.Shape

namespace Staged

/-! ## Types of values in code -/

def TypeTable.Emittable (t : TypeTable) (ty : Ty) : Prop :=
  ∀ part, Relation.ReflTransGen t.Contains ty part → part ≠ .void ∧ ∀ sub, part ≠ .typed sub

theorem TypeTable.Emittable.part {t : TypeTable} {whole part : Ty} (h : t.Emittable whole)
    (hc : t.Contains whole part) : t.Emittable part :=
  fun _ hpath => h _ (.head hc hpath)

theorem TypeTable.Emittable.of_parts {t : TypeTable} {ty : Ty} (hvoid : ty ≠ .void)
    (htyped : ∀ sub, ty ≠ .typed sub) (h : ∀ part, t.Contains ty part → t.Emittable part) :
    t.Emittable ty := by
  intro part hpath
  rcases hpath.cases_head with rfl | ⟨next, hc, hpath⟩
  · exact ⟨hvoid, htyped⟩
  · exact h next hc part hpath

/-- A value of the form that the values of a type have: an array as long as its type says, an
item for every member, a variant that there is, with a payload exactly if one is declared. -/
inductive Data.Shaped (t : TypeTable) : Data → Ty → Prop
  | int {v : Int} {ty : Ty} (h : t.isIntegral ty = true) : Shaped t (.int v) ty
  | choice {v : Int} {id : Nat} {d : ChoiceDef} (hd : t.choices[id]? = some d) :
    Shaped t (.int v) (.choice id)
  | float {x : Binary64} {ty : Ty} (h : (t.floatKind? ty).isSome = true) : Shaped t (.float x) ty
  | bool (b : Bool) : Shaped t (.bool b) .bool
  | char (c : Char) : Shaped t (.char c) .char
  | str {s : String} {ty : Ty} (h : ty = .str ∨ ty.isCString = true) : Shaped t (.str s) ty
  | null {ty : Ty} (h : ty.isMark = true ∨ ty.isCString = true) : Shaped t .null ty
  | void : Shaped t .void .void
  | type (ty : Ty) : Shaped t (.type ty) (.typed ty)
  | array {items : List Data} {element : Ty} (h : ∀ d ∈ items, Shaped t d element) :
    Shaped t (.array items) (.array element items.length)
  | vector {items : List Data} {element : Ty} {scalable : Bool}
    (h : ∀ d ∈ items, Shaped t d element) :
    Shaped t (.array items) (.vector element items.length scalable)
  | tuple {items : List Data} {members : List Ty} {packed : Bool}
    (h : List.Forall₂ (Shaped t) items members) : Shaped t (.tuple items) (.tuple members packed)
  | struct {items : List Data} {id : Nat} {d : StructDef} (hd : t.structs[id]? = some d)
    (h : List.Forall₂ (Shaped t) items d.fieldTypes) : Shaped t (.struct items) (.struct id)
  | bare {variant id : Nat} {d : MixDef} {v : MixVariant} (hd : t.mixes[id]? = some d)
    (hv : d.variants[variant]? = some v) (hp : v.payload = none) :
    Shaped t (.mix variant none) (.mix id)
  | carrier {variant id : Nat} {d : MixDef} {v : MixVariant} {payload : Data} {ty : Ty}
    (hd : t.mixes[id]? = some d) (hv : d.variants[variant]? = some v) (hp : v.payload = some ty)
    (h : Shaped t payload ty) : Shaped t (.mix variant (some payload)) (.mix id)
  | empty (sub : Ty) : Shaped t (.maybe none) (.maybe sub)
  | holder {inner : Data} {sub : Ty} (h : Shaped t inner sub) :
    Shaped t (.maybe (some inner)) (.maybe sub)

namespace Data

variable {t : TypeTable}

mutual

/-- What looks like a value of a type has the form of one. -/
theorem shaped_of_fits : ∀ (d : Data) (ty : Ty), d.fits t ty = true → d.Shaped t ty
  | int v, ty, h => by
    rcases fits_int.mp h with hint | ⟨d, hd, -⟩
    · exact .int hint
    · cases ty with
      | choice id => exact .choice hd
      | _ => cases hd
  | float _, _, h => .float h
  | bool b, ty, h => by
    cases beq_iff_eq.mp (h : (ty == .bool) = true)
    exact .bool b
  | char c, ty, h => by
    cases beq_iff_eq.mp (h : (ty == .char) = true)
    exact .char c
  | str _, ty, h => .str (.inl (beq_iff_eq.mp (h : (ty == .str) = true)))
  | null, _, h => .null (.inl h)
  | void, ty, h => by
    cases beq_iff_eq.mp (h : (ty == .void) = true)
    exact .void
  | type a, ty, h => by
    cases beq_iff_eq.mp (h : (ty == .typed a) = true)
    exact .type a
  | array items, ty, h => by
    obtain ⟨element, rfl, hitems⟩ := fits_array.mp h
    exact .array (shaped_of_fitsAll items element hitems)
  | tuple items, ty, h => by
    obtain ⟨members, packed, rfl, hitems⟩ := fits_tuple.mp h
    exact .tuple (shaped_of_fitsEach items members hitems)
  | struct items, ty, h => by
    obtain ⟨d, hd, hitems⟩ := fits_struct.mp h
    cases ty with
    | struct id => exact .struct hd (shaped_of_fitsEach items d.fieldTypes hitems)
    | _ => cases hd
  | mix variant none, ty, h => by
    obtain ⟨d, v, hd, hv, hp⟩ := fits_mix.mp h
    cases ty with
    | mix id =>
      cases hpayload : v.payload with
      | none => exact .bare hd hv hpayload
      | some ty =>
        rw [hpayload] at hp
        cases hp
    | _ => cases hd
  | mix variant (some payload), ty, h => by
    obtain ⟨d, v, hd, hv, hp⟩ := fits_mix.mp h
    cases ty with
    | mix id =>
      cases hpayload : v.payload with
      | none =>
        rw [hpayload] at hp
        cases hp
      | some ty =>
        rw [hpayload] at hp
        exact .carrier hd hv hpayload (shaped_of_fits payload ty hp)
    | _ => cases hd
  | maybe none, ty, h => by
    obtain ⟨sub, rfl, -⟩ := fits_maybe.mp h
    exact .empty sub
  | maybe (some inner), ty, h => by
    obtain ⟨sub, rfl, hinner⟩ := fits_maybe.mp h
    exact .holder (shaped_of_fits inner sub (hinner inner rfl))

theorem shaped_of_fitsAll : ∀ (ds : List Data) (ty : Ty), (∀ d ∈ ds, d.fits t ty = true) →
    ∀ d ∈ ds, d.Shaped t ty
  | [], _, _ => nofun
  | d :: ds, ty, h => by
    rw [List.forall_mem_cons] at h ⊢
    exact ⟨shaped_of_fits d ty h.1, shaped_of_fitsAll ds ty h.2⟩

theorem shaped_of_fitsEach : ∀ (ds : List Data) (tys : List Ty),
    List.Forall₂ (fun d ty => d.fits t ty = true) ds tys → List.Forall₂ (Shaped t) ds tys
  | [], _, h => by
    cases h
    exact .nil
  | d :: ds, _, h => by
    cases h with
    | cons hd hds => exact .cons (shaped_of_fits d _ hd) (shaped_of_fitsEach ds _ hds)

end

end Data

/-! ## Numbers of strings -/

def Numbers (strings : Array String) (s : String) (id : Ir.StringId) : Prop :=
  strings.findIdx? (· == s) = some id

namespace Numbers

variable {strings : Array String} {s s' : String} {id id' : Ir.StringId}

/-- A number is that of one string. -/
theorem string_unique (h : Numbers strings s id) (h' : Numbers strings s' id) : s = s' := by
  obtain ⟨hlt, hs, -⟩ := Array.findIdx?_eq_some_iff_getElem.mp h
  obtain ⟨_, hs', -⟩ := Array.findIdx?_eq_some_iff_getElem.mp h'
  exact (beq_iff_eq.mp hs).symm.trans (beq_iff_eq.mp hs')

theorem id_unique (h : Numbers strings s id) (h' : Numbers strings s id') : id = id' :=
  Option.some.inj (h.symm.trans h')

/-- Strings that come later leave the numbers as they are. -/
theorem append (h : Numbers strings s id) (more : Array String) :
    Numbers (strings ++ more) s id := by
  unfold Numbers at h ⊢
  rw [Array.findIdx?_append, h]
  rfl

end Numbers

/-! ## Constants that stand for values -/

namespace Ir.Const

mutual

inductive Stands (t : TypeTable) (strings : Array String) : Const → Data → Ty → Prop
  | int {ty : Ty} (v : Int) (h : ty ≠ .char) : Stands t strings (.int ty v) (.int v) ty
  | char (c : Char) : Stands t strings (.int .char c.toNat) (.char c) .char
  | float (ty : Ty) (x : Binary64) : Stands t strings (.float ty x) (.float x) ty
  | bool (ty : Ty) (b : Bool) : Stands t strings (.bool ty b) (.bool b) ty
  | str (ty : Ty) {s : String} {id : StringId} (h : Numbers strings s id) :
    Stands t strings (.str ty id) (.str s) ty
  | null (ty : Ty) : Stands t strings (.null ty) .null ty
  | array {ty element : Ty} {cs : List Const} {items : List Data}
    (he : ty.sequenceElement? = some element)
    (h : StandEach t strings cs items (List.replicate items.length element)) :
    Stands t strings (.aggregate ty cs) (.array items) ty
  | tuple {members : List Ty} {packed : Bool} {cs : List Const} {items : List Data}
    (h : StandEach t strings cs items members) :
    Stands t strings (.aggregate (.tuple members packed) cs) (.tuple items) (.tuple members packed)
  | struct {id : Nat} {d : StructDef} {cs : List Const} {items : List Data}
    (hd : t.structs[id]? = some d) (h : StandEach t strings cs items d.fieldTypes) :
    Stands t strings (.aggregate (.struct id) cs) (.struct items) (.struct id)
  | bare {id : Nat} {d : MixDef} (variant : Nat) (hd : t.mixes[id]? = some d) :
    Stands t strings (.aggregate (.mix id) [.int (.uint d.tagBits) variant]) (.mix variant none)
      (.mix id)
  | carrier {id : Nat} {d : MixDef} {v : MixVariant} {ty : Ty} {c : Const} {payload : Data}
    (variant : Nat) (hd : t.mixes[id]? = some d) (hv : d.variants[variant]? = some v)
    (hp : v.payload = some ty) (h : Stands t strings c payload ty) :
    Stands t strings (.aggregate (.mix id) [.int (.uint d.tagBits) variant, c])
      (.mix variant (some payload)) (.mix id)
  | empty (sub : Ty) :
    Stands t strings (.aggregate (.maybe sub) [.bool .bool false, .zero sub]) (.maybe none)
      (.maybe sub)
  | holder {sub : Ty} {c : Const} {inner : Data} (h : Stands t strings c inner sub) :
    Stands t strings (.aggregate (.maybe sub) [.bool .bool true, c]) (.maybe (some inner))
      (.maybe sub)

inductive StandEach (t : TypeTable) (strings : Array String) :
    List Const → List Data → List Ty → Prop
  | nil : StandEach t strings [] [] []
  | cons {c : Const} {cs : List Const} {d : Data} {ds : List Data} {ty : Ty} {tys : List Ty}
    (h : Stands t strings c d ty) (hs : StandEach t strings cs ds tys) :
    StandEach t strings (c :: cs) (d :: ds) (ty :: tys)

end

variable {t : TypeTable} {strings : Array String}

theorem StandEach.length_eq {cs : List Const} {ds : List Data} {tys : List Ty} :
    StandEach t strings cs ds tys → cs.length = ds.length
  | .nil => rfl
  | .cons _ hs => congrArg (· + 1) hs.length_eq

mutual

/-- A constant of a type stands for one value. -/
theorem Stands.data_unique {c : Const} {d d' : Data} {ty : Ty} :
    Stands t strings c d ty → Stands t strings c d' ty → d = d'
  | .int v hne, h' => by
    cases h' with
    | int => rfl
    | char => exact absurd rfl hne
  | .char c, h' => by
    generalize hn : (c.toNat : Int) = n at h'
    cases h' with
    | int _ hne => exact absurd rfl hne
    | char c' => rw [Char.toNat_inj.mp (Int.ofNat_inj.mp hn)]
  | .float _ _, h' => by cases h'; rfl
  | .bool _ _, h' => by cases h'; rfl
  | .str _ h, h' => by
    cases h' with
    | str _ h' => rw [h.string_unique h']
  | .null _, h' => by cases h'; rfl
  | .array he h, h' => by
    cases h' with
    | array he' h' =>
      cases he.symm.trans he'
      have hlength := h.length_eq.symm.trans h'.length_eq
      rw [hlength] at h
      rw [h.data_unique h']
    | _ => cases he
  | .tuple h, h' => by
    cases h' with
    | array he' _ => cases he'
    | tuple h' => rw [h.data_unique h']
  | .struct hd h, h' => by
    cases h' with
    | array he' _ => cases he'
    | struct hd' h' =>
      cases hd.symm.trans hd'
      rw [h.data_unique h']
  | .bare (d := def_) variant _, h' => by
    generalize hn : (variant : Int) = n at h'
    generalize Ty.uint def_.tagBits = tag at h'
    cases h' with
    | array he' _ => cases he'
    | bare variant' _ => rw [Int.ofNat_inj.mp hn]
  | .carrier (d := def_) variant hd hv hp h, h' => by
    generalize hn : (variant : Int) = n at h'
    generalize Ty.uint def_.tagBits = tag at h'
    cases h' with
    | array he' _ => cases he'
    | carrier _ hd' hv' hp' h' =>
      cases Int.ofNat_inj.mp hn
      cases hd.symm.trans hd'
      cases hv.symm.trans hv'
      cases hp.symm.trans hp'
      rw [h.data_unique h']
  | .empty _, h' => by
    cases h' with
    | array he' _ => cases he'
    | empty => rfl
  | .holder h, h' => by
    cases h' with
    | array he' _ => cases he'
    | holder h' => rw [h.data_unique h']

theorem StandEach.data_unique {cs : List Const} {ds ds' : List Data} {tys : List Ty} :
    StandEach t strings cs ds tys → StandEach t strings cs ds' tys → ds = ds'
  | .nil, h' => by
    cases h'
    rfl
  | .cons h hs, .cons h' hs' => by rw [h.data_unique h', hs.data_unique hs']

end

mutual

/-- A value of a type has one constant. -/
theorem Stands.const_unique {c c' : Const} {d : Data} {ty : Ty} :
    Stands t strings c d ty → Stands t strings c' d ty → c = c'
  | .int _ _, h' => by cases h'; rfl
  | .char _, h' => by cases h'; rfl
  | .float _ _, h' => by cases h'; rfl
  | .bool _ _, h' => by cases h'; rfl
  | .str _ h, h' => by
    cases h' with
    | str _ h' => rw [h.id_unique h']
  | .null _, h' => by cases h'; rfl
  | .array he h, h' => by
    cases h' with
    | array he' h' =>
      cases he.symm.trans he'
      rw [h.const_unique h']
  | .tuple h, h' => by
    cases h' with
    | tuple h' => rw [h.const_unique h']
  | .struct hd h, h' => by
    cases h' with
    | struct hd' h' =>
      cases hd.symm.trans hd'
      rw [h.const_unique h']
  | .bare _ hd, h' => by
    cases h' with
    | bare _ hd' =>
      cases hd.symm.trans hd'
      rfl
  | .carrier _ hd hv hp h, h' => by
    cases h' with
    | carrier _ hd' hv' hp' h' =>
      cases hd.symm.trans hd'
      cases hv.symm.trans hv'
      cases hp.symm.trans hp'
      rw [h.const_unique h']
  | .empty _, h' => by cases h'; rfl
  | .holder h, h' => by
    cases h' with
    | holder h' => rw [h.const_unique h']

theorem StandEach.const_unique {cs cs' : List Const} {ds : List Data} {tys : List Ty} :
    StandEach t strings cs ds tys → StandEach t strings cs' ds tys → cs = cs'
  | .nil, h' => by
    cases h'
    rfl
  | .cons h hs, .cons h' hs' => by rw [h.const_unique h', hs.const_unique hs']

end

/-! ## What is undefined -/

inductive Part (part : Const) : Const → Prop
  | self : Part part part
  | member {c : Const} {members : List Const} {ty : Ty} (hc : c ∈ members) (h : Part part c) :
    Part part (.aggregate ty members)

/-- No part of the constant is undefined. -/
def IsDefined (c : Const) : Prop := ∀ ty, ¬Part (.undef ty) c

theorem isDefined_aggregate {members : List Const} {ty : Ty} (h : ∀ c ∈ members, c.IsDefined) :
    (aggregate ty members).IsDefined := by
  intro undefined hpart
  cases hpart with
  | member hc hpart => exact h _ hc undefined hpart

theorem isDefined_pair {c c' : Const} {ty : Ty} (h : c.IsDefined) (h' : c'.IsDefined) :
    (aggregate ty [c, c']).IsDefined :=
  isDefined_aggregate (List.forall_mem_cons.mpr ⟨h, List.forall_mem_singleton.mpr h'⟩)

theorem isDefined_leaf {c : Const} (hmembers : ∀ ty members, c ≠ .aggregate ty members)
    (h : ∀ ty, c ≠ .undef ty) : c.IsDefined := by
  intro ty hpart
  cases hpart with
  | self => exact h ty rfl
  | member _ _ => exact hmembers _ _ rfl

mutual

theorem Stands.isDefined {c : Const} {d : Data} {ty : Ty} :
    Stands t strings c d ty → c.IsDefined
  | .int _ _ | .char _ | .float _ _ | .bool _ _ | .str _ _ | .null _ =>
    isDefined_leaf nofun nofun
  | .array _ h | .tuple h | .struct _ h => isDefined_aggregate h.isDefined
  | .bare _ _ => isDefined_aggregate (List.forall_mem_singleton.mpr (isDefined_leaf nofun nofun))
  | .carrier _ _ _ _ h => isDefined_pair (isDefined_leaf nofun nofun) h.isDefined
  | .empty _ => isDefined_pair (isDefined_leaf nofun nofun) (isDefined_leaf nofun nofun)
  | .holder h => isDefined_pair (isDefined_leaf nofun nofun) h.isDefined

theorem StandEach.isDefined {cs : List Const} {ds : List Data} {tys : List Ty} :
    StandEach t strings cs ds tys → ∀ c ∈ cs, c.IsDefined
  | .nil => nofun
  | .cons h hs => List.forall_mem_cons.mpr ⟨h.isDefined, hs.isDefined⟩

end

end Ir.Const

/-! ## Emitting -/

namespace Pool

structure Before (p q : Pool) : Prop where
  types : p.types.SameDefinitions q.types
  strings : ∃ more, q.ir.strings = p.ir.strings ++ more

theorem Before.refl (p : Pool) : p.Before p := ⟨.refl _, #[], by simp⟩

theorem Before.trans {p q r : Pool} (h : p.Before q) (h' : q.Before r) : p.Before r := by
  obtain ⟨more, hmore⟩ := h.strings
  obtain ⟨more', hmore'⟩ := h'.strings
  refine ⟨h.types.trans h'.types, more ++ more', ?_⟩
  rw [hmore', hmore, Array.append_assoc]

variable {α β : Type} {t : TypeTable} {m : StateM Pool α} {k : α → StateM Pool β}
  {Q : α → Array String → Prop} {R : β → Array String → Prop}

/-- What an action gives has a property under the string table it leaves, and under all later
ones. -/
def Settles (t : TypeTable) (m : StateM Pool α) (Q : α → Array String → Prop) : Prop :=
  ∀ p, t.SameDefinitions p.types →
    p.Before (m p).2 ∧ ∀ more, Q (m p).1 ((m p).2.ir.strings ++ more)

theorem settles_pure {v : α} (h : ∀ strings, Q v strings) : Settles t (pure v) Q :=
  fun p _ => ⟨.refl p, fun _ => h _⟩

theorem Settles.bind (hm : Settles t m Q)
    (hk : ∀ v, Settles t (k v) fun w strings => Q v strings → R w strings) :
    Settles t (m >>= k) R := by
  intro p hp
  obtain ⟨hbefore, hq⟩ := hm p hp
  obtain ⟨hbefore', hr⟩ := hk (m p).1 (m p).2 (hp.trans hbefore.types)
  refine ⟨hbefore.trans hbefore', fun more => hr more ?_⟩
  obtain ⟨added, hadded⟩ := hbefore'.strings
  rw [hadded, Array.append_assoc]
  exact hq (added ++ more)

theorem settles_get {k : Pool → StateM Pool β}
    (h : ∀ p, t.SameDefinitions p.types → Settles t (k p) R) : Settles t (get >>= k) R :=
  fun p hp => h p hp p hp

theorem settles_intern (ty : Ty) : Settles t (intern ty) fun ty' _ => ty' = ty :=
  fun p _ => ⟨⟨p.types.same_intern ty, #[], by simp [intern]; rfl⟩, fun _ => rfl⟩

/-- A string has its number from now on. -/
theorem settles_string (s : String) :
    Settles t (string s) fun id strings => Numbers strings s id := by
  intro p _
  show p.Before { p with ir := (p.ir.internString s).1 } ∧
    ∀ more, Numbers ((p.ir.internString s).1.strings ++ more) s (p.ir.internString s).2
  unfold Ir.Module.internString
  cases hid : p.ir.strings.findIdx? (· == s) with
  | some id => exact ⟨.refl p, Numbers.append hid⟩
  | none =>
    have hnew : Numbers (p.ir.strings.push s) s p.ir.strings.size := by
      unfold Numbers
      rw [Array.findIdx?_push, hid]
      simp
    exact ⟨⟨.refl _, #[s], rfl⟩, hnew.append⟩

end Pool

namespace Data

open Ir.Const Pool

variable {t : TypeTable}

theorem memberTypes?_struct {id : Nat} {d : StructDef} (hd : t.structs[id]? = some d) :
    t.memberTypes? (.struct id) = some d.fieldTypes := by
  show some ((t.structs[id]?.map StructDef.fieldTypes).getD []) = _
  rw [hd]
  rfl

theorem contains_payload {id variant : Nat} {d : MixDef} {v : MixVariant} {ty : Ty}
    (hd : t.mixes[id]? = some d) (hv : d.variants[variant]? = some v) (hp : v.payload = some ty) :
    t.Contains (.mix id) ty :=
  .payload hd (List.mem_filterMap.mpr ⟨v, List.mem_of_getElem? hv, hp⟩)

theorem settles_emittedPayload {payload : Data} {ty : Ty} {Q : Ir.Const → Array String → Prop}
    (h : Settles t (payload.emitted ty) Q) :
    Settles t (emittedPayload ty (some payload)) fun cs strings =>
      ∃ c, cs = [c] ∧ Q c strings := by
  unfold emittedPayload
  exact h.bind fun c => settles_pure fun _ hc => ⟨c, rfl, hc⟩

mutual

/-- What is written for a value stands for it, in all pools from then on. -/
theorem settles_emitted : ∀ (d : Data) (ty : Ty), d.Shaped t ty → t.Emittable ty →
    Settles t (d.emitted ty) fun c strings => c.Stands t strings d ty
  | int v, ty, h, _ => by
    unfold emitted
    refine settles_pure fun _ => .int v ?_
    rintro rfl
    cases h with
    | int h => cases h
  | char c, ty, h, _ => by
    cases h
    unfold emitted
    exact settles_pure fun _ => .char c
  | float x, ty, _, _ => by
    unfold emitted
    exact settles_pure fun _ => .float ty x
  | bool b, ty, _, _ => by
    unfold emitted
    exact settles_pure fun _ => .bool ty b
  | str s, ty, _, _ => by
    unfold emitted
    exact (settles_string s).bind fun id => settles_pure fun _ hid => .str ty hid
  | null, ty, _, _ => by
    unfold emitted
    exact settles_pure fun _ => .null ty
  | void, ty, h, hty => by
    cases h
    exact absurd rfl (hty _ .refl).1
  | type a, ty, h, hty => by
    cases h
    exact absurd rfl ((hty _ .refl).2 a)
  | array items, ty, h, hty => by
    unfold emitted
    cases h with
    | array h =>
      exact (settles_emittedAll items _ h (hty.part (.array _ _))).bind fun cs =>
        settles_pure fun _ hcs => .array rfl hcs
    | vector h =>
      exact (settles_emittedAll items _ h (hty.part (.vector _ _ _))).bind fun cs =>
        settles_pure fun _ hcs => .array rfl hcs
  | tuple items, ty, h, hty => by
    unfold emitted
    cases h with
    | tuple h =>
      refine settles_get fun p hp => ?_
      exact (settles_emittedEach items _ h fun _ hm => hty.part (.tuple _ hm)).bind fun cs =>
        settles_pure fun _ hcs => .tuple hcs
  | struct items, ty, h, hty => by
    unfold emitted
    cases h with
    | struct hd h =>
      refine settles_get fun p hp => ?_
      rw [hp.memberTypes?, memberTypes?_struct hd]
      refine (settles_emittedEach items _ h fun _ hm => ?_).bind fun cs =>
        settles_pure fun _ hcs => .struct hd hcs
      obtain ⟨f, hf, rfl⟩ := List.mem_map.mp hm
      exact hty.part (.field hd hf)
  | mix variant none, ty, h, _ => by
    unfold emitted
    cases h with
    | bare hd hv hp =>
      refine settles_get fun p hsame => ?_
      rw [hsame.mixOf?, show t.mixOf? (.mix _) = _ from hd]
      refine (settles_intern _).bind fun tag => ?_
      dsimp only
      rw [hv, Option.bind_some, hp]
      refine settles_pure fun _ htag => ?_
      rw [htag]
      exact .bare variant hd
  | mix variant (some payload), ty, h, hty => by
    unfold emitted
    cases h with
    | carrier hd hv hp h =>
      refine settles_get fun p hsame => ?_
      rw [hsame.mixOf?, show t.mixOf? (.mix _) = _ from hd]
      refine (settles_intern _).bind fun tag => ?_
      dsimp only
      rw [hv, Option.bind_some, hp]
      have hpayload := settles_emitted payload _ h (hty.part (contains_payload hd hv hp))
      refine (settles_emittedPayload hpayload).bind fun cs => settles_pure ?_
      rintro _ ⟨c, rfl, hc⟩ rfl
      exact .carrier variant hd hv hp hc
  | maybe none, ty, h, _ => by
    cases h
    unfold emitted
    exact settles_pure fun _ => .empty _
  | maybe (some inner), ty, h, hty => by
    unfold emitted
    cases h with
    | holder h =>
      exact (settles_emitted inner _ h (hty.part (.maybe _))).bind fun c =>
        settles_pure fun _ hc => .holder hc

theorem settles_emittedAll : ∀ (ds : List Data) (ty : Ty), (∀ d ∈ ds, d.Shaped t ty) →
    t.Emittable ty → Settles t (emittedAll ty ds) fun cs strings =>
      StandEach t strings cs ds (List.replicate ds.length ty)
  | [], ty, _, _ => by
    unfold emittedAll
    exact settles_pure fun _ => .nil
  | d :: ds, ty, h, hty => by
    unfold emittedAll
    rw [List.forall_mem_cons] at h
    exact (settles_emitted d ty h.1 hty).bind fun c => (settles_emittedAll ds ty h.2 hty).bind
      fun cs => settles_pure fun _ hcs hc => .cons hc hcs

theorem settles_emittedEach : ∀ (ds : List Data) (tys : List Ty), List.Forall₂ (Shaped t) ds tys →
    (∀ ty ∈ tys, t.Emittable ty) → Settles t (emittedEach tys ds) fun cs strings =>
      StandEach t strings cs ds tys
  | [], tys, h, _ => by
    cases h
    unfold emittedEach
    exact settles_pure fun _ => .nil
  | d :: ds, tys, h, htys => by
    cases h with
    | cons h hs =>
      unfold emittedEach
      rw [List.forall_mem_cons] at htys
      exact (settles_emitted d _ h htys.1).bind fun c =>
        (settles_emittedEach ds _ hs htys.2).bind fun cs =>
          settles_pure fun _ hcs hc => .cons hc hcs

end

end Data

/-! ## Values and their constants -/

namespace Constant

/-- Two values of a type have the same constant exactly if they are the same value, whatever
strings come to the table after one is emitted and before the other is. Nothing in their
constants is undefined. -/
theorem emitted_eq_iff {d d' : Data} {ty : Ty} {p q : Pool} (hty : p.types.Emittable ty)
    (hd : d.Shaped p.types ty) (hd' : d'.Shaped p.types ty)
    (hlater : ((⟨d, ty⟩ : Constant).emitted p).2.Before q) :
    (((⟨d, ty⟩ : Constant).emitted p).1 = ((⟨d', ty⟩ : Constant).emitted q).1 ↔ d = d') ∧
      ((⟨d, ty⟩ : Constant).emitted p).1.IsDefined ∧
      ((⟨d', ty⟩ : Constant).emitted q).1.IsDefined := by
  obtain ⟨hbefore, hstands⟩ := Data.settles_emitted d ty hd hty p (.refl _)
  obtain ⟨hbefore', hstands'⟩ :=
    Data.settles_emitted d' ty hd' hty q (hbefore.trans hlater).types
  -- both constants are looked at under the last of the tables
  obtain ⟨between, hbetween⟩ := hlater.strings
  obtain ⟨added, hadded⟩ := hbefore'.strings
  have hfirst := hstands (between ++ added)
  have hsecond := hstands' #[]
  rw [Array.append_empty, hadded, hbetween, Array.append_assoc] at hsecond
  refine ⟨⟨fun heq => ?_, fun heq => ?_⟩, hfirst.isDefined, hsecond.isDefined⟩
  · exact hfirst.data_unique (heq ▸ hsecond)
  · exact hfirst.const_unique (heq ▸ hsecond)

/-- A table with the mix `label`, the variants of which are `named`, with a text, and `plain`. -/
def labels : TypeTable :=
  let range : Span := ⟨0, 0, 0⟩
  let variants : List MixVariant := [⟨⟨"named", range⟩, some .str⟩, ⟨⟨"plain", range⟩, none⟩]
  { TypeTable.ofPointerWidth 64 with
    mixes := #[⟨⟨"label", range⟩, "app::label", 0, .pub, some variants, none, false⟩] }

theorem emittable_labels : labels.Emittable (.array (.mix 0) 2) := by
  have hstr : labels.Emittable .str := .of_parts nofun nofun fun _ hc => by cases hc
  have hmix : labels.Emittable (.mix 0) := .of_parts nofun nofun fun part hc => by
    cases hc with
    | payload hd hty =>
      cases hd
      cases List.mem_singleton.mp hty
      exact hstr
  exact .of_parts nofun nofun fun part hc => by
    cases hc
    exact hmix

/-- A named label and a plain one, and the same two the other way round, with a text that was
there before and one that comes between. -/
theorem emitted_eq_iff_labels :
    let ty : Ty := .array (.mix 0) 2
    let named : Data := .mix 0 (some (.str "x"))
    let first : Constant := ⟨.array [named, .mix 1 none], ty⟩
    let second : Constant := ⟨.array [.mix 1 none, named], ty⟩
    let p : Pool := ⟨labels, { name := "app", strings := #["w"] }⟩
    let q : Pool := (Pool.string "y" (first.emitted p).2).2
    (first.emitted p).1.text = "\x7b\x7b0, str(@str1)\x7d, \x7b1\x7d\x7d" ∧
      labels.Emittable ty ∧ first.data.Shaped labels ty ∧ second.data.Shaped labels ty ∧
      ((first.emitted p).1 = (second.emitted q).1 ↔ first.data = second.data) ∧
      (first.emitted p).1.IsDefined ∧ (second.emitted q).1.IsDefined := by
  intro ty named first second p q
  have hfirst : first.data.Shaped labels ty := Data.shaped_of_fits _ _ rfl
  have hsecond : second.data.Shaped labels ty := Data.shaped_of_fits _ _ rfl
  have hbefore := (Data.settles_emitted first.data ty hfirst emittable_labels p (.refl _)).1
  have hlater := (Pool.settles_string "y" _ hbefore.types).1
  exact ⟨by decide +kernel, emittable_labels, hfirst, hsecond,
    emitted_eq_iff emittable_labels hfirst hsecond hlater⟩

end Constant

end Staged
