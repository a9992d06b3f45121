/-
  Staged.Proofs.Numbering — the number of a type stands for its tree.

  A type can be kept layer by layer: its outermost constructor, with the numbers of its
  parts in place of the parts (`Layer`). Layers are then numbered in the order of first use,
  and an index leads back from a layer to its number (`Numbering`). A tree is built from its
  leaves upwards, so two equal trees ask for the same layers and two different ones come
  apart in some layer.

  The table of trees is led along: at every moment the layer with some number, read through
  the numbers of its parts, is the tree that has this number in the table
  (`Numbering.Sound`). Every operation keeps that, and takes no number back
  (`Numbering.Later`).

  Main statement: `Numbering.types_numbered`, over all histories of operations.
-/

import Mathlib.Data.List.Nodup
import Staged.Proofs.Lists
import Staged.Ty.Table

namespace Staged

/-! ## Layers -/

inductive Layer where
  | int (bits : Nat)
  | uint (bits : Nat)
  | float (kind : FloatKind)
  | char
  | bool
  | void
  | str
  | mark (sub : Nat) (owner : Owner Nat) (nullable slice isVar : Bool)
  | ref (sub : Nat) (isVar : Bool)
  | array (element : Nat) (length : Nat)
  | vector (element : Nat) (count : Nat) (scalable : Bool)
  | tuple (members : List Nat) (packed : Bool)
  | struct (id : Nat)
  | mix (id : Nat)
  | choice (id : Nat)
  | function (result : Nat) (args : List Nat) (variadic : Bool)
  | future (sub : Nat) (packed : Bool)
  | maybe (sub : Nat)
  | typed (sub : Nat)
  | native (kind : Native)
  deriving DecidableEq, Repr

namespace Owner

variable {α β : Type}

def lift (f : α → Option β) : Owner α → Option (Owner β)
  | .anonymous => some .anonymous
  | .heap => some .heap
  | .type owner => (f owner).map .type

theorem lift_mono {f g : α → Option β} (h : ∀ a b, f a = some b → g a = some b) {o : Owner α}
    {o' : Owner β} (ho : o.lift f = some o') : o.lift g = some o' := by
  cases o with
  | type a =>
    obtain ⟨b, hb, rfl⟩ := Option.map_eq_some_iff.mp ho
    exact Option.map_eq_some_iff.mpr ⟨b, h a b hb, rfl⟩
  | _ => exact ho

theorem lift_inverse {f : α → Option β} {g : β → Option α} (h : ∀ a b, f a = some b → g b = some a)
    {o : Owner α} {o' : Owner β} (ho : o.lift f = some o') : o'.lift g = some o := by
  cases o with
  | type a =>
    obtain ⟨b, hb, rfl⟩ := Option.map_eq_some_iff.mp ho
    exact Option.map_eq_some_iff.mpr ⟨a, h a b hb, rfl⟩
  | _ => cases ho; rfl

end Owner

namespace TypeTable

/-! ## Numbers in a table of trees -/

def Distinct (t : TypeTable) : Prop := t.types.toList.Nodup

variable {t t' t'' : TypeTable}

theorem Distinct.unique (h : t.Distinct) {m n : Nat} {ty : Ty} (hm : t.types[m]? = some ty)
    (hn : t.types[n]? = some ty) : m = n := by
  rw [← Array.getElem?_toList] at hm hn
  have hlt : m < t.types.toList.length := (List.getElem?_eq_some_iff.mp hm).1
  exact (List.getElem?_inj hlt h).mp (hm.trans hn.symm)

theorem Distinct.number?_eq_some_iff (h : t.Distinct) {ty : Ty} {n : Nat} :
    t.number? ty = some n ↔ t.types[n]? = some ty := by
  unfold number?
  rw [Array.findIdx?_eq_some_iff_getElem]
  constructor
  · rintro ⟨hlt, hty, -⟩
    rw [Array.getElem?_eq_getElem hlt, beq_iff_eq.mp hty]
  · intro hn
    obtain ⟨hlt, hty⟩ := Array.getElem?_eq_some_iff.mp hn
    refine ⟨hlt, beq_iff_eq.mpr hty, fun j hj hjt => ?_⟩
    have hjn : t.types[j]? = some ty := by
      rw [Array.getElem?_eq_getElem (Nat.lt_trans hj hlt), beq_iff_eq.mp hjt]
    exact absurd (h.unique hjn hn) (Nat.ne_of_lt hj)

theorem contains_iff {ty : Ty} : t.contains ty = true ↔ ∃ n : Nat, t.types[n]? = some ty := by
  unfold contains
  rw [Array.any_eq_true]
  exact ⟨fun ⟨n, hlt, hn⟩ => ⟨n, Array.getElem?_eq_some_iff.mpr ⟨hlt, beq_iff_eq.mp hn⟩⟩,
    fun ⟨n, hn⟩ => (Array.getElem?_eq_some_iff.mp hn).elim fun hlt h => ⟨n, hlt, beq_iff_eq.mpr h⟩⟩

theorem intern_of_mem {ty : Ty} {n : Nat} (hn : t.types[n]? = some ty) : t.intern ty = t :=
  if_pos (contains_iff.mpr ⟨n, hn⟩)

theorem intern_of_new {ty : Ty} (hn : ∀ n : Nat, t.types[n]? ≠ some ty) :
    t.intern ty = { t with types := t.types.push ty } :=
  if_neg fun h => (contains_iff.mp h).elim hn

theorem Distinct.push (h : t.Distinct) {ty : Ty} (hn : ∀ n : Nat, t.types[n]? ≠ some ty) :
    Distinct { t with types := t.types.push ty } := by
  unfold Distinct
  rw [Array.toList_push, List.nodup_append]
  refine ⟨h, List.nodup_singleton ty, fun a ha b hb hab => ?_⟩
  obtain ⟨n, hn'⟩ := List.mem_iff_getElem?.mp ha
  rw [Array.getElem?_toList, hab, List.mem_singleton.mp hb] at hn'
  exact hn n hn'

structure Later (t t' : TypeTable) : Prop where
  types : ∀ (n : Nat) (ty : Ty), t.types[n]? = some ty → t'.types[n]? = some ty
  structs : t.structs.size ≤ t'.structs.size
  mixes : t.mixes.size ≤ t'.mixes.size
  choices : t.choices.size ≤ t'.choices.size

theorem Later.refl (t : TypeTable) : t.Later t :=
  ⟨fun _ _ h => h, Nat.le_refl _, Nat.le_refl _, Nat.le_refl _⟩

theorem Later.trans (h : t.Later t') (h' : t'.Later t'') : t.Later t'' :=
  ⟨fun n ty hn => h'.types n ty (h.types n ty hn), Nat.le_trans h.structs h'.structs,
    Nat.le_trans h.mixes h'.mixes, Nat.le_trans h.choices h'.choices⟩

theorem later_push (t : TypeTable) (ty : Ty) : t.Later { t with types := t.types.push ty } := by
  refine ⟨fun n x hn => ?_, Nat.le_refl _, Nat.le_refl _, Nat.le_refl _⟩
  obtain ⟨hlt, rfl⟩ := Array.getElem?_eq_some_iff.mp hn
  exact Array.getElem?_push_lt hlt

def Defines (t : TypeTable) : Ty → Prop
  | .struct id => id < t.structs.size
  | .mix id => id < t.mixes.size
  | .choice id => id < t.choices.size
  | _ => True

theorem Defines.later (h : t.Later t') {ty : Ty} (hd : t.Defines ty) : t'.Defines ty := by
  cases ty with
  | struct id => exact Nat.lt_of_lt_of_le hd h.structs
  | mix id => exact Nat.lt_of_lt_of_le hd h.mixes
  | choice id => exact Nat.lt_of_lt_of_le hd h.choices
  | _ => trivial

end TypeTable

namespace Ty

mutual

def nominals : Ty → List Ty
  | .struct id => [.struct id]
  | .mix id => [.mix id]
  | .choice id => [.choice id]
  | .mark sub owner _ _ _ => nominals sub ++ ownerNominals owner
  | .ref sub _ | .future sub _ | .maybe sub | .typed sub => nominals sub
  | .array element _ | .vector element _ _ => nominals element
  | .tuple members _ => listNominals members
  | .function result args _ => nominals result ++ listNominals args
  | .int _ | .uint _ | .float _ | .char | .bool | .void | .str | .native _ => []

def ownerNominals : Owner Ty → List Ty
  | .anonymous | .heap => []
  | .type owner => nominals owner

def listNominals : List Ty → List Ty
  | [] => []
  | ty :: tys => nominals ty ++ listNominals tys

end

end Ty

/-! ## Layers and trees -/

namespace Layer

/-- The type whose outside a layer is: parts are looked up, and a nominal type needs its
definition. -/
def tree? (t : TypeTable) : Layer → Option Ty
  | .int bits => some (.int bits)
  | .uint bits => some (.uint bits)
  | .float kind => some (.float kind)
  | .char => some .char
  | .bool => some .bool
  | .void => some .void
  | .str => some .str
  | .mark sub owner nullable slice isVar => do
    return .mark (← t.types[sub]?) (← owner.lift (t.types[·]?)) nullable slice isVar
  | .ref sub isVar => do return .ref (← t.types[sub]?) isVar
  | .array element length => do return .array (← t.types[element]?) length
  | .vector element count scalable => do return .vector (← t.types[element]?) count scalable
  | .tuple members packed => do return .tuple (← members.mapM (t.types[·]?)) packed
  | .struct id => if id < t.structs.size then some (.struct id) else none
  | .mix id => if id < t.mixes.size then some (.mix id) else none
  | .choice id => if id < t.choices.size then some (.choice id) else none
  | .function result args variadic => do
    return .function (← t.types[result]?) (← args.mapM (t.types[·]?)) variadic
  | .future sub packed => do return .future (← t.types[sub]?) packed
  | .maybe sub => do return .maybe (← t.types[sub]?)
  | .typed sub => do return .typed (← t.types[sub]?)
  | .native kind => some (.native kind)

/-- The outside of a type, by the numbers that its parts have. -/
def ofTree? (t : TypeTable) : Ty → Option Layer
  | .int bits => some (.int bits)
  | .uint bits => some (.uint bits)
  | .float kind => some (.float kind)
  | .char => some .char
  | .bool => some .bool
  | .void => some .void
  | .str => some .str
  | .mark sub owner nullable slice isVar => do
    return .mark (← t.number? sub) (← owner.lift t.number?) nullable slice isVar
  | .ref sub isVar => do return .ref (← t.number? sub) isVar
  | .array element length => do return .array (← t.number? element) length
  | .vector element count scalable => do return .vector (← t.number? element) count scalable
  | .tuple members packed => do return .tuple (← members.mapM t.number?) packed
  | .struct id => some (.struct id)
  | .mix id => some (.mix id)
  | .choice id => some (.choice id)
  | .function result args variadic => do
    return .function (← t.number? result) (← args.mapM t.number?) variadic
  | .future sub packed => do return .future (← t.number? sub) packed
  | .maybe sub => do return .maybe (← t.number? sub)
  | .typed sub => do return .typed (← t.number? sub)
  | .native kind => some (.native kind)

variable {t t' : TypeTable} {l l' : Layer} {ty : Ty}

theorem tree?_later (h : t.Later t') (hl : l.tree? t = some ty) : l.tree? t' = some ty := by
  cases l with
  | mark sub owner nullable slice isVar =>
    simp only [tree?, Option.bind_eq_bind, Option.bind_eq_some_iff] at hl ⊢
    obtain ⟨s, hs, o, ho, hty⟩ := hl
    exact ⟨s, h.types _ _ hs, o, Owner.lift_mono h.types ho, hty⟩
  | tuple members packed =>
    simp only [tree?, Option.bind_eq_bind, Option.bind_eq_some_iff] at hl ⊢
    obtain ⟨ms, hms, hty⟩ := hl
    exact ⟨ms, mapM_mono h.types hms, hty⟩
  | function result args variadic =>
    simp only [tree?, Option.bind_eq_bind, Option.bind_eq_some_iff] at hl ⊢
    obtain ⟨r, hr, as, has, hty⟩ := hl
    exact ⟨r, h.types _ _ hr, as, mapM_mono h.types has, hty⟩
  | ref | array | vector | future | maybe | typed =>
    simp only [tree?, Option.bind_eq_bind, Option.bind_eq_some_iff] at hl ⊢
    obtain ⟨s, hs, hty⟩ := hl
    exact ⟨s, h.types _ _ hs, hty⟩
  | struct id =>
    simp only [tree?, Option.ite_none_right_eq_some] at hl ⊢
    exact ⟨Nat.lt_of_lt_of_le hl.1 h.structs, hl.2⟩
  | mix id =>
    simp only [tree?, Option.ite_none_right_eq_some] at hl ⊢
    exact ⟨Nat.lt_of_lt_of_le hl.1 h.mixes, hl.2⟩
  | choice id =>
    simp only [tree?, Option.ite_none_right_eq_some] at hl ⊢
    exact ⟨Nat.lt_of_lt_of_le hl.1 h.choices, hl.2⟩
  | _ => exact hl

theorem ofTree?_of_tree? (h : t.Distinct) (hl : l.tree? t = some ty) : ofTree? t ty = some l := by
  have hback : ∀ (n : Nat) (x : Ty), t.types[n]? = some x → t.number? x = some n :=
    fun n x => h.number?_eq_some_iff.mpr
  cases l with
  | mark sub owner nullable slice isVar =>
    simp only [tree?, Option.bind_eq_bind, Option.bind_eq_some_iff] at hl
    obtain ⟨s, hs, o, ho, hty⟩ := hl
    cases hty
    simp [ofTree?, hback _ _ hs, Owner.lift_inverse hback ho]
  | tuple members packed =>
    simp only [tree?, Option.bind_eq_bind, Option.bind_eq_some_iff] at hl
    obtain ⟨ms, hms, hty⟩ := hl
    cases hty
    simp [ofTree?, mapM_inverse hback hms]
  | function result args variadic =>
    simp only [tree?, Option.bind_eq_bind, Option.bind_eq_some_iff] at hl
    obtain ⟨r, hr, as, has, hty⟩ := hl
    cases hty
    simp [ofTree?, hback _ _ hr, mapM_inverse hback has]
  | ref | array | vector | future | maybe | typed =>
    simp only [tree?, Option.bind_eq_bind, Option.bind_eq_some_iff] at hl
    obtain ⟨s, hs, hty⟩ := hl
    cases hty
    simp [ofTree?, hback _ _ hs]
  | struct | mix | choice =>
    simp only [tree?, Option.ite_none_right_eq_some] at hl
    cases hl.2
    rfl
  | _ => cases hl; rfl

/-- Different layers are the outsides of different types. -/
theorem tree?_injective (h : t.Distinct) (hl : l.tree? t = some ty) (hl' : l'.tree? t = some ty) :
    l = l' :=
  Option.some.inj ((ofTree?_of_tree? h hl).symm.trans (ofTree?_of_tree? h hl'))

/-- What has an outside in a table is defined there. -/
theorem defines_of_tree? (hl : l.tree? t = some ty) : t.Defines ty := by
  cases l with
  | struct | mix | choice =>
    simp only [tree?, Option.ite_none_right_eq_some] at hl
    cases hl.2
    exact hl.1
  | mark | ref | array | vector | tuple | function | future | maybe | typed =>
    simp only [tree?, Option.bind_eq_bind, Option.bind_eq_some_iff, Option.pure_def,
      Option.some.injEq] at hl
    obtain ⟨_, _, h⟩ := hl
    first
      | (cases h; trivial)
      | (obtain ⟨_, _, h⟩ := h; cases h; trivial)
  | _ => cases hl; trivial

end Layer

/-! ## Numberings -/

/-- Layers in the order of their numbers, the way back from a layer to its number, and the
table of trees that is led along. -/
structure Numbering where
  layers : Array Layer
  index : List (Layer × Nat)
  table : TypeTable

namespace Numbering

abbrev Leads (α : Type) := StateT Numbering Option α

/-- The number of a layer, which is the next one if it has none yet, in a new table. -/
def enter (c : Numbering) (l : Layer) (t : TypeTable) : Nat × Numbering :=
  match c.index.lookup l with
  | some n => (n, { c with table := t })
  | none => (c.layers.size, ⟨c.layers.push l, (l, c.layers.size) :: c.index, t⟩)

def intern (l : Layer) : Leads Nat := fun c =>
  (l.tree? c.table).map fun ty => c.enter l (c.table.intern ty)

mutual

def build : Ty → Leads Nat
  | .int bits => intern (.int bits)
  | .uint bits => intern (.uint bits)
  | .float kind => intern (.float kind)
  | .char => intern .char
  | .bool => intern .bool
  | .void => intern .void
  | .str => intern .str
  | .mark sub owner nullable slice isVar => do
    let s ← build sub
    let o ← buildOwner owner
    intern (.mark s o nullable slice isVar)
  | .ref sub isVar => do intern (.ref (← build sub) isVar)
  | .array element length => do intern (.array (← build element) length)
  | .vector element count scalable => do intern (.vector (← build element) count scalable)
  | .tuple members packed => do intern (.tuple (← buildAll members) packed)
  | .struct id => intern (.struct id)
  | .mix id => intern (.mix id)
  | .choice id => intern (.choice id)
  | .function result args variadic => do
    let r ← build result
    let as ← buildAll args
    intern (.function r as variadic)
  | .future sub packed => do intern (.future (← build sub) packed)
  | .maybe sub => do intern (.maybe (← build sub))
  | .typed sub => do intern (.typed (← build sub))
  | .native kind => intern (.native kind)

def buildOwner : Owner Ty → Leads (Owner Nat)
  | .anonymous => return .anonymous
  | .heap => return .heap
  | .type owner => do return .type (← build owner)

def buildAll : List Ty → Leads (List Nat)
  | [] => return []
  | ty :: tys => do
    let n ← build ty
    let ns ← buildAll tys
    return n :: ns

end

def addStruct (d : StructDef) : Leads Nat := fun c =>
  some (c.enter (.struct c.table.structs.size) (c.table.addStruct d).1)

def addMix (d : MixDef) : Leads Nat := fun c =>
  some (c.enter (.mix c.table.mixes.size) (c.table.addMix d).1)

def addChoice (d : ChoiceDef) : Leads Nat := fun c =>
  some (c.enter (.choice c.table.choices.size) (c.table.addChoice d).1)

/-! ## Layers and the table stay in step -/

/-- Layers and their index are inverse to each other, and the layer with some number is the
outside of the one type that has this number. -/
structure Sound (c : Numbering) : Prop where
  inverse : ∀ (l : Layer) (n : Nat), c.index.lookup l = some n ↔ c.layers[n]? = some l
  distinct : c.table.Distinct
  lockstep : ∀ n : Nat, c.layers[n]?.map (Layer.tree? c.table) = c.table.types[n]?.map some

structure Later (c c' : Numbering) : Prop where
  layers : ∀ (n : Nat) (l : Layer), c.layers[n]? = some l → c'.layers[n]? = some l
  table : c.table.Later c'.table

variable {c c' c'' : Numbering} {l : Layer} {t : TypeTable} {ty : Ty} {n : Nat}

theorem Later.refl (c : Numbering) : c.Later c := ⟨fun _ _ h => h, .refl _⟩

theorem Later.trans (h : c.Later c') (h' : c'.Later c'') : c.Later c'' :=
  ⟨fun n l hn => h'.layers n l (h.layers n l hn), h.table.trans h'.table⟩

namespace Sound

theorem size_eq (h : c.Sound) : c.layers.size = c.table.types.size := by
  have hle (n : Nat) : c.layers.size ≤ n ↔ c.table.types.size ≤ n := by
    rw [← Array.getElem?_eq_none_iff, ← Array.getElem?_eq_none_iff, ← Option.map_eq_none_iff,
      h.lockstep n, Option.map_eq_none_iff]
  exact Nat.le_antisymm ((hle _).mpr (Nat.le_refl _)) ((hle _).mp (Nat.le_refl _))

/-- A layer with a number is the outside of the type with that number. -/
theorem tree? (h : c.Sound) (hn : c.layers[n]? = some l) :
    ∃ ty, l.tree? c.table = some ty ∧ c.table.types[n]? = some ty := by
  have hl := h.lockstep n
  rw [hn, Option.map_some] at hl
  obtain ⟨ty, hty, hs⟩ := Option.map_eq_some_iff.mp hl.symm
  exact ⟨ty, hs.symm, hty⟩

/-- A type with a number has an outside with that number. -/
theorem layer (h : c.Sound) (hn : c.table.types[n]? = some ty) :
    ∃ l : Layer, c.layers[n]? = some l ∧ l.tree? c.table = some ty := by
  have hl := h.lockstep n
  rw [hn, Option.map_some] at hl
  exact Option.map_eq_some_iff.mp hl

/-- What has a number is defined. -/
theorem defines (h : c.Sound) (hn : c.table.types[n]? = some ty) : c.table.Defines ty :=
  let ⟨_, _, hl⟩ := h.layer hn
  Layer.defines_of_tree? hl

/-- The table changes, but neither numbers nor the number of definitions go back. -/
theorem retable (h : c.Sound) (ht : t.types = c.table.types) (hl : c.table.Later t) :
    Sound { c with table := t } := by
  refine ⟨h.inverse, ?_, fun n => ?_⟩
  · unfold TypeTable.Distinct
    rw [ht]
    exact h.distinct
  · show c.layers[n]?.map (Layer.tree? t) = t.types[n]?.map some
    rw [ht, ← h.lockstep n]
    cases hn : c.layers[n]? with
    | none => rfl
    | some l =>
      obtain ⟨ty, hty, -⟩ := h.tree? hn
      rw [Option.map_some, Option.map_some, hty, Layer.tree?_later hl hty]

end Sound

/-- A layer without a number is the outside of a type without one. -/
theorem Sound.not_mem (h : c.Sound) (hl : l.tree? c.table = some ty)
    (hi : c.index.lookup l = none) (n : Nat) : c.table.types[n]? ≠ some ty := by
  intro hn
  obtain ⟨l', hl', hty'⟩ := h.layer hn
  rw [Layer.tree?_injective h.distinct hty' hl] at hl'
  rw [(h.inverse l n).mpr hl'] at hi
  cases hi

/-- The next number goes to a layer and to the type whose outside it is. -/
theorem Sound.push (h : c.Sound) (hl : l.tree? c.table = some ty) (hi : c.index.lookup l = none) :
    Sound ⟨c.layers.push l, (l, c.layers.size) :: c.index,
      { c.table with types := c.table.types.push ty }⟩ := by
  have hlater := c.table.later_push ty
  refine ⟨fun l' n => ?_, h.distinct.push (h.not_mem hl hi), fun n => ?_⟩
  · show List.lookup l' ((l, c.layers.size) :: c.index) = some n ↔ (c.layers.push l)[n]? = some l'
    rw [List.lookup_cons, Array.getElem?_push]
    have hold := h.inverse l' n
    have hsize : c.layers[c.layers.size]? = none := Array.getElem?_eq_none_iff.mpr (Nat.le_refl _)
    by_cases hll : l' = l
    · subst hll
      have hno : c.layers[n]? ≠ some l' := fun hn => by simp [hold.mpr hn] at hi
      grind
    · grind
  · show (c.layers.push l)[n]?.map (Layer.tree? _) = (c.table.types.push ty)[n]?.map some
    rw [Array.getElem?_push, Array.getElem?_push, h.size_eq]
    by_cases hn : n = c.table.types.size
    · rw [if_pos hn, if_pos hn, Option.map_some, Option.map_some, Layer.tree?_later hlater hl]
    · rw [if_neg hn, if_neg hn, ← h.lockstep n]
      cases hn : c.layers[n]? with
      | none => rfl
      | some l' =>
        obtain ⟨ty', hty', -⟩ := h.tree? hn
        rw [Option.map_some, Option.map_some, hty', Layer.tree?_later hlater hty']

/-- Whether a layer is new or not, its number is that of the type whose outside it is. -/
theorem enter_sound (h : c.Sound) (hl : l.tree? c.table = some ty) {p : Nat × Numbering}
    (hp : c.enter l (c.table.intern ty) = p) :
    p.2.Sound ∧ c.Later p.2 ∧ p.2.layers[p.1]? = some l ∧ p.2.table.types[p.1]? = some ty := by
  unfold enter at hp
  cases hi : c.index.lookup l with
  | some n =>
    have hn : c.layers[n]? = some l := (h.inverse l n).mp hi
    obtain ⟨ty', hty', ht⟩ := h.tree? hn
    obtain rfl : ty' = ty := Option.some.inj (hty'.symm.trans hl)
    rw [hi, TypeTable.intern_of_mem ht] at hp
    subst hp
    exact ⟨h, .refl c, hn, ht⟩
  | none =>
    rw [hi, TypeTable.intern_of_new (h.not_mem hl hi)] at hp
    subst hp
    refine ⟨h.push hl hi, ⟨fun n l' hn => ?_, c.table.later_push ty⟩, Array.getElem?_push_size, ?_⟩
    · obtain ⟨hlt, rfl⟩ := Array.getElem?_eq_some_iff.mp hn
      exact Array.getElem?_push_lt hlt
    · show (c.table.types.push ty)[c.layers.size]? = some ty
      rw [h.size_eq]
      exact Array.getElem?_push_size

/-! ## Building from the leaves upwards -/

variable {α β : Type} {d : Prop}

structure Gives (c : Numbering) (m : Leads α) (d : Prop) (P : Numbering → α → Prop) : Prop where
  right : ∀ {a c'}, m c = some (a, c') → c'.Sound ∧ c.Later c' ∧ P c' a
  some_of : d → (m c).isSome

variable {m : Leads α} {P : Numbering → α → Prop}

theorem Gives.mono (h : c.Gives m d P) {d' : Prop} (hd : d' → d) : c.Gives m d' P :=
  ⟨h.right, fun h' => h.some_of (hd h')⟩

theorem Gives.bind (h : c.Gives m d P) {f : α → Leads β} {Q : Numbering → β → Prop}
    (hf : ∀ a c', c'.Sound → c.Later c' → P c' a → c'.Gives (f a) d Q) :
    c.Gives (m >>= f) d Q := by
  constructor
  · intro b c'' hb
    obtain ⟨⟨a, c'⟩, ha, hb⟩ := Option.bind_eq_some_iff.mp hb
    obtain ⟨hs, hl, hp⟩ := h.right ha
    obtain ⟨hs', hl', hq⟩ := (hf a c' hs hl hp).right hb
    exact ⟨hs', hl.trans hl', hq⟩
  · intro hd
    obtain ⟨⟨a, c'⟩, ha⟩ := Option.isSome_iff_exists.mp (h.some_of hd)
    obtain ⟨hs, hl, hp⟩ := h.right ha
    show ((m c).bind fun p => f p.1 p.2).isSome
    rw [ha]
    exact (hf a c' hs hl hp).some_of hd

theorem gives_pure (h : c.Sound) {a : α} (ha : P c a) : c.Gives (pure a) d P :=
  ⟨fun ha' => by cases ha'; exact ⟨h, .refl c, ha⟩, fun _ => rfl⟩

def HasNumber (ty : Ty) (c : Numbering) (n : Nat) : Prop := c.table.types[n]? = some ty

theorem gives_intern (h : c.Sound) (hl : ∀ ty', l.tree? c.table = some ty' → ty' = ty)
    (hd : d → l.tree? c.table = some ty) : c.Gives (intern l) d (HasNumber ty) := by
  constructor
  · intro n c' hn
    obtain ⟨ty', hty', hp⟩ := Option.map_eq_some_iff.mp hn
    obtain rfl := hl ty' hty'
    obtain ⟨hs, hlater, -, ht⟩ := enter_sound h hty' hp
    exact ⟨hs, hlater, ht⟩
  · intro h'
    show ((l.tree? c.table).map _).isSome
    rw [hd h']
    rfl

theorem gives_intern_tree (h : c.Sound) (hl : l.tree? c.table = some ty) :
    c.Gives (intern l) d (HasNumber ty) :=
  gives_intern h (fun _ hty' => Option.some.inj (hty'.symm.trans hl)) fun _ => hl

def Defines (c : Numbering) (tys : List Ty) : Prop := ∀ x ∈ tys, c.table.Defines x

theorem Defines.later {tys : List Ty} (hd : c.Defines tys) (h : c.Later c') : c'.Defines tys :=
  fun x hx => (hd x hx).later h.table

theorem defines_append {as bs : List Ty} :
    c.Defines (as ++ bs) ↔ c.Defines as ∧ c.Defines bs := List.forall_mem_append

/-- A nominal type is its own outside as soon as it is defined. -/
theorem gives_nominal (h : c.Sound) {k : Prop} [Decidable k]
    (hl : l.tree? c.table = if k then some ty else none) (hk : d → k) :
    c.Gives (intern l) d (HasNumber ty) := by
  refine gives_intern h (fun ty' hty' => ?_) fun hd => hl.trans (if_pos (hk hd))
  rw [hl, Option.ite_none_right_eq_some] at hty'
  exact Option.some.inj hty'.2.symm

mutual

theorem gives_build (ty : Ty) {c : Numbering} (h : c.Sound) :
    c.Gives (build ty) (c.Defines ty.nominals) (HasNumber ty) := by
  cases ty with
  | mark sub owner nullable slice isVar =>
    rw [build]
    refine ((gives_build sub h).mono fun hd => (defines_append.mp hd).1).bind
      fun s c₁ h₁ l₁ hs => ?_
    refine ((gives_owner owner h₁).mono fun hd => (defines_append.mp hd).2.later l₁).bind
      fun o c₂ h₂ l₂ ho => ?_
    have hs₂ : c₂.table.types[s]? = some sub := l₂.table.types _ _ hs
    exact gives_intern_tree h₂ (by simp [Layer.tree?, hs₂, ho])
  | function result args variadic =>
    rw [build]
    refine ((gives_build result h).mono fun hd => (defines_append.mp hd).1).bind
      fun r c₁ h₁ l₁ hr => ?_
    refine ((gives_list args h₁).mono fun hd => (defines_append.mp hd).2.later l₁).bind
      fun as c₂ h₂ l₂ has => ?_
    have hr₂ : c₂.table.types[r]? = some result := l₂.table.types _ _ hr
    exact gives_intern_tree h₂ (by simp [Layer.tree?, hr₂, has])
  | tuple members packed =>
    rw [build]
    refine (gives_list members h).bind fun ms c₁ h₁ _ hms => ?_
    exact gives_intern_tree h₁ (by simp [Layer.tree?, hms])
  | ref sub | array sub | vector sub | future sub | maybe sub | typed sub =>
    rw [build]
    refine (gives_build sub h).bind fun s c₁ h₁ _ hs => ?_
    have hs' : c₁.table.types[s]? = some sub := hs
    exact gives_intern_tree h₁ (by simp [Layer.tree?, hs'])
  | struct id | mix id | choice id =>
    rw [build]
    exact gives_nominal h rfl fun hd => hd _ (List.mem_singleton_self _)
  | _ =>
    rw [build]
    exact gives_intern_tree h rfl

theorem gives_owner (owner : Owner Ty) {c : Numbering} (h : c.Sound) :
    c.Gives (buildOwner owner) (c.Defines (Ty.ownerNominals owner))
      fun c' o => o.lift (c'.table.types[·]?) = some owner := by
  cases owner with
  | type ty =>
    rw [buildOwner]
    refine (gives_build ty h).bind fun n c₁ h₁ _ hn => gives_pure h₁ ?_
    have hn' : c₁.table.types[n]? = some ty := hn
    simp [Owner.lift, hn']
  | _ =>
    rw [buildOwner]
    exact gives_pure h rfl

theorem gives_list (tys : List Ty) {c : Numbering} (h : c.Sound) :
    c.Gives (buildAll tys) (c.Defines (Ty.listNominals tys))
      fun c' ns => ns.mapM (c'.table.types[·]?) = some tys := by
  cases tys with
  | nil =>
    rw [buildAll]
    exact gives_pure h rfl
  | cons ty tys =>
    rw [buildAll]
    refine ((gives_build ty h).mono fun hd => (defines_append.mp hd).1).bind fun n c₁ h₁ l₁ hn => ?_
    refine ((gives_list tys h₁).mono fun hd => (defines_append.mp hd).2.later l₁).bind
      fun ns c₂ h₂ l₂ hns => gives_pure h₂ ?_
    have hn₂ : c₂.table.types[n]? = some ty := l₂.table.types _ _ hn
    simp [List.mapM_cons, hn₂, hns]

end

/-! ## Definitions -/

/-- A definition is added to the table, and its type is used. -/
theorem gives_definition (h : c.Sound) (ht : t.types = c.table.types) (hlater : c.table.Later t)
    (hl : l.tree? t = some ty) {m : Leads Nat} (hm : m c = some (c.enter l (t.intern ty))) :
    c.Gives m d (HasNumber ty) := by
  refine ⟨fun {n c'} hn => ?_, fun _ => by rw [hm]; rfl⟩
  -- The table changes first, and then the layer is used in what is there by now.
  have hp : Numbering.enter { c with table := t } l (t.intern ty) = (n, c') :=
    Option.some.inj (hm.symm.trans hn)
  obtain ⟨hs, hlater', -, hty⟩ := enter_sound (h.retable ht hlater) hl hp
  exact ⟨hs, ⟨hlater'.layers, hlater.trans hlater'.table⟩, hty⟩

theorem gives_addStruct (h : c.Sound) (added : StructDef) :
    c.Gives (addStruct added) d (HasNumber (.struct c.table.structs.size)) := by
  have hlt : c.table.structs.size < (c.table.structs.push added).size := by
    rw [Array.size_push]
    exact Nat.lt_succ_self _
  exact gives_definition (t := { c.table with structs := c.table.structs.push added })
    (l := .struct c.table.structs.size) h rfl
    ⟨fun _ _ hn => hn, Nat.le_of_lt hlt, Nat.le_refl _, Nat.le_refl _⟩ (if_pos hlt) rfl

theorem gives_addMix (h : c.Sound) (added : MixDef) :
    c.Gives (addMix added) d (HasNumber (.mix c.table.mixes.size)) := by
  have hlt : c.table.mixes.size < (c.table.mixes.push added).size := by
    rw [Array.size_push]
    exact Nat.lt_succ_self _
  exact gives_definition (t := { c.table with mixes := c.table.mixes.push added })
    (l := .mix c.table.mixes.size) h rfl
    ⟨fun _ _ hn => hn, Nat.le_refl _, Nat.le_of_lt hlt, Nat.le_refl _⟩ (if_pos hlt) rfl

theorem gives_addChoice (h : c.Sound) (added : ChoiceDef) :
    c.Gives (addChoice added) d (HasNumber (.choice c.table.choices.size)) := by
  have hlt : c.table.choices.size < (c.table.choices.push added).size := by
    rw [Array.size_push]
    exact Nat.lt_succ_self _
  exact gives_definition (t := { c.table with choices := c.table.choices.push added })
    (l := .choice c.table.choices.size) h rfl
    ⟨fun _ _ hn => hn, Nat.le_refl _, Nat.le_refl _, Nat.le_of_lt hlt⟩ (if_pos hlt) rfl

/-! ## Histories -/

inductive Op where
  | build (ty : Ty)
  | intern (l : Layer)
  | addStruct (d : StructDef)
  | addMix (d : MixDef)
  | addChoice (d : ChoiceDef)
  | addSkill (d : SkillDef)
  | addDone (d : DoneSkill)
  | setFields (ty : Ty) (fields : Option (List FieldDef))
  | setVariants (ty : Ty) (variants : Option (List MixVariant))
  | modifyStruct (id : Nat) (f : StructDef → StructDef)
  | modifyMix (id : Nat) (f : MixDef → MixDef)
  | modifyDone (id : Nat) (f : DoneSkill → DoneSkill)

def give (c : Numbering) (ty : Option Ty) (m : Leads Nat) : Option (Nat × Ty) × Numbering :=
  match ty, m c with
  | some ty, some (n, c') => (some (n, ty), c')
  | _, _ => (none, c)

def Op.creates? (t : TypeTable) : Op → Option Ty
  | .addStruct _ => some (.struct t.structs.size)
  | .addMix _ => some (.mix t.mixes.size)
  | .addChoice _ => some (.choice t.choices.size)
  | _ => none

/-- One operation: the number that it gives, with the type that gets it, and what comes
after. -/
def step (c : Numbering) (op : Op) : Option (Nat × Ty) × Numbering :=
  match op with
  | .build ty => c.give (some ty) (Numbering.build ty)
  | .intern l => c.give (l.tree? c.table) (Numbering.intern l)
  | .addStruct d => c.give (op.creates? c.table) (Numbering.addStruct d)
  | .addMix d => c.give (op.creates? c.table) (Numbering.addMix d)
  | .addChoice d => c.give (op.creates? c.table) (Numbering.addChoice d)
  | .addSkill d => (none, { c with table := (c.table.addSkill d).1 })
  | .addDone d => (none, { c with table := (c.table.addDone d).1 })
  | .setFields ty fields => (none, { c with table := c.table.setFields ty fields })
  | .setVariants ty variants => (none, { c with table := c.table.setVariants ty variants })
  | .modifyStruct id f => (none, { c with table := c.table.modifyStruct id f })
  | .modifyMix id f => (none, { c with table := c.table.modifyMix id f })
  | .modifyDone id f => (none, { c with table := c.table.modifyDone id f })

def run (c : Numbering) (ops : List Op) : Numbering := ops.foldl (fun c op => (c.step op).2) c

def empty (width : Nat) : Numbering := ⟨#[], [], ⟨#[], #[], #[], #[], #[], #[], width⟩⟩

/-- The numbering at the start, with the types that have a number before anything is
declared. -/
def ofPointerWidth (width : Nat) : Numbering :=
  (empty width).run (TypeTable.builtin.map .build)

theorem enter_table (c : Numbering) (l : Layer) (t : TypeTable) : (c.enter l t).2.table = t := by
  unfold enter
  split <;> rfl

/-- A type without parts is its own outside. -/
theorem step_leaf_table {ty : Ty} (hb : build ty = Numbering.intern l)
    (hl : ∀ t, l.tree? t = some ty) (c : Numbering) :
    (c.step (.build ty)).2.table = c.table.intern ty := by
  simp only [step, give, hb, Numbering.intern, hl, Option.map_some]
  exact enter_table c l _

theorem ofPointerWidth_table (width : Nat) :
    (ofPointerWidth width).table = .ofPointerWidth width := by
  have hleaf (ty : Ty) (hty : ty ∈ TypeTable.builtin) (c : Numbering) :
      (c.step (.build ty)).2.table = c.table.intern ty := by
    simp only [TypeTable.builtin, Ty.usize, Ty.i32, Ty.u8, Ty.f64, List.mem_cons, List.not_mem_nil,
      or_false] at hty
    rcases hty with rfl | rfl | rfl | rfl | rfl | rfl | rfl | rfl <;>
      exact step_leaf_table (by rw [build]) (fun _ => rfl) c
  have hrun (tys : List Ty) (htys : ∀ ty ∈ tys, ty ∈ TypeTable.builtin) (c : Numbering) :
      (c.run (tys.map .build)).table = tys.foldl TypeTable.intern c.table := by
    induction tys generalizing c with
    | nil => rfl
    | cons ty tys ih =>
      rw [List.foldl_cons, ← hleaf ty (htys ty List.mem_cons_self) c]
      exact ih (fun x hx => htys x (List.mem_cons_of_mem _ hx)) _
  exact (hrun _ (fun _ h => h) _).trans (by
    simp [empty, TypeTable.ofPointerWidth, TypeTable.builtin, TypeTable.intern,
      TypeTable.contains, Ty.usize, Ty.i32, Ty.u8, Ty.f64])

structure Leading (c : Numbering) (p : Option (Nat × Ty) × Numbering) : Prop where
  sound : p.2.Sound
  later : c.Later p.2
  given : ∀ {n ty}, p.1 = some (n, ty) → HasNumber ty p.2 n

theorem leading_give (h : c.Sound) {ty? : Option Ty} {m : Leads Nat}
    (hm : ∀ ty, ty? = some ty → c.Gives m d (HasNumber ty)) : c.Leading (c.give ty? m) := by
  unfold give
  split
  · rename_i ty n c' hn
    obtain ⟨hs, hl, hty⟩ := (hm ty rfl).right hn
    exact ⟨hs, hl, fun hg => by cases hg; exact hty⟩
  · exact ⟨h, .refl c, fun hg => by cases hg⟩

/-- The table changes, but not the types in use. -/
theorem leading_retable (h : c.Sound) (ht : t.types = c.table.types)
    (hs : t.structs.size = c.table.structs.size) (hm : t.mixes.size = c.table.mixes.size)
    (hc : t.choices.size = c.table.choices.size) : c.Leading (none, { c with table := t }) := by
  have hlater : c.table.Later t :=
    ⟨fun n ty hn => by rw [ht]; exact hn, Nat.le_of_eq hs.symm, Nat.le_of_eq hm.symm,
      Nat.le_of_eq hc.symm⟩
  exact ⟨h.retable ht hlater, ⟨fun _ _ hn => hn, hlater⟩, fun hg => by cases hg⟩

theorem leading_step (h : c.Sound) (op : Op) : c.Leading (c.step op) := by
  cases op with
  | build ty =>
    refine leading_give (d := c.Defines ty.nominals) h fun ty' hty => ?_
    obtain rfl : ty = ty' := Option.some.inj hty
    exact gives_build ty h
  | intern l => exact leading_give (d := True) h fun ty hty => gives_intern_tree h hty
  | addStruct added =>
    rw [step]
    refine leading_give (d := True) h fun ty hty => ?_
    obtain rfl : Ty.struct _ = ty := Option.some.inj hty
    exact gives_addStruct h added
  | addMix added =>
    rw [step]
    refine leading_give (d := True) h fun ty hty => ?_
    obtain rfl : Ty.mix _ = ty := Option.some.inj hty
    exact gives_addMix h added
  | addChoice added =>
    rw [step]
    refine leading_give (d := True) h fun ty hty => ?_
    obtain rfl : Ty.choice _ = ty := Option.some.inj hty
    exact gives_addChoice h added
  | addSkill | addDone | modifyDone => exact leading_retable h rfl rfl rfl rfl
  | modifyStruct => exact leading_retable h rfl (Array.size_modify) rfl rfl
  | modifyMix => exact leading_retable h rfl rfl (Array.size_modify) rfl
  | setFields ty fields =>
    cases ty with
    | struct => exact leading_retable h rfl (Array.size_modify) rfl rfl
    | _ => exact leading_retable h rfl rfl rfl rfl
  | setVariants ty fields =>
    cases ty with
    | mix => exact leading_retable h rfl rfl (Array.size_modify) rfl
    | _ => exact leading_retable h rfl rfl rfl rfl

theorem run_sound (h : c.Sound) (ops : List Op) : (c.run ops).Sound ∧ c.Later (c.run ops) := by
  induction ops generalizing c with
  | nil => exact ⟨h, .refl c⟩
  | cons op ops ih =>
    have hop := leading_step h op
    obtain ⟨hs, hl⟩ := ih hop.sound
    exact ⟨hs, hop.later.trans hl⟩

theorem empty_sound (width : Nat) : (empty width).Sound :=
  ⟨fun _ _ => by simp [empty], List.nodup_nil, fun _ => by simp [empty]⟩

theorem ofPointerWidth_sound (width : Nat) : (ofPointerWidth width).Sound :=
  (run_sound (empty_sound width) _).1

/-- The numbering before the operation with some position in a history. -/
def before (width : Nat) (ops : List Op) (k : Nat) : Numbering :=
  (ofPointerWidth width).run (ops.take k)

/-- The number that an operation of a history gives, and the type that gets it. -/
def given? (width : Nat) (ops : List Op) (k : Nat) : Option (Nat × Ty) :=
  ops[k]?.bind fun op => ((before width ops k).step op).1

variable {width : Nat} {ops : List Op} {i j k : Nat} {op : Op}

theorem before_sound (width : Nat) (ops : List Op) (k : Nat) : (before width ops k).Sound :=
  (run_sound (ofPointerWidth_sound width) _).1

theorem before_later (width : Nat) (ops : List Op) (h : i ≤ k) :
    (before width ops i).Later (before width ops k) := by
  have htake : ops.take k = ops.take i ++ (ops.drop i).take (k - i) := by
    rw [← List.take_add, Nat.add_sub_cancel' h]
  unfold before run
  rw [htake, List.foldl_append]
  exact (run_sound (before_sound width ops i) _).2

theorem before_succ (hop : ops[k]? = some op) :
    before width ops (k + 1) = ((before width ops k).step op).2 := by
  unfold before run
  rw [List.take_add_one, hop, List.foldl_append]
  rfl

/-- The type with a number that was given has it at every later moment. -/
theorem hasNumber_given (hg : given? width ops i = some (n, ty)) (h : i < k) :
    HasNumber ty (before width ops k) n := by
  obtain ⟨op, hop, hn⟩ := Option.bind_eq_some_iff.mp hg
  have hlead := leading_step (before_sound width ops i) op
  have hlater := before_later width ops (Nat.succ_le_of_lt h)
  rw [before_succ hop] at hlater
  exact hlater.table.types _ _ (hlead.given hn)

/-- A type that is created has no number before. -/
theorem not_hasNumber_creates (h : c.Sound) (hop : op.creates? c.table = some ty) (n : Nat) :
    ¬HasNumber ty c n := by
  intro hn
  have hd := h.defines hn
  cases op <;> cases hop <;> exact Nat.lt_irrefl _ hd

theorem give_eq {m : Leads Nat} (hm : c.Gives m d (HasNumber ty)) (hd : d) :
    ∃ n c', m c = some (n, c') ∧ c.give (some ty) m = (some (n, ty), c') := by
  obtain ⟨⟨n, c'⟩, hn⟩ := Option.isSome_iff_exists.mp (hm.some_of hd)
  refine ⟨n, c', hn, ?_⟩
  unfold give
  rw [hn]

theorem given?_eq (hop : ops[k]? = some op) :
    given? width ops k = ((before width ops k).step op).1 := by
  unfold given?
  rw [hop, Option.bind_some]

theorem given?_creates (hop : ops[k]? = some op)
    (hnew : op.creates? (before width ops k).table = some ty) :
    ∃ n, given? width ops k = some (n, ty) := by
  have hs := before_sound width ops k
  rw [given?_eq hop]
  have hgive {m : Leads Nat} (hm : (before width ops k).Gives m True (HasNumber ty)) :
      ∃ n, ((before width ops k).give (some ty) m).1 = some (n, ty) :=
    let ⟨n, _, _, hn⟩ := give_eq hm trivial
    ⟨n, congrArg Prod.fst hn⟩
  cases op with
  | addStruct added =>
    rw [step, hnew]
    cases hnew
    exact hgive (gives_addStruct hs added)
  | addMix added =>
    rw [step, hnew]
    cases hnew
    exact hgive (gives_addMix hs added)
  | addChoice added =>
    rw [step, hnew]
    cases hnew
    exact hgive (gives_addChoice hs added)
  | _ => cases hnew

theorem given?_build (hop : ops[k]? = some (.build ty))
    (hd : (before width ops k).Defines ty.nominals) : ∃ n, given? width ops k = some (n, ty) := by
  obtain ⟨n, c', -, hn⟩ := give_eq (gives_build ty (before_sound width ops k)) hd
  rw [given?_eq hop]
  exact ⟨n, congrArg Prod.fst hn⟩

/-- A layer that is used keeps its number, and the number its layer. -/
theorem given?_intern (hop : ops[k]? = some (.intern l))
    (hl : l.tree? (before width ops k).table = some ty) :
    ∃ n, given? width ops k = some (n, ty) ∧
      ∀ j, k < j → (before width ops j).layers[n]? = some l := by
  have hs := before_sound width ops k
  obtain ⟨n, c', hn, hgive⟩ := give_eq (d := True) (gives_intern_tree hs hl) trivial
  rw [← hl] at hgive
  refine ⟨n, by rw [given?_eq hop, step, hgive], fun j hj => ?_⟩
  obtain ⟨ty', hty', hp⟩ := Option.map_eq_some_iff.mp hn
  have hlater := before_later width ops (Nat.succ_le_of_lt hj)
  rw [before_succ hop, step, hgive] at hlater
  exact hlater.layers _ _ (enter_sound hs hty' hp).2.2.1

/-- Over a history of operations, the number of a type stands for its tree. -/
structure Identified (width : Nat) (ops : List Op) : Prop where
  /-- Types that are used at any two moments have one number exactly if they are one tree. -/
  eq_iff : ∀ (i j m n : Nat) (ty ty' : Ty), given? width ops i = some (m, ty) →
    given? width ops j = some (n, ty') → (m = n ↔ ty = ty')
  /-- A nominal type is another one than all that were used before it was created. -/
  created : ∀ (k : Nat) (op : Op) (new : Ty), ops[k]? = some op →
    op.creates? (before width ops k).table = some new →
    ∃ n, given? width ops k = some (n, new) ∧
      ∀ i < k, ∀ m ty, given? width ops i = some (m, ty) → m ≠ n ∧ ty ≠ new
  /-- Every type made of definitions that are there can be built. -/
  built : ∀ (k : Nat) (ty : Ty), ops[k]? = some (.build ty) →
    (before width ops k).Defines ty.nominals → ∃ n, given? width ops k = some (n, ty)
  /-- A layer over parts that have numbers can be used, and is read back from then on. -/
  interned : ∀ (k : Nat) (l : Layer) (ty : Ty), ops[k]? = some (.intern l) →
    l.tree? (before width ops k).table = some ty →
    ∃ n, given? width ops k = some (n, ty) ∧ ∀ j, k < j → (before width ops j).layers[n]? = some l
  /-- A number stands for one layer at all later moments. -/
  kept : ∀ (j k n : Nat) (l : Layer), j ≤ k → (before width ops j).layers[n]? = some l →
    (before width ops k).layers[n]? = some l
  /-- The index leads back from every layer to its number, and from no other. -/
  inverse : ∀ (k : Nat) (l : Layer) (n : Nat), (before width ops k).index.lookup l = some n ↔
    (before width ops k).layers[n]? = some l
  /-- The table of trees gives the same number, and gives the type back. -/
  numbered : ∀ (i k n : Nat) (ty : Ty), i < k → given? width ops i = some (n, ty) →
    (before width ops k).table.number? ty = some n ∧ (before width ops k).table.types[n]? = some ty
  /-- A layer, read through the numbers of its parts, is the tree with its number. -/
  lockstep : ∀ k n : Nat,
    (before width ops k).layers[n]?.map (Layer.tree? (before width ops k).table) =
      (before width ops k).table.types[n]?.map some

/-- Over every history of using types and of adding, completing and changing definitions,
types are the same number exactly if they are the same tree. -/
theorem types_numbered (width : Nat) (ops : List Op) : Identified width ops where
  eq_iff i j m n ty ty' hm hn := by
    have hdist := (before_sound width ops (max i j + 1)).distinct
    have hm' := hasNumber_given hm (k := max i j + 1) (by omega)
    have hn' := hasNumber_given hn (k := max i j + 1) (by omega)
    constructor
    · rintro rfl
      exact Option.some.inj (hm'.symm.trans hn')
    · rintro rfl
      exact hdist.unique hm' hn'
  created k op new hop hnew := by
    obtain ⟨n, hn⟩ := given?_creates hop hnew
    refine ⟨n, hn, fun i hi m ty hm => ?_⟩
    have hm' := hasNumber_given hm hi
    have hne : ty ≠ new := by
      rintro rfl
      exact not_hasNumber_creates (before_sound width ops k) hnew m hm'
    refine ⟨?_, hne⟩
    rintro rfl
    have hlater := (before_later width ops (Nat.le_succ k)).table.types _ _ hm'
    exact hne (Option.some.inj (hlater.symm.trans (hasNumber_given hn (Nat.lt_succ_self k))))
  built _ _ hop hd := given?_build hop hd
  interned _ _ _ hop hl := given?_intern hop hl
  kept _ _ n l h hn := (before_later width ops h).layers n l hn
  inverse k := (before_sound width ops k).inverse
  numbered i k n ty h hg :=
    have hty := hasNumber_given hg h
    ⟨(before_sound width ops k).distinct.number?_eq_some_iff.mpr hty, hty⟩
  lockstep k := (before_sound width ops k).lockstep

end Numbering

end Staged
