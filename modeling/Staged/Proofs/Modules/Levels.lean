/-
  Staged.Proofs.Modules.Levels — each level of visibility lets in whoever the one before does.

  A visibility that is neither public nor for the members of a type opens a declaration to one
  module and to all that stands in it: its own module, the innermost lib around it, the file
  around it, or the innermost folder around that file. A walk to the root finds each of them, and
  where there is no such module, the lib level falls back to the file, the folder level to the
  file, and the file level to the module itself.

  Whoever stands in a module stands in all that it stands in. So the levels form a chain if the
  module of each stands in that of the next (`ModuleTree.IsForest.widens`). The folder is looked
  for from the file, and the file from the module. The lib is looked for from the module too, and
  could be further out than the file if a file stood in it. But a program puts nothing in a lib
  except libs (`Registers.libsInnermost`): the innermost lib around a module is the module
  itself, or there is none.

  Main statement: `visibilities_chain`.
-/

import Staged.Proofs.Compile.Run
import Staged.Proofs.Modules.Register

namespace Staged

namespace ModuleTree

variable {t : ModuleTree} {id a b module : ModId} {kind : ModKind} {type : Option Ty}

/-! ## Walks to the root -/

def HasKind (t : ModuleTree) (id : ModId) (kind : ModKind) : Prop :=
  ∃ m, t.get? id = some m ∧ m.kind = kind

/-- What stands in a lib is a lib. -/
def LibsInnermost (t : ModuleTree) : Prop :=
  ∀ id p, t.Inside id p → t.HasKind p .lib → t.HasKind id .lib

theorem hasKind_iff : (t.get? id).any (·.kind == kind) = true ↔ t.HasKind id kind := by
  rw [Option.any_eq_true]
  simp only [beq_iff_eq, HasKind]

theorem IsForest.isWithin_iff (ht : t.IsForest) :
    t.isWithin id a = true ↔ Relation.ReflTransGen t.Inside id a :=
  (ht.walks id).isWithin a

theorem IsForest.isWithin_self (ht : t.IsForest) (id : ModId) : t.isWithin id id = true :=
  ht.isWithin_iff.mpr .refl

theorem IsForest.isWithin_trans (ht : t.IsForest) (h : t.isWithin id a = true)
    (h' : t.isWithin a b = true) : t.isWithin id b = true :=
  ht.isWithin_iff.mpr ((ht.isWithin_iff.mp h).trans (ht.isWithin_iff.mp h'))

theorem isWithin_nearest? (h : t.nearest? id kind = some a) : t.isWithin id a = true :=
  List.contains_iff_mem.mpr (List.mem_of_find?_eq_some h)

theorem hasKind_nearest? (h : t.nearest? id kind = some a) : t.HasKind a kind := by
  have hkind := List.find?_some h
  exact hasKind_iff.mp hkind

/-- A module is the innermost one of its kind around itself. -/
theorem nearest?_self (h : t.HasKind id kind) : t.nearest? id kind = some id := by
  have hfirst : ∃ path, t.ancestors id = id :: path := by
    rw [ancestors]
    split
    · split
      · exact ⟨_, rfl⟩
      · exact ⟨_, rfl⟩
    · exact ⟨_, rfl⟩
  obtain ⟨path, hpath⟩ := hfirst
  rw [nearest?, hpath]
  exact List.find?_cons_of_pos (hasKind_iff.mpr h)

theorem IsForest.isWithin_getD_nearest? (ht : t.IsForest) (id : ModId) (kind : ModKind) :
    t.isWithin id ((t.nearest? id kind).getD id) = true := by
  cases h : t.nearest? id kind with
  | none => exact ht.isWithin_self id
  | some a => exact isWithin_nearest? h

theorem IsForest.isWithin_fileOf (ht : t.IsForest) (id : ModId) :
    t.isWithin id (t.fileOf id) = true :=
  ht.isWithin_getD_nearest? id .file

/-! ## Libs -/

theorem LibsInnermost.hasKind (h : t.LibsInnermost) (hpath : Relation.ReflTransGen t.Inside id a)
    (ha : t.HasKind a .lib) : t.HasKind id .lib := by
  induction hpath using Relation.ReflTransGen.head_induction_on with
  | refl => exact ha
  | head hin _ ih => exact h _ _ hin ih

/-- The innermost lib around a module is the module. -/
theorem LibsInnermost.nearest?_eq (h : t.LibsInnermost) (ht : t.IsForest)
    (ha : t.nearest? id .lib = some a) : a = id := by
  have hlib := h.hasKind (ht.isWithin_iff.mp (isWithin_nearest? ha)) (hasKind_nearest? ha)
  exact Option.some.inj (ha.symm.trans (nearest?_self hlib))

/-- The lib of a module stands in its file. -/
theorem LibsInnermost.isWithin_fileOf (h : t.LibsInnermost) (ht : t.IsForest) (id : ModId) :
    t.isWithin ((t.nearest? id .lib).getD (t.fileOf id)) (t.fileOf id) = true := by
  cases ha : t.nearest? id .lib with
  | none => exact ht.isWithin_self _
  | some a =>
    rw [h.nearest?_eq ht ha]
    exact ht.isWithin_fileOf id

/-! ## Levels -/

/-- In a module, whoever may use a declaration of the first visibility may use one of the
second. -/
def Widens (t : ModuleTree) (module : ModId) (type : Option Ty) (narrow wide : VisSpec) : Prop :=
  ∀ view, t.isAccessible (t.visibility narrow module type) view = true →
    t.isAccessible (t.visibility wide module type) view = true

instance : Trans (t.Widens module type) (t.Widens module type) (t.Widens module type) :=
  ⟨fun h h' view hview => h' view (h view hview)⟩

/-- A visibility widens to one for a module around its own. -/
theorem IsForest.widens (ht : t.IsForest) {narrow wide : VisSpec} {level level' : Level}
    (ha : t.visibility narrow module type = .inside level a)
    (hb : t.visibility wide module type = .inside level' b) (h : t.isWithin a b = true) :
    t.Widens module type narrow wide := by
  intro view hview
  rw [ha] at hview
  rw [hb]
  exact ht.isWithin_trans hview h

theorem IsForest.isChain_widens (ht : t.IsForest) (hlibs : t.LibsInnermost) (module : ModId)
    (type : Option Ty) :
    [VisSpec.priv, .lib, .file, .folder, .pub].IsChain (t.Widens module type) := by
  have hlib : t.isWithin module ((t.nearest? module .lib).getD (t.fileOf module)) = true := by
    cases ha : t.nearest? module .lib with
    | none => exact ht.isWithin_fileOf module
    | some a => exact isWithin_nearest? ha
  refine .cons_cons ?_ (.cons_cons ?_ (.cons_cons ?_ (.cons_cons ?_ (.singleton _))))
  · exact ht.widens rfl rfl hlib
  · exact ht.widens rfl rfl (hlibs.isWithin_fileOf ht module)
  · exact ht.widens rfl rfl (ht.isWithin_getD_nearest? (t.fileOf module) .folder)
  · exact fun _ _ => rfl

end ModuleTree

/-! ## Registered programs -/

variable {p : Program} {o : Options} {s : Compiler}

/-- What stands in the home of a source is the home of a source, and no lib is one. -/
theorem Program.Houses.libsInnermost {home : Nat → Option ModId} {t : ModuleTree}
    (h : p.Houses home t) : t.LibsInnermost := by
  rintro id q hin ⟨around, haround, hlib⟩
  obtain ⟨m, hm, hq⟩ := ModuleTree.parent?_eq_some.mp hin
  refine ⟨m, hm, (h.lib id m hm).resolve_right ?_⟩
  rintro ⟨i, hi⟩
  obtain ⟨source, m', parent, -, hm', hmade, hup⟩ := h.made i id hi
  cases hm.symm.trans hm'
  have hparent : parent = some q := by rw [← hq]; exact (Mod.mk.inj hmade).2.2.1.symm
  rw [hparent] at hup
  obtain ⟨j, -, hj⟩ := Option.map_eq_some_iff.mp hup
  obtain ⟨source', around', parent', -, haround', hmade', -⟩ := h.made j q hj
  cases haround.symm.trans haround'
  have hkind : around.kind = (source'.toMod parent').kind := (Mod.mk.inj hmade').2.1
  rw [hlib] at hkind
  cases hs : source'.kind <;> rw [SourceModule.toMod, hs] at hkind <;> cases hkind

theorem Registers.houses (h : Registers p o s) :
    s.modules.IsForest ∧ ∃ home, p.Houses home s.modules := by
  have hsources := Emit.sourceModules_houses p o
  have hbind : EStateM.bind (Emit.sourceModules p o) (fun ids => Emit.registerRest p ids o)
      (.ofOptions o) = .ok () s := h
  unfold EStateM.bind at hbind
  cases hs : Emit.sourceModules p o (.ofOptions o) with
  | error f s₀ =>
    rw [hs] at hbind
    cases hbind
  | ok ids s₀ =>
    rw [hs] at hsources hbind
    obtain ⟨-, hforest, hhouses⟩ := hsources
    have hids : ∀ id ∈ ids, id < s₀.modules.size := by
      intro id hid
      obtain ⟨i, hi⟩ := List.mem_iff_getElem?.mp hid
      exact hhouses.lt_size hi
    have hgrows := Emit.grows_registerRest (p := p) hids o s₀ (.refl _)
    rw [show Emit.registerRest p ids o s₀ = .ok () s from hbind] at hgrows
    exact ⟨hgrows.forest hforest, _, hhouses.grows hgrows⟩

theorem Registers.libsInnermost (h : Registers p o s) : s.modules.LibsInnermost := by
  obtain ⟨-, home, hhouses⟩ := h.houses
  exact hhouses.libsInnermost

/-- In the tree of every program, in every module, each of the levels private, lib, file, folder
and public lets in whoever one before it lets in. -/
theorem visibilities_chain (h : Registers p o s) (module : ModId) (type : Option Ty) :
    [VisSpec.priv, .lib, .file, .folder, .pub].Pairwise (s.modules.Widens module type) :=
  List.isChain_iff_pairwise.mp (h.houses.1.isChain_widens h.libsInnermost module type)

/-- A folder with a file in which two libs stand, and another file. -/
def neighbours : Program :=
  let range : Span := ⟨0, 0, 0⟩
  let lib (name : String) : Decl := .lib ⟨name, range⟩ .pub none [] range
  ⟨#[⟨"pkg", .folder, none, 0, none, []⟩, ⟨"app", .file, none, 0, some 0, [lib "net", lib "log"]⟩,
    ⟨"util", .file, none, 0, some 0, []⟩]⟩

/-- The levels at which a declaration in a module is open to another module. -/
def openLevels (p : Program) (o : Options) (module viewer : ModId) : List Bool :=
  match Emit.registerProgram p o (.ofOptions o) with
  | .ok _ s => [VisSpec.priv, .lib, .file, .folder, .pub].map fun spec =>
      s.modules.isAccessible (s.modules.visibility spec module none) { module := viewer }
  | .error .. => []

/-- To one lib the other is open from its file on, to the other file from the folder on. -/
theorem visibilities_chain_neighbours :
    openLevels neighbours {} 3 4 = [false, false, true, true, true] ∧
    openLevels neighbours {} 3 2 = [false, false, false, true, true] ∧
    ∃ s, Registers neighbours {} s ∧
      [VisSpec.priv, .lib, .file, .folder, .pub].Pairwise (s.modules.Widens 3 none) := by
  have hlog : openLevels neighbours {} 3 4 = [false, false, true, true, true] := by
    decide +kernel
  refine ⟨hlog, by decide +kernel, ?_⟩
  cases hrun : Emit.registerProgram neighbours {} (.ofOptions {}) with
  | ok u s => exact ⟨s, hrun, visibilities_chain hrun 3 none⟩
  | error f s =>
    rw [openLevels, hrun] at hlog
    cases hlog

/-- A file in a lib, which no program has: its lib is further out than its file. -/
example :
    let range : Span := ⟨0, 0, 0⟩
    let t : ModuleTree := ((ModuleTree.addModule {} ⟨"l", range⟩ .lib none 0 none).1.addModule
      ⟨"f", range⟩ .file (some 0) 0 none).1
    t.isAccessible (t.visibility .lib 1 none) { module := 0 } = true ∧
      t.isAccessible (t.visibility .file 1 none) { module := 0 } = false := by
  decide +kernel

end Staged
