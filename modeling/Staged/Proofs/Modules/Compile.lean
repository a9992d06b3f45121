/-
  Staged.Proofs.Modules.Compile — the modules of a compilation.

  Names are given when a program is registered, when a guard is found to hold, and when a bring
  runs. Nothing else touches the module tree, so a call of a phase only changes it, whether it
  succeeds or fails (`along_reshapes`). The trees of a compilation come of one another by
  changes, from the empty one it starts with to the one it ends with, and in all of them the
  names of a module are apart.

  Main statement: `names_apart`.
-/

import Staged.Proofs.Compile.Closed
import Staged.Proofs.Compile.Run

namespace Staged

variable {o : Options} {s : Compiler} {id : EntityId}

/-- The failure of a name that is taken in a module: it says where. -/
def Failure.IsDuplicate (t : ModuleTree) (module : ModId) (name : Ident) (f : Failure) : Prop :=
  ∃ m range, t.get? module = some m ∧ t.Taken m name.text range ∧
    f = .fault (.duplicateName name.text range) name.range

namespace Emit

/-! ## Refusals -/

section

variable {m : Mod} {name : Ident}

theorem get_apply : (get : Emit Compiler) o s = .ok s s := rfl

/-- An item is refused next to an item, a brought entity or a lib of its name. -/
theorem registerName_refuses {site : Site} (hname : site.decl.body.name? = some name)
    (hm : s.modules.get? site.module = some m)
    (h : name.text ∈ m.itemNames ∨ name.text ∈ m.broughtNames ∨
      name.text ∈ s.modules.libNames m) :
    ∃ f, f.IsDuplicate s.modules site.module name ∧ registerName id site o s = .error f s := by
  have hfails : ∃ d, s.modules.addItem site.module ⟨name, id, site.decl.body.kind,
      s.modules.visibility site.decl.body.vis site.module none⟩ = .error d :=
    ModuleTree.addItem_error.mpr ⟨m, hm, h⟩
  obtain ⟨d, hd⟩ := hfails
  obtain ⟨m', hm', htaken⟩ := ModuleTree.addItem_taken hd
  refine ⟨_, ⟨m', d.existing, hm', htaken, rfl⟩, ?_⟩
  simp only [registerName, hname, bind_apply, get_apply, hd]
  rfl

/-- A brought entity is refused next to an item or a brought entity of its name. -/
theorem bringResolved_refuses {module : ModId} {item : Item} {vis : Visibility} {range : Span}
    (hm : s.modules.get? module = some m)
    (h : name.text ∈ m.itemNames ∨ name.text ∈ m.broughtNames) :
    ∃ f, f.IsDuplicate s.modules module name ∧
      bringResolved module (.item item) name vis range o s = .error f s := by
  have hfails : ∃ d, s.modules.addBroughtEntity module ⟨name, item, vis⟩ = .error d :=
    ModuleTree.addBroughtEntity_error.mpr ⟨m, hm, h⟩
  obtain ⟨d, hd⟩ := hfails
  obtain ⟨m', hm', htaken⟩ := ModuleTree.addBroughtEntity_taken hd
  refine ⟨_, ⟨m', d.existing, hm', htaken, rfl⟩, ?_⟩
  simp only [bringResolved, bind_apply, get_apply, hd]
  rfl

/-- A lib is refused next to an item or a lib of its name. -/
theorem registerLib_refuses {parent : ModId} {vis : VisSpec}
    (hm : s.modules.get? parent = some m)
    (h : name.text ∈ m.itemNames ∨ name.text ∈ s.modules.libNames m) :
    ∃ f, f.IsDuplicate s.modules parent name ∧
      registerLib parent name vis none o s = .error f s := by
  cases htaken : s.modules.takenForLib? m name.text with
  | none =>
    obtain ⟨hitem, hlib⟩ := ModuleTree.not_mem_of_takenForLib? htaken
    exact absurd h (not_or.mpr ⟨hitem, hlib⟩)
  | some range =>
    refine ⟨_, ⟨m, range, hm, ModuleTree.taken_of_takenForLib? htaken, rfl⟩, ?_⟩
    simp only [registerLib, bind_apply, get_apply, hm, Option.bind_some, htaken]
    rfl

end

end Emit

/-! ## Compilations -/

/-- Calls of phases change the module tree. -/
theorem along_reshapes (o : Options) :
    (compileHost o).Along Compiler.Ready fun s s' => s.modules.Changes s'.modules where
  refl _ := .refl
  trans h h' := h.trans h'
  finished _ _ _ := .refl
  run _ id s _ _ :=
    Emit.maintains_runPhase (Compiler.enduring_changes s.modules) id .refl

def moduleTrees (p : Program) (o : Options) : List ModuleTree :=
  (compileStates p o).map Compiler.modules

theorem pairwise_moduleTrees (p : Program) (o : Options) :
    (moduleTrees p o).Pairwise ModuleTree.Changes :=
  List.pairwise_map.mpr (pairwise_compileStates (preserves_ready o) (along_reshapes o)
    (fun _ hs => hs.fresh.1.ready)
    (Emit.maintains_registerProgram (Compiler.lasting_changes {}) p o (.ofOptions o) .refl))

/-- Whatever is compiled, at any time and however it ends: in every module, no two of its items
and libs have the same name, nor two of its items and brought entities, and it brings a module
at most once under one alias. -/
theorem names_apart (p : Program) (o : Options) : ∀ t ∈ moduleTrees p o, t.Apart := by
  intro t ht
  have hchanges : ModuleTree.Changes {} t := by
    rcases List.mem_cons.mp ht with rfl | hlater
    · exact .refl
    · exact (List.pairwise_cons.mp (pairwise_moduleTrees p o)).1 t hlater
  exact hchanges.apart ModuleTree.apart_empty

/-- A type that is brought under the name of a lib: here the two have one name. -/
example :
    let range : Span := ⟨0, 0, 0⟩
    let type : Decl := .entity ⟨.typeDef ⟨⟨"T", range⟩, .pub, .bool range⟩, none, range⟩
    let path : QName := ⟨0, [⟨"l", range⟩, ⟨"T", range⟩], range⟩
    let bring : Decl := .entity ⟨.bring ⟨.priv, [.path path (some ⟨"k", range⟩)]⟩, none, range⟩
    let libs : List Decl := [.lib ⟨"l", range⟩ .pub none [type] range,
      .lib ⟨"k", range⟩ .pub none [] range]
    ∃ t ∈ moduleTrees ⟨#[⟨"app", .file, none, 0, none, libs ++ [bring]⟩]⟩ {}, ∃ m,
      t.get? 0 = some m ∧ t.libNames m = ["l", "k"] ∧ m.broughtNames = ["k"] := by
  decide +kernel

end Staged
