/-
  Staged.Proofs.Layouts.Compile — layouts last.

  Registering leaves the type table alone and every phase changes it, so the tables of a
  compilation come of one another, from the first to the one it ends with. Whatever a
  table has evolved to from the start, no type contains itself by value, and the recursions
  through definitions end. The fields of a struct and the variants of a mix are set at most
  once, when all of them have a size, and a type that has a layout never gets another one.

  Main statement: `layouts_last`.
-/

import Staged.Proofs.Halting.Compile
import Staged.Proofs.Layouts.Phase

namespace Staged

variable {o : Options} {s : Compiler} {id : EntityId} {phase : Phase}

/-- Calls of phases change the type table. -/
theorem along_changes (o : Options) :
    (compileHost o).Along (fun s => (s.Ready ∧ s.Accounts) ∧ s.Drafts)
      fun s s' => s.types.Changes s'.types where
  refl _ := .refl
  trans h h' := h.trans h'
  finished _ _ _ := .refl
  run p id s := by
    rintro ⟨⟨hs, haccounts⟩, hdrafts⟩ hd
    obtain ⟨site, hsite⟩ := site_of_due hs hd
    obtain ⟨hnext, hready⟩ := Host.due_iff.mp hd
    exact Emit.changes_runPhase hs.coherent hs.frames hsite hnext hready haccounts.whole
      (hdrafts.drafted hsite hnext)

/-- The type tables of a compilation: at its start, before and after every call of a phase,
and at its end. -/
def typeTables (p : Program) (o : Options) : List TypeTable :=
  let start := Compiler.ofOptions o
  let calls := match Emit.registerProgram p o start with
    | .ok _ s => (compileHost o).trace s
    | .error _ _ => []
  (start :: Host.ends calls ++ [((compileAction p o).run start).state]).map Compiler.types

theorem pairwise_changes (p : Program) (o : Options) :
    (typeTables p o).Pairwise TypeTable.Changes := by
  refine List.pairwise_map.mpr (pairwise_compileStates (preserves_drafts o) (along_changes o)
    (fun s hs => ⟨⟨hs.fresh.1.ready, hs.fresh.1.accounts⟩, hs.fresh.1.drafts⟩) ?_)
  rw [Emit.ignores_registerProgram p o (Compiler.ofOptions o) rfl]

theorem changes_typeTables (p : Program) (o : Options) :
    ∀ t ∈ typeTables p o, (Compiler.ofOptions o).types.Changes t := by
  intro t ht
  rcases List.mem_cons.mp ht with rfl | hlater
  · exact .refl
  · exact (List.pairwise_cons.mp (pairwise_changes p o)).1 t hlater

theorem pairwise_typeTables (p : Program) (o : Options) :
    (typeTables p o).Pairwise TypeTable.Evolves :=
  (pairwise_changes p o).imp TypeTable.Changes.evolves

/-- Wherever a compilation gets to, the default variant of a mix is one of its variants. -/
theorem hasDefaults_typeTables (p : Program) (o : Options) :
    ∀ t ∈ typeTables p o, t.HasDefaults := fun t ht =>
  (changes_typeTables p o t ht).hasDefaults fun d hd => absurd hd (Array.not_mem_empty d)

/-- The type tables of a compilation evolve from one another by edits. Wherever they get to,
no type contains itself by value and the recursions through definitions end; the parts of a
definition become known only when all of them have a size, and are never changed after that;
and a type that has a layout keeps it. -/
theorem layouts_last (p : Program) (o : Options) :
    (typeTables p o).Pairwise TypeTable.Evolves ∧
    ∀ t : TypeTable, (Compiler.ofOptions o).types.Evolves t → t.Unwinds ∧
      (∀ t', t.Edit t' → ∀ ty ps, t.parts? ty = none → t'.parts? ty = some ps →
        ∀ p ∈ ps, t.isSized p = true) ∧
      ∀ t', t.Evolves t' → t.Retains t' ∧
        ∀ ty l, t.layout? ty = some l → t'.layout? ty = some l := by
  refine ⟨pairwise_typeTables p o, fun t ht => ⟨?_, fun t' h ty ps => h.sized, fun t' h => ?_⟩⟩
  · exact ((TypeTable.grounded_ofPointerWidth _).grows ht.grows).unwinds
  · exact ⟨h.retains, fun ty l hl => h.retains.layout? hl⟩

/-- A struct with a mark to its own kind and a mix that is declared after it. -/
def linked : Program :=
  let range : Span := ⟨0, 0, 0⟩
  let named (name : String) : TypeExpr := .named range ⟨0, [⟨name, range⟩], range⟩
  let next : FieldDecl :=
    ⟨⟨"next", range⟩, .mark range (named "Node") .anonymous true false false, true, .pub⟩
  let load : FieldDecl := ⟨⟨"load", range⟩, named "Load", true, .pub⟩
  let decls : List DeclBody := [.struct ⟨⟨"Node", range⟩, .pub, [next, load], []⟩,
    .mix ⟨⟨"Load", range⟩, .pub,
      [⟨⟨"word", range⟩, some (.int range 64)⟩, ⟨⟨"empty", range⟩, none⟩], none, false⟩]
  ⟨#[⟨"app", .file, none, 0, none, decls.map fun d => .entity ⟨d, none, range⟩⟩]⟩

theorem layouts_last_linked :
    ∃ t ∈ typeTables linked {}, t.layout? (.struct 0) = some ⟨24, 8⟩ ∧ t.Unwinds ∧
      ∀ t', t.Evolves t' → t'.layout? (.struct 0) = some ⟨24, 8⟩ := by
  have hlast : (typeTables linked {}).getLast?.bind (·.layout? (.struct 0)) = some ⟨24, 8⟩ := by
    decide +kernel
  obtain ⟨t, ht, hlayout⟩ := Option.bind_eq_some_iff.mp hlast
  have hmem := List.mem_of_getLast? ht
  obtain ⟨hpairs, hlasts⟩ := layouts_last linked {}
  have hevolves : (Compiler.ofOptions {}).types.Evolves t := by
    rcases List.mem_cons.mp hmem with rfl | hlater
    · exact .refl
    · exact (List.pairwise_cons.mp hpairs).1 t hlater
  obtain ⟨hunwinds, -, hkept⟩ := hlasts t hevolves
  exact ⟨t, hmem, hlayout, hunwinds, fun t' h => (hkept t' h).2 _ _ hlayout⟩

end Staged
