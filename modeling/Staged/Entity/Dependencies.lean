/-
  Staged.Entity.Dependencies — from uses to dependencies.

  A use of an item is a dependency on its entity. Functions are needed in part only,
  types as the use asks, everything else completely. `Type::member` is a use of the
  type. A name that means nothing yet waits for every declaration of that name whose
  guard is open, and for every bring that has not run.
-/

import Staged.Entity.Uses
import Staged.Module.Resolve

namespace Staged

/-- What a use needs of an entity of a kind. -/
def EntityKind.needed (kind : EntityKind) (requested : Need) : Need :=
  match kind with
  | .function => .partially
  | .struct | .mix | .choice | .typeDef => requested
  | _ => .complete

/-- Where names are looked up while dependencies are collected. -/
structure UseSite where
  tree : ModuleTree
  view : Viewpoint
  pendingBrings : List EntityId

namespace UseSite

def dependencies (site : UseSite) (use : Use) : List Dependency :=
  if use.name.isSingle && use.headLocal then []
  else match site.tree.resolve site.view.module use.name site.view with
    | .ok (.item item) => [⟨item.entity, item.kind.needed use.need, use.phase⟩]
    | .ok (.module _) => []
    | .error e =>
      if _long : e.isNotAModule = true ∧ use.name.segments.length > 1 then
        site.dependencies
          { use with name := { use.name with segments := use.name.front }, need := .complete }
      else
        (site.tree.guardedCandidates site.view.module use.name site.view).map
            (⟨·, use.need, use.phase⟩) ++
          site.pendingBrings.map (⟨·, .complete, use.phase⟩)
termination_by use.name.segments.length
decreasing_by
  simp only [QName.front, List.length_dropLast]
  omega

end UseSite

end Staged
