/-
  Staged.Declare.Skill — skills and their implementations.

  A skill lists methods; an implementation of it for a type has to provide each of them
  with the same signature. An implementation without a skill just adds members to a type.
-/

import Staged.Declare.Type

namespace Staged

/-- The method of an implementation that a skill asks for. -/
def SkillPrototype.provided? (p : SkillPrototype) (members : List MemberFunction) :
    Option MemberFunction :=
  members.find? fun m =>
    (m.kind == .method || m.kind == .variationMethod) && m.name == p.name.text

def SkillPrototype.isMatchedBy (p : SkillPrototype) (m : MemberFunction) : Bool :=
  m.kind.isVariation == p.variation && m.argTypes == p.args && m.result == p.result

namespace Emit

def skillPrototype (view : Viewpoint) (skill : Ident) (p : PrototypeDecl) :
    Emit SkillPrototype := do
  let args ← paramTypes view (.skillMethod p.name.text skill.text) p.args
  let result ← resultTypeOf view p.result
  return ⟨p.name, p.variation, args, result⟩

def skillType (view : Viewpoint) (id : EntityId) (d : SkillDecl) : Emit Unit := do
  checkUnique "Method" (d.prototypes.map PrototypeDecl.name)
  let prototypes ← d.prototypes.mapM (skillPrototype view d.name)
  let fullName ← fullNameOf view.module d.name
  let vis ← visibilityOf d.vis view.module none
  let skill ← modifyGet fun s =>
    let (types, skill) := s.types.addSkill ⟨d.name, fullName, view.module, vis, prototypes⟩
    (skill, { s with types })
  setSymbol id (.skill skill)

def skillTarget (view : Viewpoint) (d : DoSkillDecl) : Emit Ty := do
  let ty ← resolveType view d.target
  if ty == .void || ty.isRef then refuse (.doSkillTarget ty) d.target.range
  return ty

/-- The skill that an implementation names. -/
def skillNamed (view : Viewpoint) (name : Option QName) : Emit (Option SkillId) := do
  match name with
  | none => return none
  | some n => match ← resolved view n with
    | .module _ => refuse (.notASkill n.text) n.range
    | .item item => match ← symbolOf item.entity n.range with
      | .skill skill => return some skill
      | _ => refuse (.notASkill n.text) n.range

/-- Check that an implementation provides what its skill asks for. -/
def checkProvided (skill : SkillDef) (target : Ty) (members : List MemberFunction)
    (range : Span) : List SkillPrototype → Emit Unit
  | [] => return
  | p :: ps => do
    match p.provided? members with
    | none => refuse (.skillMissing skill.name.text p.name.text target p.name.range) range
    | some m =>
      unless p.isMatchedBy m do
        refuse (.skillSignature p.name.text skill.name.text p.name.range) m.range
      checkProvided skill target members range ps

/-- What the functions of an implementation are named after. -/
def implementationName (t : TypeTable) (target : Ty) (skill : Option SkillDef) : String :=
  t.name target ++ "'" ++ (skill.map SkillDef.fullName).getD "do"

def donePrototypes (view : Viewpoint) (id : EntityId) (d : DoSkillDecl) : Emit Unit := do
  let target ← skillTarget view d
  let skillId ← skillNamed view d.skill
  let done ← modifyGet fun s =>
    let (types, done) := s.types.addDone ⟨skillId, target, view.module, [], d.range⟩
    (done, { s with types })
  setSymbol id (.doneSkill done)
  let t ← types
  let skill := skillId.bind (t.skills[·]?)
  memberPrototypes { view with memberOf := some target } target
    (implementationName t target skill)
    (fun m => modifyTypes (·.modifyDone done fun s => { s with members := s.members ++ [m] }))
    0 d.members
  if let some skill := skill then
    let members := (((← types).done[done]?).map DoneSkill.members).getD []
    checkProvided skill target members d.range skill.prototypes

def doneBodies (view : Viewpoint) (id : EntityId) (d : DoSkillDecl) : Emit Unit := do
  match ← symbolOf id d.range with
  | .doneSkill done =>
    let members := (((← types).done[done]?).map DoneSkill.members).getD []
    memberBodies view.module members d.members
  | _ => breach .noDefinition

end Emit

end Staged
