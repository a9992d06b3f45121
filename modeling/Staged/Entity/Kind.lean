/-
  Staged.Entity.Kind — the phases a declaration goes through.

  Every declaration outside a `lib` block header is an entity. Its kind fixes which of
  the three phases it takes part in, always in order. After the first of them it is
  usable in part; a struct is complete once it is laid out, every other entity after its
  last phase.
-/

namespace Staged

inductive Phase where
  | one | two | three
  deriving DecidableEq, Repr

namespace Phase

def all : List Phase := [one, two, three]

def number : Phase → Nat
  | one => 1
  | two => 2
  | three => 3

def ofNumber? (n : Nat) : Option Phase := all.find? (·.number == n)

/-- Not later than. -/
def le (a b : Phase) : Bool := a.number ≤ b.number

def text (p : Phase) : String := s!"phase_{p.number}"

end Phase

inductive EntityKind where
  | function | struct | mix | choice | skill | doSkill | global | prerunFunction
  | prerunGlobal | typeDef | bring
  deriving DecidableEq, Repr

namespace EntityKind

/-- The first phase of a kind and those that follow it. -/
def schedule : EntityKind → Phase × List Phase
  | struct => (.one, [.two, .three])
  | function => (.one, [.three])
  | mix | typeDef => (.one, [.two])
  | doSkill => (.two, [.three])
  | global => (.two, [])
  | choice | skill | prerunFunction | prerunGlobal | bring => (.one, [])

def phases (k : EntityKind) : List Phase := k.schedule.1 :: k.schedule.2

def firstPhase (k : EntityKind) : Phase := k.schedule.1

def partialAfter (k : EntityKind) : Phase := k.firstPhase

def completeAfter (k : EntityKind) : Phase :=
  match k with
  | struct => .two
  | _ => k.schedule.2.getLast?.getD k.schedule.1

def name : EntityKind → String
  | function => "function"
  | struct => "struct type"
  | mix => "mix type"
  | choice => "choice type"
  | skill => "skill"
  | doSkill => "skill implementation"
  | global => "global"
  | prerunFunction => "prerun function"
  | prerunGlobal => "prerun global"
  | typeDef => "type definition"
  | bring => "bring"

def all : List EntityKind :=
  [function, struct, mix, choice, skill, doSkill, global, prerunFunction, prerunGlobal,
    typeDef, bring]

def ofName? (s : String) : Option EntityKind := all.find? (·.name == s)

end EntityKind

end Staged
