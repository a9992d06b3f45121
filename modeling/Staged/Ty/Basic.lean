/-
  Staged.Ty.Basic — resolved types.

  A type is a tree whose leaves are the scalar types and the nominal ones. Structs,
  mixes and choices stand for the definition that created them, by its number, so two
  types are the same exactly when their trees are equal (`Ty.beq_iff_eq`), and that is
  decidable.

  A value of reference type is used as the value it refers to; `Ty.value` strips that
  one layer. References never refer to references.
-/

import Staged.Source.Expr

namespace Staged

inductive Ty where
  | int (bits : Nat)
  | uint (bits : Nat)
  | float (kind : FloatKind)
  | char
  | bool
  | void
  | str
  | mark (sub : Ty) (owner : Owner Ty) (nullable slice isVar : Bool)
  | ref (sub : Ty) (isVar : Bool)
  | array (element : Ty) (length : Nat)
  | vector (element : Ty) (count : Nat) (scalable : Bool)
  | tuple (members : List Ty) (packed : Bool)
  | struct (id : Nat)
  | mix (id : Nat)
  | choice (id : Nat)
  | function (result : Ty) (args : List Ty) (variadic : Bool)
  | future (sub : Ty) (packed : Bool)
  | maybe (sub : Ty)
  | typed (sub : Ty)
  | native (kind : Native)
  deriving Repr, Inhabited

namespace Ty

/-! ## Equality -/

mutual

def beq : Ty → Ty → Bool
  | int a, int b => a == b
  | uint a, uint b => a == b
  | float a, float b => a == b
  | char, char => true
  | bool, bool => true
  | void, void => true
  | str, str => true
  | mark s o n l v, mark s' o' n' l' v' =>
    beq s s' && beqOwner o o' && n == n' && l == l' && v == v'
  | ref s v, ref s' v' => beq s s' && v == v'
  | array e n, array e' n' => beq e e' && n == n'
  | vector e n s, vector e' n' s' => beq e e' && n == n' && s == s'
  | tuple ms p, tuple ms' p' => beqList ms ms' && p == p'
  | struct a, struct b => a == b
  | mix a, mix b => a == b
  | choice a, choice b => a == b
  | function r as v, function r' as' v' => beq r r' && beqList as as' && v == v'
  | future s p, future s' p' => beq s s' && p == p'
  | maybe s, maybe s' => beq s s'
  | typed s, typed s' => beq s s'
  | native a, native b => a == b
  | _, _ => false

def beqOwner : Owner Ty → Owner Ty → Bool
  | .anonymous, .anonymous => true
  | .heap, .heap => true
  | .type a, .type b => beq a b
  | _, _ => false

def beqList : List Ty → List Ty → Bool
  | [], [] => true
  | a :: as, b :: bs => beq a b && beqList as bs
  | _, _ => false

end

mutual

theorem beq_iff_eq (a b : Ty) : beq a b = true ↔ a = b := by
  cases a with
  | mark s o n l v =>
    cases b <;> simp [beq]
    rename_i s' o' n' l' v'
    rw [beq_iff_eq s s', beqOwner_iff_eq o o']
    grind
  | ref s v => cases b <;> simp [beq]; rename_i s' v'; simp [beq_iff_eq s s']
  | array s v => cases b <;> simp [beq]; rename_i s' v'; simp [beq_iff_eq s s']
  | vector s v w => cases b <;> simp [beq]; rename_i s' v' w'; rw [beq_iff_eq s s']; grind
  | tuple ms p => cases b <;> simp [beq]; rename_i ms' p'; simp [beqList_iff_eq ms ms']
  | function r as v =>
    cases b <;> simp [beq]
    rename_i r' as' v'
    rw [beq_iff_eq r r', beqList_iff_eq as as']
    grind
  | future s v => cases b <;> simp [beq]; rename_i s' v'; simp [beq_iff_eq s s']
  | maybe s => cases b <;> simp [beq]; rename_i s'; rw [beq_iff_eq s s']
  | typed s => cases b <;> simp [beq]; rename_i s'; rw [beq_iff_eq s s']
  | _ => cases b <;> simp [beq]

theorem beqOwner_iff_eq (a b : Owner Ty) : beqOwner a b = true ↔ a = b := by
  cases a with
  | type s => cases b <;> simp [beqOwner]; rename_i s'; rw [beq_iff_eq s s']
  | _ => cases b <;> simp [beqOwner]

theorem beqList_iff_eq (as bs : List Ty) : beqList as bs = true ↔ as = bs := by
  cases as with
  | nil => cases bs <;> simp [beqList]
  | cons a as =>
    cases bs with
    | nil => simp [beqList]
    | cons b bs => simp [beqList, beq_iff_eq a b, beqList_iff_eq as bs]

end

instance : DecidableEq Ty := fun a b => decidable_of_iff _ (beq_iff_eq a b)

/-! ## Types the language itself needs -/

/-- The type of lengths, counts and positions. -/
def usize : Ty := native .usize

/-- The type of integer literals that nothing else determines. -/
def i32 : Ty := int 32

def u8 : Ty := uint 8

def f64 : Ty := float .f64

/-- An address that owns nothing and is never null. -/
def markTo (sub : Ty) (isVar : Bool) : Ty := mark sub .anonymous false false isVar

/-- A mark that the heap owns. -/
def heapMark (sub : Ty) (slice : Bool) : Ty := mark sub .heap false slice true

/-! ## Parts -/

/-- What a reference refers to, and whether it may be changed through it. -/
def refInfo? : Ty → Option (Ty × Bool)
  | ref sub isVar => some (sub, isVar)
  | _ => none

def isRef : Ty → Bool
  | ref _ _ => true
  | _ => false

/-- The type a value of this type has when it is used. -/
def value : Ty → Ty
  | ref sub _ => sub
  | t => t

def isCString : Ty → Bool
  | native .cstring => true
  | _ => false

def isMark : Ty → Bool
  | mark .. => true
  | _ => false

/-- The target of a mark that is not a slice. -/
def pointee? : Ty → Option Ty
  | mark sub _ _ false _ => some sub
  | _ => none

def maybe? : Ty → Option Ty
  | maybe sub => some sub
  | _ => none

def element? : Ty → Option Ty
  | array element _ => some element
  | _ => none

end Ty

end Staged
