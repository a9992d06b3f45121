/-
  Staged.Proofs.Variability.Assign — assignments respect variability.

  Wherever a compilation that succeeds comes to an assignment to a path, the path is
  variable, or what is written to is a temporary slot (`compile_assigns_variable`). The path
  need not start at anything variable: it may go through a variable reference that something
  else holds (`compile_not_always_startsVariable`).
-/

import Staged.Proofs.Compile.Enter
import Staged.Proofs.Variability.Place

namespace Staged

def Sentence.assigned? : Sentence → Option Expr
  | .assign _ lhs _ | .opAssign _ _ lhs _ => some lhs
  | _ => none

/-- An assignment that is lowered has found a place for its target first. -/
theorem Emit.returns_assignment {o : Options} {view : Viewpoint} {s : Compiler}
    {sentence : Sentence} {lhs : Expr} (htarget : sentence.assigned? = some lhs) :
    Emit.Returns o s (Emit.lowerSentence view sentence) fun _ _ =>
      ∃ place t, Emit.assignedPlace (Emit.operand view lhs) o s = .ok place t := by
  intro _ s' h
  cases sentence with
  | assign | opAssign =>
    cases htarget
    rw [Emit.lowerSentence] at h
    obtain ⟨place, t, hplace, -⟩ := Emit.bind_ok h
    exact ⟨place, t, hplace⟩
  | _ => cases htarget

/-- In a compilation that succeeds, an assignment to a path writes to a temporary slot or
to something variable. -/
theorem compile_assigns_variable (p : Program) (o : Options) (out : CompileOutput)
    (view : Viewpoint) (sentence : Sentence) (lhs : Expr) (s : Compiler)
    (h : compile p o = .ok out) (hgets : GetsTo p o (Emit.lowerSentence view sentence) s)
    (htarget : sentence.assigned? = some lhs) (hpath : isPath o view s lhs = true) :
    ∃ place s', Emit.assignedPlace (Emit.operand view lhs) o s = .ok place s' ∧
      (place.isTempSlot = true ∨ isVariable o view s lhs = true) := by
  obtain ⟨-, -, -, place, t, hplace⟩ := compile_returns h hgets (Emit.returns_assignment htarget)
  exact ⟨place, t, hplace, Emit.returns_assignedPlace hpath place t hplace⟩

/-! ## Programs -/

def Program.ofDecls (decls : List DeclBody) : Program :=
  ⟨#[⟨"app", .file, none, 0, none, decls.map fun d => .entity ⟨d, none, ⟨0, 0, 0⟩⟩⟩]⟩

/-- Whether a body begins with an assignment whose target passes a test. -/
def Start.assigns (test : Viewpoint → Compiler → Expr → Bool) (x : Start) : Bool :=
  x.sentence.assigned?.any (test x.view x.state)

theorem exists_assigned (p : Program) (o : Options) (test : Viewpoint → Compiler → Expr → Bool)
    (h : ((compile p o).isOk && (starts p o).any (Start.assigns test)) = true) :
    ∃ out view sentence lhs s, compile p o = .ok out ∧
      GetsTo p o (Emit.lowerSentence view sentence) s ∧ sentence.assigned? = some lhs ∧
      test view s lhs = true := by
  obtain ⟨hok, hany⟩ := Bool.and_eq_true_iff.mp h
  obtain ⟨x, hx, hassigns⟩ := List.any_eq_true.mp hany
  obtain ⟨lhs, htarget, htest⟩ := (Option.any_eq_true _ _).mp hassigns
  cases hcompile : compile p o with
  | error e =>
    rw [hcompile] at hok
    cases hok
  | ok out =>
    exact ⟨out, x.view, x.sentence, lhs, x.state, rfl, getsTo_of_mem_starts hx, htarget, htest⟩

/-- An assignment to a field of an element of a member of a parameter. -/
def delving : Program :=
  let range : Span := ⟨0, 0, 0⟩
  let name (s : String) : QName := ⟨0, [⟨s, range⟩], range⟩
  let number (n : Nat) : Expr := .int range n none
  let point : DeclBody :=
    .struct ⟨⟨"Point", range⟩, .pub, [⟨⟨"x", range⟩, .int range 32, true, .pub⟩], []⟩
  let points : TypeExpr := .tuple range [.array range (.named range (name "Point")) (number 2)] false
  let target : Expr := .member range (.index range (.member range (.entity range (name "t"))
    ⟨"0", range⟩) (number 1)) ⟨"x", range⟩
  .ofDecls [point, .function ⟨⟨"f", range⟩, .pub, [⟨⟨"t", range⟩, some points, true, false, range⟩],
    none, false, some [.assign range target (number 5)]⟩]

theorem compile_assigns_variable_delving : ∃ out view sentence lhs s,
    compile delving {} = .ok out ∧ GetsTo delving {} (Emit.lowerSentence view sentence) s ∧
      sentence.assigned? = some lhs ∧ isPath {} view s lhs = true ∧
      ∃ place s', Emit.assignedPlace (Emit.operand view lhs) {} s = .ok place s' ∧
        (place.isTempSlot = true ∨ isVariable {} view s lhs = true) := by
  obtain ⟨out, view, sentence, lhs, s, h, hgets, htarget, hpath⟩ :=
    exists_assigned delving {} (isPath {}) (by decide +kernel)
  exact ⟨out, view, sentence, lhs, s, h, hgets, htarget, hpath,
    compile_assigns_variable delving {} out view sentence lhs s h hgets htarget hpath⟩

/-! ## Where a path starts -/

/-- Whether a path starts at something variable: a variable name, a variable reference, or
`self` in a variation member. -/
def startsVariable (o : Options) (view : Viewpoint) (s : Compiler) : Expr → Bool
  | .entity range name =>
    s.namesVar view name || (typeOf? o view s (.entity range name)).any (·.refersToVar)
  | .self _ | .selfMember _ _ => s.selfIsVar
  | .member _ base _ | .index _ base _ => startsVariable o view s base
  | _ => false

/-- An assignment through a variable reference that a parameter holds. The parameter is not
variable. -/
def lending : Program :=
  let range : Span := ⟨0, 0, 0⟩
  let lent : TypeExpr := .tuple range [.ref range (.int range 32) true] false
  let target : Expr := .member range (.entity range ⟨0, [⟨"t", range⟩], range⟩) ⟨"0", range⟩
  .ofDecls [.function ⟨⟨"f", range⟩, .pub, [⟨⟨"t", range⟩, some lent, false, false, range⟩],
    none, false, some [.assign range target (.int range 5 none)]⟩]

/-- A path that is assigned to need not start at anything variable. -/
theorem compile_not_always_startsVariable : ¬∀ (p : Program) (o : Options) (out : CompileOutput)
    (view : Viewpoint) (sentence : Sentence) (lhs : Expr) (s : Compiler), compile p o = .ok out →
      GetsTo p o (Emit.lowerSentence view sentence) s → sentence.assigned? = some lhs →
      isPath o view s lhs = true → startsVariable o view s lhs = true := by
  intro hstarts
  obtain ⟨out, view, sentence, lhs, s, h, hgets, htarget, htest⟩ :=
    exists_assigned lending {} (fun view s e => isPath {} view s e && !startsVariable {} view s e)
      (by decide +kernel)
  obtain ⟨hpath, hnot⟩ := Bool.and_eq_true_iff.mp htest
  rw [hstarts lending {} out view sentence lhs s h hgets htarget hpath] at hnot
  cases hnot

end Staged
