/-
  Staged.Proofs.Jumps.Exit — running a body with its jumps resolved in advance.

  A running body hands a jump on as a `Flow` with the tag that was written, and every loop on
  the way compares it with its own. Here a jump says instead how many loops it leaves before
  its own (`Exit`): that number follows from the loops around the jump, of which it names the
  innermost that has its tag. A loop looks at nothing but whether the number is zero. Both
  ways of running a body are one and the same (`map_runSentencesWith`).
-/

import Staged.Proofs.Jumps.Run

namespace Staged

inductive Exit where
  | normal
  | brk (depth : Nat)
  | cont (depth : Nat)
  | give (value : Option Constant)

/-- The loops between a jump and the innermost loop that it names; all of them, if it names
none. -/
def jumpDepth (around : List (Option String)) (tag : Option String) : Nat :=
  around.findIdx (Flow.targets tag)

def Exit.of (around : List (Option String)) : Flow → Exit
  | .normal => .normal
  | .brk tag => .brk (jumpDepth around tag)
  | .cont tag => .cont (jumpDepth around tag)
  | .give value => .give value

namespace Emit

/-! ## Running with resolved jumps -/

def afterExit (exit : Exit) (next : Emit Exit) : Emit Exit :=
  match exit with
  | .normal | .cont 0 => next
  | .brk 0 => return .normal
  | .brk (depth + 1) => return .brk depth
  | .cont (depth + 1) => return .cont depth
  | .give value => return .give value

def runWhileExit (range : Span) (condition : Emit Bool) (body : Emit Exit) : Nat → Emit Exit
  | 0 => refuseLoop range
  | left + 1 => do
    if ← condition then
      let exit ← body
      afterExit exit (runWhileExit range condition body left)
    else return .normal

def runItemsExit (range : Span) (item? : Nat → Option Constant)
    (body : Nat → Constant → Emit Exit) (position : Nat) : Nat → Emit Exit
  | 0 => match item? position with
    | none => return .normal
    | some _ => refuseLoop range
  | left + 1 => match item? position with
    | none => return .normal
    | some v => do
      let exit ← body position v
      afterExit exit (runItemsExit range item? body (position + 1) left)

mutual

def runSentencesExit (call : Caller) (view : Viewpoint) (around : List (Option String)) :
    List Sentence → Emit Exit
  | [] => return .normal
  | s :: rest => do
    match ← runSentenceExit call view around s with
    | .normal => runSentencesExit call view around rest
    | exit => return exit

/-- Sentences that are neither jumps nor made of others run as before. -/
def runSentenceExit (call : Caller) (view : Viewpoint) (around : List (Option String)) :
    Sentence → Emit Exit
  | .cond _ branches otherwise =>
    runBranchesExit call view around branches <| match otherwise with
      | some body => inFrameScope (runSentencesExit call view around body)
      | none => return .normal
  | .whileDo range condition body tag => do
    runWhileExit range
      (do asCondition (← evaluateWith call view condition (some .bool)) condition.range)
      (inFrameScope (runSentencesExit call view (tag.map Ident.text :: around) body))
      (← read).loopLimit
  | .loop range body tag => do
    runWhileExit range (return true)
      (inFrameScope (runSentencesExit call view (tag.map Ident.text :: around) body))
      (← read).loopLimit
  | .times range count index body tag => do
    let count ← evaluateWith call view count (some .usize)
    unless (← types).isIntegral count.type do mismatch .usize count.type range
    let total ← require count.asInt? (.mismatch .usize count.type) range
    let item? (i : Nat) := if (i : Int) < total then some (Constant.int count.type i) else none
    let iteration (_ : Nat) (v : Constant) : Emit Exit := inFrameScope do
      if let some n := index then
        let _ ← declareKnown n.text v false
      inFrameScope (runSentencesExit call view (tag.map Ident.text :: around) body)
    runItemsExit range item? iteration 0 (← read).loopLimit
  | .forIn range iterable item index body tag => do
    let items ← loopItems (← evaluateWith call view iterable none) range
    let iteration (i : Nat) (v : Constant) : Emit Exit := inFrameScope do
      let _ ← declareKnown item.text v false
      if let some n := index then
        let _ ← declareKnown n.text (.int .usize i) false
      inFrameScope (runSentencesExit call view (tag.map Ident.text :: around) body)
    runItemsExit range (items[·]?) iteration 0 (← read).loopLimit
  | .breakLoop _ tag => return .brk (jumpDepth around (tag.map Ident.text))
  | .continueLoop _ tag => return .cont (jumpDepth around (tag.map Ident.text))
  | .block _ body => inFrameScope (runSentencesExit call view around body)
  | s => Exit.of around <$> runSentenceWith call view s

def runBranchesExit (call : Caller) (view : Viewpoint) (around : List (Option String)) :
    List Branch → Emit Exit → Emit Exit
  | [], otherwise => otherwise
  | .mk condition body :: rest, otherwise => do
    if ← asCondition (← evaluateWith call view condition (some .bool)) condition.range then
      inFrameScope (runSentencesExit call view around body)
    else runBranchesExit call view around rest otherwise

end

/-! ## Both ways agree -/

variable {α β : Type} {around : List (Option String)}

theorem map_apply (f : α → β) (a : Emit α) (o : Options) (s : Compiler) :
    (f <$> a) o s = match a o s with
      | .ok v s' => .ok (f v) s'
      | .error e s' => .error e s' := by
  rw [← bind_pure_comp, bind_apply]
  cases a o s <;> rfl

theorem map_bracket (f : α → β) (before after : Emit Unit) (a : Emit α) :
    f <$> bracket before after a = bracket before after (f <$> a) := by
  funext o s
  rw [map_apply, bracket_apply, bracket_apply]
  cases before o s with
  | error e s₁ => rfl
  | ok u s₁ =>
    dsimp only
    rw [map_apply]
    cases a o s₁ with
    | ok v s₂ =>
      dsimp only
      cases after o s₂ <;> rfl
    | error e s₂ =>
      dsimp only
      cases after o s₂ <;> rfl

theorem map_inFrameScope (f : α → β) (a : Emit α) :
    f <$> inFrameScope a = inFrameScope (f <$> a) := map_bracket f _ _ a

theorem map_refuseLoop (f : α → β) (range : Span) :
    f <$> (refuseLoop range : Emit α) = refuseLoop range := by
  unfold refuseLoop
  rw [map_bind]
  rfl

theorem jumpDepth_cons {tag loop : Option String} : jumpDepth (loop :: around) tag =
    if Flow.targets tag loop then 0 else jumpDepth around tag + 1 := by
  unfold jumpDepth
  rw [List.findIdx_cons]
  cases Flow.targets tag loop <;> rfl

theorem map_afterBody (tag : Option Ident) (flow : Flow) (next : Emit Flow) :
    Exit.of around <$> afterBody tag flow next =
      afterExit (Exit.of (tag.map Ident.text :: around) flow) (Exit.of around <$> next) := by
  cases flow with
  | normal | give => simp [afterBody, Exit.of, afterExit]
  | brk t | cont t =>
    simp only [afterBody, Exit.of, jumpDepth_cons]
    split <;> simp [afterExit, Exit.of]

theorem map_runWhile (range : Span) (tag : Option Ident) (condition : Emit Bool)
    (body : Emit Flow) (left : Nat) :
    Exit.of around <$> runWhile range tag condition body left =
      runWhileExit range condition (Exit.of (tag.map Ident.text :: around) <$> body) left := by
  induction left with
  | zero => exact map_refuseLoop _ range
  | succ left ih =>
    unfold runWhile runWhileExit
    rw [map_bind]
    refine congrArg _ (funext fun holds => ?_)
    split
    · rw [map_bind, bind_map_left]
      refine congrArg _ (funext fun flow => ?_)
      rw [map_afterBody, ih]
    · exact map_pure _ _

theorem map_runItems (range : Span) (tag : Option Ident) (item? : Nat → Option Constant)
    (body : Nat → Constant → Emit Flow) (left : Nat) :
    ∀ position, Exit.of around <$> runItems range tag item? body position left =
      runItemsExit range item? (fun i v => Exit.of (tag.map Ident.text :: around) <$> body i v)
        position left := by
  induction left with
  | zero =>
    intro position
    unfold runItems runItemsExit
    cases item? position with
    | none => exact map_pure _ _
    | some v => exact map_refuseLoop _ range
  | succ left ih =>
    intro position
    unfold runItems runItemsExit
    cases item? position with
    | none => exact map_pure _ _
    | some v =>
      dsimp only
      rw [map_bind, bind_map_left]
      refine congrArg _ (funext fun flow => ?_)
      rw [map_afterBody, ih]

mutual

/-- Resolving the jumps of a body in advance changes nothing. -/
theorem map_runSentencesWith (call : Caller) (view : Viewpoint) :
    ∀ (ss : List Sentence) (around : List (Option String)),
      Exit.of around <$> runSentencesWith call view ss = runSentencesExit call view around ss
  | [], _ => by
    unfold runSentencesWith runSentencesExit
    exact map_pure _ _
  | s :: rest, around => by
    unfold runSentencesWith runSentencesExit
    rw [map_bind, ← map_runSentenceWith call view s around, bind_map_left]
    refine congrArg _ (funext fun flow => ?_)
    cases flow with
    | normal => exact map_runSentencesWith call view rest around
    | brk | cont | give => exact map_pure _ _

theorem map_runSentenceWith (call : Caller) (view : Viewpoint) :
    ∀ (s : Sentence) (around : List (Option String)),
      Exit.of around <$> runSentenceWith call view s = runSentenceExit call view around s
  | .localVar .., _ | .assign .., _ | .opAssign .., _ | .expr .., _ | .give .., _
  | .todo .., _ => by
    unfold runSentenceExit
    rfl
  | .cond _ branches none, around => by
    unfold runSentenceWith runSentenceExit
    rw [map_runBranchesWith call view branches around]
    rfl
  | .cond _ branches (some body), around => by
    unfold runSentenceWith runSentenceExit
    rw [map_runBranchesWith call view branches around, map_inFrameScope,
      map_runSentencesWith call view body around]
  | .whileDo range condition body tag, around => by
    unfold runSentenceWith runSentenceExit
    rw [map_bind]
    refine congrArg _ (funext fun o => ?_)
    rw [map_runWhile, map_inFrameScope, map_runSentencesWith call view body]
  | .loop range body tag, around => by
    unfold runSentenceWith runSentenceExit
    rw [map_bind]
    refine congrArg _ (funext fun o => ?_)
    rw [map_runWhile, map_inFrameScope, map_runSentencesWith call view body]
  | .times range count index body tag, around => by
    have hbody := map_runSentencesWith call view body (tag.map Ident.text :: around)
    unfold runSentenceWith runSentenceExit
    rw [map_bind]
    refine congrArg _ (funext fun c => ?_)
    rw [map_bind]
    refine congrArg _ (funext fun t => ?_)
    dsimp only
    cases index with
    | none => split <;> simp only [map_bind, map_runItems, map_inFrameScope, hbody]
    | some n => split <;> simp only [map_bind, map_runItems, map_inFrameScope, hbody]
  | .forIn range iterable item index body tag, around => by
    have hbody := map_runSentencesWith call view body (tag.map Ident.text :: around)
    unfold runSentenceWith runSentenceExit
    cases index with
    | none => simp only [map_bind, map_runItems, map_inFrameScope, hbody]
    | some n => simp only [map_bind, map_runItems, map_inFrameScope, hbody]
  | .breakLoop _ tag, around => by
    unfold runSentenceWith runSentenceExit
    exact map_pure _ _
  | .continueLoop _ tag, around => by
    unfold runSentenceWith runSentenceExit
    exact map_pure _ _
  | .block _ body, around => by
    unfold runSentenceWith runSentenceExit
    rw [map_inFrameScope, map_runSentencesWith call view body around]

theorem map_runBranchesWith (call : Caller) (view : Viewpoint) {otherwise : Emit Flow} :
    ∀ (bs : List Branch) (around : List (Option String)),
      Exit.of around <$> runBranchesWith call view bs otherwise =
        runBranchesExit call view around bs (Exit.of around <$> otherwise)
  | [], _ => by
    unfold runBranchesWith runBranchesExit
    rfl
  | .mk condition body :: rest, around => by
    unfold runBranchesWith runBranchesExit
    rw [map_bind]
    refine congrArg _ (funext fun c => ?_)
    rw [map_bind]
    refine congrArg _ (funext fun holds => ?_)
    split
    · rw [map_inFrameScope, map_runSentencesWith call view body around]
    · exact map_runBranchesWith call view rest around

end

end Emit

end Staged
