/-
  Staged.Proofs.Jumps.Run — jumps of bodies that run at compile time.

  Loops that a sentence stands in are listed by their tags, innermost first. A body is nested
  if each of its jumps names a loop around it: any loop if the jump has no tag, and one with
  its tag otherwise (`sentencesNested`). That a loop repeats the tag of one around it is not
  ruled out here; what such a tag names is the inner loop.

  What a nested body hands on when it runs is for the loops around it (`JumpsWithin`): a loop
  takes the jumps that name it and hands on the others. So nothing gets out of a nested body
  that stands in no loop.
-/

import Staged.Proofs.Lowering.Known

namespace Staged

/-! ## Nested bodies -/

def jumpsInside (around : List (Option String)) (tag : Option Ident) : Bool :=
  around.any (Flow.targets (tag.map Ident.text))

mutual

/-- Each jump of a body names a loop around it. -/
def sentencesNested (around : List (Option String)) : List Sentence → Bool
  | [] => true
  | s :: rest => s.nested around && sentencesNested around rest

def Sentence.nested (around : List (Option String)) : Sentence → Bool
  | .cond _ branches none => branchesNested around branches
  | .cond _ branches (some body) => branchesNested around branches && sentencesNested around body
  | .whileDo _ _ body tag | .times _ _ _ body tag | .loop _ body tag
  | .forIn _ _ _ _ body tag => sentencesNested (tag.map Ident.text :: around) body
  | .breakLoop _ tag | .continueLoop _ tag => jumpsInside around tag
  | .block _ body => sentencesNested around body
  | .localVar .. | .assign .. | .opAssign .. | .expr .. | .give .. | .todo .. => true

def branchesNested (around : List (Option String)) : List Branch → Bool
  | [] => true
  | .mk _ body :: rest => sentencesNested around body && branchesNested around rest

end

/-! ## Jumps inside their loops -/

def Flow.Within (around : List (Option String)) : Flow → Prop
  | .brk tag | .cont tag => around.any (targets tag) = true
  | .normal | .give _ => True

namespace Emit

variable {α : Type} {call : Caller} {view : Viewpoint} {around : List (Option String)}

def JumpsWithin (around : List (Option String)) (a : Emit Flow) : Prop :=
  ∀ o s flow s', a o s = .ok flow s' → flow.Within around

theorem jumpsWithin_return {flow : Flow} (h : flow.Within around) :
    JumpsWithin around (return flow) := by
  intro o s flow' s' hr
  cases hr
  exact h

theorem JumpsWithin.after (a : Emit α) {k : α → Emit Flow} (h : ∀ v, JumpsWithin around (k v)) :
    JumpsWithin around (a >>= k) := by
  intro o s flow s' hr
  rw [bind_apply] at hr
  cases ha : a o s with
  | error e s₁ =>
    rw [ha] at hr
    cases hr
  | ok v s₁ =>
    rw [ha] at hr
    exact h v o s₁ flow s' hr

/-- What follows an action that may hand on a jump itself. -/
theorem JumpsWithin.bind {a : Emit Flow} {k : Flow → Emit Flow} {inner : List (Option String)}
    (ha : JumpsWithin inner a) (h : ∀ flow, flow.Within inner → JumpsWithin around (k flow)) :
    JumpsWithin around (a >>= k) := by
  intro o s flow s' hr
  rw [bind_apply] at hr
  cases hrun : a o s with
  | error e s₁ =>
    rw [hrun] at hr
    cases hr
  | ok v s₁ =>
    rw [hrun] at hr
    exact h v (ha o s v s₁ hrun) o s₁ flow s' hr

theorem jumpsWithin_refuse (f : Fault) (range : Span) : JumpsWithin around (refuse f range) :=
  fun _ _ _ _ hr => by cases hr

theorem jumpsWithin_bracket (before after : Emit Unit) {a : Emit Flow}
    (h : JumpsWithin around a) : JumpsWithin around (bracket before after a) := by
  intro o s flow s' hr
  rw [bracket_apply] at hr
  split at hr
  · cases hr
  · split at hr
    · rename_i hinside
      split at hr
      · cases hr
        exact h o _ _ _ hinside
      · cases hr
    · split at hr <;> cases hr

theorem jumpsWithin_inFrameScope {a : Emit Flow} (h : JumpsWithin around a) :
    JumpsWithin around (inFrameScope a) := jumpsWithin_bracket _ _ h

/-! ## Loops -/

/-- A loop hands on only jumps to loops around it. -/
theorem jumpsWithin_afterBody {tag : Option Ident} {flow : Flow} {next : Emit Flow}
    (hflow : flow.Within (tag.map Ident.text :: around)) (hnext : JumpsWithin around next) :
    JumpsWithin around (afterBody tag flow next) := by
  have hpassed {t : Option String} (ht : ¬Flow.targets t (tag.map Ident.text) = true)
      (h : (tag.map Ident.text :: around).any (Flow.targets t) = true) :
      around.any (Flow.targets t) = true := by
    rw [List.any_cons, Bool.or_eq_true] at h
    exact h.resolve_left ht
  unfold afterBody
  split
  · exact hnext
  · split
    · exact jumpsWithin_return trivial
    · exact jumpsWithin_return (hpassed ‹_› hflow)
  · split
    · exact hnext
    · exact jumpsWithin_return (hpassed ‹_› hflow)
  · exact jumpsWithin_return trivial

theorem jumpsWithin_runWhile {condition : Emit Bool} {body : Emit Flow} (range : Span)
    (tag : Option Ident) (hbody : JumpsWithin (tag.map Ident.text :: around) body) :
    ∀ left : Nat, JumpsWithin around (runWhile range tag condition body left)
  | 0 => .after _ fun _ => jumpsWithin_refuse _ _
  | left + 1 => by
    refine .after _ fun holds => ?_
    split
    · exact hbody.bind fun flow hflow => jumpsWithin_afterBody hflow (jumpsWithin_runWhile range tag hbody left)
    · exact jumpsWithin_return trivial

theorem jumpsWithin_runItems {body : Nat → Constant → Emit Flow} (range : Span)
    (tag : Option Ident) (item? : Nat → Option Constant)
    (hbody : ∀ i v, JumpsWithin (tag.map Ident.text :: around) (body i v)) :
    ∀ left position : Nat, JumpsWithin around (runItems range tag item? body position left)
  | 0, position => by
    unfold runItems
    split
    · exact jumpsWithin_return trivial
    · exact .after _ fun _ => jumpsWithin_refuse _ _
  | left + 1, position => by
    unfold runItems
    split
    · exact jumpsWithin_return trivial
    · exact (hbody _ _).bind fun flow hflow =>
        jumpsWithin_afterBody hflow (jumpsWithin_runItems range tag item? hbody left _)

/-! ## Bodies -/

mutual

/-- What a nested body hands on is for the loops around it. -/
theorem jumpsWithin_runSentencesWith (call : Caller) (view : Viewpoint) :
    ∀ (ss : List Sentence) {around : List (Option String)}, sentencesNested around ss = true →
      JumpsWithin around (runSentencesWith call view ss)
  | [], _, _ => by
    unfold runSentencesWith
    exact jumpsWithin_return trivial
  | s :: rest, _, h => by
    unfold sentencesNested at h
    rw [Bool.and_eq_true] at h
    unfold runSentencesWith
    refine (jumpsWithin_runSentenceWith call view s h.1).bind fun flow hflow => ?_
    split
    · exact jumpsWithin_runSentencesWith call view rest h.2
    · exact jumpsWithin_return hflow

theorem jumpsWithin_runSentenceWith (call : Caller) (view : Viewpoint) :
    ∀ (s : Sentence) {around : List (Option String)}, s.nested around = true →
      JumpsWithin around (runSentenceWith call view s)
  | .localVar .., _, _ | .assign .., _, _ | .opAssign .., _, _ | .expr .., _, _ => by
    unfold runSentenceWith
    repeat' first
      | exact jumpsWithin_return trivial
      | refine .after _ fun _ => ?_
      | split
  | .cond _ branches none, _, h => by
    unfold Sentence.nested at h
    unfold runSentenceWith
    exact jumpsWithin_runBranchesWith call view branches h (jumpsWithin_return trivial)
  | .cond _ branches (some body), _, h => by
    unfold Sentence.nested at h
    rw [Bool.and_eq_true] at h
    unfold runSentenceWith
    exact jumpsWithin_runBranchesWith call view branches h.1
      (jumpsWithin_inFrameScope (jumpsWithin_runSentencesWith call view body h.2))
  | .whileDo range _ body tag, _, h => by
    unfold Sentence.nested at h
    unfold runSentenceWith
    exact .after _ fun _ => jumpsWithin_runWhile range tag
      (jumpsWithin_inFrameScope (jumpsWithin_runSentencesWith call view body h)) _
  | .loop range body tag, _, h => by
    unfold Sentence.nested at h
    unfold runSentenceWith
    exact .after _ fun _ => jumpsWithin_runWhile range tag
      (jumpsWithin_inFrameScope (jumpsWithin_runSentencesWith call view body h)) _
  | .times range _ index body tag, _, h => by
    unfold Sentence.nested at h
    have hbody := jumpsWithin_inFrameScope (jumpsWithin_runSentencesWith call view body h)
    unfold runSentenceWith
    refine .after _ fun count => .after _ fun t => ?_
    dsimp only
    split
    on_goal 2 => refine .after _ fun _ => ?_
    all_goals
      refine .after _ fun total => .after _ fun o => jumpsWithin_runItems range tag _ (fun _ v => ?_) _ _
      refine jumpsWithin_inFrameScope ?_
      cases index with
      | none => exact hbody
      | some n => exact .after _ fun _ => hbody
  | .forIn range _ item index body tag, _, h => by
    unfold Sentence.nested at h
    have hbody := jumpsWithin_inFrameScope (jumpsWithin_runSentencesWith call view body h)
    unfold runSentenceWith
    refine .after _ fun v => .after _ fun items => .after _ fun o =>
      jumpsWithin_runItems range tag _ (fun i v => jumpsWithin_inFrameScope (.after _ fun _ => ?_)) _ _
    cases index with
    | none => exact hbody
    | some n => exact .after _ fun _ => hbody
  | .breakLoop _ tag, _, h => by
    unfold runSentenceWith
    exact jumpsWithin_return h
  | .continueLoop _ tag, _, h => by
    unfold runSentenceWith
    exact jumpsWithin_return h
  | .give _ value, _, _ => by
    unfold runSentenceWith
    refine .after _ fun _ => ?_
    cases value with
    | none => exact jumpsWithin_return trivial
    | some e => exact .after _ fun _ => jumpsWithin_return trivial
  | .block _ body, _, h => by
    unfold Sentence.nested at h
    unfold runSentenceWith
    exact jumpsWithin_inFrameScope (jumpsWithin_runSentencesWith call view body h)
  | .todo .., _, _ => by
    unfold runSentenceWith
    exact .after _ fun _ => jumpsWithin_return trivial

theorem jumpsWithin_runBranchesWith (call : Caller) (view : Viewpoint) {otherwise : Emit Flow} :
    ∀ (bs : List Branch) {around : List (Option String)}, branchesNested around bs = true →
      JumpsWithin around otherwise → JumpsWithin around (runBranchesWith call view bs otherwise)
  | [], _, _, ho => by
    unfold runBranchesWith
    exact ho
  | .mk condition body :: rest, _, h, ho => by
    unfold branchesNested at h
    rw [Bool.and_eq_true] at h
    unfold runBranchesWith
    refine .after _ fun _ => .after _ fun holds => ?_
    split
    · exact jumpsWithin_inFrameScope (jumpsWithin_runSentencesWith call view body h.1)
    · exact jumpsWithin_runBranchesWith call view rest h.2 ho

end

end Emit

end Staged
