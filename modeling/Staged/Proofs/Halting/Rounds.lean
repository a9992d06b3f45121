/-
  Staged.Proofs.Halting.Rounds — the limit on compile-time loops.

  In a round, a loop over items finds one more item, a loop with a condition finds the
  condition true, and then the body runs. `Rounds` says that a loop completes a number of
  rounds, each of which lets it go on.

  A loop that completes fewer rounds than the limit does not meet it (`runItems_within`,
  `runWhile_within`). A loop that completes as many is refused when there is an item for one
  more round (`runItems_refused`) and ends otherwise (`runItems_ends`). A loop with a condition
  is refused there whatever its condition says (`runWhile_refused`). That is right for a loop
  whose condition is always true, but one that has completed all its rounds is refused too
  (`runWhile_ends_late`): the count goes up before the condition is asked.
-/

import Staged.Known.Evaluate
import Staged.Proofs.Lowering.Logic

namespace Staged.Emit

/-- The loop with this tag goes on after a round that ended so. -/
def goesOn (tag : Option Ident) : Flow → Bool
  | .normal => true
  | .cont t => Flow.targets t (tag.map Ident.text)
  | .brk _ | .give _ => false

abbrev Round := Nat → Compiler → Flow → Compiler → Prop

def itemRound (item? : Nat → Option Constant) (body : Nat → Constant → Emit Flow) (o : Options) :
    Round := fun position s flow s' =>
  ∃ v, item? position = some v ∧ body position v o s = .ok flow s'

def whileRound (condition : Emit Bool) (body : Emit Flow) (o : Options) : Round :=
  fun _ s flow s' => ∃ between, condition o s = .ok true between ∧ body o between = .ok flow s'

inductive Rounds (tag : Option Ident) (round : Round) : Nat → Nat → Compiler → Compiler → Prop
  | none {position : Nat} {s : Compiler} : Rounds tag round position 0 s s
  | more {position n : Nat} {s s' s'' : Compiler} {flow : Flow} : round position s flow s' →
      goesOn tag flow = true → Rounds tag round (position + 1) n s' s'' →
      Rounds tag round position (n + 1) s s''

variable {tag : Option Ident} {range : Span} {o : Options} {s s' : Compiler} {n m position : Nat}

theorem afterBody_of_goesOn {flow : Flow} (h : goesOn tag flow = true) (next : Emit Flow) :
    afterBody tag flow next = next := by
  cases flow with
  | normal => rfl
  | cont t => exact if_pos h
  | brk | give => cases h

/-- What would come next does not matter to a loop that is left. -/
theorem afterBody_of_left {flow : Flow} (h : goesOn tag flow = false) (next next' : Emit Flow) :
    afterBody tag flow next = afterBody tag flow next' := by
  cases flow with
  | normal => cases h
  | cont t =>
    have hleft : ¬Flow.targets t (tag.map Ident.text) = true := Bool.eq_false_iff.mp h
    simp only [afterBody, if_neg hleft]
  | brk | give => rfl

/-! ## Loops over items -/

section

variable {item? : Nat → Option Constant} {body : Nat → Constant → Emit Flow}

theorem runItems_round {flow : Flow} (left : Nat)
    (h : itemRound item? body o position s flow s') :
    runItems range tag item? body position (left + 1) o s =
      afterBody tag flow (runItems range tag item? body (position + 1) left) o s' := by
  obtain ⟨v, hv, hbody⟩ := h
  simp only [runItems, hv, bind_apply, hbody]

/-- Completed rounds only bring the loop nearer to the limit. -/
theorem runItems_rounds (range : Span) (h : Rounds tag (itemRound item? body o) position n s s')
    (left : Nat) :
    runItems range tag item? body position (n + left) o s =
      runItems range tag item? body (position + n) left o s' := by
  induction h with
  | none => rw [Nat.zero_add, Nat.add_zero]
  | @more position n s s' s'' flow hround hgoes _ ih =>
    rw [Nat.add_right_comm, runItems_round _ hround, afterBody_of_goesOn hgoes, ih,
      Nat.add_right_comm, Nat.add_assoc]

/-- The round after the last one that is allowed. -/
theorem runItems_refused (h : Rounds tag (itemRound item? body o) position n s s')
    (hmore : (item? (position + n)).isSome = true) :
    runItems range tag item? body position n o s =
      .error (.fault (.loopLimit o.loopLimit) range) s' := by
  obtain ⟨v, hv⟩ := Option.isSome_iff_exists.mp hmore
  have hrun := runItems_rounds range h 0
  rw [Nat.add_zero] at hrun
  rw [hrun]
  simp only [runItems, hv]
  rfl

/-- No round is left to be counted. -/
theorem runItems_ends (h : Rounds tag (itemRound item? body o) position n s s')
    (hlast : item? (position + n) = none) :
    runItems range tag item? body position n o s = .ok .normal s' := by
  have hrun := runItems_rounds range h 0
  rw [Nat.add_zero] at hrun
  rw [hrun]
  simp only [runItems, hlast]
  rfl

/-- A loop that is left earlier does not meet the limit. -/
theorem runItems_within (h : ¬∃ s', Rounds tag (itemRound item? body o) position n s s')
    (hm : n ≤ m) :
    runItems range tag item? body position m o s = runItems range tag item? body position n o s := by
  induction n generalizing m position s with
  | zero => exact absurd ⟨s, .none⟩ h
  | succ n ih =>
    obtain ⟨m, rfl⟩ : ∃ k, m = k + 1 := ⟨m - 1, by omega⟩
    cases hv : item? position with
    | none => simp only [runItems, hv]
    | some v =>
      cases hbody : body position v o s with
      | error f s' => simp only [runItems, hv, bind_apply, hbody]
      | ok flow s' =>
        have hround : itemRound item? body o position s flow s' := ⟨v, hv, hbody⟩
        rw [runItems_round _ hround, runItems_round _ hround]
        cases hgoes : goesOn tag flow with
        | false => rw [afterBody_of_left hgoes]
        | true =>
          rw [afterBody_of_goesOn hgoes, afterBody_of_goesOn hgoes]
          exact ih (fun ⟨s'', hs''⟩ => h ⟨s'', .more hround hgoes hs''⟩) (by omega)

end

/-! ## Loops with a condition -/

section

variable {condition : Emit Bool} {body : Emit Flow}

theorem runWhile_round {flow : Flow} (left : Nat)
    (h : whileRound condition body o position s flow s') :
    runWhile range tag condition body (left + 1) o s =
      afterBody tag flow (runWhile range tag condition body left) o s' := by
  obtain ⟨between, hcond, hbody⟩ := h
  simp only [runWhile, bind_apply, hcond, if_true, hbody]

theorem runWhile_rounds (range : Span)
    (h : Rounds tag (whileRound condition body o) position n s s') (left : Nat) :
    runWhile range tag condition body (n + left) o s =
      runWhile range tag condition body left o s' := by
  induction h with
  | none => rw [Nat.zero_add]
  | more hround hgoes _ ih =>
    rw [Nat.add_right_comm, runWhile_round _ hround, afterBody_of_goesOn hgoes, ih]

/-- The limit is met before the condition is asked. -/
theorem runWhile_refused (h : Rounds tag (whileRound condition body o) position n s s') :
    runWhile range tag condition body n o s =
      .error (.fault (.loopLimit o.loopLimit) range) s' := by
  have hrun := runWhile_rounds range h 0
  rw [Nat.add_zero] at hrun
  rw [hrun]
  rfl

/-- A loop that ends after as many rounds as are allowed needs one more to be seen to end. -/
theorem runWhile_ends_late {s'' : Compiler}
    (h : Rounds tag (whileRound condition body o) position n s s')
    (hlast : condition o s' = .ok false s'') :
    runWhile range tag condition body n o s =
        .error (.fault (.loopLimit o.loopLimit) range) s' ∧
      runWhile range tag condition body (n + 1) o s = .ok .normal s'' := by
  refine ⟨runWhile_refused h, ?_⟩
  rw [runWhile_rounds range h 1]
  simp only [runWhile, bind_apply, hlast]
  rfl

theorem runWhile_within (h : ¬∃ s', Rounds tag (whileRound condition body o) position n s s')
    (hm : n ≤ m) :
    runWhile range tag condition body m o s = runWhile range tag condition body n o s := by
  induction n generalizing m position s with
  | zero => exact absurd ⟨s, .none⟩ h
  | succ n ih =>
    obtain ⟨m, rfl⟩ : ∃ k, m = k + 1 := ⟨m - 1, by omega⟩
    cases hcond : condition o s with
    | error f s' => simp only [runWhile, bind_apply, hcond]
    | ok b between =>
      cases b with
      | false => simp only [runWhile, bind_apply, hcond, Bool.false_eq_true, if_false]
      | true =>
        cases hbody : body o between with
        | error f s' => simp only [runWhile, bind_apply, hcond, if_true, hbody]
        | ok flow s' =>
          -- both limits allow this round, and the rest is within the smaller one again
          have hround : whileRound condition body o position s flow s' := ⟨between, hcond, hbody⟩
          rw [runWhile_round _ hround, runWhile_round _ hround]
          cases hgoes : goesOn tag flow with
          | false => rw [afterBody_of_left hgoes]
          | true =>
            rw [afterBody_of_goesOn hgoes, afterBody_of_goesOn hgoes]
            exact ih (fun ⟨s'', hs''⟩ => h ⟨s'', .more hround hgoes hs''⟩) (by omega)

end

end Staged.Emit
