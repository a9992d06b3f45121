/-
  Staged.Proofs.Schedule.Invariant — what every call keeps holds of a whole run.

  While a phase runs, no entity is left behind in an earlier one (`Host.Ahead`). A host
  keeps an invariant if each of its successful calls, counted as run, does, and leaves no
  entity behind (`Host.Preserves`). Then the invariant holds when a run succeeds, and all
  entities are finished. A run that fails does so in a call made where the invariant held,
  or because entities are stuck (`Host.Ends`), and then the invariant holds at its end
  (`Preserves.sticks`). Every call, one that fails too, begins where the invariant holds
  (`Preserves.before`).

  If every call, and counting it as run, takes the state along a relation, then so does the
  whole run, from any state on its way to any later one (`Preserves.pairwise`).
-/

import Staged.Proofs.Schedule.Outcome

namespace Staged.Host

variable {σ ε : Type} {h : Host σ ε} {Inv : σ → Prop}

def Ahead (h : Host σ ε) (p : Phase) (s : σ) : Prop :=
  ∀ id q, (h.graph s).nextPhase? id = some q → p.le q = true

/-- Every call that succeeds keeps the invariant and leaves no entity behind. -/
def Preserves (h : Host σ ε) (Inv : σ → Prop) : Prop :=
  ∀ p id s s', Inv s → h.Ahead p s → h.due p s id = true → h.run id p s = .ok () s' →
    Inv (h.finished p id s') ∧ h.Ahead p (h.finished p id s')

/-- The call of a run that fails is made where the invariant holds. -/
def FailsIn (h : Host σ ε) (Inv : σ → Prop) (calls : List (Call σ ε)) (e : ε) (t : σ) : Prop :=
  ∃ c ∈ calls, Inv c.before ∧ h.Ahead c.phase c.before ∧ h.due c.phase c.before c.id = true ∧
    h.run c.id c.phase c.before = .error e t ∧ c.error = some e ∧ c.after = t

def Ends {α : Type} (h : Host σ ε) (Inv : σ → Prop) (calls : List (Call σ ε)) :
    EStateM.Result ε σ α → Prop
  | .ok _ t => Inv t ∧ ∀ id, (h.graph t).nextPhase? id = none
  | .error e t => h.FailsIn Inv calls e t ∨
    ∃ report, report.stuck ≠ [] ∧ e = h.unresolved t report

theorem Ends.after {α : Type} {before calls : List (Call σ ε)} {r : EStateM.Result ε σ α}
    (hr : h.Ends Inv calls r) : h.Ends Inv (before ++ calls) r := by
  cases r with
  | ok v t => exact hr
  | error e t =>
    refine hr.imp_left fun ⟨c, hc, hrest⟩ => ⟨c, List.mem_append_right _ hc, hrest⟩

theorem Preserves.ran (hi : h.Preserves Inv) {p : Phase} {s t : σ} {calls : List (Call σ ε)}
    (hr : h.Ran p s calls t) (hs : Inv s) (ha : h.Ahead p s) : Inv t ∧ h.Ahead p t := by
  induction hr with
  | nil => exact ⟨hs, ha⟩
  | snoc id _ hd hrun ih => exact hi p id _ _ ih.1 ih.2 hd hrun

theorem Preserves.goes (hi : h.Preserves Inv) {Q : Phase → σ → Prop} {ps : List Phase} {s : σ}
    {calls : List (Call σ ε)} {r : EStateM.Result ε σ Unit} (hg : h.Goes Q ps s calls r) :
    ps <:+ Phase.all → Inv s → (∀ id q, (h.graph s).nextPhase? id = some q → q ∈ ps) →
    h.Ends Inv calls r := by
  induction hg with
  | ended s =>
    intro _ hs hnext
    refine ⟨hs, fun id => ?_⟩
    cases hn : (h.graph s).nextPhase? id with
    | none => rfl
    | some q => cases hnext id q hn
  | @phase p ps s t calls more r hr _ hstuck _ ih =>
    intro hps hs hnext
    have hahead : h.Ahead p s := fun id q hq => (Phase.mem_rest hps).1 q (hnext id q hq)
    refine (ih ((List.suffix_cons p ps).trans hps) (hi.ran hr hs hahead).1 fun id q hq => ?_).after
    exact (Phase.mem_rest hps).2 q (EntityGraph.stuck_eq_nil.mp hstuck id q hq)
  | @failed p ps s t calls e hf =>
    intro hps hs hnext
    obtain ⟨before, id, u, hb, hd, hrun, rfl⟩ := hf
    have hahead : h.Ahead p s := fun id q hq => (Phase.mem_rest hps).1 q (hnext id q hq)
    obtain ⟨hu, hau⟩ := hi.ran hb hs hahead
    exact .inl ⟨_, List.mem_append_right _ (List.mem_singleton.mpr rfl), hu, hau, hd, hrun, rfl, rfl⟩
  | stuck _ _ hstuck =>
    intro _ _ _
    exact .inr ⟨_, hstuck, rfl⟩

/-- A run from a state with an invariant that every call keeps. -/
theorem Preserves.runPhases (hi : h.Preserves Inv) {s : σ} (hs : Inv s) :
    h.Ends Inv (h.trace s) (h.runPhases s) := by
  obtain ⟨hg, -, -⟩ := h.trace_goes (Q := fun _ _ => True) (fun _ _ _ _ => trivial) s
  have hends := hi.goes hg (List.suffix_refl _) hs fun _ q _ => by cases q <;> decide
  cases ho : (h.outcome s).onState Progress.host with
  | ok _ t =>
    rw [ho] at hends
    rw [h.runPhases_ok ho]
    exact hends
  | error e t =>
    rw [ho] at hends
    rw [h.runPhases_error ho]
    exact hends

theorem Preserves.goes_end (hi : h.Preserves Inv) {Q : Phase → σ → Prop} {ps : List Phase} {s : σ}
    {calls : List (Call σ ε)} {r : EStateM.Result ε σ Unit} (hg : h.Goes Q ps s calls r) :
    ps <:+ Phase.all → Inv s → (∀ id q, (h.graph s).nextPhase? id = some q → q ∈ ps) →
    (∀ c ∈ calls, c.error = none) → Inv r.state := by
  induction hg with
  | ended s => exact fun _ hs _ _ => hs
  | @phase p ps s t calls more r hr _ hstuck _ ih =>
    intro hps hs hnext hok
    have hahead : h.Ahead p s := fun id q hq => (Phase.mem_rest hps).1 q (hnext id q hq)
    refine ih ((List.suffix_cons p ps).trans hps) (hi.ran hr hs hahead).1 (fun id q hq => ?_)
      fun c hc => hok c (List.mem_append_right _ hc)
    exact (Phase.mem_rest hps).2 q (EntityGraph.stuck_eq_nil.mp hstuck id q hq)
  | failed hf =>
    intro _ _ _ hok
    obtain ⟨before, id, u, -, -, -, rfl⟩ := hf
    cases hok _ (List.mem_append_right _ (List.mem_singleton.mpr rfl))
  | @stuck p ps s t calls hr _ _ =>
    intro hps hs hnext _
    exact (hi.ran hr hs fun id q hq => (Phase.mem_rest hps).1 q (hnext id q hq)).1

/-- The invariant holds of what is left when entities are stuck, as no call has failed. -/
theorem Preserves.sticks (hi : h.Preserves Inv) {s : σ} (hs : Inv s)
    (hsticks : h.Sticks (h.trace s) (h.runPhases s)) : Inv (h.runPhases s).state := by
  obtain ⟨-, -, -, hok, -⟩ := hsticks
  obtain ⟨hg, -, -⟩ := h.trace_goes (Q := fun _ _ => True) (fun _ _ _ _ => trivial) s
  have hend := hi.goes_end hg (List.suffix_refl _) hs (fun _ q _ => by cases q <;> decide) hok
  rw [h.runPhases_state]
  cases ho : h.outcome s <;> rw [ho] at hend <;> exact hend

/-! ## The states that calls begin with -/

theorem Preserves.ran_before (hi : h.Preserves Inv) {p : Phase} {s t : σ}
    {calls : List (Call σ ε)} (hr : h.Ran p s calls t) (hs : Inv s) (ha : h.Ahead p s) :
    ∀ c ∈ calls, Inv c.before := by
  induction hr with
  | nil => nofun
  | snoc id hr _ _ ih =>
    intro c hc
    rcases List.mem_append.mp hc with hc | hc
    · exact ih c hc
    · cases List.mem_singleton.mp hc
      exact (hi.ran hr hs ha).1

theorem Preserves.goes_before (hi : h.Preserves Inv) {Q : Phase → σ → Prop} {ps : List Phase}
    {s : σ} {calls : List (Call σ ε)} {r : EStateM.Result ε σ Unit} (hg : h.Goes Q ps s calls r) :
    ps <:+ Phase.all → Inv s → (∀ id q, (h.graph s).nextPhase? id = some q → q ∈ ps) →
    ∀ c ∈ calls, Inv c.before := by
  induction hg with
  | ended s => exact fun _ _ _ => nofun
  | @phase p ps s t calls more r hr _ hstuck _ ih =>
    intro hps hs hnext c hc
    have hahead : h.Ahead p s := fun id q hq => (Phase.mem_rest hps).1 q (hnext id q hq)
    rcases List.mem_append.mp hc with hc | hc
    · exact hi.ran_before hr hs hahead c hc
    · refine ih ((List.suffix_cons p ps).trans hps) (hi.ran hr hs hahead).1 (fun id q hq => ?_) c hc
      exact (Phase.mem_rest hps).2 q (EntityGraph.stuck_eq_nil.mp hstuck id q hq)
  | @failed p ps s t calls e hf =>
    intro hps hs hnext c hc
    have hahead : h.Ahead p s := fun id q hq => (Phase.mem_rest hps).1 q (hnext id q hq)
    obtain ⟨before, id, u, hb, -, -, rfl⟩ := hf
    rcases List.mem_append.mp hc with hc | hc
    · exact hi.ran_before hb hs hahead c hc
    · cases List.mem_singleton.mp hc
      exact (hi.ran hb hs hahead).1
  | stuck hr _ _ =>
    intro hps hs hnext
    exact hi.ran_before hr hs fun id q hq => (Phase.mem_rest hps).1 q (hnext id q hq)

/-- Every call of a run, whether it succeeds or not, is made where the invariant holds. -/
theorem Preserves.before (hi : h.Preserves Inv) {s : σ} (hs : Inv s) :
    ∀ c ∈ h.trace s, Inv c.before := by
  obtain ⟨hg, -, -⟩ := h.trace_goes (Q := fun _ _ => True) (fun _ _ _ _ => trivial) s
  exact hi.goes_before hg (List.suffix_refl _) hs fun _ q _ => by cases q <;> decide

/-! ## The states on the way -/

def ends (calls : List (Call σ ε)) : List σ := calls.flatMap fun c => [c.before, c.after]

theorem ends_append (calls more : List (Call σ ε)) :
    ends (calls ++ more) = ends calls ++ ends more := List.flatMap_append

theorem ends_snoc (calls : List (Call σ ε)) (c : Call σ ε) :
    ends (calls ++ [c]) = ends calls ++ [c.before] ++ [c.after] := by
  rw [ends_append, List.append_assoc]
  rfl

structure Along (h : Host σ ε) (Inv : σ → Prop) (R : σ → σ → Prop) : Prop where
  refl : ∀ s, R s s
  trans : ∀ {s t u}, R s t → R t u → R s u
  run : ∀ p id s, Inv s → h.due p s id = true → R s (h.run id p s).state
  finished : ∀ p id s, R s (h.finished p id s)

variable {R : σ → σ → Prop}

namespace Along

variable (hR : h.Along Inv R)
include hR

theorem pairwise_self (s : σ) : [s, s].Pairwise R :=
  List.pairwise_pair.mpr (hR.refl s)

theorem pairwise_snoc {ss : List σ} {s t : σ} (hss : (ss ++ [s]).Pairwise R) (hst : R s t) :
    (ss ++ [s] ++ [t]).Pairwise R := by
  refine List.pairwise_append.mpr ⟨hss, List.pairwise_singleton R t, fun a ha b hb => ?_⟩
  rw [List.mem_singleton.mp hb]
  rcases List.mem_append.mp ha with ha | ha
  · exact hR.trans ((List.pairwise_append.mp hss).2.2 a ha s List.mem_cons_self) hst
  · rw [List.mem_singleton.mp ha]
    exact hst

theorem pairwise_glue {ss ts : List σ} {s : σ} (hss : (ss ++ [s]).Pairwise R)
    (hts : (s :: ts).Pairwise R) : (ss ++ ts).Pairwise R := by
  obtain ⟨h, -, hs⟩ := List.pairwise_append.mp hss
  obtain ⟨ht, h'⟩ := List.pairwise_cons.mp hts
  exact List.pairwise_append.mpr
    ⟨h, h', fun a ha b hb => hR.trans (hs a ha s List.mem_cons_self) (ht b hb)⟩

theorem ran (hi : h.Preserves Inv) {p : Phase} {s t : σ} {calls : List (Call σ ε)}
    (hr : h.Ran p s calls t) (hs : Inv s) (ha : h.Ahead p s) :
    (s :: ends calls ++ [t]).Pairwise R := by
  induction hr with
  | nil => exact hR.pairwise_self s
  | @snoc t t' calls id hr hd hrun ih =>
    have hcall : R t t' := by
      have hcall := hR.run p id t (hi.ran hr hs ha).1 hd
      rw [hrun] at hcall
      exact hcall
    rw [ends_snoc]
    exact hR.pairwise_snoc (hR.pairwise_snoc ih hcall) (hR.finished p id t')

theorem failed (hi : h.Preserves Inv) {p : Phase} {s t : σ} {calls : List (Call σ ε)} {e : ε}
    (hf : h.Fails p s calls e t) (hs : Inv s) (ha : h.Ahead p s) :
    (s :: ends calls ++ [t]).Pairwise R := by
  obtain ⟨before, id, u, hb, hd, hrun, rfl⟩ := hf
  have hcall : R u t := by
    have hcall := hR.run p id u (hi.ran hb hs ha).1 hd
    rw [hrun] at hcall
    exact hcall
  rw [ends_snoc]
  exact hR.pairwise_snoc (hR.pairwise_snoc (hR.ran hi hb hs ha) hcall) (hR.refl t)

theorem goes (hi : h.Preserves Inv) {Q : Phase → σ → Prop} {ps : List Phase} {s : σ}
    {calls : List (Call σ ε)} {r : EStateM.Result ε σ Unit} (hg : h.Goes Q ps s calls r) :
    ps <:+ Phase.all → Inv s → (∀ id q, (h.graph s).nextPhase? id = some q → q ∈ ps) →
    (s :: ends calls ++ [r.state]).Pairwise R := by
  induction hg with
  | ended s => exact fun _ _ _ => hR.pairwise_self s
  | @phase p ps s t calls more r hr _ hstuck _ ih =>
    intro hps hs hnext
    have hahead : h.Ahead p s := fun id q hq => (Phase.mem_rest hps).1 q (hnext id q hq)
    have hrest := ih ((List.suffix_cons p ps).trans hps) (hi.ran hr hs hahead).1 fun id q hq =>
      (Phase.mem_rest hps).2 q (EntityGraph.stuck_eq_nil.mp hstuck id q hq)
    rw [ends_append, ← List.cons_append, List.append_assoc]
    exact hR.pairwise_glue (hR.ran hi hr hs hahead) hrest
  | @failed p ps s t calls e hf =>
    intro hps hs hnext
    exact hR.failed hi hf hs fun id q hq => (Phase.mem_rest hps).1 q (hnext id q hq)
  | stuck hr _ _ =>
    intro hps hs hnext
    exact hR.ran hi hr hs fun id q hq => (Phase.mem_rest hps).1 q (hnext id q hq)

end Along

/-- A run goes along a relation that every call goes along. -/
theorem Preserves.pairwise (hi : h.Preserves Inv) (hR : h.Along Inv R) {s : σ} (hs : Inv s) :
    (s :: ends (h.trace s) ++ [(h.runPhases s).state]).Pairwise R := by
  obtain ⟨hg, -, -⟩ := h.trace_goes (Q := fun _ _ => True) (fun _ _ _ _ => trivial) s
  have hgoes := hR.goes hi hg (List.suffix_refl _) hs fun _ q _ => by cases q <;> decide
  have hstate : (h.runPhases s).state = ((h.outcome s).onState Progress.host).state := by
    rw [runPhases_state]
    cases h.outcome s <;> rfl
  rw [hstate]
  exact hgoes

end Staged.Host
