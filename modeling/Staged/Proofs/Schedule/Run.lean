/-
  Staged.Proofs.Schedule.Run — what a run of the phases consists of.

  A run is a sequence of calls to the host. `Host.recorded` is a host that does what
  another one does and keeps a record of the calls made to it: the states before and
  after, and the error if there was one. It changes nothing else (`recorded_runAll`), and
  the calls of a run are what it has recorded (`Host.trace`).

  Within a phase, every call is made to an entity whose turn has come, and is counted as
  run when it succeeds (`Ran`). Over the phases, a run ends after the last phase, at the
  first call that fails, or at the first phase that leaves entities stuck (`Goes`). What
  else holds at the end of each phase is a parameter: with the passes bounded by more
  than a phase can run, nothing is due any more (`passes_quiet`), and more passes would
  change nothing (`passes_add`).
-/

import Staged.Entity.Scheduler
import Staged.Proofs.Graph

namespace EStateM.Result

variable {ε σ τ α : Type}

def state : Result ε σ α → σ
  | .ok _ s | .error _ s => s

def onState (f : σ → τ) : Result ε σ α → Result ε τ α
  | .ok a s => .ok a (f s)
  | .error e s => .error e (f s)

end EStateM.Result

namespace Staged

variable {σ τ ε : Type}

/-! ## Records of calls -/

structure Call (σ ε : Type) where
  id : EntityId
  phase : Phase
  before : σ
  after : σ
  /-- What the call failed with. -/
  error : Option ε

def Call.view (f : τ → σ) (c : Call τ ε) : Call σ ε :=
  ⟨c.id, c.phase, f c.before, f c.after, c.error⟩

namespace Host

def recorded (h : Host σ ε) : Host (σ × List (Call σ ε)) ε where
  graph s := h.graph s.1
  setGraph s g := (h.setGraph s.1 g, s.2)
  run id phase := fun s =>
    match h.run id phase s.1 with
    | .ok _ after => .ok () (after, s.2 ++ [⟨id, phase, s.1, after, none⟩])
    | .error e after => .error e (after, s.2 ++ [⟨id, phase, s.1, after, some e⟩])
  unresolved s report := h.unresolved s.1 report
  adds := h.adds

def trace (h : Host σ ε) (s : σ) : List (Call σ ε) :=
  (h.recorded.runAll ⟨(s, []), {}⟩).state.host.2

/-- How a run from a state ends, with what was counted on the way. -/
def outcome (h : Host σ ε) (s : σ) : EStateM.Result ε (Progress σ) Unit := h.runAll ⟨s, {}⟩

variable (h : Host σ ε)

/-! ## One step at a time -/

theorem step_eq (p : Phase) (id : EntityId) (r : Progress σ) :
    h.step p id r =
      if h.due p r.host id then
        match h.run id p r.host with
        | .ok _ s =>
          .ok true ⟨h.finished p id s, { r.stats with phaseRuns := r.stats.phaseRuns + 1 }⟩
        | .error e s => .error e ⟨s, r.stats⟩
      else .ok false r := by
  unfold step
  by_cases hd : h.due p r.host id = true
  · rw [if_pos hd]
    show (if h.due p r.host id = true then _ else _ : EStateM ε (Progress σ) Bool) r = _
    rw [if_pos hd]
    show EStateM.bind (atHost (h.run id p)) _ r = _
    unfold EStateM.bind atHost
    cases h.run id p r.host <;> rfl
  · rw [if_neg hd]
    show (if h.due p r.host id = true then _ else _ : EStateM ε (Progress σ) Bool) r = _
    rw [if_neg hd]
    rfl

theorem pass_cons (p : Phase) (id : EntityId) (ids : List EntityId) (r : Progress σ) :
    h.pass p (id :: ids) r =
      match h.step p id r with
      | .ok b r' => match h.pass p ids r' with
        | .ok n r'' => .ok (n + b.toNat) r''
        | .error e r'' => .error e r''
      | .error e r' => .error e r' := by
  simp only [pass, bind, EStateM.bind]
  cases h.step p id r with
  | ok b r' => simp only; cases h.pass p ids r' <;> rfl
  | error e r' => rfl

def counted (r : Progress σ) : Progress σ :=
  { r with stats := { r.stats with passes := r.stats.passes + 1 } }

theorem passes_succ (p : Phase) (fuel : Nat) (r : Progress σ) :
    h.passes p (fuel + 1) r =
      match h.pass p (List.range (h.graph r.host).size) (counted r) with
      | .ok n r' => if n = 0 then .ok () r' else h.passes p fuel r'
      | .error e r' => .error e r' := by
  show EStateM.bind (h.pass p (List.range (h.graph r.host).size)) _ (counted r) = _
  unfold EStateM.bind
  cases h.pass p (List.range (h.graph r.host).size) (counted r) with
  | ok n r' =>
    by_cases hn : n = 0
    · simp only [hn, if_true]
      rfl
    · simp only [hn, if_false]
  | error e r' => rfl

theorem runPhase_eq (p : Phase) (r : Progress σ) :
    h.runPhase p r =
      match h.passes p ((h.graph r.host).size + h.adds + 1) r with
      | .ok _ r' =>
        if ((h.graph r'.host).stuckReport p).stuck.isEmpty then .ok () r'
        else .error (h.unresolved r'.host ((h.graph r'.host).stuckReport p)) r'
      | .error e r' => .error e r' := by
  show EStateM.bind (h.passes p ((h.graph r.host).size + h.adds + 1)) _ r = _
  unfold EStateM.bind
  cases h.passes p ((h.graph r.host).size + h.adds + 1) r with
  | error e r' => rfl
  | ok u r' =>
    show (if ((h.graph r'.host).stuckReport p).stuck.isEmpty = true then _ else _ :
      EStateM ε (Progress σ) Unit) r' = _
    by_cases hs : ((h.graph r'.host).stuckReport p).stuck.isEmpty = true <;>
      simp only [hs, if_true] <;> rfl

theorem forM_cons (p : Phase) (ps : List Phase) (r : Progress σ) :
    (p :: ps).forM h.runPhase r =
      match h.runPhase p r with
      | .ok _ r' => ps.forM h.runPhase r'
      | .error e r' => .error e r' := by
  simp only [List.forM, bind, EStateM.bind]
  cases h.runPhase p r <;> rfl

/-! ## Hosts that do the same -/

end Host

def Progress.view (f : τ → σ) (r : Progress τ) : Progress σ := ⟨f r.host, r.stats⟩

structure Mirrors (f : τ → σ) (h' : Host τ ε) (h : Host σ ε) : Prop where
  graph : ∀ t, h'.graph t = h.graph (f t)
  setGraph : ∀ t g, f (h'.setGraph t g) = h.setGraph (f t) g
  run : ∀ id p t, (h'.run id p t).onState f = h.run id p (f t)
  unresolved : ∀ t report, h'.unresolved t report = h.unresolved (f t) report
  adds : h'.adds = h.adds

namespace Mirrors

variable {f : τ → σ} {h' : Host τ ε} {h : Host σ ε} (m : Mirrors f h' h)
include m

theorem due (p : Phase) (t : τ) (id : EntityId) : h'.due p t id = h.due p (f t) id := by
  simp only [Host.due, m.graph]

theorem finished (p : Phase) (id : EntityId) (t : τ) :
    f (h'.finished p id t) = h.finished p id (f t) := by
  simp only [Host.finished, m.graph, m.setGraph]

theorem step (p : Phase) (id : EntityId) (r : Progress τ) :
    (h'.step p id r).onState (Progress.view f) = h.step p id (r.view f) := by
  have hrun := m.run id p r.host
  simp only [Host.step_eq, m.due, Progress.view]
  by_cases hd : h.due p (f r.host) id = true
  · simp only [hd, if_true]
    rw [← hrun]
    cases h'.run id p r.host with
    | ok _ t => simp only [EStateM.Result.onState, Progress.view, m.finished]
    | error e t => rfl
  · simp only [hd]; rfl

theorem pass (p : Phase) : ∀ (ids : List EntityId) (r : Progress τ),
    (h'.pass p ids r).onState (Progress.view f) = h.pass p ids (r.view f) := by
  intro ids
  induction ids with
  | nil => intro r; rfl
  | cons id ids ih =>
    intro r
    rw [Host.pass_cons, Host.pass_cons, ← m.step]
    cases h'.step p id r with
    | error e r' => rfl
    | ok b r' =>
      simp only [EStateM.Result.onState, ← ih]
      cases h'.pass p ids r' <;> rfl

theorem passes (p : Phase) : ∀ (fuel : Nat) (r : Progress τ),
    (h'.passes p fuel r).onState (Progress.view f) = h.passes p fuel (r.view f) := by
  intro fuel
  induction fuel with
  | zero => intro r; rfl
  | succ fuel ih =>
    intro r
    have hg : (h'.graph r.host).size = (h.graph (r.view f).host).size := by rw [m.graph]; rfl
    rw [Host.passes_succ, Host.passes_succ, hg, show Host.counted (r.view f) =
      (Host.counted r).view f from rfl, ← m.pass]
    cases h'.pass p (List.range (h.graph (r.view f).host).size) (Host.counted r) with
    | error e r' => rfl
    | ok n r' =>
      by_cases hn : n = 0
      · simp only [EStateM.Result.onState, hn, if_true]
      · simp only [EStateM.Result.onState, hn, if_false]; exact ih r'

theorem runPhase (p : Phase) (r : Progress τ) :
    (h'.runPhase p r).onState (Progress.view f) = h.runPhase p (r.view f) := by
  have hg : (h'.graph r.host).size + h'.adds + 1 = (h.graph (r.view f).host).size + h.adds + 1 := by
    rw [m.graph, m.adds]; rfl
  rw [Host.runPhase_eq, Host.runPhase_eq, hg, ← m.passes]
  cases h'.passes p ((h.graph (r.view f).host).size + h.adds + 1) r with
  | error e r' => rfl
  | ok _ r' =>
    simp only [m.graph, m.unresolved]
    by_cases he : ((h.graph (f r'.host)).stuckReport p).stuck.isEmpty = true
    · simp only [he, if_true, EStateM.Result.onState, Progress.view]
    · simp only [he, EStateM.Result.onState, Progress.view]; rfl

theorem runAll (r : Progress τ) :
    (h'.runAll r).onState (Progress.view f) = h.runAll (r.view f) := by
  unfold Host.runAll
  generalize Phase.all = ps
  induction ps generalizing r with
  | nil => rfl
  | cons p ps ih =>
    rw [Host.forM_cons, Host.forM_cons, ← m.runPhase]
    cases h'.runPhase p r with
    | error e r' => rfl
    | ok _ r' => exact ih r'

end Mirrors

namespace Host

variable (h : Host σ ε)

theorem recorded_mirrors : Mirrors Prod.fst h.recorded h where
  graph _ := rfl
  setGraph _ _ := rfl
  run id p t := by
    simp only [recorded]
    cases h.run id p t.1 <;> rfl
  unresolved _ _ := rfl
  adds := rfl

/-- Keeping a record of the calls changes nothing else. -/
theorem recorded_runAll (s : σ) :
    (h.recorded.runAll ⟨(s, []), {}⟩).onState (Progress.view Prod.fst) = h.outcome s :=
  h.recorded_mirrors.runAll _

/-- The states and errors of a run do not depend on the counts being kept. -/
theorem runPhases_ok {s t : σ} {v : Unit}
    (ho : (h.outcome s).onState Progress.host = .ok v t) :
    h.runPhases s = .ok (h.outcome s).state.stats t := by
  unfold runPhases
  rw [show h.runAll ⟨s, {}⟩ = h.outcome s from rfl]
  cases hr : h.outcome s <;> rw [hr] at ho <;> cases ho
  rfl

theorem runPhases_error {s t : σ} {e : ε}
    (ho : (h.outcome s).onState Progress.host = .error e t) : h.runPhases s = .error e t := by
  unfold runPhases
  rw [show h.runAll ⟨s, {}⟩ = h.outcome s from rfl]
  cases hr : h.outcome s <;> rw [hr] at ho <;> cases ho
  rfl

theorem runPhases_state (s : σ) :
    (h.runPhases s).state = (h.outcome s).state.host := by
  simp only [runPhases, outcome]
  cases h.runAll ⟨s, {}⟩ <;> rfl

/-! ## Calls within a phase -/

inductive Ran (p : Phase) : σ → List (Call σ ε) → σ → Prop
  | nil (s : σ) : Ran p s [] s
  | snoc {s t t' : σ} {calls : List (Call σ ε)} (id : EntityId) : Ran p s calls t →
      h.due p t id = true → h.run id p t = .ok () t' →
      Ran p s (calls ++ [⟨id, p, t, t', none⟩]) (h.finished p id t')

section

variable {h}

theorem Ran.append {p : Phase} {s t u : σ} {calls more : List (Call σ ε)} (hs : h.Ran p s calls t)
    (ht : h.Ran p t more u) : h.Ran p s (calls ++ more) u := by
  induction ht with
  | nil => simpa using hs
  | snoc id _ hd hr ih => rw [← List.append_assoc]; exact ih.snoc id hd hr

theorem Ran.single {p : Phase} {s s' : σ} {id : EntityId} (hd : h.due p s id = true)
    (hr : h.run id p s = .ok () s') :
    h.Ran p s [⟨id, p, s, s', none⟩] (h.finished p id s') :=
  (Ran.nil s).snoc id hd hr

def Fails (h : Host σ ε) (p : Phase) (s : σ) (calls : List (Call σ ε)) (e : ε) (s' : σ) : Prop :=
  ∃ before id t, h.Ran p s before t ∧ h.due p t id = true ∧ h.run id p t = .error e s' ∧
    calls = before ++ [⟨id, p, t, s', some e⟩]

theorem Fails.after {p : Phase} {s t s' : σ} {calls more : List (Call σ ε)} {e : ε}
    (hs : h.Ran p s calls t) (hf : h.Fails p t more e s') : h.Fails p s (calls ++ more) e s' := by
  obtain ⟨before, id, u, hb, hd, hr, rfl⟩ := hf
  exact ⟨calls ++ before, id, u, hs.append hb, hd, hr, (List.append_assoc ..).symm⟩

end

theorem step_ok {p : Phase} {id : EntityId} {r r' : Progress σ} {b : Bool}
    (hs : h.step p id r = .ok b r') :
    (b = false ∧ r' = r ∧ h.due p r.host id = false) ∨
    (b = true ∧ h.due p r.host id = true ∧ ∃ s, h.run id p r.host = .ok () s ∧
      r' = ⟨h.finished p id s, { r.stats with phaseRuns := r.stats.phaseRuns + 1 }⟩) := by
  rw [step_eq] at hs
  by_cases hd : h.due p r.host id = true
  · rw [if_pos hd] at hs
    cases hr : h.run id p r.host with
    | ok _ s => rw [hr] at hs; cases hs; exact .inr ⟨rfl, hd, s, rfl, rfl⟩
    | error e s => rw [hr] at hs; cases hs
  · rw [if_neg hd] at hs
    cases hs
    exact .inl ⟨rfl, rfl, by simpa using hd⟩

theorem step_error {p : Phase} {id : EntityId} {r r' : Progress σ} {e : ε}
    (hs : h.step p id r = .error e r') :
    h.due p r.host id = true ∧ h.run id p r.host = .error e r'.host ∧ r'.stats = r.stats := by
  rw [step_eq] at hs
  by_cases hd : h.due p r.host id = true
  · rw [if_pos hd] at hs
    cases hr : h.run id p r.host with
    | ok _ s => rw [hr] at hs; cases hs
    | error e s => rw [hr] at hs; cases hs; exact ⟨hd, rfl, rfl⟩
  · rw [if_neg hd] at hs
    cases hs

/-- A pass makes calls that succeed. One that runs nothing leaves everything as it is, and
nothing is due among its entities. -/
theorem pass_ok {p : Phase} : ∀ {ids : List EntityId} {r r' : Progress σ} {n : Nat},
    h.pass p ids r = .ok n r' →
    ∃ calls, h.Ran p r.host calls r'.host ∧ calls.length = n ∧
      r'.stats = { r.stats with phaseRuns := r.stats.phaseRuns + n } ∧
      (n = 0 → r' = r ∧ ∀ id ∈ ids, h.due p r.host id = false) := by
  intro ids
  induction ids with
  | nil =>
    intro r r' n hp
    cases hp
    exact ⟨[], .nil _, rfl, rfl, fun _ => ⟨rfl, by simp⟩⟩
  | cons id ids ih =>
    intro r r'' n hp
    rw [pass_cons] at hp
    cases hs : h.step p id r with
    | error e r' => rw [hs] at hp; cases hp
    | ok b r' =>
      cases hrest : h.pass p ids r' with
      | error e r'' => simp only [hs, hrest] at hp; cases hp
      | ok m r'' =>
        simp only [hs, hrest] at hp
        cases hp
        obtain ⟨calls, hc, rfl, hst, h0⟩ := ih hrest
        rcases h.step_ok hs with ⟨rfl, rfl, hd⟩ | ⟨rfl, hd, s, hr, rfl⟩
        · refine ⟨calls, hc, rfl, hst, fun hz => ?_⟩
          obtain ⟨h1, h2⟩ := h0 hz
          refine ⟨h1, fun j hj => ?_⟩
          rcases List.mem_cons.mp hj with rfl | hj
          · exact hd
          · exact h2 j hj
        · refine ⟨_, (Ran.single hd hr).append hc, by simp, ?_, fun hz => by simp at hz⟩
          rw [hst]
          simp only [Bool.toNat_true, Stats.mk.injEq, true_and]
          omega

/-- A pass that fails does so at a call after calls that succeed. -/
theorem pass_error {p : Phase} {e : ε} : ∀ {ids : List EntityId} {r r' : Progress σ},
    h.pass p ids r = .error e r' →
    ∃ calls, h.Fails p r.host calls e r'.host ∧ r'.stats.passes = r.stats.passes ∧
      r'.stats.phaseRuns + 1 = r.stats.phaseRuns + calls.length := by
  intro ids
  induction ids with
  | nil => intro r r' hp; cases hp
  | cons id ids ih =>
    intro r r'' hp
    rw [pass_cons] at hp
    cases hs : h.step p id r with
    | error e r' =>
      rw [hs] at hp
      cases hp
      obtain ⟨hd, hr, hst⟩ := h.step_error hs
      exact ⟨_, ⟨[], id, r.host, .nil _, hd, hr, rfl⟩, by rw [hst], by rw [hst]; rfl⟩
    | ok b r' =>
      cases hrest : h.pass p ids r' with
      | ok m r'' => simp only [hs, hrest] at hp; cases hp
      | error e r'' =>
        simp only [hs, hrest] at hp
        cases hp
        obtain ⟨calls, hc, hp, hn⟩ := ih hrest
        rcases h.step_ok hs with ⟨rfl, rfl, -⟩ | ⟨rfl, hd, s, hr, rfl⟩
        · exact ⟨calls, hc, hp, hn⟩
        · refine ⟨_, Fails.after (Ran.single hd hr) hc, hp, ?_⟩
          simp only [List.length_append, List.length_singleton] at hn ⊢
          omega

/-- The passes of a phase make calls that succeed; there is at most one pass more. -/
theorem passes_ok {p : Phase} : ∀ {fuel : Nat} {r r' : Progress σ},
    h.passes p fuel r = .ok () r' →
    ∃ calls, h.Ran p r.host calls r'.host ∧
      r'.stats.phaseRuns = r.stats.phaseRuns + calls.length ∧
      r'.stats.passes ≤ r.stats.passes + calls.length + 1 := by
  intro fuel
  induction fuel with
  | zero => intro r r' hp; cases hp; exact ⟨[], .nil _, rfl, Nat.le_succ _⟩
  | succ fuel ih =>
    intro r r'' hp
    rw [passes_succ] at hp
    cases hpass : h.pass p (List.range (h.graph r.host).size) (counted r) with
    | error e r' => rw [hpass] at hp; cases hp
    | ok n r' =>
      simp only [hpass] at hp
      obtain ⟨calls, hc, rfl, hst, -⟩ := h.pass_ok hpass
      have h1 : r'.stats.passes = r.stats.passes + 1 := by rw [hst]; rfl
      have h2 : r'.stats.phaseRuns = r.stats.phaseRuns + calls.length := by rw [hst]; rfl
      by_cases h0 : calls.length = 0
      · rw [if_pos h0] at hp
        cases hp
        exact ⟨calls, hc, h2, by omega⟩
      · rw [if_neg h0] at hp
        obtain ⟨more, hm, h3, h4⟩ := ih hp
        refine ⟨_, Ran.append hc hm, ?_, ?_⟩ <;> simp only [List.length_append] <;> omega

theorem passes_error {p : Phase} {e : ε} : ∀ {fuel : Nat} {r r' : Progress σ},
    h.passes p fuel r = .error e r' →
    ∃ calls, h.Fails p r.host calls e r'.host ∧
      r'.stats.phaseRuns + 1 = r.stats.phaseRuns + calls.length ∧
      r'.stats.passes ≤ r.stats.passes + calls.length := by
  intro fuel
  induction fuel with
  | zero => intro r r' hp; cases hp
  | succ fuel ih =>
    intro r r'' hp
    rw [passes_succ] at hp
    cases hpass : h.pass p (List.range (h.graph r.host).size) (counted r) with
    | error e r' =>
      rw [hpass] at hp
      cases hp
      obtain ⟨calls, hc, h1, h2⟩ := h.pass_error hpass
      -- the failing call is one of these, and it pays for the pass
      have hlen : 1 ≤ calls.length := by obtain ⟨before, id, t, -, -, -, rfl⟩ := hc; simp
      have h3 : (counted r).stats.passes = r.stats.passes + 1 := rfl
      exact ⟨calls, hc, h2, by omega⟩
    | ok n r' =>
      simp only [hpass] at hp
      obtain ⟨calls, hc, rfl, hst, -⟩ := h.pass_ok hpass
      have h1 : r'.stats.passes = r.stats.passes + 1 := by rw [hst]; rfl
      have h2 : r'.stats.phaseRuns = r.stats.phaseRuns + calls.length := by rw [hst]; rfl
      by_cases h0 : calls.length = 0
      · rw [if_pos h0] at hp
        cases hp
      · rw [if_neg h0] at hp
        obtain ⟨more, hm, h3, h4⟩ := ih hp
        refine ⟨_, Fails.after hc hm, ?_, ?_⟩ <;> simp only [List.length_append] <;> omega

/-! ## Enough passes -/

/-- Nothing is due in a phase. -/
def Quiet (p : Phase) (s : σ) : Prop := ∀ id, h.due p s id = false

theorem lt_size_of_due {p : Phase} {s : σ} {id : EntityId} (hd : h.due p s id = true) :
    id < (h.graph s).size := by
  simp only [due, Bool.and_eq_true, decide_eq_true_eq] at hd
  obtain ⟨e, he, -⟩ := EntityGraph.get?_of_nextPhase? hd.1
  exact EntityGraph.lt_size_of_get? he

/-- A phase that cannot run as often as passes are allowed ends with nothing due. -/
theorem passes_quiet {p : Phase} : ∀ {fuel : Nat} {r r' : Progress σ},
    (∀ calls t, h.Ran p r.host calls t → calls.length < fuel) →
    h.passes p fuel r = .ok () r' → h.Quiet p r'.host := by
  intro fuel
  induction fuel with
  | zero => intro r r' hb; exact absurd (hb [] r.host (.nil _)) (Nat.lt_irrefl 0)
  | succ fuel ih =>
    intro r r'' hb hp
    rw [passes_succ] at hp
    cases hpass : h.pass p (List.range (h.graph r.host).size) (counted r) with
    | error e r' => rw [hpass] at hp; cases hp
    | ok n r' =>
      simp only [hpass] at hp
      obtain ⟨calls, hc, rfl, -, hidle⟩ := h.pass_ok hpass
      by_cases h0 : calls.length = 0
      · rw [if_pos h0] at hp
        cases hp
        obtain ⟨rfl, hnone⟩ := hidle h0
        intro id
        cases hd : h.due p (counted r).host id with
        | false => rfl
        | true => rw [← hd]; exact hnone id (List.mem_range.mpr (h.lt_size_of_due hd))
      · rw [if_neg h0] at hp
        refine ih (fun more t hm => ?_) hp
        have := hb _ t (Ran.append hc hm)
        simp only [List.length_append] at this
        omega

/-- More passes than a phase needs change nothing. -/
theorem passes_add {p : Phase} (k : Nat) : ∀ {fuel : Nat} {r : Progress σ},
    (∀ calls t, h.Ran p r.host calls t → calls.length < fuel) →
    h.passes p (fuel + k) r = h.passes p fuel r := by
  intro fuel
  induction fuel with
  | zero => intro r hb; exact absurd (hb [] r.host (.nil _)) (Nat.lt_irrefl 0)
  | succ fuel ih =>
    intro r hb
    rw [show fuel + 1 + k = fuel + k + 1 by omega, passes_succ, passes_succ]
    cases hpass : h.pass p (List.range (h.graph r.host).size) (counted r) with
    | error e r' => rfl
    | ok n r' =>
      obtain ⟨calls, hc, rfl, -, -⟩ := h.pass_ok hpass
      by_cases h0 : calls.length = 0
      · simp only [if_pos h0]
      · simp only [if_neg h0]
        refine ih fun more t hm => ?_
        have := hb _ t (Ran.append hc hm)
        simp only [List.length_append] at this
        omega

/-! ## Over the phases -/

/-- How a run over phases goes: the calls it makes and how it ends. `Q` is what holds at
the end of a phase. -/
inductive Goes (Q : Phase → σ → Prop) :
    List Phase → σ → List (Call σ ε) → EStateM.Result ε σ Unit → Prop
  | ended (s : σ) : Goes Q [] s [] (.ok () s)
  | phase {p : Phase} {ps : List Phase} {s t : σ} {calls more : List (Call σ ε)}
      {r : EStateM.Result ε σ Unit} : h.Ran p s calls t → Q p t →
      ((h.graph t).stuckReport p).stuck = [] → Goes Q ps t more r →
      Goes Q (p :: ps) s (calls ++ more) r
  | failed {p : Phase} {ps : List Phase} {s t : σ} {calls : List (Call σ ε)} {e : ε} :
      h.Fails p s calls e t → Goes Q (p :: ps) s calls (.error e t)
  | stuck {p : Phase} {ps : List Phase} {s t : σ} {calls : List (Call σ ε)} :
      h.Ran p s calls t → Q p t → ((h.graph t).stuckReport p).stuck ≠ [] →
      Goes Q (p :: ps) s calls (.error (h.unresolved t ((h.graph t).stuckReport p)) t)

def successes (calls : List (Call σ ε)) : Nat := calls.countP (·.error.isNone)

theorem successes_append (calls more : List (Call σ ε)) :
    successes (calls ++ more) = successes calls + successes more := List.countP_append

theorem Ran.error {h : Host σ ε} {p : Phase} {s t : σ} {calls : List (Call σ ε)}
    (hr : h.Ran p s calls t) : ∀ c ∈ calls, c.error = none := by
  induction hr with
  | nil => simp
  | snoc id _ _ _ ih =>
    intro c hc
    rcases List.mem_append.mp hc with hc | hc
    · exact ih c hc
    · rw [List.mem_singleton.mp hc]

theorem Ran.successes {h : Host σ ε} {p : Phase} {s t : σ} {calls : List (Call σ ε)}
    (hr : h.Ran p s calls t) : successes calls = calls.length :=
  List.countP_eq_length.mpr fun c hc => by simp [hr.error c hc]

theorem Fails.successes {h : Host σ ε} {p : Phase} {s s' : σ} {calls : List (Call σ ε)} {e : ε}
    (hf : h.Fails p s calls e s') : successes calls + 1 = calls.length := by
  obtain ⟨before, id, t, hb, -, -, rfl⟩ := hf
  rw [successes_append, hb.successes]
  simp [Host.successes]

/-- Every run goes in one of these ways. Successful calls are counted, and every phase
takes at most one pass more than that. -/
theorem goes {Q : Phase → σ → Prop}
    (hQ : ∀ p r r', h.passes p ((h.graph r.host).size + h.adds + 1) r = .ok () r' → Q p r'.host) :
    ∀ (ps : List Phase) (r : Progress σ), ∃ calls,
      h.Goes Q ps r.host calls ((ps.forM h.runPhase r).onState Progress.host) ∧
      (ps.forM h.runPhase r).state.stats.phaseRuns = r.stats.phaseRuns + successes calls ∧
      (ps.forM h.runPhase r).state.stats.passes ≤
        r.stats.passes + successes calls + ps.length := by
  intro ps
  induction ps with
  | nil => intro r; exact ⟨[], .ended _, rfl, Nat.le_refl _⟩
  | cons p ps ih =>
    intro r
    rw [forM_cons]
    cases hp : h.passes p ((h.graph r.host).size + h.adds + 1) r with
    | error e r' =>
      have hrun : h.runPhase p r = .error e r' := by rw [runPhase_eq, hp]
      obtain ⟨calls, hf, h1, h2⟩ := h.passes_error hp
      have h3 := hf.successes
      rw [hrun]
      refine ⟨calls, .failed hf, ?_, ?_⟩ <;> simp only [EStateM.Result.state, List.length_cons] <;>
        omega
    | ok _ r' =>
      obtain ⟨calls, hr, h1, h2⟩ := h.passes_ok hp
      have h3 := hr.successes
      have hq := hQ p r r' hp
      -- the passes of the phase are over; the next phase starts if nobody is left waiting
      by_cases hs : ((h.graph r'.host).stuckReport p).stuck = []
      · have hrun : h.runPhase p r = .ok () r' := by rw [runPhase_eq, hp]; simp [hs]
        obtain ⟨more, hg, h4, h5⟩ := ih r'
        rw [hrun]
        refine ⟨calls ++ more, .phase hr hq hs hg, ?_, ?_⟩ <;>
          simp only [successes_append, List.length_cons] <;> omega
      · have hrun : h.runPhase p r =
            .error (h.unresolved r'.host ((h.graph r'.host).stuckReport p)) r' := by
          rw [runPhase_eq, hp]; simp [hs]
        rw [hrun]
        refine ⟨calls, .stuck hr hq hs, ?_, ?_⟩ <;>
          simp only [EStateM.Result.state, List.length_cons] <;> omega

/-! ## The calls of a run -/

theorem recorded_run_ok {p : Phase} {id : EntityId} {s t : σ × List (Call σ ε)}
    (hr : h.recorded.run id p s = .ok () t) :
    h.run id p s.1 = .ok () t.1 ∧ t.2 = s.2 ++ [⟨id, p, s.1, t.1, none⟩] := by
  simp only [recorded] at hr
  cases hh : h.run id p s.1 with
  | ok _ after => rw [hh] at hr; cases hr; exact ⟨rfl, rfl⟩
  | error e after => rw [hh] at hr; cases hr

theorem recorded_run_error {p : Phase} {id : EntityId} {s t : σ × List (Call σ ε)} {e : ε}
    (hr : h.recorded.run id p s = .error e t) :
    h.run id p s.1 = .error e t.1 ∧ t.2 = s.2 ++ [⟨id, p, s.1, t.1, some e⟩] := by
  simp only [recorded] at hr
  cases hh : h.run id p s.1 with
  | ok _ after => rw [hh] at hr; cases hr
  | error e after => rw [hh] at hr; cases hr; exact ⟨rfl, rfl⟩

section

variable {h}

/-- The record grows by the calls that are made. -/
theorem Ran.of_recorded {p : Phase} {s t : σ × List (Call σ ε)}
    {calls : List (Call (σ × List (Call σ ε)) ε)} (hr : h.recorded.Ran p s calls t) :
    h.Ran p s.1 (calls.map (Call.view Prod.fst)) t.1 ∧
      t.2 = s.2 ++ calls.map (Call.view Prod.fst) := by
  induction hr with
  | nil => exact ⟨.nil _, by simp⟩
  | snoc id _ hd hr ih =>
    obtain ⟨h1, h2⟩ := h.recorded_run_ok hr
    rw [List.map_append]
    refine ⟨ih.1.snoc id hd h1, ?_⟩
    show _ = _ ++ (_ ++ [Call.mk ..])
    rw [← List.append_assoc, ← ih.2]
    exact h2

theorem Fails.of_recorded {p : Phase} {s t : σ × List (Call σ ε)} {e : ε}
    {calls : List (Call (σ × List (Call σ ε)) ε)} (hf : h.recorded.Fails p s calls e t) :
    h.Fails p s.1 (calls.map (Call.view Prod.fst)) e t.1 ∧
      t.2 = s.2 ++ calls.map (Call.view Prod.fst) := by
  obtain ⟨before, id, u, hb, hd, hr, rfl⟩ := hf
  obtain ⟨h1, h2⟩ := h.recorded_run_error hr
  obtain ⟨h3, h4⟩ := hb.of_recorded
  rw [List.map_append]
  refine ⟨⟨_, id, u.1, h3, hd, h1, rfl⟩, ?_⟩
  rw [← List.append_assoc, ← h4]
  exact h2

theorem Goes.of_recorded {Q : Phase → σ → Prop} {ps : List Phase} {s : σ × List (Call σ ε)}
    {calls : List (Call (σ × List (Call σ ε)) ε)}
    {r : EStateM.Result ε (σ × List (Call σ ε)) Unit}
    (hg : h.recorded.Goes (fun p s => Q p s.1) ps s calls r) :
    h.Goes Q ps s.1 (calls.map (Call.view Prod.fst)) (r.onState Prod.fst) ∧
      r.state.2 = s.2 ++ calls.map (Call.view Prod.fst) := by
  induction hg with
  | ended s => exact ⟨.ended _, by simp [EStateM.Result.state]⟩
  | phase hr hq hs _ ih =>
    obtain ⟨h1, h2⟩ := hr.of_recorded
    rw [List.map_append]
    exact ⟨.phase h1 hq hs ih.1, by rw [ih.2, h2, List.append_assoc]⟩
  | failed hf => obtain ⟨h1, h2⟩ := hf.of_recorded; exact ⟨.failed h1, h2⟩
  | stuck hr hq hs => obtain ⟨h1, h2⟩ := hr.of_recorded; exact ⟨.stuck h1 hq hs, h2⟩

end

theorem successes_view (f : τ → σ) (calls : List (Call τ ε)) :
    successes (calls.map (Call.view f)) = successes calls := by
  simp only [successes, List.countP_map]
  rfl

/-- The calls of a run are those it is made of. -/
theorem trace_goes {Q : Phase → σ → Prop}
    (hQ : ∀ p r r', h.passes p ((h.graph r.host).size + h.adds + 1) r = .ok () r' → Q p r'.host)
    (s : σ) :
    h.Goes Q Phase.all s (h.trace s) ((h.outcome s).onState Progress.host) ∧
      (h.outcome s).state.stats.phaseRuns = successes (h.trace s) ∧
      (h.outcome s).state.stats.passes ≤ successes (h.trace s) + 3 := by
  have hQ' : ∀ p r r', h.recorded.passes p ((h.recorded.graph r.host).size + h.recorded.adds + 1) r =
      .ok () r' → Q p r'.host.1 := by
    intro p r r' hp
    have := h.recorded_mirrors.passes p ((h.recorded.graph r.host).size + h.recorded.adds + 1) r
    rw [hp] at this
    exact hQ p (r.view Prod.fst) (r'.view Prod.fst) this.symm
  obtain ⟨calls, hg, h1, h2⟩ := h.recorded.goes (Q := fun p s => Q p s.1) hQ' Phase.all ⟨(s, []), {}⟩
  have hout : h.outcome s =
      (h.recorded.runAll ⟨(s, []), {}⟩).onState (Progress.view Prod.fst) :=
    (h.recorded_runAll s).symm
  have hres : (h.outcome s).onState Progress.host =
      ((Phase.all.forM h.recorded.runPhase ⟨(s, []), {}⟩).onState Progress.host).onState Prod.fst := by
    rw [hout]
    unfold runAll
    cases Phase.all.forM h.recorded.runPhase ⟨(s, []), {}⟩ <;> rfl
  have hstats : (h.outcome s).state.stats =
      (Phase.all.forM h.recorded.runPhase ⟨(s, []), {}⟩).state.stats := by
    rw [hout]
    unfold runAll
    cases Phase.all.forM h.recorded.runPhase ⟨(s, []), {}⟩ <;> rfl
  have htrace : h.trace s = calls.map (Call.view Prod.fst) := by
    have := hg.of_recorded.2
    rw [List.nil_append] at this
    rw [← this]
    unfold trace runAll
    cases Phase.all.forM h.recorded.runPhase ⟨(s, []), {}⟩ <;> rfl
  rw [hres, hstats, htrace, successes_view]
  have hall : Phase.all.length = 3 := rfl
  exact ⟨hg.of_recorded.1, by simpa using h1, by simpa [hall] using h2⟩

section

variable {h}

theorem Ran.run_ok {p : Phase} {s t : σ} {calls : List (Call σ ε)} (hr : h.Ran p s calls t) :
    ∀ c ∈ calls, h.run c.id c.phase c.before = .ok () c.after := by
  induction hr with
  | nil => nofun
  | snoc id _ _ hrun ih =>
    intro c hc
    rcases List.mem_append.mp hc with hc | hc
    · exact ih c hc
    · cases List.mem_singleton.mp hc
      exact hrun

theorem Goes.run_ok {Q : Phase → σ → Prop} {ps : List Phase} {s : σ} {calls : List (Call σ ε)}
    {r : EStateM.Result ε σ Unit} (hg : h.Goes Q ps s calls r) {t : σ} (hr : r = .ok () t) :
    ∀ c ∈ calls, h.run c.id c.phase c.before = .ok () c.after := by
  induction hg with
  | ended s => nofun
  | phase hran _ _ _ ih =>
    intro c hc
    exact (List.mem_append.mp hc).elim (hran.run_ok c) (ih hr c)
  | failed _ => cases hr
  | stuck _ _ _ => cases hr

/-- Every call of a run that succeeds succeeds. -/
theorem trace_run_ok {s t : σ} {stats : Stats} (hr : h.runPhases s = .ok stats t) :
    ∀ c ∈ h.trace s, h.run c.id c.phase c.before = .ok () c.after := by
  obtain ⟨hg, -, -⟩ := h.trace_goes (Q := fun _ _ => True) (fun _ _ _ _ => trivial) s
  cases ho : (h.outcome s).onState Progress.host with
  | ok u t' =>
    rw [ho] at hg
    exact hg.run_ok rfl
  | error e t' =>
    rw [h.runPhases_error ho] at hr
    cases hr

end

end Host

end Staged
