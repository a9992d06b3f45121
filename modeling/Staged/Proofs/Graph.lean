/-
  Staged.Proofs.Graph — entities go forward.

  An entity never leaves the graph and keeps its kind; its status does not go down, and
  its next phase does not come back (`Later`). A host edits a graph by adding entities,
  adding dependencies and completing entities (`Edit`). An edit never counts a phase as
  run, so the number of phases behind an entity only changes by completing it (`Edited`).

  Main statements: `Edits.later`, `Edits.edited`, `later_finish`, and
  `EntityGraph.Later.isSatisfied`: what a dependency asks for goes on to hold.
-/

import Mathlib.Logic.Relation
import Staged.Entity.Graph

namespace Staged

/-! ## Phases and statuses -/

theorem Phase.le_iff {a b : Phase} : a.le b = true ↔ a.number ≤ b.number := by
  simp [Phase.le]

@[simp] theorem Phase.le_refl (a : Phase) : a.le a = true := Phase.le_iff.mpr (Nat.le_refl _)

theorem Phase.le_trans {a b c : Phase} (h : a.le b = true) (h' : b.le c = true) :
    a.le c = true :=
  Phase.le_iff.mpr (Nat.le_trans (Phase.le_iff.mp h) (Phase.le_iff.mp h'))

theorem Phase.eq_of_number {a b : Phase} (h : a.number = b.number) : a = b := by
  cases a <;> cases b <;> first | rfl | cases h

/-- How far a status has come. -/
def Status.rank : Status → Nat
  | pending => 0
  | partially => 1
  | complete => 2

theorem EntityKind.phases_increasing (k : EntityKind) :
    k.phases.Pairwise fun a b => a.number < b.number := by
  cases k <;> decide

/-- A later position in a kind's phases holds a later phase. -/
theorem EntityKind.phases_lt {k : EntityKind} {i j : Nat} {a b : Phase}
    (ha : k.phases[i]? = some a) (hb : k.phases[j]? = some b) (h : i < j) :
    a.number < b.number := by
  obtain ⟨hi, rfl⟩ := List.getElem?_eq_some_iff.mp ha
  obtain ⟨hj, rfl⟩ := List.getElem?_eq_some_iff.mp hb
  exact List.pairwise_iff_getElem.mp k.phases_increasing i j hi hj h

/-! ## Entities -/

structure Entity.Later (e e' : Entity) : Prop where
  kind : e'.kind = e.kind
  status : e.status.rank ≤ e'.status.rank
  next : ∀ p', e'.nextPhase? = some p' → ∃ p, e.nextPhase? = some p ∧ p.le p' = true

namespace Entity

theorem Later.refl (e : Entity) : e.Later e :=
  ⟨rfl, Nat.le_refl _, fun p h => ⟨p, h, p.le_refl⟩⟩

theorem Later.trans {a b c : Entity} (h : a.Later b) (h' : b.Later c) : a.Later c := by
  refine ⟨h'.kind.trans h.kind, Nat.le_trans h.status h'.status, fun p hp => ?_⟩
  obtain ⟨q, hq, hqp⟩ := h'.next p hp
  obtain ⟨r, hr, hrq⟩ := h.next q hq
  exact ⟨r, hr, Phase.le_trans hrq hqp⟩

theorem nextPhase?_eq {e e' : Entity} (hk : e'.kind = e.kind) (hd : e'.done = e.done) :
    e'.nextPhase? = e.nextPhase? := by
  simp only [nextPhase?, hk, hd]

@[simp] theorem nextPhase?_completeNow (e : Entity) : e.completeNow.nextPhase? = none := by
  simp [nextPhase?, completeNow]

@[simp] theorem kind_addDep (self : EntityId) (d : Dependency) (e : Entity) :
    (e.addDep self d).kind = e.kind := by
  unfold addDep; split <;> rfl

@[simp] theorem done_addDep (self : EntityId) (d : Dependency) (e : Entity) :
    (e.addDep self d).done = e.done := by
  unfold addDep; split <;> rfl

@[simp] theorem status_addDep (self : EntityId) (d : Dependency) (e : Entity) :
    (e.addDep self d).status = e.status := by
  unfold addDep; split <;> rfl

theorem later_addDep (self : EntityId) (d : Dependency) (e : Entity) :
    e.Later (e.addDep self d) := by
  refine ⟨kind_addDep .., by simp, fun p hp => ⟨p, ?_, p.le_refl⟩⟩
  rwa [nextPhase?_eq (kind_addDep self d e) (done_addDep self d e)] at hp

theorem later_completeNow (e : Entity) : e.Later e.completeNow := by
  refine ⟨rfl, ?_, fun p hp => by simp at hp⟩
  cases h : e.status <;> simp [completeNow, Status.rank]

/-! ### Counting a phase as run -/

@[simp] theorem kind_finish (p : Phase) (e : Entity) : (e.finish p).kind = e.kind := by
  simp only [finish]; repeat' split
  all_goals rfl

@[simp] theorem deps_finish (p : Phase) (e : Entity) : (e.finish p).deps = e.deps := by
  simp only [finish]; repeat' split
  all_goals rfl

theorem done_finish (p : Phase) (e : Entity) :
    (e.finish p).done = if e.nextPhase? = some p then e.done + 1 else e.done := by
  simp only [finish]
  by_cases h : e.nextPhase? = some p
  · simp only [h, if_true]; repeat' split
    all_goals rfl
  · simp only [h, if_false]; repeat' split
    all_goals rfl

/-- The status after a phase depends on the kind, the phase and the status before. -/
theorem status_finish (p : Phase) (e : Entity) :
    (e.finish p).status =
      if e.kind.completeAfter.le p then .complete
      else if e.kind.partialAfter.le p && e.status == .pending then .partially
      else e.status := by
  simp only [finish]
  by_cases h : e.nextPhase? = some p
  · simp only [h, if_true]; repeat' split
    all_goals rfl
  · simp only [h, if_false]; repeat' split
    all_goals rfl

theorem status_le_finish (p : Phase) (e : Entity) :
    e.status.rank ≤ (e.finish p).status.rank := by
  rw [status_finish]
  split
  · cases e.status <;> simp [Status.rank]
  · split
    · rename_i h
      simp only [Bool.and_eq_true, beq_iff_eq] at h
      simp [h.2, Status.rank]
    · exact Nat.le_refl _

/-- The phase that ran is behind the entity. -/
theorem nextPhase?_finish {p q : Phase} {e : Entity} (h : (e.finish p).nextPhase? = some q) :
    ∃ r, e.nextPhase? = some r ∧ r.le q = true ∧ q ≠ p := by
  have hd := done_finish p e
  by_cases hp : e.nextPhase? = some p
  · rw [if_pos hp] at hd
    have hq : e.kind.phases[e.done + 1]? = some q := by
      simpa only [nextPhase?, kind_finish, hd] using h
    have hlt := EntityKind.phases_lt hp hq (Nat.lt_succ_self _)
    exact ⟨p, hp, Phase.le_iff.mpr (Nat.le_of_lt hlt), fun he => by subst he; omega⟩
  · rw [if_neg hp] at hd
    rw [nextPhase?_eq (kind_finish p e) hd] at h
    exact ⟨q, h, q.le_refl, fun he => hp (he ▸ h)⟩

theorem later_finish (p : Phase) (e : Entity) : e.Later (e.finish p) := by
  refine ⟨kind_finish p e, status_le_finish p e, fun q hq => ?_⟩
  obtain ⟨r, hr, hrq, -⟩ := nextPhase?_finish hq
  exact ⟨r, hr, hrq⟩

end Entity

/-! ## Graphs -/

namespace EntityGraph

@[simp] theorem get?_modify (g : EntityGraph) (id j : EntityId) (f : Entity → Entity) :
    (g.modify id f).get? j = if id = j then (g.get? j).map f else g.get? j := by
  simp only [get?, modify, Array.getElem?_modify]

@[simp] theorem size_modify (g : EntityGraph) (id : EntityId) (f : Entity → Entity) :
    (g.modify id f).size = g.size := by
  simp [size, modify]

theorem get?_add (g : EntityGraph) (name : Option Ident) (kind : EntityKind) (module : ModId)
    (range : Span) (j : EntityId) :
    (g.add name kind module range).1.get? j =
      if j = g.size then some { name, kind, module, range } else g.get? j := by
  simp only [get?, add, size, Array.getElem?_push]
  rfl

@[simp] theorem size_add (g : EntityGraph) (name : Option Ident) (kind : EntityKind)
    (module : ModId) (range : Span) : (g.add name kind module range).1.size = g.size + 1 := by
  simp [size, add]

theorem get?_eq_none {g : EntityGraph} {id : EntityId} : g.get? id = none ↔ g.size ≤ id := by
  simp [get?, size]

theorem lt_size_of_get? {g : EntityGraph} {id : EntityId} {e : Entity} (h : g.get? id = some e) :
    id < g.size := by
  refine Nat.lt_of_not_le fun hle => ?_
  rw [get?_eq_none.mpr hle] at h
  cases h

theorem nextPhase?_of_get? {g : EntityGraph} {id : EntityId} {e : Entity}
    (h : g.get? id = some e) : g.nextPhase? id = e.nextPhase? := by
  simp [nextPhase?, h]

theorem get?_of_nextPhase? {g : EntityGraph} {id : EntityId} {p : Phase}
    (h : g.nextPhase? id = some p) : ∃ e, g.get? id = some e ∧ e.nextPhase? = some p := by
  simpa [nextPhase?, Option.bind_eq_some_iff] using h

def Later (g g' : EntityGraph) : Prop :=
  ∀ id e, g.get? id = some e → ∃ e', g'.get? id = some e' ∧ e.Later e'

theorem Later.refl (g : EntityGraph) : g.Later g := fun _ e h => ⟨e, h, .refl e⟩

theorem Later.trans {a b c : EntityGraph} (h : a.Later b) (h' : b.Later c) : a.Later c := by
  intro id e he
  obtain ⟨e1, h1, l1⟩ := h id e he
  obtain ⟨e2, h2, l2⟩ := h' id e1 h1
  exact ⟨e2, h2, l1.trans l2⟩

theorem later_modify {f : Entity → Entity} (hf : ∀ e : Entity, e.Later (f e)) (g : EntityGraph)
    (id : EntityId) : g.Later (g.modify id f) := by
  intro j e he
  by_cases h : id = j
  · exact ⟨f e, by simp [h, he], hf e⟩
  · exact ⟨e, by simp [h, he], .refl e⟩

theorem later_add (g : EntityGraph) (name : Option Ident) (kind : EntityKind) (module : ModId)
    (range : Span) : g.Later (g.add name kind module range).1 := by
  intro id e he
  have hne : id ≠ g.size := Nat.ne_of_lt (lt_size_of_get? he)
  exact ⟨e, by rw [get?_add, if_neg hne, he], .refl e⟩

theorem later_finish (g : EntityGraph) (id : EntityId) (p : Phase) :
    g.Later (g.modify id (Entity.finish p)) :=
  later_modify (Entity.later_finish p) g id

/-- An entity that has just run a phase does not wait for it. -/
theorem nextPhase?_ne_of_finish {g : EntityGraph} {id : EntityId} {p : Phase} {x : Option Entity}
    (hg : g.get? id = x.map (Entity.finish p)) : g.nextPhase? id ≠ some p := by
  intro hn
  obtain ⟨e, he, hn⟩ := get?_of_nextPhase? hn
  rw [hg] at he
  obtain ⟨e', -, rfl⟩ := Option.map_eq_some_iff.mp he
  obtain ⟨-, -, -, hne⟩ := Entity.nextPhase?_finish hn
  exact hne rfl

/-- What a dependency asks for, by the status of its entity. -/
theorem isSatisfied_iff {g : EntityGraph} {d : Dependency} :
    g.isSatisfied d = true ↔ ∃ e, g.get? d.entity = some e ∧
      (e.status = .complete ∨ e.status = .partially ∧ d.need = .partially) := by
  unfold isSatisfied
  cases hg : g.get? d.entity with
  | none => simp
  | some e => cases hs : e.status <;> cases hn : d.need <;> simp [hs]

theorem Later.isSatisfied {g g' : EntityGraph} (h : g.Later g') {d : Dependency}
    (hd : g.isSatisfied d = true) : g'.isSatisfied d = true := by
  obtain ⟨e, he, hs⟩ := isSatisfied_iff.mp hd
  obtain ⟨e', he', hl⟩ := h _ _ he
  refine isSatisfied_iff.mpr ⟨e', he', ?_⟩
  have := hl.status
  rcases hs with hs | ⟨hs, hn⟩
  · left; cases hs' : e'.status <;> simp_all [Status.rank]
  · cases hs' : e'.status <;> simp_all [Status.rank]

theorem Later.nextPhase? {g g' : EntityGraph} (h : g.Later g') {id : EntityId} {q : Phase}
    (hlt : id < g.size) (hq : g'.nextPhase? id = some q) :
    ∃ p, g.nextPhase? id = some p ∧ p.le q = true := by
  cases hg : g.get? id with
  | none => exact absurd (get?_eq_none.mp hg) (Nat.not_le_of_lt hlt)
  | some e =>
    obtain ⟨e', he', hl⟩ := h _ _ hg
    rw [nextPhase?_of_get? he'] at hq
    rw [nextPhase?_of_get? hg]
    exact hl.next q hq

def addDeps (g : EntityGraph) (id : EntityId) (deps : List Dependency) : EntityGraph :=
  deps.foldl (fun g d => g.addDep id d) g

theorem size_addDeps (id : EntityId) (deps : List Dependency) :
    ∀ g : EntityGraph, (g.addDeps id deps).size = g.size := by
  induction deps with
  | nil => intro g; rfl
  | cons d deps ih => intro g; exact (ih _).trans (size_modify ..)

end EntityGraph

/-! ## Edits -/

inductive Edit : EntityGraph → EntityGraph → Prop
  | add (g : EntityGraph) (name : Option Ident) (kind : EntityKind) (module : ModId)
      (range : Span) : Edit g (g.add name kind module range).1
  | depend (g : EntityGraph) (id : EntityId) (d : Dependency) : Edit g (g.addDep id d)
  | complete (g : EntityGraph) (id : EntityId) : Edit g (g.modify id Entity.completeNow)

abbrev Edits : EntityGraph → EntityGraph → Prop := Relation.ReflTransGen Edit

theorem Edit.later {g g' : EntityGraph} (h : Edit g g') : g.Later g' := by
  cases h with
  | add name kind module range => exact EntityGraph.later_add g name kind module range
  | depend id d => exact EntityGraph.later_modify (Entity.later_addDep id d) g id
  | complete id => exact EntityGraph.later_modify Entity.later_completeNow g id

theorem Edits.later {g g' : EntityGraph} (h : Edits g g') : g.Later g' := by
  induction h with
  | refl => exact .refl _
  | tail _ he ih => exact ih.trans he.later

theorem edits_addDeps (id : EntityId) (deps : List Dependency) :
    ∀ g : EntityGraph, Edits g (g.addDeps id deps) := by
  induction deps with
  | nil => intro g; exact .refl
  | cons d deps ih => intro g; exact .head (.depend g id d) (ih _)

/-- An entity has as many phases behind it as before, unless it was completed; a new one
has none, unless it was completed. -/
def Edited (g g' : EntityGraph) : Prop :=
  ∀ id e', g'.get? id = some e' →
    (∃ e, g.get? id = some e ∧ e'.kind = e.kind ∧ (e'.done = e.done ∨ e'.nextPhase? = none)) ∨
    (g.get? id = none ∧ (e'.done = 0 ∨ e'.nextPhase? = none))

theorem Edited.refl (g : EntityGraph) : Edited g g :=
  fun _ e' h => .inl ⟨e', h, rfl, .inl rfl⟩

theorem edited_modify {f : Entity → Entity} (hk : ∀ e : Entity, (f e).kind = e.kind)
    (hd : ∀ e : Entity, (f e).done = e.done ∨ (f e).nextPhase? = none) (g : EntityGraph)
    (id : EntityId) : Edited g (g.modify id f) := by
  intro j e' he'
  rw [EntityGraph.get?_modify] at he'
  split at he'
  · obtain ⟨e, he, rfl⟩ := Option.map_eq_some_iff.mp he'
    exact .inl ⟨e, he, hk e, hd e⟩
  · exact .inl ⟨e', he', rfl, .inl rfl⟩

theorem Edit.edited {g g' : EntityGraph} (h : Edit g g') : Edited g g' := by
  cases h with
  | add name kind module range =>
    intro id e' he'
    rw [EntityGraph.get?_add] at he'
    split at he'
    · rename_i hid
      cases he'
      exact .inr ⟨EntityGraph.get?_eq_none.mpr (Nat.le_of_eq hid.symm), .inl rfl⟩
    · exact .inl ⟨e', he', rfl, .inl rfl⟩
  | depend id d =>
    exact edited_modify (Entity.kind_addDep id d) (fun e => .inl (Entity.done_addDep id d e)) g id
  | complete id =>
    exact edited_modify (f := Entity.completeNow) (fun _ => rfl)
      (fun e => .inr e.nextPhase?_completeNow) g id

/-- One more edit. The cases are those of the edits before it; an entity that was completed
stays so because its kind and the phases behind it are kept. -/
theorem Edited.tail {a b c : EntityGraph} (h : Edited a b) (h' : Edit b c) (hl : a.Later b) :
    Edited a c := by
  have keep {e1 e2 : Entity} {n : Nat} (k : e2.kind = e1.kind)
      (d : e1.done = n ∨ e1.nextPhase? = none) (d' : e2.done = e1.done ∨ e2.nextPhase? = none) :
      e2.done = n ∨ e2.nextPhase? = none := by
    rcases d' with d' | d'
    · rcases d with d | d
      · exact .inl (d'.trans d)
      · exact .inr (by rw [Entity.nextPhase?_eq k d', d])
    · exact .inr d'
  intro id e2 h2
  rcases h'.edited id e2 h2 with ⟨e1, h1, k1, d1⟩ | ⟨h1, d1⟩
  · rcases h id e1 h1 with ⟨e, he, k, d⟩ | ⟨he, d⟩
    · exact .inl ⟨e, he, k1.trans k, keep k1 d d1⟩
    · exact .inr ⟨he, keep k1 d d1⟩
  · refine .inr ⟨?_, d1⟩
    cases he : a.get? id with
    | none => rfl
    | some e =>
      obtain ⟨e1, h1', -⟩ := hl _ _ he
      rw [h1] at h1'
      cases h1'

theorem Edits.edited {g g' : EntityGraph} (h : Edits g g') : Edited g g' := by
  induction h with
  | refl => exact .refl _
  | tail hs he ih => exact ih.tail he (Edits.later hs)

/-- An edit leaves the next phase of an entity as it is, or finishes the entity. -/
theorem Edits.nextPhase? {g g' : EntityGraph} (h : Edits g g') {id : EntityId} {p : Phase}
    (hlt : id < g.size) (hp : g'.nextPhase? id = some p) : g.nextPhase? id = some p := by
  obtain ⟨e', he', hnext⟩ := EntityGraph.get?_of_nextPhase? hp
  rcases h.edited id e' he' with ⟨e, he, hk, hd | hd⟩ | ⟨hnone, -⟩
  · rw [EntityGraph.nextPhase?_of_get? he, ← Entity.nextPhase?_eq hk hd, hnext]
  · rw [hnext] at hd; cases hd
  · exact absurd (EntityGraph.get?_eq_none.mp hnone) (Nat.not_le_of_lt hlt)

end Staged
