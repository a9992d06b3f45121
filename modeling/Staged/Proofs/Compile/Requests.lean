/-
  Staged.Proofs.Compile.Requests — what requests for dependencies come to.

  A declaration asks for what it depends on use by use, and again whenever a bring has run. So
  the same entity is asked for many times, before the same phase or before several, in part or
  completely. The list of an entity keeps one entry for each entity and phase that it has asked
  for, itself apart, and the entry is as strong as the strongest request (`Merges`, by
  `Merges.mergeDep` for one request more).

  In which order requests are made, and how often, shows in the places of the entries alone.
  Two requests may be made in either order (`alike_mergeDep_comm`), and one that is made again
  changes nothing (`mergeDep_mergeDep_self`). That holds of every list, also of one that has
  two entries for a target, of which the first one is then raised; so lists go on alike that
  hold the same entries and, for each target, the same one first (`Alike`).

  Nothing else enters dependencies: registering, bringing and every other phase change the graph
  by edits (`closed_compileHost`), and an edit leaves lists with one entry for each target, none
  of them for the entity itself (`EntityGraph.Canonical`).

  Main statements: `EntityGraph.addDeps_canonical`, over all graphs, entities and requests, and
  `compile_canonical`, over all compilations.
-/

import Mathlib.Data.List.Dedup
import Staged.Proofs.Modules.Compile

namespace Staged

/-! ## Requests for one target -/

@[simp] theorem Need.max_self (a : Need) : a.max a = a := by cases a <;> rfl

theorem Need.max_comm (a b : Need) : a.max b = b.max a := by cases a <;> cases b <;> rfl

theorem Need.max_assoc (a b c : Need) : (a.max b).max c = a.max (b.max c) := by
  cases a <;> cases b <;> cases c <;> rfl

/-- The stronger of two requests is one of them. -/
theorem Need.max_cases (a b : Need) : a.max b = a ∨ a.max b = b := by
  cases a <;> cases b <;> simp [Need.max]

namespace Dependency

def target (d : Dependency) : EntityId × Phase := (d.entity, d.phase)

/-- The dependency, made as strong as a request for the same target. -/
def raise (x d : Dependency) : Dependency := { x with need := x.need.max d.need }

theorem target_eq_iff {x d : Dependency} :
    x.target = d.target ↔ x.entity = d.entity ∧ x.phase = d.phase := by
  simp [target]

@[simp] theorem target_raise (x d : Dependency) : (x.raise d).target = x.target := rfl

theorem raise_raise_self (x d : Dependency) : (x.raise d).raise d = x.raise d := by
  simp [raise, Need.max_assoc]

theorem raise_comm (x a b : Dependency) : (x.raise a).raise b = (x.raise b).raise a := by
  simp only [raise, Need.max_assoc, Need.max_comm a.need]

/-- Which of two requests for one target comes first does not matter. -/
theorem raise_swap {a b : Dependency} (h : a.target = b.target) : a.raise b = b.raise a := by
  obtain ⟨hentity, hphase⟩ := target_eq_iff.mp h
  simp only [raise, hentity, hphase, Need.max_comm a.need]

/-- A dependency that is raised is as it was, or it is what it is raised to. -/
theorem raise_cases {x d : Dependency} (h : x.target = d.target) :
    x.raise d = x ∨ x.raise d = d := by
  rcases Need.max_cases x.need d.need with hmax | hmax
  · exact .inl (by rw [raise, hmax])
  · obtain ⟨hentity, hphase⟩ := target_eq_iff.mp h
    exact .inr (by rw [raise, hmax, hentity, hphase])

end Dependency

namespace Entity

variable {d : Dependency} {requests deps deps' : List Dependency}

/-! ## Merging -/

theorem mergeDep_cons (d x : Dependency) (deps : List Dependency) :
    mergeDep d (x :: deps) =
      if x.target = d.target then x.raise d :: deps else x :: mergeDep d deps := by
  simp only [mergeDep, Dependency.target_eq_iff]
  rfl

theorem mergeDep_cons_pos {x : Dependency} (h : x.target = d.target) (deps : List Dependency) :
    mergeDep d (x :: deps) = x.raise d :: deps := by rw [mergeDep_cons, if_pos h]

theorem mergeDep_cons_neg {x : Dependency} (h : x.target ≠ d.target) (deps : List Dependency) :
    mergeDep d (x :: deps) = x :: mergeDep d deps := by rw [mergeDep_cons, if_neg h]

/-- A target that is not in the list is entered last; of one that is, the first entry is
raised. -/
theorem mergeDep_cases (d : Dependency) (deps : List Dependency) :
    (d.target ∉ deps.map Dependency.target ∧ mergeDep d deps = deps ++ [d]) ∨
    ∃ before x after, deps = before ++ x :: after ∧ x.target = d.target ∧
      mergeDep d deps = before ++ x.raise d :: after := by
  induction deps with
  | nil => exact .inl ⟨List.not_mem_nil, rfl⟩
  | cons y deps ih =>
    rw [mergeDep_cons]
    by_cases hy : y.target = d.target
    · exact .inr ⟨[], y, deps, rfl, hy, if_pos hy⟩
    · rw [if_neg hy]
      rcases ih with ⟨hnew, hmerge⟩ | ⟨before, x, after, rfl, hx, hmerge⟩
      · refine .inl ⟨?_, by rw [hmerge, List.cons_append]⟩
        rw [List.map_cons, List.mem_cons, not_or]
        exact ⟨Ne.symm hy, hnew⟩
      · exact .inr ⟨y :: before, x, after, rfl, hx, by rw [hmerge, List.cons_append]⟩

/-- The targets of a merged list. -/
theorem map_target_mergeDep (d : Dependency) (deps : List Dependency) :
    (mergeDep d deps).map Dependency.target =
      if d.target ∈ deps.map Dependency.target then deps.map Dependency.target
      else deps.map Dependency.target ++ [d.target] := by
  rcases mergeDep_cases d deps with ⟨hnew, hmerge⟩ | ⟨before, x, after, rfl, hx, hmerge⟩
  · rw [if_neg hnew, hmerge, List.map_append, List.map_singleton]
  · rw [if_pos (List.mem_map.mpr ⟨x, by simp, hx⟩), hmerge]
    simp

/-- Targets stay apart. -/
theorem nodup_mergeDep (d : Dependency) (h : (deps.map Dependency.target).Nodup) :
    ((mergeDep d deps).map Dependency.target).Nodup := by
  rw [map_target_mergeDep]
  split
  · exact h
  · rename_i hnew
    exact List.nodup_append.mpr ⟨h, List.nodup_singleton _, fun a ha b hb hab =>
      hnew (List.mem_singleton.mp hb ▸ hab ▸ ha)⟩

/-! ## What requests come to -/

/-- A list of dependencies that requests come to: it has one entry for each target, and that is
as strong as the strongest request for it. -/
structure Merges (requests deps : List Dependency) : Prop where
  once : (deps.map Dependency.target).Nodup
  strongest : ∀ d ∈ deps, d ∈ requests ∧
    ∀ r ∈ requests, r.target = d.target → r.need.max d.need = d.need
  covers : ∀ r ∈ requests, r.target ∈ deps.map Dependency.target

theorem merges_nil : Merges [] [] := ⟨List.nodup_nil, nofun, nofun⟩

/-- An entry is still the strongest request for its target after one for another target. -/
theorem Merges.strongest_append (h : Merges requests deps) {x : Dependency} (hx : x ∈ deps)
    (hne : x.target ≠ d.target) : x ∈ requests ++ [d] ∧
      ∀ r ∈ requests ++ [d], r.target = x.target → r.need.max x.need = x.need := by
  obtain ⟨hmem, hstrongest⟩ := h.strongest x hx
  refine ⟨List.mem_append_left _ hmem, fun r hr htarget => ?_⟩
  rcases List.mem_append.mp hr with hr | hr
  · exact hstrongest r hr htarget
  · cases List.mem_singleton.mp hr
    exact absurd htarget.symm hne

/-- A raised entry is the strongest request for its target. -/
theorem Merges.strongest_raise (h : Merges requests deps) {x : Dependency} (hx : x ∈ deps)
    (htarget : x.target = d.target) : x.raise d ∈ requests ++ [d] ∧
      ∀ r ∈ requests ++ [d], r.target = (x.raise d).target →
        r.need.max (x.raise d).need = (x.raise d).need := by
  obtain ⟨hmem, hstrongest⟩ := h.strongest x hx
  refine ⟨?_, fun r hr hrx => ?_⟩
  · rcases Dependency.raise_cases htarget with hraise | hraise
    · rw [hraise]
      exact List.mem_append_left _ hmem
    · rw [hraise]
      exact List.mem_append_right _ (List.mem_singleton.mpr rfl)
  · show r.need.max (x.need.max d.need) = x.need.max d.need
    rcases List.mem_append.mp hr with hr | hr
    · rw [← Need.max_assoc, hstrongest r hr hrx]
    · cases List.mem_singleton.mp hr
      rw [Need.max_comm x.need, ← Need.max_assoc, Need.max_self]

/-- One more request. -/
theorem Merges.mergeDep (h : Merges requests deps) (d : Dependency) :
    Merges (requests ++ [d]) (mergeDep d deps) := by
  refine ⟨nodup_mergeDep d h.once, ?_, fun r hr => ?_⟩
  · rcases mergeDep_cases d deps with ⟨hnew, hmerge⟩ | ⟨before, x, after, rfl, hx, hmerge⟩
    · intro y hy
      rw [hmerge] at hy
      rcases List.mem_append.mp hy with hy | hy
      · exact h.strongest_append hy fun hd => hnew (hd ▸ List.mem_map_of_mem hy)
      · cases List.mem_singleton.mp hy
        refine ⟨List.mem_append_right _ hy, fun r hr hrd => ?_⟩
        rcases List.mem_append.mp hr with hr | hr
        · exact absurd (hrd ▸ h.covers r hr) hnew
        · cases List.mem_singleton.mp hr
          exact Need.max_self _
    · -- the entry that is raised is the only one for its target
      have hapart := h.once
      rw [List.map_append, List.map_cons, List.nodup_middle, List.nodup_cons, hx] at hapart
      intro y hy
      rw [hmerge] at hy
      rcases (List.mem_cons.mp (List.perm_middle.mem_iff.mp hy)) with rfl | hy
      · exact h.strongest_raise (by simp) hx
      · refine h.strongest_append (List.perm_middle.mem_iff.mpr (List.mem_cons_of_mem _ hy)) ?_
        rintro hyd
        rw [← List.map_append] at hapart
        exact hapart.1 (hyd ▸ List.mem_map_of_mem hy)
  · rw [map_target_mergeDep]
    rcases List.mem_append.mp hr with hr | hr
    · have := h.covers r hr
      split
      · exact this
      · exact List.mem_append_left _ this
    · cases List.mem_singleton.mp hr
      split
      · assumption
      · exact List.mem_append_right _ (List.mem_singleton.mpr rfl)

def mergeDeps (requests deps : List Dependency) : List Dependency :=
  requests.foldl (fun deps d => mergeDep d deps) deps

theorem Merges.mergeDeps (h : Merges requests deps) (more : List Dependency) :
    Merges (requests ++ more) (mergeDeps more deps) := by
  induction more generalizing requests deps with
  | nil => rwa [List.append_nil]
  | cons d more ih =>
    have := ih (h.mergeDep d)
    rwa [List.append_assoc] at this

/-! ## Order and repetition -/

structure Alike (deps deps' : List Dependency) : Prop where
  perm : deps.Perm deps'
  first : ∀ k, deps.find? (·.target = k) = deps'.find? (·.target = k)

theorem Alike.refl (deps : List Dependency) : Alike deps deps := ⟨.refl _, fun _ => rfl⟩

theorem Alike.symm (h : Alike deps deps') : Alike deps' deps :=
  ⟨h.perm.symm, fun k => (h.first k).symm⟩

theorem Alike.trans {deps'' : List Dependency} (h : Alike deps deps') (h' : Alike deps' deps'') :
    Alike deps deps'' := ⟨h.perm.trans h'.perm, fun k => (h.first k).trans (h'.first k)⟩

def enter (d : Dependency) (found : Option Dependency) : Dependency :=
  (found.map (·.raise d)).getD d

theorem find?_mergeDep (d : Dependency) (k : EntityId × Phase) (deps : List Dependency) :
    (mergeDep d deps).find? (·.target = k) =
      if d.target = k then some (enter d (deps.find? (·.target = k)))
      else deps.find? (·.target = k) := by
  induction deps with
  | nil => by_cases hk : d.target = k <;> simp [Entity.mergeDep, hk, enter]
  | cons x deps ih =>
    rw [mergeDep_cons]
    by_cases hx : x.target = d.target
    · by_cases hk : d.target = k <;> simp [hx, hk, enter]
    · rw [if_neg hx, List.find?_cons, List.find?_cons, ih]
      by_cases hxk : x.target = k
      · have hdk : ¬d.target = k := fun h => hx (hxk.trans h.symm)
        simp only [hxk, decide_true, if_neg hdk]
      · simp only [hxk, decide_false]

theorem perm_mergeDep (d : Dependency) (deps : List Dependency) :
    (mergeDep d deps).Perm
      (enter d (deps.find? (·.target = d.target)) :: deps.eraseP (·.target = d.target)) := by
  induction deps with
  | nil => exact .refl _
  | cons x deps ih =>
    rw [mergeDep_cons]
    by_cases hx : x.target = d.target
    · simp [hx, enter]
    · simpa [hx] using (ih.cons x).trans (.swap ..)

/-- The rest of a list is the same where the first entry of a target is. -/
theorem Alike.eraseP (h : Alike deps deps') (k : EntityId × Phase) :
    (deps.eraseP (·.target = k)).Perm (deps'.eraseP (·.target = k)) := by
  -- the first entry and the rest make up the list
  have hrest (l : List Dependency) :
      l.Perm ((l.find? (·.target = k)).toList ++ l.eraseP (·.target = k)) := by
    induction l with
    | nil => exact .refl _
    | cons x l ih =>
      by_cases hx : x.target = k
      · simp [hx]
      · simpa [hx] using (ih.cons x).trans List.perm_middle.symm
  have hall := ((hrest deps).symm.trans h.perm).trans (hrest deps')
  rw [h.first k] at hall
  exact (List.perm_append_left_iff _).mp hall

/-- Lists that are alike stay so. -/
theorem Alike.mergeDep (h : Alike deps deps') (d : Dependency) :
    Alike (mergeDep d deps) (mergeDep d deps') := by
  refine ⟨?_, fun k => by rw [find?_mergeDep, find?_mergeDep, h.first]⟩
  refine (perm_mergeDep d deps).trans (.trans ?_ (perm_mergeDep d deps').symm)
  rw [h.first]
  exact (h.eraseP _).cons _

/-- Only where two requests are for targets that are not in the list does their order show, in
the places of the two entries. -/
theorem perm_mergeDep_comm (a b : Dependency) (deps : List Dependency) :
    (Entity.mergeDep a (Entity.mergeDep b deps)).Perm
      (Entity.mergeDep b (Entity.mergeDep a deps)) := by
  induction deps with
  | nil =>
    show (Entity.mergeDep a [b]).Perm (Entity.mergeDep b [a])
    by_cases hab : b.target = a.target
    · rw [mergeDep_cons_pos hab, mergeDep_cons_pos hab.symm, Dependency.raise_swap hab]
    · rw [mergeDep_cons_neg hab, mergeDep_cons_neg (Ne.symm hab)]
      exact .swap ..
  | cons x deps ih =>
    -- the first entry may be what both requests ask for, one of them, or neither
    by_cases ha : x.target = a.target <;> by_cases hb : x.target = b.target
    · have hra : (x.raise b).target = a.target := ha
      have hrb : (x.raise a).target = b.target := hb
      rw [mergeDep_cons_pos ha, mergeDep_cons_pos hb, mergeDep_cons_pos hra, mergeDep_cons_pos hrb,
        Dependency.raise_comm]
    · have hrb : (x.raise a).target ≠ b.target := hb
      rw [mergeDep_cons_pos ha, mergeDep_cons_neg hb, mergeDep_cons_pos ha, mergeDep_cons_neg hrb]
    · have hra : (x.raise b).target ≠ a.target := ha
      rw [mergeDep_cons_neg ha, mergeDep_cons_pos hb, mergeDep_cons_neg hra, mergeDep_cons_pos hb]
    · rw [mergeDep_cons_neg ha, mergeDep_cons_neg hb, mergeDep_cons_neg ha, mergeDep_cons_neg hb]
      exact ih.cons x

/-- What two requests make of the first entry of a target, in either order. -/
theorem enter_comm {a b : Dependency} (h : a.target = b.target) (found : Option Dependency) :
    enter a (some (enter b found)) = enter b (some (enter a found)) := by
  cases found with
  | none => exact Dependency.raise_swap h.symm
  | some x => exact Dependency.raise_comm x b a

/-- Two requests, in either order. -/
theorem alike_mergeDep_comm (a b : Dependency) (deps : List Dependency) :
    Alike (Entity.mergeDep a (Entity.mergeDep b deps))
      (Entity.mergeDep b (Entity.mergeDep a deps)) := by
  refine ⟨perm_mergeDep_comm a b deps, fun k => ?_⟩
  simp only [find?_mergeDep]
  by_cases ha : a.target = k <;> by_cases hb : b.target = k <;>
    simp only [ha, hb, if_true, if_false]
  rw [enter_comm (ha.trans hb.symm)]

/-- A request that has been merged changes nothing. -/
theorem mergeDep_mergeDep_self (d : Dependency) (deps : List Dependency) :
    Entity.mergeDep d (Entity.mergeDep d deps) = Entity.mergeDep d deps := by
  induction deps with
  | nil => simp [Entity.mergeDep]
  | cons x deps ih =>
    by_cases hx : x.target = d.target
    · have hr : (x.raise d).target = d.target := hx
      rw [mergeDep_cons_pos hx, mergeDep_cons_pos hr, Dependency.raise_raise_self]
    · rw [mergeDep_cons_neg hx, mergeDep_cons_neg hx, ih]

theorem Alike.mergeDeps (h : Alike deps deps') (requests : List Dependency) :
    Alike (Entity.mergeDeps requests deps) (Entity.mergeDeps requests deps') := by
  induction requests generalizing deps deps' with
  | nil => exact h
  | cons d requests ih => exact ih (h.mergeDep d)

/-- Requests in another order. -/
theorem alike_mergeDeps_of_perm {requests' : List Dependency} (h : requests.Perm requests')
    (deps : List Dependency) :
    Alike (Entity.mergeDeps requests deps) (Entity.mergeDeps requests' deps) := by
  induction h generalizing deps with
  | nil => exact .refl _
  | cons d _ ih => exact ih (Entity.mergeDep d deps)
  | swap a b rest => exact (alike_mergeDep_comm a b deps).mergeDeps rest
  | trans _ _ ih ih' => exact (ih deps).trans (ih' deps)

/-- A request that is made again changes nothing. -/
theorem alike_mergeDeps_of_mem (h : d ∈ requests) (deps : List Dependency) :
    Alike (Entity.mergeDeps (d :: requests) deps) (Entity.mergeDeps requests deps) := by
  -- brought next to each other, the two requests are as one
  have hfirst := List.perm_cons_erase h
  have hagain := alike_mergeDeps_of_perm (hfirst.cons d) deps
  have hsame : Entity.mergeDeps (d :: d :: requests.erase d) deps =
      Entity.mergeDeps (d :: requests.erase d) deps :=
    congrArg (Entity.mergeDeps (requests.erase d)) (mergeDep_mergeDep_self d deps)
  exact (hsame ▸ hagain).trans (alike_mergeDeps_of_perm hfirst deps).symm

theorem alike_mergeDeps_dedup (requests deps : List Dependency) :
    Alike (Entity.mergeDeps requests.dedup deps) (Entity.mergeDeps requests deps) := by
  induction requests generalizing deps with
  | nil => exact .refl _
  | cons d requests ih =>
    by_cases hd : d ∈ requests
    · rw [List.dedup_cons_of_mem hd]
      exact (ih deps).trans (alike_mergeDeps_of_mem hd deps).symm
    · rw [List.dedup_cons_of_notMem hd]
      exact ih (Entity.mergeDep d deps)

/-- The same requests, in any order and each made any number of times. -/
theorem alike_mergeDeps {requests' : List Dependency} (h : ∀ d, d ∈ requests ↔ d ∈ requests')
    (deps : List Dependency) :
    Alike (Entity.mergeDeps requests deps) (Entity.mergeDeps requests' deps) := by
  have hperm : requests.dedup.Perm requests'.dedup :=
    (List.perm_ext_iff_of_nodup requests.nodup_dedup requests'.nodup_dedup).mpr fun d => by
      rw [List.mem_dedup, List.mem_dedup, h]
  exact ((alike_mergeDeps_dedup requests deps).symm.trans
    (alike_mergeDeps_of_perm hperm deps)).trans (alike_mergeDeps_dedup requests' deps)

end Entity

/-! ## Graphs -/

namespace EntityGraph

variable {requests requests' : List Dependency}

/-- Requests change the list of one entity; what it asks of itself counts for nothing. -/
theorem get?_addDeps_eq (g : EntityGraph) (id j : EntityId) (requests : List Dependency) :
    (g.addDeps id requests).get? j =
      if id = j then (g.get? j).map fun e =>
        { e with deps := Entity.mergeDeps (requests.filter (·.entity ≠ id)) e.deps }
      else g.get? j := by
  induction requests generalizing g with
  | nil => simp [addDeps, Entity.mergeDeps]
  | cons d requests ih =>
    show ((g.addDep id d).addDeps id requests).get? j = _
    rw [ih, addDep, get?_modify]
    by_cases hj : id = j
    · subst hj
      rw [if_pos rfl, if_pos rfl, if_pos rfl, Option.map_map]
      refine congrArg (Option.map · (g.get? id)) (funext fun e => ?_)
      by_cases hd : d.entity = id
      · simp [Entity.addDep, hd]
      · simp [Entity.addDep, hd, Entity.mergeDeps]
    · rw [if_neg hj, if_neg hj, if_neg hj]

/-- Requests change no status. -/
theorem isSatisfied_addDeps (g : EntityGraph) (id : EntityId) (requests : List Dependency)
    (d : Dependency) : (g.addDeps id requests).isSatisfied d = g.isSatisfied d := by
  have hstatus : ((g.addDeps id requests).get? d.entity).map Entity.status =
      (g.get? d.entity).map Entity.status := by
    rw [get?_addDeps_eq]
    split
    · rw [Option.map_map]
      rfl
    · rfl
  unfold isSatisfied
  rw [hstatus]

/-- The same requests in any order leave the same dependencies. -/
theorem depsFor_addDeps (h : ∀ d, d ∈ requests ↔ d ∈ requests') (g : EntityGraph)
    (id j : EntityId) (phase : Phase) :
    ((g.addDeps id requests).depsFor j phase).Perm ((g.addDeps id requests').depsFor j phase) := by
  unfold depsFor
  rw [get?_addDeps_eq, get?_addDeps_eq]
  split
  · cases g.get? j with
    | none => exact .refl _
    | some e =>
      refine List.Perm.filter _ (Entity.alike_mergeDeps (fun d => ?_) e.deps).perm
      rw [List.mem_filter, List.mem_filter, h]
  · exact .refl _

/-- Dependency lists are canonical. An entity without dependencies that makes requests has in the
end one entry for each entity and phase that it has asked for, itself apart, and the entry is as
strong as the strongest of the requests. In every graph, requests in another order, each made
any number of times, leave the same entities ready for the same phases, and what is unmet is the
same. -/
theorem addDeps_canonical (g : EntityGraph) (id : EntityId) (requests : List Dependency) :
    (∀ e, g.get? id = some e → e.deps = [] →
      ∃ deps, (g.addDeps id requests).get? id = some { e with deps } ∧
        (∀ d ∈ deps, d.entity ≠ id) ∧ Entity.Merges (requests.filter (·.entity ≠ id)) deps) ∧
    ∀ requests', (∀ d, d ∈ requests ↔ d ∈ requests') → ∀ j phase,
      (g.addDeps id requests).isReady j phase = (g.addDeps id requests').isReady j phase ∧
        ((g.addDeps id requests).unmet j phase).Perm ((g.addDeps id requests').unmet j phase) := by
  refine ⟨fun e he hfresh => ?_, fun requests' h j phase => ?_⟩
  · have hmerges := Entity.merges_nil.mergeDeps (requests.filter (·.entity ≠ id))
    rw [List.nil_append, ← hfresh] at hmerges
    refine ⟨_, by rw [get?_addDeps_eq, if_pos rfl, he]; rfl, fun d hd => ?_, hmerges⟩
    exact of_decide_eq_true (List.mem_filter.mp (hmerges.strongest d hd).1).2
  · have hperm := depsFor_addDeps h g id j phase
    have hsatisfied : (g.addDeps id requests).isSatisfied = (g.addDeps id requests').isSatisfied :=
      funext fun d => by rw [isSatisfied_addDeps, isSatisfied_addDeps]
    constructor
    · unfold isReady
      rw [hsatisfied]
      exact hperm.all_eq
    · unfold unmet
      rw [hsatisfied]
      exact hperm.filter _

/-- A function asks for itself, and three times for a struct that is usable in part; then it makes
all requests over again, from the last to the first. It is ready for phase one, and the struct
has to be complete before phase three. -/
theorem addDeps_canonical_again :
    let user : Entity := ⟨none, .function, 0, .pending, 0, [], default⟩
    let g : EntityGraph := ⟨#[user, ⟨none, .struct, 0, .partially, 1, [], default⟩]⟩
    let requests : List Dependency :=
      [⟨1, .partially, .three⟩, ⟨0, .complete, .one⟩, ⟨1, .complete, .three⟩, ⟨1, .partially, .one⟩]
    let again := requests.reverse ++ requests
    (g.get? 0 = some user ∧ user.deps = [] ∧ ∀ d, d ∈ requests ↔ d ∈ again) ∧
      Entity.Merges [⟨1, .partially, .three⟩, ⟨1, .complete, .three⟩, ⟨1, .partially, .one⟩]
        [⟨1, .complete, .three⟩, ⟨1, .partially, .one⟩] ∧
      (g.addDeps 0 again).isReady 0 .one = true ∧
      (g.addDeps 0 again).isReady 0 .three = false ∧
      (g.addDeps 0 again).unmet 0 .three = [⟨1, .complete, .three⟩] := by
  intro user g requests again
  have hsame : ∀ d, d ∈ requests ↔ d ∈ again := fun d => by simp [again]
  obtain ⟨hmerges, horder⟩ := addDeps_canonical g 0 requests
  obtain ⟨deps, hdeps, -, hmerges⟩ := hmerges user rfl rfl
  cases hdeps
  obtain ⟨hone, -⟩ := horder again hsame 0 .one
  obtain ⟨hthree, hunmet⟩ := horder again hsame 0 .three
  exact ⟨⟨rfl, rfl, hsame⟩, hmerges, hone.symm, hthree.symm,
    List.perm_singleton.mp hunmet.symm⟩

end EntityGraph

/-! ## Compilations -/

structure Entity.Canonical (id : EntityId) (e : Entity) : Prop where
  once : (e.deps.map Dependency.target).Nodup
  others : ∀ k ∈ e.deps.map Dependency.target, k.1 ≠ id

theorem Entity.Canonical.addDep {id : EntityId} {e : Entity} (h : e.Canonical id)
    (d : Dependency) : (e.addDep id d).Canonical id := by
  unfold Entity.addDep
  split
  · exact h
  · rename_i hself
    refine ⟨nodup_mergeDep d h.once, fun k hk => ?_⟩
    rw [map_target_mergeDep] at hk
    split at hk
    · exact h.others k hk
    · rcases List.mem_append.mp hk with hk | hk
      · exact h.others k hk
      · cases List.mem_singleton.mp hk
        exact hself

def EntityGraph.Canonical (g : EntityGraph) : Prop := ∀ id e, g.get? id = some e → e.Canonical id

namespace EntityGraph

variable {g g' : EntityGraph} {id : EntityId}

theorem canonical_empty : Canonical {} := fun _ _ h => by
  cases h

theorem Canonical.modify {f : Entity → Entity} (h : g.Canonical)
    (hf : ∀ e, e.Canonical id → (f e).Canonical id) : (g.modify id f).Canonical := by
  intro j e he
  rw [get?_modify] at he
  split at he
  · rename_i hj
    subst hj
    obtain ⟨e₀, he₀, rfl⟩ := Option.map_eq_some_iff.mp he
    exact hf e₀ (h _ _ he₀)
  · exact h j e he

theorem Canonical.edit (h : g.Canonical) (hedit : Edit g g') : g'.Canonical := by
  cases hedit with
  | add name kind module range =>
    intro j e he
    rw [get?_add] at he
    split at he
    · cases he
      exact ⟨List.nodup_nil, nofun⟩
    · exact h j e he
  | depend id d => exact h.modify fun e he => he.addDep d
  | complete id => exact h.modify fun _ he => ⟨he.once, he.others⟩

theorem Canonical.edits (h : g.Canonical) (hedits : Edits g g') : g'.Canonical := by
  induction hedits with
  | refl => exact h
  | tail _ hedit ih => exact ih.edit hedit

theorem Canonical.finish (h : g.Canonical) (id : EntityId) (phase : Phase) :
    (g.modify id (Entity.finish phase)).Canonical :=
  h.modify fun e he => by
    have hdeps := e.deps_finish phase
    exact ⟨hdeps ▸ he.once, hdeps ▸ he.others⟩

end EntityGraph

variable {o : Options} {s : Compiler}

theorem preserves_canonical (o : Options) :
    (compileHost o).Preserves fun s => s.Ready ∧ s.entities.Canonical := by
  intro p id s s' ⟨hs, hcanonical⟩ ha hd hr
  obtain ⟨hready, ha'⟩ := preserves_ready o p id s s' hs ha hd hr
  have hedits := (closed_compileHost o).edits_ok hr
  exact ⟨⟨hready, (hcanonical.edits hedits).finish id p⟩, ha'⟩

theorem Registers.canonical {p : Program} (h : Registers p o s) : s.entities.Canonical := by
  have hedits := Emit.maintains_registerProgram (Compiler.lasting_edits {}) p o (.ofOptions o) .refl
  rw [show Emit.registerProgram p o (Compiler.ofOptions o) = _ from h] at hedits
  exact EntityGraph.canonical_empty.edits hedits

/-- Whatever is compiled, the scheduler finds canonical lists of dependencies whenever it calls
for a phase; and so are the lists that a compilation ends with. -/
theorem compile_canonical (p : Program) (o : Options) :
    (∀ s, Registers p o s → ∀ c ∈ (compileHost o).trace s, c.before.entities.Canonical) ∧
    ∀ out, compile p o = .ok out → out.entities.Canonical := by
  refine ⟨fun s hreg c hc => ?_, fun out h => ?_⟩
  · exact ((preserves_canonical o).before ⟨hreg.fresh.1.ready, hreg.canonical⟩ c hc).2
  · obtain ⟨s, stats, t, hreg, hr, rfl⟩ := compile_output h
    have hends := (preserves_canonical o).runPhases ⟨hreg.fresh.1.ready, hreg.canonical⟩
    rw [hr] at hends
    exact hends.1.2

end Staged
