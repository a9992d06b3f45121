/-
  Staged.Proofs.Schedule.Cycle — the cycle that a report names is real, and there is one
  whenever stuck entities wait for each other in a circle.

  An entity waits for those it misses (`Waits`). The search follows these edges in depth; the
  entities it is in the middle of are its path, and those that it is done with are kept from
  one start to the next. Nothing that it is done with leads to a cycle (`Clear`), so an entity
  that was seen before can be passed over, while an entity on the path closes a cycle
  (`isCycle_of_path`).

  Written with nested visits, the search has a bound on the depth of the path. The same search
  is a loop over a stack of entities, each with the edge that is next (`CycleSearch`): a visit
  is a stretch of the loop that takes one entity off the stack (`outcome_visit`). The loop has
  no bound, it comes to its end nevertheless, and the bound of the visits is never met, as the
  entities on the path are different ones of those on the list.

  Main statement: `cycle_reported`.
-/

import Mathlib.Data.List.Chain
import Mathlib.Data.List.Nodup
import Mathlib.Data.List.Perm.Subperm
import Mathlib.Logic.Relation
import Staged.Entity.Scheduler

namespace Staged

/-! ## Waiting -/

/-- An entity of the list has a missing dependency on another one. -/
def Misses (stuck : List Stuck) (a b : EntityId) : Prop :=
  (∃ s ∈ stuck, s.id = a ∧ ∃ d ∈ s.missing, d.entity = b) ∧ ∃ s ∈ stuck, s.id = b

section

variable (next : EntityId → List EntityId)

def Waits (a b : EntityId) : Prop := b ∈ next a

def Clear (finished : List EntityId) : Prop :=
  ∀ x ∈ finished, ∀ y, Relation.ReflTransGen (Waits next) x y → ¬Relation.TransGen (Waits next) y y

end

structure IsCycle (R : EntityId → EntityId → Prop) (cycle : List EntityId) : Prop where
  ne_nil : cycle ≠ []
  nodup : cycle.Nodup
  next : ∀ i (hi : i < cycle.length),
    R cycle[i] (cycle.get ⟨(i + 1) % cycle.length, Nat.mod_lt _ (Nat.zero_lt_of_lt hi)⟩)

variable {next : EntityId → List EntityId} {R R' : EntityId → EntityId → Prop}
  {finished path cycle : List EntityId} {node : EntityId}

theorem IsCycle.mono (h : IsCycle R cycle) (hR : ∀ a b, R a b → (∃ b', R b b') → R' a b) :
    IsCycle R' cycle where
  ne_nil := h.ne_nil
  nodup := h.nodup
  next i hi := hR _ _ (h.next i hi) ⟨_, h.next _ (Nat.mod_lt _ (Nat.zero_lt_of_lt hi))⟩

theorem IsCycle.transGen (h : IsCycle R cycle) : ∃ x, Relation.TransGen R x x := by
  have hpos : 0 < cycle.length := List.length_pos_of_ne_nil h.ne_nil
  have hmod (k : Nat) : k % cycle.length < cycle.length := Nat.mod_lt _ hpos
  have hfrom (k : Nat) :
      Relation.TransGen R cycle[0] (cycle.get ⟨(k + 1) % cycle.length, hmod _⟩) := by
    induction k with
    | zero => exact .single (h.next 0 hpos)
    | succ k ih =>
      have hnext := h.next _ (hmod (k + 1))
      simp only [Nat.mod_add_mod] at hnext
      exact .tail ih hnext
  -- the last step leads back to the first entry
  have hround := hfrom (cycle.length - 1)
  have hlast : (cycle.length - 1 + 1) % cycle.length = 0 := by
    rw [Nat.sub_add_cancel hpos, Nat.mod_self]
  simp only [hlast] at hround
  exact ⟨_, hround⟩

/-! ## Closing a cycle -/

/-- A chain of different elements that leads back to the first one. -/
theorem isCycle_of_isChain (hchain : (node :: path ++ [node]).IsChain R)
    (hnodup : (node :: path).Nodup) : IsCycle R (node :: path) where
  ne_nil := List.cons_ne_nil _ _
  nodup := hnodup
  next i hi := by
    have hlength : (node :: path ++ [node]).length = (node :: path).length + 1 :=
      List.length_append
    have hstep := List.isChain_iff_getElem.mp hchain i (by omega)
    rw [List.getElem_append_left hi] at hstep
    by_cases hlast : i + 1 < (node :: path).length
    · rw [List.getElem_append_left hlast] at hstep
      simpa only [List.get_eq_getElem, Nat.mod_eq_of_lt hlast] using hstep
    · have hround : i + 1 = (node :: path).length := by omega
      simp only [List.get_eq_getElem, hround, Nat.mod_self, List.getElem_cons_zero]
      simpa only [hround, List.getElem_concat_length] using hstep

/-- An entity on the path that is next again closes a cycle. -/
theorem isCycle_of_path (hchain : (node :: path).IsChain fun a b => R b a) (hnodup : path.Nodup)
    (hnode : node ∈ path) : IsCycle R (node :: (path.takeWhile (· != node)).reverse) := by
  obtain ⟨before, rest, rfl, hnot⟩ := List.eq_append_cons_of_mem hnode
  have hbefore : (before ++ node :: rest).takeWhile (· != node) = before := by
    rw [List.takeWhile_append_of_pos fun x hx => bne_iff_ne.mpr (ne_of_mem_of_not_mem hx hnot)]
    simp
  rw [hbefore]
  refine isCycle_of_isChain ?_ ?_
  · have hround : (node :: before ++ [node]).IsChain fun a b => R b a :=
      hchain.prefix ⟨rest, by simp⟩
    simpa using List.isChain_reverse.mpr hround
  · have hnew : before.Nodup := hnodup.of_append_left
    exact List.nodup_cons.mpr ⟨by simpa using hnot, List.nodup_reverse.mpr hnew⟩

/-! ## The search as a loop -/

/-- A search with the starts that are left, the path it is on (innermost entity first), a stack
of entities with the edge that is next, and the entities it is done with. -/
structure CycleSearch where
  todo : List EntityId
  path : List EntityId := []
  stack : List (EntityId × Nat) := []
  finished : List EntityId := []

namespace CycleSearch

section

variable (next : EntityId → List EntityId)

/-- Follow an edge of the entity the path is at, or be done with it. -/
def follow (s : CycleSearch) (node : EntityId) (edge : Nat) : CycleSearch :=
  match (next node)[edge]? with
  | some target => { s with stack := (target, 0) :: (node, edge + 1) :: s.stack }
  | none => { s with finished := node :: s.finished, path := s.path.tail }

/-- One round of the loop: the search after it, or what the search has found. -/
def step (s : CycleSearch) : Except (Option (List EntityId)) CycleSearch :=
  match s.stack with
  | [] => match s.todo with
    | [] => .error none
    | start :: todo => .ok { s with todo, path := [], stack := [(start, 0)] }
  | (node, 0) :: stack =>
    if node ∈ s.path then .error (some (node :: (s.path.takeWhile (· != node)).reverse))
    else if node ∈ s.finished then .ok { s with stack }
    else .ok (follow next { s with stack, path := node :: s.path } node 0)
  | (node, edge + 1) :: stack => .ok (follow next { s with stack } node (edge + 1))

def Leads : CycleSearch → CycleSearch → Prop :=
  Relation.ReflTransGen fun s s' => step next s = .ok s'

def Ends (s : CycleSearch) (answer : Option (List EntityId)) : Prop :=
  ∃ s', Leads next s s' ∧ step next s' = .error answer

/-- What a stretch of the loop comes to: it ends with a cycle, or gets to a search that is done
with more entities. -/
def Outcome (s : CycleSearch) (after : List EntityId → CycleSearch)
    (finished nodes : List EntityId) : Except (List EntityId) (List EntityId) → Prop
  | .error cycle => IsCycle (Waits next) cycle ∧ Ends next s (some cycle)
  | .ok finished' => Clear next finished' ∧ finished ⊆ finished' ∧ nodes ⊆ finished' ∧
      Leads next s (after finished')

end

variable {s s' : CycleSearch} {after mid : List EntityId → CycleSearch} {nodes : List EntityId}

theorem Leads.ends {answer : Option (List EntityId)} (h : Leads next s s')
    (h' : Ends next s' answer) : Ends next s answer := by
  obtain ⟨s'', hleads, hstep⟩ := h'
  exact ⟨s'', h.trans hleads, hstep⟩

variable {r : Except (List EntityId) (List EntityId)}

theorem Outcome.head (h : Leads next s s') (hr : Outcome next s' after finished nodes r) :
    Outcome next s after finished nodes r := by
  cases r with
  | error cycle => exact ⟨hr.1, h.ends hr.2⟩
  | ok finished' => exact ⟨hr.1, hr.2.1, hr.2.2.1, h.trans hr.2.2.2⟩

theorem Outcome.tail (hr : Outcome next s mid finished nodes r)
    (h : ∀ finished', Leads next (mid finished') (after finished')) :
    Outcome next s after finished nodes r := by
  cases r with
  | error cycle => exact hr
  | ok finished' => exact ⟨hr.1, hr.2.1, hr.2.2.1, hr.2.2.2.trans (h finished')⟩

/-- Two stretches, one after the other. -/
theorem Outcome.bind {k : List EntityId → Except (List EntityId) (List EntityId)}
    (h : Outcome next s mid finished [node] r)
    (hk : ∀ finished', Clear next finished' →
      Outcome next (mid finished') after finished' nodes (k finished')) :
    Outcome next s after finished (node :: nodes) (r >>= k) := by
  cases r with
  | error cycle => exact h
  | ok finished' =>
    obtain ⟨hclear, hmore, hnode, hleads⟩ := h
    have hrest := (hk finished' hclear).head hleads
    show Outcome next s after finished (node :: nodes) (k finished')
    cases hr : k finished' with
    | error cycle =>
      rw [hr] at hrest
      exact hrest
    | ok finished'' =>
      rw [hr] at hrest
      obtain ⟨hclear', hmore', hnodes, hleads'⟩ := hrest
      exact ⟨hclear', List.Subset.trans hmore hmore',
        List.cons_subset.mpr ⟨hmore' (hnode (List.mem_singleton_self _)), hnodes⟩, hleads'⟩

/-- Visits of several entities, one after the other. -/
theorem outcome_foldlM {visit : List EntityId → EntityId → Except (List EntityId) (List EntityId)}
    {nodes : List EntityId} (before : List EntityId → List EntityId → CycleSearch)
    (hvisit : ∀ node rest, node :: rest <:+ nodes → ∀ finished, Clear next finished → Outcome next
      (before (node :: rest) finished) (before rest) finished [node] (visit finished node))
    (hclear : Clear next finished) : Outcome next (before nodes finished) (before []) finished nodes
      (nodes.foldlM visit finished) := by
  induction nodes generalizing finished with
  | nil => exact ⟨hclear, List.Subset.refl _, List.nil_subset _, .refl⟩
  | cons node rest ih =>
    rw [List.foldlM_cons]
    refine (hvisit node rest List.suffix_rfl finished hclear).bind fun finished' hclear' => ?_
    exact ih (fun n r h => hvisit n r (h.trans (List.suffix_cons node rest))) hclear'

end CycleSearch

/-- An entity leads to no cycle if those that are next lead to none. -/
theorem Clear.cons (h : Clear next finished) (hnext : next node ⊆ finished) :
    Clear next (node :: finished) := by
  intro x hx y hreach hround
  rcases List.mem_cons.mp hx with rfl | hx
  · rcases Relation.ReflTransGen.cases_head hreach with rfl | ⟨b, hb, hreach⟩
    · -- the entity is on the cycle itself, and so is one that is next
      obtain ⟨b, hb, hback⟩ := Relation.TransGen.head'_iff.mp hround
      exact h b (hnext hb) x hback hround
    · exact h b (hnext hb) y hreach hround
  · exact h x hx y hreach hround

namespace CycleSearch

variable {ids : List EntityId}

/-- A visit of an entity takes it off the stack of the loop, or closes a cycle. The entities on
the path are different ones of those that wait for something, so the bound on the depth leaves
room for one more. -/
theorem outcome_visit (hids : ∀ a, next a ≠ [] → a ∈ ids) {depth : Nat}
    (hdepth : path.length + depth = ids.length + 1) (hnodup : path.Nodup) (hpath : path ⊆ ids)
    (hchain : (node :: path).IsChain fun a b => Waits next b a) (hclear : Clear next finished)
    (todo : List EntityId) (stack : List (EntityId × Nat)) :
    Outcome next ⟨todo, path, (node, 0) :: stack, finished⟩ (⟨todo, path, stack, ·⟩) finished
      [node] (visitForCycle next depth path finished node) := by
  induction depth generalizing path finished node stack with
  | zero =>
    -- a path without repetition is no longer than the list of all
    have hlength := (List.subperm_of_subset hnodup hpath).length_le
    omega
  | succ depth ih =>
    unfold visitForCycle
    by_cases hnode : node ∈ path
    · rw [if_pos hnode]
      refine ⟨isCycle_of_path hchain hnodup hnode, _, .refl, ?_⟩
      simp only [step, if_pos hnode]
    rw [if_neg hnode]
    by_cases hseen : node ∈ finished
    · rw [if_pos hseen]
      refine ⟨hclear, List.Subset.refl _, by simpa using hseen, .single ?_⟩
      simp only [step, if_neg hnode, if_pos hseen]
    rw [if_neg hseen]
    -- the search when the edges to these are left to follow
    let before (rest finished : List EntityId) : CycleSearch :=
      follow next ⟨todo, node :: path, stack, finished⟩ node ((next node).length - rest.length)
    have hvisit : ∀ target rest, target :: rest <:+ next node → ∀ finished, Clear next finished →
        Outcome next (before (target :: rest) finished) (before rest) finished [target]
          (visitForCycle next depth (node :: path) finished target) := by
      rintro target rest ⟨done, hdone⟩ finished hclear
      have htarget : target ∈ next node := by simp [← hdone]
      have hmem : node ∈ ids := hids node (List.ne_nil_of_mem htarget)
      have hlength : (next node).length = done.length + (rest.length + 1) := by simp [← hdone]
      have hedge : (next node)[done.length]? = some target := by simp [← hdone]
      have hroom : (node :: path).length + depth = ids.length + 1 := by
        rw [List.length_cons]
        omega
      have hrun := ih hroom (List.nodup_cons.mpr ⟨hnode, hnodup⟩)
        (List.cons_subset.mpr ⟨hmem, hpath⟩) (List.isChain_cons_cons.mpr ⟨htarget, hchain⟩) hclear
        ((node, done.length + 1) :: stack)
      have hbefore : before (target :: rest) finished =
          ⟨todo, node :: path, (target, 0) :: (node, done.length + 1) :: stack, finished⟩ := by
        have : (next node).length - (target :: rest).length = done.length := by simp; omega
        simp only [before, this, follow, hedge]
      rw [hbefore]
      refine hrun.tail fun finished' => .single ?_
      have : (next node).length - rest.length = done.length + 1 := by omega
      simp only [step, before, this]
    have hstart : Leads next ⟨todo, path, (node, 0) :: stack, finished⟩
        (before (next node) finished) := by
      refine .single ?_
      simp only [step, if_neg hnode, if_neg hseen, before, Nat.sub_self]
    have hdone (finished : List EntityId) : before [] finished =
        ⟨todo, path, stack, node :: finished⟩ := by
      simp [before, follow]
    have hedges := (outcome_foldlM before hvisit hclear).head hstart
    cases hr : (next node).foldlM (visitForCycle next depth (node :: path)) finished with
    | error cycle =>
      rw [hr] at hedges
      exact hedges
    | ok finished' =>
      rw [hr] at hedges
      obtain ⟨hclear', hmore, hnext, hleads⟩ := hedges
      rw [hdone] at hleads
      exact ⟨hclear'.cons hnext, List.subset_cons_of_subset _ hmore, by simp, hleads⟩

end CycleSearch

/-! ## Reports -/

/-- The loop over a list of stuck entities, each of which is a start. -/
def CycleSearch.ofStuck (stuck : List Stuck) : CycleSearch := { todo := stuck.map Stuck.id }

variable {stuck : List Stuck} {a b : EntityId}

theorem mem_waitsOn (hids : (stuck.map Stuck.id).Nodup) :
    b ∈ waitsOn stuck a ↔ ∃ s ∈ stuck, s.id = a ∧ ∃ d ∈ s.missing, d.entity = b := by
  unfold waitsOn
  split
  · rename_i s hfind
    have hs := List.mem_of_find?_eq_some hfind
    have hid : s.id = a := by simpa using List.find?_some hfind
    refine List.mem_map.trans ⟨fun h => ⟨s, hs, hid, h⟩, ?_⟩
    rintro ⟨s', hs', hid', h⟩
    rwa [← List.inj_on_of_nodup_map hids hs' hs (hid'.trans hid.symm)]
  · rename_i hfind
    refine iff_of_false List.not_mem_nil ?_
    rintro ⟨s, hs, hid, -⟩
    exact absurd hid (by simpa using List.find?_eq_none.mp hfind s hs)

theorem misses_iff (hids : (stuck.map Stuck.id).Nodup) :
    Misses stuck a b ↔ Waits (waitsOn stuck) a b ∧ b ∈ stuck.map Stuck.id := by
  rw [Waits, mem_waitsOn hids, List.mem_map]
  rfl

theorem mem_ids_of_waitsOn (h : b ∈ waitsOn stuck a) : a ∈ stuck.map Stuck.id := by
  unfold waitsOn at h
  split at h
  · rename_i s hfind
    have hid : s.id = a := by simpa using List.find?_some hfind
    exact List.mem_map.mpr ⟨s, List.mem_of_find?_eq_some hfind, hid⟩
  · cases h

/-- What the search through all stuck entities comes to. -/
theorem outcome_stuck (stuck : List Stuck) : CycleSearch.Outcome (waitsOn stuck) (.ofStuck stuck)
    ({ todo := [], finished := · }) [] (stuck.map Stuck.id)
    ((stuck.map Stuck.id).foldlM (visitForCycle (waitsOn stuck) (stuck.length + 1) []) []) := by
  refine CycleSearch.outcome_foldlM (fun todo finished => { todo, finished }) ?_
    (fun x hx => absurd hx List.not_mem_nil)
  intro node rest _ finished hclear
  have hids (a : EntityId) (ha : waitsOn stuck a ≠ []) : a ∈ stuck.map Stuck.id := by
    obtain ⟨b, hb⟩ := List.exists_mem_of_ne_nil _ ha
    exact mem_ids_of_waitsOn hb
  have hroom : ([] : List EntityId).length + (stuck.length + 1) =
      (stuck.map Stuck.id).length + 1 := by simp
  have hvisit := CycleSearch.outcome_visit hids hroom List.nodup_nil (List.nil_subset _)
    (.singleton node) hclear rest []
  exact hvisit.head (.single rfl)

/-- Of stuck entities with different numbers, a cycle is reported exactly if some of them wait
for each other in a circle, and what is reported is one: different entities, each of which has
a missing dependency on the next one, and the last one on the first. The loop that finds it
comes to its end. -/
theorem cycle_reported (stuck : List Stuck) (hids : (stuck.map Stuck.id).Nodup) :
    (CycleSearch.ofStuck stuck).Ends (waitsOn stuck) (findCycle? stuck) ∧
      ((findCycle? stuck).isSome ↔ ∃ x, Relation.TransGen (Misses stuck) x x) ∧
      ∀ cycle, findCycle? stuck = some cycle → cycle ≠ [] ∧ cycle.Nodup ∧
        ∀ i (hi : i < cycle.length), Misses stuck cycle[i]
          (cycle.get ⟨(i + 1) % cycle.length, Nat.mod_lt _ (Nat.zero_lt_of_lt hi)⟩) := by
  have houtcome := outcome_stuck stuck
  unfold findCycle?
  split
  · rename_i cycle hcycle
    rw [hcycle] at houtcome
    obtain ⟨hwaits, hends⟩ := houtcome
    have hmisses : IsCycle (Misses stuck) cycle := hwaits.mono fun a b hab ⟨_, hb⟩ =>
      (misses_iff hids).mpr ⟨hab, mem_ids_of_waitsOn hb⟩
    refine ⟨hends, iff_of_true rfl hmisses.transGen, ?_⟩
    rintro cycle ⟨⟩
    exact ⟨hmisses.ne_nil, hmisses.nodup, hmisses.next⟩
  · rename_i finished hfinished
    rw [hfinished] at houtcome
    obtain ⟨hclear, -, hall, hleads⟩ := houtcome
    refine ⟨⟨_, hleads, rfl⟩, iff_of_false Bool.false_ne_true ?_, fun cycle hc => by cases hc⟩
    rintro ⟨x, hround⟩
    have hwaits := hround.lift id fun a b hab => ((misses_iff hids).mp hab).1
    obtain ⟨b, hb, -⟩ := Relation.TransGen.head'_iff.mp hwaits
    exact hclear x (hall (mem_ids_of_waitsOn hb)) x .refl hwaits

/-- What has the numbers of entities has different ones. -/
theorem nodup_ids_filterMap {entry : Entity × Nat → Option Stuck}
    (hid : ∀ e i s, entry (e, i) = some s → s.id = i) (entities : List Entity) :
    ((entities.zipIdx.filterMap entry).map Stuck.id).Nodup := by
  have hnumbers : entities.zipIdx.Pairwise fun a b => a.2 ≠ b.2 := by
    rw [← List.pairwise_map, List.zipIdx_map_snd]
    exact List.nodup_range'
  refine List.pairwise_map.mpr (hnumbers.filterMap _ ?_)
  rintro ⟨e, i⟩ ⟨e', i'⟩ hne s hs s' hs'
  rw [hid e i s hs, hid e' i' s' hs']
  exact hne

/-- The entities of a report are different ones. -/
theorem EntityGraph.nodup_stuck (g : EntityGraph) (phase : Phase) :
    ((g.stuckReport phase).stuck.map Stuck.id).Nodup := by
  refine nodup_ids_filterMap (fun e i s hs => ?_) _
  cases hn : e.nextPhase? with
  | none => simp [hn] at hs
  | some p =>
    simp only [hn] at hs
    obtain ⟨-, hs⟩ := Option.ite_none_right_eq_some.mp hs
    cases hs
    rfl

/-- Two entities that wait for each other, and one that waits for them and for another one that
is not there. -/
def waitingInCircle : EntityGraph :=
  let entity (missing : List EntityId) : Entity := {
    name := none, kind := .function, module := 0
    deps := missing.map (⟨·, .complete, .one⟩), range := ⟨0, 0, 0⟩ }
  ⟨#[entity [7, 1], entity [2], entity [1]]⟩

theorem cycle_reported_waitingInCircle :
    let report := waitingInCircle.stuckReport .one
    report.cycle = some [1, 2] ∧ Misses report.stuck 1 2 ∧ Misses report.stuck 2 1 := by
  have hfound : (waitingInCircle.stuckReport .one).cycle = some [1, 2] := by decide
  obtain ⟨-, -, hcycle⟩ := cycle_reported _ (waitingInCircle.nodup_stuck .one)
  obtain ⟨-, -, hnext⟩ := hcycle _ hfound
  exact ⟨hfound, hnext 0 (by decide), hnext 1 (by decide)⟩

end Staged
