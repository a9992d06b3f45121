/-
  Staged.Proofs.Search — looking a name up through brings finds it if it is there.

  A search starts in a module and goes on to the modules that are brought without an alias,
  from there to those that they bring, and so on (`Reaches`). Where it starts every bring
  counts, elsewhere only those that are visible (`Counts`). A module may offer something
  under a name: an item, a submodule, a module brought under that alias, a brought entity
  (`Offers`).

  Being visited on one way never hides a result from another: a module that was visited
  offered nothing, or the search would have ended there, and its brings were visited too or
  are still to do (`Swept`). So a search that comes to its end has seen all that it reaches
  (`answers_search`).

  It does come to its end. Written as nested calls that share the modules visited so far, it
  is a finite tree of calls, however brings go round in circles (`findIn_visits`).

  A name of one segment is searched for from the modules around its user. So each bring that
  it is found by is one of a module that the user lies in, or visible to the user
  (`resolve_single_offered`). A segment behind others is searched for from the module that
  these name, whose brings all count, wherever the user is (`findIn_offered`).

  Main statement: `findIn_complete`.
-/

import Mathlib.Data.List.Nodup
import Staged.Proofs.Resolve

namespace Staged.ModuleTree

/-! ## What a search is after -/

section

variable (t : ModuleTree) (view : Viewpoint) (start : ModId)

/-- A bring that may be used in a module: any in the module where the search starts,
elsewhere those that are visible. -/
def Counts (id : ModId) (vis : Visibility) : Prop := id = start ∨ t.isAccessible vis view = true

inductive Reaches : ModId → Prop
  | start : Reaches start
  | bring {id : ModId} {m : Mod} {b : BroughtModule} : Reaches id → t.get? id = some m →
      b ∈ m.brought → b.asName = none → t.Counts view start id b.vis → Reaches b.module

/-- What a module has under a name. Of several modules brought under one alias, only the
first has it. -/
inductive Offers (name : String) (id : ModId) : Resolved → Prop
  | item {m : Mod} {i : Item} : t.get? id = some m → m.item? name = some i →
      Offers name id (.item i)
  | submodule {m : Mod} {s : ModId} : t.get? id = some m →
      m.submodules.find? (fun s => (t.get? s).any (·.name.text == name)) = some s →
      Offers name id (.module s)
  | brought {m : Mod} {b : BroughtModule} : t.get? id = some m →
      m.brought.find? (fun b => b.asName.any (·.text == name)) = some b →
      t.Counts view start id b.vis → Offers name id (.module b.module)
  | entity {m : Mod} {b : BroughtEntity} : t.get? id = some m → m.broughtEntity? name = some b →
      t.Counts view start id b.vis → Offers name id (.item b.item)

inductive Checked (range : Span) (x : Resolved) : Except ResolveError Resolved → Prop
  | visible : x.Visible t view → Checked range x (.ok x)
  | hidden (text module : String) (declared : Span) : ¬x.Visible t view →
      Checked range x (.error (.notAccessible text module range declared))

end

variable {t : ModuleTree} {view : Viewpoint} {start id : ModId} {m : Mod} {name : Ident}
  {x : Resolved}

/-! ## One module -/

theorem usable_eq_true {vis : Visibility} :
    t.usable view (id == start) vis = true ↔ t.Counts view start id vis := by
  unfold usable Counts
  rw [Bool.or_eq_true, beq_iff_eq]

theorem mem_anonymousBrings {target : ModId} :
    target ∈ t.anonymousBrings view (id == start) m ↔
      ∃ b ∈ m.brought, b.asName = none ∧ t.Counts view start id b.vis ∧ b.module = target := by
  simp only [anonymousBrings, List.mem_map, List.mem_filter, Bool.and_eq_true,
    Option.isNone_iff_eq_none, usable_eq_true, and_assoc]

theorem checked_checkItem (module : ModId) (range : Span) (i : Item) :
    t.Checked view range (.item i) (t.checkItem view module range i) := by
  unfold checkItem
  split
  · rename_i hvis
    exact .visible hvis
  · rename_i hvis
    exact .hidden _ _ _ hvis

theorem checked_checkModule (range : Span) (id : ModId) :
    t.Checked view range (.module id) (t.checkModule view range id) := by
  unfold checkModule
  cases hm : t.get? id with
  | none =>
    refine .visible fun m hm' => ?_
    rw [hm] at hm'
    cases hm'
  | some m =>
    dsimp only
    split
    · rename_i hvis
      refine .visible fun m' hm' => ?_
      cases hm.symm.trans hm'
      exact hvis
    · rename_i hvis
      exact .hidden _ _ _ fun h => hvis (h m hm)

/-- What a module brought without an alias is searched for first is offered there. -/
theorem offers_of_behind {target : ModId} {i : Item} {found : ModId}
    (h : t.behind? view name.text target = some (found, i)) :
    t.Offers view start name.text target (.item i) := by
  unfold behind? at h
  obtain ⟨m, hm, h⟩ := Option.bind_eq_some_iff.mp h
  rcases Option.or_eq_some_iff.mp h with h | ⟨-, h⟩
  · obtain ⟨j, hj, heq⟩ := Option.map_eq_some_iff.mp h
    cases heq
    exact .item hm hj
  · obtain ⟨b, hb, h⟩ := Option.bind_eq_some_iff.mp h
    split at h
    · rename_i hvis
      cases h
      exact .entity hm hb (.inr hvis)
    · cases h

/-- What a name means in a module was offered there or one bring further. -/
theorem offers_of_lookup? {result : Except ResolveError Resolved} (hid : t.Reaches view start id)
    (hm : t.get? id = some m) (h : t.lookup? view (id == start) id m name = some result) :
    ∃ r x, t.Reaches view start r ∧ t.Offers view start name.text r x ∧
      t.Checked view name.range x result := by
  unfold lookup? at h
  rcases Option.or_eq_some_iff.mp h with h | ⟨-, h⟩
  · obtain ⟨i, hi, rfl⟩ := Option.map_eq_some_iff.mp h
    exact ⟨id, _, hid, .item hm hi, checked_checkItem _ _ i⟩
  rcases Option.or_eq_some_iff.mp h with h | ⟨-, h⟩
  · obtain ⟨s, hs, rfl⟩ := Option.map_eq_some_iff.mp h
    exact ⟨id, _, hid, .submodule hm hs, checked_checkModule _ s⟩
  rcases Option.or_eq_some_iff.mp h with h | ⟨-, h⟩
  · obtain ⟨b, hb, h⟩ := Option.bind_eq_some_iff.mp h
    split at h
    · rename_i huse
      cases h
      exact ⟨id, _, hid, .brought hm hb (usable_eq_true.mp huse), checked_checkModule _ b.module⟩
    · cases h
  rcases Option.or_eq_some_iff.mp h with h | ⟨-, h⟩
  · obtain ⟨b, hb, h⟩ := Option.bind_eq_some_iff.mp h
    split at h
    · rename_i huse
      cases h
      exact ⟨id, _, hid, .entity hm hb (usable_eq_true.mp huse), checked_checkItem _ _ b.item⟩
    · cases h
  · obtain ⟨⟨found, i⟩, hi, rfl⟩ := Option.map_eq_some_iff.mp h
    obtain ⟨target, htarget, hi⟩ := List.exists_of_findSome?_eq_some hi
    obtain ⟨b, hb, halias, hcounts, rfl⟩ := mem_anonymousBrings.mp htarget
    exact ⟨b.module, _, .bring hid hm hb halias hcounts, offers_of_behind hi,
      checked_checkItem _ _ i⟩

/-- Where a name means nothing, nothing is offered under it. -/
theorem not_offers_of_lookup? (hm : t.get? id = some m)
    (h : t.lookup? view (id == start) id m name = none) (x : Resolved) :
    ¬t.Offers view start name.text id x := by
  unfold lookup? at h
  simp only [Option.or_eq_none_iff, Option.map_eq_none_iff, Option.bind_eq_none_iff] at h
  obtain ⟨hitem, hsub, hbrought, hentity, -⟩ := h
  intro hx
  cases hx with
  | item hm' hi =>
    cases hm.symm.trans hm'
    rw [hitem] at hi
    cases hi
  | submodule hm' hs =>
    cases hm.symm.trans hm'
    rw [hsub] at hs
    cases hs
  | brought hm' hb hcounts =>
    cases hm.symm.trans hm'
    have := hbrought _ hb
    rw [if_pos (usable_eq_true.mpr hcounts)] at this
    cases this
  | entity hm' hb hcounts =>
    cases hm.symm.trans hm'
    have := hentity _ hb
    rw [if_pos (usable_eq_true.mpr hcounts)] at this
    cases this

/-! ## The whole search -/

/-- What holds in the middle of a search: modules to do are reached, and those that were
visited mean nothing by the name and have their brings visited or to do. -/
structure Swept (t : ModuleTree) (view : Viewpoint) (start : ModId) (name : Ident)
    (unvisited : List ModId) (todo : List (ModId × Bool)) : Prop where
  nodup : unvisited.Nodup
  exist : ∀ id ∈ unvisited, id < t.size
  reaches : ∀ p ∈ todo, t.Reaches view start p.1
  origin : ∀ p ∈ todo, p.1 ∈ unvisited → p.2 = (p.1 == start)
  begun : start ∈ unvisited → todo.head? = some (start, true)
  visited : ∀ id m, id ∉ unvisited → t.get? id = some m →
    t.lookup? view (id == start) id m name = none ∧
      ∀ target ∈ t.anonymousBrings view (id == start) m,
        target ∈ unvisited → ∃ p ∈ todo, p.1 = target

theorem swept_start (t : ModuleTree) (view : Viewpoint) (start : ModId) (name : Ident) :
    t.Swept view start name (List.range t.size) [(start, true)] where
  nodup := List.nodup_range
  exist _ hid := List.mem_range.mp hid
  reaches p hp := by
    rw [List.mem_singleton.mp hp]
    exact .start
  origin p hp _ := by
    rw [List.mem_singleton.mp hp]
    exact (beq_self_eq_true start).symm
  begun _ := rfl
  visited id m hid hm := by
    have hlt : id < t.modules.size := (Array.getElem?_eq_some_iff.mp hm).1
    exact absurd (List.mem_range.mpr hlt) hid

namespace Swept

variable {unvisited : List ModId} {origin : Bool} {rest : List (ModId × Bool)}

theorem eq_start (h : t.Swept view start name unvisited ((id, origin) :: rest))
    (hstart : start ∈ unvisited) : id = start :=
  (Prod.mk.inj (Option.some.inj (h.begun hstart))).1

/-- A module that need not be visited is left out. -/
theorem skip (h : t.Swept view start name unvisited ((id, origin) :: rest))
    (hid : id ∉ unvisited) : t.Swept view start name unvisited rest where
  nodup := h.nodup
  exist := h.exist
  reaches p hp := h.reaches p (List.mem_cons_of_mem _ hp)
  origin p hp := h.origin p (List.mem_cons_of_mem _ hp)
  begun hstart := absurd hstart (h.eq_start hstart ▸ hid)
  visited j m hj hm := by
    refine ⟨(h.visited j m hj hm).1, fun target htarget hun => ?_⟩
    obtain ⟨p, hp, rfl⟩ := (h.visited j m hj hm).2 target htarget hun
    rcases List.mem_cons.mp hp with rfl | hp
    · exact absurd hun hid
    · exact ⟨p, hp, rfl⟩

/-- A module that is visited has its brings put in front of what is still to do. -/
theorem visit (h : t.Swept view start name unvisited ((id, origin) :: rest))
    (hid : id ∈ unvisited) (hm : t.get? id = some m)
    (hl : t.lookup? view origin id m name = none) :
    t.Swept view start name (unvisited.erase id)
      ((t.anonymousBrings view origin m).map (·, false) ++ rest) := by
  obtain rfl : origin = (id == start) := h.origin _ List.mem_cons_self hid
  have hmem (j : ModId) : j ∈ unvisited.erase id ↔ j ≠ id ∧ j ∈ unvisited := h.nodup.mem_erase_iff
  -- the start is visited first of all
  have hbegun : start ∉ unvisited.erase id := fun hstart =>
    ((hmem _).mp hstart).1 (h.eq_start ((hmem _).mp hstart).2).symm
  refine ⟨h.nodup.erase id, fun j hj => h.exist j ((hmem j).mp hj).2, fun p hp => ?_,
    fun p hp hun => ?_, fun hstart => absurd hstart hbegun, fun j mj hj hmj => ?_⟩
  · rcases List.mem_append.mp hp with hp | hp
    · obtain ⟨target, htarget, rfl⟩ := List.mem_map.mp hp
      obtain ⟨b, hb, halias, hcounts, rfl⟩ := mem_anonymousBrings.mp htarget
      exact .bring (h.reaches _ List.mem_cons_self) hm hb halias hcounts
    · exact h.reaches p (List.mem_cons_of_mem _ hp)
  · rcases List.mem_append.mp hp with hp | hp
    · obtain ⟨target, -, rfl⟩ := List.mem_map.mp hp
      have hne : target ≠ start := by
        rintro rfl
        exact hbegun hun
      exact (beq_eq_false_iff_ne.mpr hne).symm
    · exact h.origin p (List.mem_cons_of_mem _ hp) ((hmem _).mp hun).2
  · by_cases hji : j = id
    · subst hji
      cases hm.symm.trans hmj
      exact ⟨hl, fun target htarget _ =>
        ⟨(target, false), List.mem_append_left _ (List.mem_map_of_mem htarget), rfl⟩⟩
    · have hj' : j ∉ unvisited := fun hun => hj ((hmem j).mpr ⟨hji, hun⟩)
      obtain ⟨hnone, hbrings⟩ := h.visited j mj hj' hmj
      refine ⟨hnone, fun target htarget hun => ?_⟩
      obtain ⟨p, hp, rfl⟩ := hbrings target htarget ((hmem _).mp hun).2
      rcases List.mem_cons.mp hp with rfl | hp
      · exact absurd rfl ((hmem _).mp hun).1
      · exact ⟨p, List.mem_append_right _ hp, rfl⟩

/-- With nothing left to do, all that is reached was visited. -/
theorem visited_of_reaches (h : t.Swept view start name unvisited []) {r : ModId}
    (hr : t.Reaches view start r) : r ∉ unvisited := by
  induction hr with
  | start =>
    intro hstart
    cases h.begun hstart
  | bring hid hm hb halias hcounts ih =>
    intro hun
    obtain ⟨p, hp, -⟩ := (h.visited _ _ ih hm).2 _
      (mem_anonymousBrings.mpr ⟨_, hb, halias, hcounts, rfl⟩) hun
    cases hp

theorem not_offers (h : t.Swept view start name unvisited []) {r : ModId}
    (hr : t.Reaches view start r) (x : Resolved) : ¬t.Offers view start name.text r x := by
  intro hx
  obtain ⟨m, hm⟩ : ∃ m, t.get? r = some m := by
    cases hx <;> exact ⟨_, ‹_›⟩
  have hmeans := (h.visited r m (h.visited_of_reaches hr) hm).1
  exact not_offers_of_lookup? hm hmeans x hx

end Swept

/-- What an answer says: nothing is offered where the search gets to, or something is, which
is then found if it is visible and refused if it is not. -/
inductive Answers (t : ModuleTree) (view : Viewpoint) (start : ModId) (name : Ident) :
    Except ResolveError (Option Resolved) → Prop
  | none : (∀ r, t.Reaches view start r → ∀ x, ¬t.Offers view start name.text r x) →
      Answers t view start name (.ok none)
  | some {r : ModId} {x : Resolved} {result : Except ResolveError Resolved} :
      t.Reaches view start r → t.Offers view start name.text r x →
      t.Checked view name.range x result → Answers t view start name (result.map some)

theorem answers_search {unvisited : List ModId} {todo : List (ModId × Bool)}
    (h : t.Swept view start name unvisited todo) :
    t.Answers view start name (t.search view name unvisited todo) := by
  fun_induction t.search view name unvisited todo with
  | case1 => exact .none fun r hr x => h.not_offers hr x
  | case2 unvisited id origin rest hid hm ih =>
    exact absurd (h.exist id hid) (Nat.not_lt.mpr (Array.getElem?_eq_none_iff.mp hm))
  | case3 unvisited id origin rest hid m hm found hl =>
    obtain rfl : origin = (id == start) := h.origin _ List.mem_cons_self hid
    obtain ⟨r, x, hr, hx, hchecked⟩ :=
      offers_of_lookup? (h.reaches _ List.mem_cons_self) hm hl
    exact .some hr hx hchecked
  | case4 unvisited id origin rest hid m hm hl ih => exact ih (h.visit hid hm hl)
  | case5 unvisited id origin rest hid ih => exact ih (h.skip hid)

/-! ## Which brings a name is found by -/

/-- What is found in a module is offered where the brings that count lead to from there. -/
theorem findIn_offered (h : t.findIn start name view = .ok (some x)) :
    ∃ r, t.Reaches view start r ∧ t.Offers view start name.text r x := by
  have hanswers : t.Answers view start name (t.findIn start name view) :=
    answers_search (swept_start t view start name)
  generalize t.findIn start name view = answer at hanswers h
  cases hanswers with
  | none => cases h
  | some hr hx hchecked =>
    cases hchecked with
    | visible =>
      cases h
      exact ⟨_, hr, hx⟩
    | hidden => cases h

theorem findFirst_offered {ms : List ModId} (h : t.findFirst name view ms = .ok (some x)) :
    ∃ m ∈ ms, ∃ r, t.Reaches view m r ∧ t.Offers view m name.text r x := by
  induction ms with
  | nil => cases h
  | cons m rest ih =>
    unfold ModuleTree.findFirst at h
    cases hf : t.findIn m name view with
    | error e =>
      rw [hf] at h
      cases h
    | ok found =>
      rw [hf] at h
      cases found with
      | none =>
        obtain ⟨m', hm', hoffered⟩ := ih h
        exact ⟨m', List.mem_cons_of_mem _ hm', hoffered⟩
      | some y =>
        cases h
        exact ⟨m, List.mem_cons_self, findIn_offered hf⟩

/-- A name of one segment is found from a module that its user lies in. On the way from there,
only brings count that are that module's own or visible to the user. -/
theorem resolve_single_offered {q : QName} (hname : q.segments = [name]) (hup : q.up = 0)
    (h : t.resolve view.module q view = .ok x) :
    ∃ m, t.isWithin view.module m = true ∧
      ∃ r, t.Reaches view m r ∧ t.Offers view m name.text r x := by
  obtain ⟨m, found, hm, hhead, hrest⟩ := resolve_cons hname h
  rw [hup] at hm
  cases hm
  cases hrest
  rw [head, if_pos hup] at hhead
  obtain ⟨m, hm, hoffered⟩ := findFirst_offered hhead
  exact ⟨m, List.contains_iff_mem.mpr hm, hoffered⟩

/-! ## The search as nested calls -/

section

variable (t : ModuleTree) (view : Viewpoint) (name : Ident)

mutual

/-- A call that searches a module: the modules visited before it, whether the module is the
one where the search starts, the modules visited after it, and its answer. -/
inductive Visits :
    List ModId → ModId → Bool → List ModId → Except ResolveError (Option Resolved) → Prop
  | again {visited : List ModId} {id : ModId} {origin : Bool} :
      id ∈ visited → Visits visited id origin visited (.ok none)
  | nowhere {visited : List ModId} {id : ModId} {origin : Bool} :
      t.get? id = none → Visits visited id origin visited (.ok none)
  | means {visited : List ModId} {id : ModId} {origin : Bool} {m : Mod}
      {found : Except ResolveError Resolved} : id ∉ visited → t.get? id = some m →
      t.lookup? view origin id m name = some found →
      Visits visited id origin (id :: visited) (found.map some)
  | further {visited visited' : List ModId} {id : ModId} {origin : Bool} {m : Mod}
      {answer : Except ResolveError (Option Resolved)} : id ∉ visited → t.get? id = some m →
      t.lookup? view origin id m name = none →
      VisitsEach (id :: visited) (t.anonymousBrings view origin m) visited' answer →
      Visits visited id origin visited' answer

inductive VisitsEach :
    List ModId → List ModId → List ModId → Except ResolveError (Option Resolved) → Prop
  | nil {visited : List ModId} : VisitsEach visited [] visited (.ok none)
  | stop {visited visited' : List ModId} {id : ModId} {ids : List ModId}
      {answer : Except ResolveError (Option Resolved)} :
      Visits visited id false visited' answer → answer ≠ .ok none →
      VisitsEach visited (id :: ids) visited' answer
  | next {visited visited' visited'' : List ModId} {id : ModId} {ids : List ModId}
      {answer : Except ResolveError (Option Resolved)} :
      Visits visited id false visited' (.ok none) → VisitsEach visited' ids visited'' answer →
      VisitsEach visited (id :: ids) visited'' answer

end

def unvisited (visited : List ModId) : List ModId := (List.range t.size).filter (· ∉ visited)

def orElse (answer next : Except ResolveError (Option Resolved)) :
    Except ResolveError (Option Resolved) :=
  match answer with
  | .ok none => next
  | _ => answer

end

variable {visited visited' : List ModId} {answer : Except ResolveError (Option Resolved)}
  {origin : Bool}

theorem mem_unvisited : id ∈ t.unvisited visited ↔ id < t.size ∧ id ∉ visited := by
  simp only [unvisited, List.mem_filter, List.mem_range, decide_eq_true_eq]

theorem unvisited_cons : t.unvisited (id :: visited) = (t.unvisited visited).erase id := by
  unfold unvisited
  rw [(List.nodup_range.filter _).erase_eq_filter, List.filter_filter]
  refine List.filter_congr fun j _ => ?_
  simp only [List.mem_cons, not_or, Bool.decide_and, decide_not, bne]
  rfl

theorem length_unvisited_le (h : visited ⊆ visited') :
    (t.unvisited visited').length ≤ (t.unvisited visited).length := by
  refine (List.monotone_filter_right _ fun j => ?_).length_le
  simp only [decide_eq_true_eq]
  exact fun hj hv => hj (h hv)

theorem orElse_of_ne {next : Except ResolveError (Option Resolved)} (h : answer ≠ .ok none) :
    orElse answer next = answer := by
  unfold orElse
  split
  · exact absurd rfl h
  · rfl

structure Ended (t : ModuleTree) (view : Viewpoint) (name : Ident) (visited : List ModId)
    (todo rest : List (ModId × Bool)) (visited' : List ModId)
    (answer : Except ResolveError (Option Resolved)) : Prop where
  subset : visited ⊆ visited'
  nodup : visited'.Nodup
  search : t.search view name (t.unvisited visited) (todo ++ rest) =
    orElse answer (t.search view name (t.unvisited visited') rest)

theorem visits_each {n : Nat} (ids : List ModId)
    (hvisits : ∀ visited : List ModId, visited.Nodup → (t.unvisited visited).length ≤ n → ∀ id rest,
      ∃ visited' answer, t.Visits view name visited id false visited' answer ∧
        t.Ended view name visited [(id, false)] rest visited' answer)
    (hnodup : visited.Nodup) (hlength : (t.unvisited visited).length ≤ n)
    (rest : List (ModId × Bool)) :
    ∃ visited' answer, t.VisitsEach view name visited ids visited' answer ∧
      t.Ended view name visited (ids.map (·, false)) rest visited' answer := by
  induction ids generalizing visited with
  | nil => exact ⟨visited, .ok none, .nil, List.Subset.refl _, hnodup, rfl⟩
  | cons id ids ih =>
    obtain ⟨visited', answer, hcall, hended⟩ :=
      hvisits visited hnodup hlength id (ids.map (·, false) ++ rest)
    -- only an empty answer sends the search on to the next module
    by_cases hnone : answer = .ok none
    · subst hnone
      obtain ⟨visited'', answer, hcalls, hended'⟩ :=
        ih hended.nodup (Nat.le_trans (length_unvisited_le hended.subset) hlength)
      exact ⟨visited'', answer, .next hcall hcalls,
        List.Subset.trans hended.subset hended'.subset, hended'.nodup,
        hended.search.trans hended'.search⟩
    · refine ⟨visited', answer, .stop hcall hnone, hended.subset, hended.nodup, ?_⟩
      refine hended.search.trans ?_
      rw [orElse_of_ne hnone, orElse_of_ne hnone]

/-- Every call ends, by induction on how many modules were not visited. -/
theorem exists_visits (n : Nat) (visited : List ModId) (hnodup : visited.Nodup)
    (hlength : (t.unvisited visited).length ≤ n) (id : ModId) (origin : Bool)
    (rest : List (ModId × Bool)) :
    ∃ visited' answer, t.Visits view name visited id origin visited' answer ∧
      t.Ended view name visited [(id, origin)] rest visited' answer := by
  by_cases hid : id ∈ t.unvisited visited
  · obtain ⟨hlt, hnew⟩ := mem_unvisited.mp hid
    obtain ⟨m, hm⟩ : ∃ m, t.get? id = some m := ⟨_, Array.getElem?_eq_getElem hlt⟩
    have hnodup' : (id :: visited).Nodup := List.nodup_cons.mpr ⟨hnew, hnodup⟩
    have hsubset : visited ⊆ id :: visited := List.subset_cons_self id visited
    cases hl : t.lookup? view origin id m name with
    | some found =>
      refine ⟨id :: visited, found.map some, .means hnew hm hl, hsubset, hnodup', ?_⟩
      rw [List.singleton_append, ModuleTree.search, dif_pos hid, hm]
      simp only [hl]
      cases found <;> rfl
    | none =>
      have hless : (t.unvisited (id :: visited)).length < (t.unvisited visited).length := by
        rw [unvisited_cons, List.length_erase_of_mem hid]
        exact Nat.sub_lt (List.length_pos_of_mem hid) Nat.one_pos
      cases n with
      | zero => exact absurd hless (by omega)
      | succ n =>
        obtain ⟨visited', answer, hcalls, hended⟩ := visits_each
          (t.anonymousBrings view origin m) (fun visited hnodup hlength id rest =>
            exists_visits n visited hnodup hlength id false rest) hnodup' (by omega) rest
        refine ⟨visited', answer, .further hnew hm hl hcalls,
          List.Subset.trans hsubset hended.subset, hended.nodup, ?_⟩
        rw [← hended.search, List.singleton_append, ModuleTree.search, dif_pos hid, hm]
        simp only [hl, unvisited_cons]
  · refine ⟨visited, .ok none, ?_, List.Subset.refl _, hnodup, ?_⟩
    · by_cases hlt : id < t.size
      · exact .again (Decidable.not_not.mp fun hnew => hid (mem_unvisited.mpr ⟨hlt, hnew⟩))
      · exact .nowhere (Array.getElem?_eq_none (Nat.not_lt.mp hlt))
    · rw [List.singleton_append, ModuleTree.search, dif_neg hid]
      rfl

/-- A search ends, having visited no module twice. -/
theorem findIn_visits (t : ModuleTree) (start : ModId) (name : Ident) (view : Viewpoint) :
    ∃ visited, visited.Nodup ∧
      t.Visits view name [] start true visited (t.findIn start name view) := by
  obtain ⟨visited, answer, hcall, hended⟩ :=
    exists_visits _ [] List.nodup_nil (Nat.le_refl _) start true []
  have hall : t.unvisited [] = List.range t.size := List.filter_eq_self.mpr fun _ _ => by simp
  have hsearch : t.findIn start name view = answer := by
    unfold ModuleTree.findIn
    rw [← hall]
    refine hended.search.trans ?_
    rw [ModuleTree.search]
    unfold orElse
    split <;> rfl
  exact ⟨visited, hended.nodup, hsearch ▸ hcall⟩

/-- However brings go round in circles, a search ends and visits no module twice. It finds
nothing exactly if nothing is offered under the name in the modules it reaches; what it finds
is offered in one of them and visible; and if it refuses, something is offered in one of them
that is not visible. -/
theorem findIn_complete (t : ModuleTree) (start : ModId) (name : Ident) (view : Viewpoint) :
    (∃ visited, visited.Nodup ∧
      t.Visits view name [] start true visited (t.findIn start name view)) ∧
    (t.findIn start name view = .ok none ↔
      ∀ r, t.Reaches view start r → ∀ x, ¬t.Offers view start name.text r x) ∧
    (∀ x, t.findIn start name view = .ok (some x) → x.Visible t view ∧
      ∃ r, t.Reaches view start r ∧ t.Offers view start name.text r x) ∧
    ∀ e, t.findIn start name view = .error e →
      (∃ text module declared, e = .notAccessible text module name.range declared) ∧
      ∃ r x, t.Reaches view start r ∧ t.Offers view start name.text r x ∧ ¬x.Visible t view := by
  refine ⟨findIn_visits t start name view, ?_⟩
  have hanswers : t.Answers view start name (t.findIn start name view) :=
    answers_search (swept_start t view start name)
  generalize t.findIn start name view = answer at hanswers
  cases hanswers with
  | none hnot =>
    refine ⟨⟨fun _ => hnot, fun _ => rfl⟩, ?_, ?_⟩
    · intro x h
      cases h
    · intro e h
      cases h
  | some hr hx hchecked =>
    have hoffered : ¬∀ r, t.Reaches view start r → ∀ x, ¬t.Offers view start name.text r x :=
      fun hnot => hnot _ hr _ hx
    cases hchecked with
    | visible hvis =>
      refine ⟨⟨fun h => (by cases h), fun hnot => absurd hnot hoffered⟩, ?_, ?_⟩
      · intro y h
        cases h
        exact ⟨hvis, _, hr, hx⟩
      · intro e h
        cases h
    | hidden text module declared hvis =>
      refine ⟨⟨fun h => (by cases h), fun hnot => absurd hnot hoffered⟩, ?_, ?_⟩
      · intro y h
        cases h
      · intro e h
        cases h
        exact ⟨⟨text, module, declared, rfl⟩, _, _, hr, hx, hvis⟩

end Staged.ModuleTree
