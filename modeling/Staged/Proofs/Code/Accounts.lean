/-
  Staged.Proofs.Code.Accounts — every function that lacks a body is owed one.

  Between calls, a function without a body is owed one by a declaration whose third phase
  is next, and two declarations never keep members in the same place
  (`Compiler.Accounts`). A call that is counted as run keeps this: what it declares it
  owes, what it owed it has paid, and what others owe is left as it was. When all entities
  are finished, nothing is owed any more.
-/

import Staged.Proofs.Code.Phase
import Staged.Proofs.Compile.Register
import Staged.Proofs.Schedule.Invariant

namespace Staged

namespace EntityKind

variable {k : EntityKind} {n : Nat} {p : Phase}

/-- The bodies of functions are lowered in the phase after the one that declares them. -/
theorem phases_of_declares (hp : k.phases[n]? = some p) (hd : k.declares p = true) :
    k.phases[n + 1]? = some .three := by
  cases k <;> rcases n with _ | _ | _ | n <;> cases hp <;> first | rfl | cases hd

theorem one_of_phases (hp : k.phases[n]? = some p) (hq : k.phases[n + 1]? = some .two) :
    p = .one := by
  cases k <;> rcases n with _ | _ | _ | n <;> cases hp <;> first | rfl | cases hq

theorem two_of_phases (hp : k.phases[n]? = some p) (hq : k.phases[n + 1]? = some .three) :
    p = .two ∨ k = .function := by
  cases k <;> rcases n with _ | _ | _ | n <;> cases hp <;>
    first | exact .inl rfl | exact .inr rfl | cases hq

end EntityKind

namespace Compiler

structure Accounts (s : Compiler) : Prop where
  whole : s.Whole
  owed : ∀ id site, s.sites[id]? = some site → ∀ i, s.Owes id site.decl.body i → s.core.Plain i
  kept : ∀ id site, s.sites[id]? = some site → ∀ w, s.Keeps id site.decl.body w →
    s.types.membersAt w ≠ none
  once : ∀ id site, s.sites[id]? = some site → ∀ id' site', s.sites[id']? = some site' →
    ∀ w, s.Keeps id site.decl.body w → s.Keeps id' site'.decl.body w → id = id'
  empty : ∀ id site, s.sites[id]? = some site → s.entities.nextPhase? id = some .two →
    ∀ w, s.Keeps id site.decl.body w → s.types.membersAt w = some []
  full : ∀ id site, s.sites[id]? = some site → s.entities.nextPhase? id = some .three →
    ∀ w ms, s.Keeps id site.decl.body w → s.types.membersAt w = some ms →
      ms.length = site.decl.body.members.length
  lacks : ∀ i, s.core.Lacks i → ∃ id site, s.sites[id]? = some site ∧
    s.Owes id site.decl.body i ∧ s.entities.nextPhase? id = some .three

variable {s s' : Compiler} {id : EntityId} {site : Site} {phase : Phase}

theorem Accounts.due (h : s.Accounts) (hsite : s.sites[id]? = some site)
    (hnext : s.entities.nextPhase? id = some phase) : s.Due id site.decl.body phase where
  whole := h.whole
  owed := h.owed id site hsite
  kept := h.kept id site hsite
  empty hphase := h.empty id site hsite (hphase ▸ hnext)
  full hphase := h.full id site hsite (hphase ▸ hnext)

/-- Nothing is owed when all entities are finished. -/
theorem Accounts.not_lacks (h : s.Accounts) (hf : ∀ id, s.entities.nextPhase? id = none)
    (i : Ir.FunctionId) : ¬s.core.Lacks i := by
  intro hi
  obtain ⟨id, -, -, -, hnext⟩ := h.lacks i hi
  rw [hf id] at hnext
  cases hnext

/-! ## One entity moves -/

/-- What another entity keeps is not what this one keeps, and stays as it was. -/
theorem Accounts.other (h : s.Accounts) (hsite : s.sites[id]? = some site)
    (he : s.Effect s' id site.decl.body phase) {j : EntityId} {site' : Site} (hj : j ≠ id)
    (hsite' : s.sites[j]? = some site') {w : Home} (hw : s.Keeps j site'.decl.body w) :
    ¬s'.Keeps id site.decl.body w ∧ s'.types.membersAt w = s.types.membersAt w := by
  have hnot : ¬s'.Keeps id site.decl.body w := by
    intro hk
    rcases (he.kept w hk).2 with hk | hn
    · exact hj (h.once j site' hsite' id site hsite w hw hk)
    · exact h.kept j site' hsite' w hw hn
  exact ⟨hnot, he.other w (h.kept j site' hsite' w hw) hnot⟩

section

variable (hm : s.outer.Moved s'.outer id)
include hm

theorem sites_of_moved : s'.sites = s.sites := hm.sites

theorem nextPhase_of_moved {j : EntityId} (hj : j ≠ id) :
    s'.entities.nextPhase? j = s.entities.nextPhase? j := by
  unfold EntityGraph.nextPhase?
  cases he' : s'.entities.get? j with
  | some e' =>
    obtain ⟨e, deps, he, rfl, -⟩ := hm.other hj he'
    rw [show s.entities.get? j = some e from he]
    rfl
  | none =>
    cases he : s.entities.get? j with
    | none => rfl
    | some e =>
      obtain ⟨deps, he'', -⟩ := hm.entity j e hj he
      rw [show s'.outer.entities.get? j = none from he'] at he''
      cases he''

theorem keeps_of_moved {j : EntityId} {body : DeclBody} {w : Home} (hj : j ≠ id) :
    s'.Keeps j body w ↔ s.Keeps j body w := by
  unfold Keeps
  rw [show s'.symbols.lookup j = s.symbols.lookup j from hm.lookup j hj]

/-- What another entity owes stays the same, if what it keeps does. -/
theorem owes_of_moved {j : EntityId} {body : DeclBody} {i : Ir.FunctionId} (hj : j ≠ id)
    (hsame : ∀ w, s.Keeps j body w → s'.types.membersAt w = s.types.membersAt w) :
    s'.Owes j body i ↔ s.Owes j body i := by
  unfold Owes
  rw [show s'.symbols.lookup j = s.symbols.lookup j from hm.lookup j hj]
  refine or_congr_right (exists_congr fun w => exists_congr fun ms => exists_congr fun m => ?_)
  rw [keeps_of_moved hm hj]
  exact and_congr_right fun hw => by rw [hsame w hw]

/-- A phase that has its effect keeps the accounts. -/
theorem Accounts.effect (h : s.Accounts) (hsite : s.sites[id]? = some site)
    (he : s.Effect s' id site.decl.body phase)
    (hnext : s.entities.nextPhase? id = some phase)
    (hdeclares : site.decl.body.kind.declares phase = true →
      s'.entities.nextPhase? id = some .three)
    (hone : s'.entities.nextPhase? id = some .two → phase = .one)
    (htwo : s'.entities.nextPhase? id = some .three →
      phase = .two ∨ site.decl.body.kind = .function) : s'.Accounts := by
  have hold {j : EntityId} {site' : Site} (hsite' : s'.sites[j]? = some site') :
      s.sites[j]? = some site' := by
    rw [← sites_of_moved hm]
    exact hsite'
  -- the homes of the others are not touched
  have hother {j : EntityId} {site' : Site} (hj : j ≠ id) (hsite' : s.sites[j]? = some site')
      {w : Home} (hw : s.Keeps j site'.decl.body w) :=
    h.other hsite he hj hsite' hw
  have howes {j : EntityId} {site' : Site} (hj : j ≠ id) (hsite' : s.sites[j]? = some site')
      {i : Ir.FunctionId} : s'.Owes j site'.decl.body i ↔ s.Owes j site'.decl.body i :=
    owes_of_moved hm hj fun w hw => (hother hj hsite' hw).2
  refine ⟨he.whole, fun j site' hsite' i hi => ?_, fun j site' hsite' w hw => ?_,
    fun j site' hsite' k site'' hsite'' w hw hw' => ?_, fun j site' hsite' hn w hw => ?_,
    fun j site' hsite' hn w ms hw hms => ?_, fun i hi => ?_⟩
  · by_cases hj : j = id
    · subst hj
      cases hsite.symm.trans (hold hsite')
      exact he.owed i hi
    · exact he.plain i (h.owed j site' (hold hsite') i ((howes hj (hold hsite')).mp hi))
  · by_cases hj : j = id
    · subst hj
      cases hsite.symm.trans (hold hsite')
      exact (he.kept w hw).1
    · have hw' := (keeps_of_moved hm hj).mp hw
      rw [(hother hj (hold hsite') hw').2]
      exact h.kept j site' (hold hsite') w hw'
  -- a home that the entity takes now was its own before, or nobody's
  · by_cases hj : j = id <;> by_cases hk : k = id
    · exact hj.trans hk.symm
    · subst hj
      cases hsite.symm.trans (hold hsite')
      exact absurd hw (hother hk (hold hsite'') ((keeps_of_moved hm hk).mp hw')).1
    · subst hk
      cases hsite.symm.trans (hold hsite'')
      exact absurd hw' (hother hj (hold hsite') ((keeps_of_moved hm hj).mp hw)).1
    · exact h.once j site' (hold hsite') k site'' (hold hsite'') w
        ((keeps_of_moved hm hj).mp hw) ((keeps_of_moved hm hk).mp hw')
  · by_cases hj : j = id
    · subst hj
      cases hsite.symm.trans (hold hsite')
      exact he.empty (hone hn) w hw
    · have hw' := (keeps_of_moved hm hj).mp hw
      rw [(hother hj (hold hsite') hw').2]
      exact h.empty j site' (hold hsite') ((nextPhase_of_moved hm hj).symm.trans hn) w hw'
  · by_cases hj : j = id
    · subst hj
      cases hsite.symm.trans (hold hsite')
      rcases htwo hn with rfl | hfunction
      · exact he.full rfl w ms hw hms
      · obtain ⟨y, -, hy⟩ := hw
        cases hbody : site.decl.body <;> rw [hbody] at hfunction hy <;> cases hfunction
        cases hy
    · have hw' := (keeps_of_moved hm hj).mp hw
      rw [(hother hj (hold hsite') hw').2] at hms
      exact h.full j site' (hold hsite') ((nextPhase_of_moved hm hj).symm.trans hn) w ms hw' hms
  · rcases he.lacks i hi with hi' | ⟨hd, hi'⟩
    · obtain ⟨j, site', hsite', howed, hthree⟩ := h.lacks i hi'
      by_cases hj : j = id
      · subst hj
        cases hsite.symm.trans hsite'
        cases hnext.symm.trans hthree
        exact absurd hi (he.paid rfl i howed)
      · exact ⟨j, site', (sites_of_moved hm).symm ▸ hsite', (howes hj hsite').mpr howed,
          (nextPhase_of_moved hm hj).trans hthree⟩
    · exact ⟨id, site, (sites_of_moved hm).symm ▸ hsite, hi', hdeclares hd⟩

/-- A declaration that is skipped leaves the accounts as they are. -/
theorem Accounts.skipped (h : s.Accounts) (hp : s.Passes s' fun _ => False)
    (hnext : s.entities.nextPhase? id ≠ some .three)
    (hnone : s'.entities.nextPhase? id = none) : s'.Accounts := by
  have hphase {j : EntityId} {q : Phase} (hq : s'.entities.nextPhase? j = some q) :
      s.entities.nextPhase? j = some q := by
    by_cases hj : j = id
    · rw [hj, hnone] at hq
      cases hq
    · exact (nextPhase_of_moved hm hj).symm.trans hq
  refine ⟨hp.whole, ?_, ?_, ?_, ?_, ?_, fun i hi => ?_⟩
  all_goals try simp only [sites_of_moved hm, hp.keeps_iff, hp.owes_iff, hp.membersAt]
  · exact fun j site' hsite' i hi => hp.advances.plain i (h.owed j site' hsite' i hi)
  · exact h.kept
  · exact h.once
  · exact fun j site' hsite' hn => h.empty j site' hsite' (hphase hn)
  · exact fun j site' hsite' hn => h.full j site' hsite' (hphase hn)
  · obtain ⟨j, site', hsite', howed, hthree⟩ :=
      h.lacks i ((hp.advances.lacks i hi).resolve_right not_false)
    have hj : j ≠ id := by
      rintro rfl
      exact hnext hthree
    exact ⟨j, site', hsite', howed, (nextPhase_of_moved hm hj).trans hthree⟩

end

end Compiler

end Staged
