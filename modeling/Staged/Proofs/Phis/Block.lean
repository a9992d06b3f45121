/-
  Staged.Proofs.Phis.Block — code that goes on in other blocks.

  A construct makes its blocks in advance and fills them one after the other. `Lays` keeps
  account of them from where the construct begins: the blocks that have been made, which may be
  jumped to, and those of them that are still blank, in the order in which they are filled.
  `Midst` says so of a function in the middle of a construct, together with the loops around
  and with whether code can go on. One rule for each action that makes, ends or changes blocks
  says how the account goes on; code in line, and sentences in a body, leave it as it is.

  Some constructs end in a block whose phi chooses between the blocks in which the alternatives
  end. `Joins` is `Midst` with the predecessors of that last block, as far as they have been
  written. An alternative jumps only to blocks that it makes, so it adds none; the jump at its
  end adds the block where it ends. That block is open before the jump, and the predecessors
  so far are closed, so the list does not repeat itself. Once all of them are known, a phi
  with one value for each is exact.
-/

import Staged.Proofs.Phis.Line

namespace Staged

open Ir (BlockId)

namespace FunctionState

structure Lays (b : FunctionState) (made blank : List BlockId) (f : FunctionState) : Prop where
  flows : b.Flows f
  goals : ∀ j ∈ f.goals, j < b.size → j ∈ b.goals
  target : ∀ j ∈ made, b.size ≤ j ∧ f.Target j
  unwritten : ∀ j ∈ blank, j ∈ made ∧ f.function.term? j = none ∧ j ≠ f.current
  nodup : blank.Nodup

structure Midst (b : FunctionState) (loops : List LoopTargets) (made blank : List BlockId)
    (live : Bool) (f : FunctionState) : Prop where
  around : f.loops = loops
  lays : b.Exact → b.IsOpen → b.Lays made blank f
  isOpen : b.Exact → b.IsOpen → live = true → f.IsOpen

variable {b f g : FunctionState} {loops : List LoopTargets} {made blank : List BlockId}
  {j : BlockId} {live : Bool}

theorem midst_start (b : FunctionState) : b.Midst b.loops [] [] true b where
  around := rfl
  lays he _ := ⟨he.flows, fun _ hj _ => hj, nofun, nofun, .nil⟩
  isOpen _ ho _ := ho

theorem Midst.draws (h : b.Midst b.loops made blank true f) : b.Draws f :=
  ⟨h.around, fun he ho => ⟨(h.lays he ho).flows, h.isOpen he ho rfl⟩⟩

theorem Midst.passes (h : b.Midst b.loops made blank live f) : b.Passes f :=
  ⟨h.around, fun he ho => (h.lays he ho).flows⟩

/-- Code that is written meanwhile leaves blank blocks alone. -/
theorem Lays.flow (h : b.Lays made blank f) (hf : f.Flows g) (hl : g.loops = f.loops) :
    b.Lays made blank g where
  flows := h.flows.trans hf h.goals
  goals j hj := h.goals j (goals_of_loops hl ▸ hj)
  target j hj := (h.target j hj).imp_right hf.target
  unwritten j hj := by
    obtain ⟨hmade, hterm, hne⟩ := h.unwritten j hj
    have hlt := (h.target j hmade).2.lt
    refine ⟨hmade, (hf.terms j hlt hne).trans hterm, ?_⟩
    rcases hf.current with hc | hc
    · rw [hc]
      exact hne
    · exact Nat.ne_of_lt (hlt.trans_le hc)
  nodup := h.nodup

theorem Lays.alike (h : b.Lays made blank f) (hflows : b.Flows g) (ha : f.Alike g)
    (hgoals : ∀ j ∈ g.goals, j < b.size → j ∈ b.goals) (hne : ∀ j ∈ blank, j ≠ g.current) :
    b.Lays made blank g where
  flows := hflows
  goals := hgoals
  target j hj := (h.target j hj).imp_right ha.target
  unwritten j hj :=
    have hb := h.unwritten j hj
    ⟨hb.1, (ha.terms j).trans hb.2.1, hne j hj⟩
  nodup := h.nodup

theorem Lays.addBlock {before after : List BlockId} (h : b.Lays made (before ++ after) f)
    (label : Option String) :
    b.Lays (f.size :: made) (before ++ f.size :: after) (f.addBlock label) := by
  have h' := h.alike (h.flows.addBlock label) (alike_addBlock f label) h.goals
    fun j hj => (h.unwritten j hj).2.2
  have hperm : (before ++ f.size :: after).Perm (f.size :: (before ++ after)) :=
    List.perm_middle
  refine ⟨h'.flows, h'.goals, fun j hj => ?_, fun j hj => ?_, ?_⟩
  · rcases List.mem_cons.mp hj with rfl | hj
    · exact ⟨h.flows.size, target_addBlock f label⟩
    · exact h'.target j hj
  · rcases List.mem_cons.mp (hperm.subset hj) with rfl | hj
    · refine ⟨List.mem_cons_self, ?_, (Nat.ne_of_lt h.flows.exact.current).symm⟩
      rw [(alike_addBlock f label).terms]
      exact Ir.Function.term?_of_size_le (Nat.le_refl _)
    · obtain ⟨hmade, hrest⟩ := h'.unwritten j hj
      exact ⟨List.mem_cons_of_mem _ hmade, hrest⟩
  · refine hperm.nodup_iff.mpr (List.nodup_cons.mpr ⟨fun hj => ?_, h.nodup⟩)
    exact Nat.lt_irrefl _ (h.target _ (h.unwritten _ hj).1).2.lt

theorem Lays.goTo (h : b.Lays made (j :: blank) f) :
    b.Lays made blank (f.goTo j) ∧ (f.goTo j).IsOpen := by
  obtain ⟨hmade, hterm, -⟩ := h.unwritten j List.mem_cons_self
  obtain ⟨hnot, hnodup⟩ := List.nodup_cons.mp h.nodup
  obtain ⟨hle, htarget⟩ := h.target j hmade
  have htail : b.Lays made blank f := ⟨h.flows, h.goals, h.target,
    fun i hi => h.unwritten i (List.mem_cons_of_mem j hi), hnodup⟩
  refine ⟨htail.alike (h.flows.goTo htarget.lt hle) (alike_goTo f j) h.goals ?_, hterm⟩
  rintro i hi rfl
  exact hnot hi

theorem Lays.close {t : Ir.Terminator} (h : b.Lays made blank f)
    (ht : ∀ j ∈ t.successors, j ∈ made ∨ j ∈ f.goals) : b.Lays made blank (f.close t) where
  flows := h.flows.close fun j hj => by
    rcases ht j hj with hm | hg
    · obtain ⟨hle, htarget⟩ := h.target j hm
      exact ⟨htarget, .inl hle⟩
    · refine ⟨h.flows.exact.goals j hg, ?_⟩
      rcases Nat.lt_or_ge j b.size with hlt | hle
      · exact .inr (h.goals j hg hlt)
      · exact .inl hle
  goals := h.goals
  target j hj := (h.target j hj).imp_right Target.close
  unwritten j hj := by
    obtain ⟨hmade, hterm, hne⟩ := h.unwritten j hj
    exact ⟨hmade, (term?_close_ne h.flows.exact.current hne).trans hterm, hne⟩
  nodup := h.nodup

theorem Lays.withLoops {loops : List LoopTargets} (h : b.Lays made blank f)
    (hl : ∀ l ∈ loops, l ∈ f.loops ∨ l.breakTo ∈ made ∧ l.continueTo ∈ made) :
    b.Lays made blank (f.withLoops loops) := by
  have hgoal {l : LoopTargets} (hmem : l ∈ f.loops) {j : BlockId}
      (hj : j = l.breakTo ∨ j = l.continueTo) : j ∈ f.goals :=
    List.mem_flatMap.mpr ⟨l, hmem, by simpa using hj⟩
  refine h.alike (h.flows.withLoops fun l hmem => ?_) ⟨Nat.le_refl _, fun _ => rfl, fun _ => rfl⟩
    (fun j hj hlt => ?_) fun j hj => (h.unwritten j hj).2.2
  · rcases hl l hmem with hold | ⟨hb, hc⟩
    · exact ⟨h.flows.exact.goals _ (hgoal hold (.inl rfl)),
        h.flows.exact.goals _ (hgoal hold (.inr rfl))⟩
    · exact ⟨(h.target _ hb).2, (h.target _ hc).2⟩
  · obtain ⟨l, hmem, hj⟩ := List.mem_flatMap.mp hj
    have hj : j = l.breakTo ∨ j = l.continueTo := by simpa using hj
    rcases hl l hmem with hold | ⟨hb, hc⟩
    · exact h.goals j (hgoal hold hj) hlt
    · rcases hj with rfl | rfl
      · exact absurd hlt (Nat.not_lt.mpr (h.target _ hb).1)
      · exact absurd hlt (Nat.not_lt.mpr (h.target _ hc).1)

end FunctionState

/-! ## Actions -/

namespace Emit

variable {α β : Type} {b : FunctionState} {loops : List LoopTargets} {made blank : List BlockId}
  {live : Bool} {P P' : FunctionState → Prop} {a : Emit α} {k : α → Emit β}
  {Q Q' : α → FunctionState → Prop} {R : β → FunctionState → Prop}

/-- What an action does to the function under construction, if it succeeds. -/
def Takes (P : FunctionState → Prop) (a : Emit α) (Q : α → FunctionState → Prop) : Prop :=
  ∀ o s v s' f, s.func = some f → P f → a o s = .ok v s' → ∃ f', s'.func = some f' ∧ Q v f'

theorem Takes.bind (ha : Takes P a Q) (hk : ∀ v, Takes (Q v) (k v) R) : Takes P (a >>= k) R := by
  intro o s w s'' f hf hp hr
  obtain ⟨v, s', hv, hr⟩ := bind_ok hr
  obtain ⟨f', hf', hq⟩ := ha o s v s' f hf hp hv
  exact hk v o s' w s'' f' hf' hq hr

theorem Takes.pure {v : α} (h : ∀ f, P f → Q v f) : Takes P (pure v) Q := by
  intro o s w s' f hf hp hr
  cases hr
  exact ⟨f, hf, h f hp⟩

theorem Takes.mono (h : Takes P a Q) (hp : ∀ f, P' f → P f) (hq : ∀ v f, Q v f → Q' v f) :
    Takes P' a Q' := by
  intro o s v s' f hf hp' hr
  obtain ⟨f', hf', hq'⟩ := h o s v s' f hf (hp f hp') hr
  exact ⟨f', hf', hq v f' hq'⟩

theorem takes_refuse (fault : Fault) (range : Span) : Takes P (refuse fault range) Q :=
  fun _ _ _ _ _ _ _ hr => by cases hr

theorem Takes.guard {c : Prop} [Decidable c] {fault : Fault} {range : Span} {k : α → Emit β}
    {rest : Emit β} (h : Takes P rest R) :
    Takes P (if c then refuse fault range >>= k else rest) R := by
  split
  · exact (takes_refuse (Q := fun _ _ => False) fault range).bind
      fun _ _ _ _ _ _ _ hfalse => hfalse.elim
  · exact h

theorem takes_of_draws (h : ∀ b, Draws b a) : Takes (· = b) a fun _ f => b.Draws f := by
  rintro o s v s' f hf rfl hr
  exact draws_iff.mp (h f) o s v s' ⟨f, hf, .refl f⟩ hr

/-- A construct that ends where code goes on in line draws on. -/
theorem draws_of_takes (h : ∀ b : FunctionState, Takes (b.Midst b.loops [] [] true) a
    fun _ f => b.Draws f) : Draws b a := by
  refine draws_of_step fun o s v s' f hf hr => ?_
  exact h f o s v s' f hf f.midst_start hr

/-! ## Rules -/

theorem takes_newBlock (label : String) (before after : List BlockId) :
    Takes (b.Midst loops made (before ++ after) live) (newBlock label)
      fun id => b.Midst loops (id :: made) (before ++ id :: after) live := by
  intro o s v s' f hf hm hr
  rw [newBlock_apply label hf] at hr
  cases hr
  exact ⟨f.addBlock (some label), rfl, hm.around, fun he ho => (hm.lays he ho).addBlock _,
    fun he ho hl => ((f.alike_addBlock (some label)).terms _).trans (hm.isOpen he ho hl)⟩

theorem takes_switchTo {j : BlockId} :
    Takes (b.Midst loops made (j :: blank) live) (switchTo j)
      fun _ => b.Midst loops made blank true := by
  intro o s v s' f hf hm hr
  rw [switchTo_apply j hf] at hr
  cases hr
  exact ⟨f.goTo j, rfl, hm.around, fun he ho => (hm.lays he ho).goTo.1,
    fun he ho _ => (hm.lays he ho).goTo.2⟩

theorem takes_terminate {t : Ir.Terminator} (ht : ∀ j ∈ t.successors, j ∈ made ∨
      j ∈ loops.flatMap fun l => [l.breakTo, l.continueTo]) :
    Takes (b.Midst loops made blank live) (terminate t)
      fun _ => b.Midst loops made blank false := by
  intro o s v s' f hf hm hr
  refine ⟨f.close t, by rw [modifyCurrent_ok hf hr]; rfl, hm.around, fun he ho => ?_, nofun⟩
  exact (hm.lays he ho).close fun j hj => (ht j hj).imp_right fun hg => by
    unfold FunctionState.goals
    rwa [hm.around]

theorem takes_jump {j : BlockId} (hj : j ∈ made) :
    Takes (b.Midst loops made blank live) (jump j) fun _ => b.Midst loops made blank false :=
  takes_terminate fun _ h => .inl (List.mem_singleton.mp h ▸ hj)

theorem takes_branch (cond : Ir.Value) {i j : BlockId} (hi : i ∈ made) (hj : j ∈ made) :
    Takes (b.Midst loops made blank live) (branch cond i j)
      fun _ => b.Midst loops made blank false :=
  takes_terminate fun k hk => .inl (by
    rcases List.mem_cons.mp hk with rfl | hk
    · exact hi
    · exact List.mem_singleton.mp hk ▸ hj)

theorem takes_line (h : ∀ b, Draws b a) :
    Takes (b.Midst loops made blank true) a fun _ => b.Midst loops made blank true := by
  intro o s v s' f hf hm hr
  obtain ⟨g, hg, hd⟩ := takes_of_draws h o s v s' f hf rfl hr
  refine ⟨g, hg, hd.loops.trans hm.around, fun he ho => ?_, fun he ho _ => ?_⟩
  · have hl := hm.lays he ho
    exact hl.flow (hd.flows hl.flows.exact (hm.isOpen he ho rfl)).1 hd.loops
  · exact (hd.flows (hm.lays he ho).flows.exact (hm.isOpen he ho rfl)).2

end Emit

/-! ## Constructs with a phi at their end -/

namespace FunctionState

structure Joins (b : FunctionState) (made blank : List BlockId) (live : Bool) (e : BlockId)
    (ps : List BlockId) (f : FunctionState) : Prop where
  midst : b.Midst b.loops made blank live f
  mem : e ∈ made
  into : b.Exact → b.IsOpen → f.Into e ps ∧ ps.Nodup

variable {b f g : FunctionState} {made blank : List BlockId} {live : Bool} {e : BlockId}
  {ps : List BlockId}

/-- An open block jumps nowhere. -/
theorem Into.current_notMem (h : f.Into e ps) (ho : f.IsOpen) : f.current ∉ ps := fun hmem => by
  obtain ⟨t, ht, -⟩ := (h _).mpr hmem
  cases ho.symm.trans ht

theorem Midst.notMem_goals (h : b.Midst b.loops made blank live f) (hmem : e ∈ made)
    (he : b.Exact) (ho : b.IsOpen) : e ∉ f.goals := fun hj =>
  have hlt := (he.goals e (goals_of_loops h.around ▸ hj)).lt
  absurd hlt (Nat.not_lt.mpr ((h.lays he ho).target e hmem).1)

theorem Joins.alike {made' blank' : List BlockId} {live' : Bool} (h : b.Joins made blank live e ps f)
    (hmidst : b.Midst b.loops made' blank' live' g) (hmem : e ∈ made') (ha : f.Alike g) :
    b.Joins made' blank' live' e ps g :=
  ⟨hmidst, hmem, fun he ho => (h.into he ho).imp_left (·.alike ha)⟩

theorem Joins.flow (h : b.Joins made blank true e ps f) (hmidst : b.Midst b.loops made blank true g)
    (hd : f.Draws g) : b.Joins made blank true e ps g := by
  refine ⟨hmidst, h.mem, fun he ho => ?_⟩
  have hl := h.midst.lays he ho
  have hf := (hd.flows hl.flows.exact (h.midst.isOpen he ho rfl)).1
  exact (h.into he ho).imp_left
    (·.flow hf (hl.target e h.mem).2.lt (h.midst.notMem_goals h.mem he ho))

/-- The phi at the end of a construct. -/
theorem Joins.join {r : Ir.Register} {values : List (Ir.Value × BlockId)}
    (h : b.Joins made blank true e ps f) (hcurrent : f.current = e)
    (hps : values.map Prod.snd = ps) : b.Draws (f.join r values) := by
  refine ⟨h.midst.around, fun he ho => ?_⟩
  subst hcurrent hps
  obtain ⟨hinto, hnodup⟩ := h.into he ho
  have hl := h.midst.lays he ho
  exact ⟨hl.flows.join (hl.target _ h.mem).1 (h.midst.notMem_goals h.mem he ho) hnodup
    fun i => (hinto i).symm, term?_join.trans (h.midst.isOpen he ho rfl)⟩

end FunctionState

namespace Emit

variable {α β : Type} {b : FunctionState} {made blank : List BlockId} {live : Bool} {e : BlockId}
  {ps : List BlockId} {P P' : FunctionState → Prop} {a a' : Emit α} {k : α → Emit β}
  {Q Q' : α → FunctionState → Prop} {R : β → FunctionState → Prop}

theorem Takes.and (h : Takes P a Q) (h' : Takes P' a Q') :
    Takes (fun f => P f ∧ P' f) a fun v f => Q v f ∧ Q' v f := by
  intro o s v s' f hf hp hr
  obtain ⟨g, hg, hq⟩ := h o s v s' f hf hp.1 hr
  obtain ⟨g', hg', hq'⟩ := h' o s v s' f hf hp.2 hr
  cases hg.symm.trans hg'
  exact ⟨g, hg, hq, hq'⟩

/-- Two ways to go on in the same way. -/
theorem Takes.fork {c : Prop} [Decidable c] (h : Takes P a Q) (h' : Takes P a' Q)
    (hk : ∀ v, Takes (Q v) (k v) R) : Takes P (if c then a >>= k else a' >>= k) R := by
  split
  · exact h.bind hk
  · exact h'.bind hk

/-! ## Where code goes on -/

theorem takes_currentBlock : Takes P currentBlock fun i f => P f ∧ f.current = i := by
  intro o s v s' f hf hp hr
  rw [currentBlock_apply hf] at hr
  cases hr
  exact ⟨f, hf, hp, rfl⟩

theorem takes_newBlock_current (label : String) {i : BlockId} :
    Takes (·.current = i) (newBlock label) fun _ f => f.current = i := by
  intro o s v s' f hf hp hr
  rw [newBlock_apply label hf] at hr
  cases hr
  exact ⟨_, rfl, hp⟩

/-! ## The last block -/

/-- The last block is made. -/
theorem takes_newBlock_last (label : String) (before after : List BlockId) :
    Takes (b.Midst b.loops made (before ++ after) live) (newBlock label)
      fun id => b.Joins (id :: made) (before ++ id :: after) live id [] := by
  intro o s v s' f hf hm hr
  obtain ⟨g, hg, hmidst⟩ := takes_newBlock label before after o s v s' f hf hm hr
  rw [newBlock_apply label hf] at hr
  cases hr
  cases hg
  exact ⟨_, rfl, hmidst, List.mem_cons_self, fun he ho =>
    ⟨(hm.lays he ho).flows.exact.into_new _, .nil⟩⟩

theorem takes_switchTo_joins {j : BlockId} :
    Takes (b.Joins made (j :: blank) live e ps) (switchTo j)
      fun _ => b.Joins made blank true e ps := by
  intro o s v s' f hf hm hr
  obtain ⟨g, hg, hmidst⟩ := takes_switchTo o s v s' f hf hm.midst hr
  rw [switchTo_apply j hf] at hr
  cases hr
  cases hg
  exact ⟨_, rfl, hm.alike hmidst hm.mem (f.alike_goTo j)⟩

theorem takes_switchTo_last :
    Takes (b.Joins made (e :: blank) live e ps) (switchTo e)
      fun _ f => b.Joins made blank true e ps f ∧ f.current = e := by
  intro o s v s' f hf hm hr
  obtain ⟨g, hg, hjoins⟩ := takes_switchTo_joins o s v s' f hf hm hr
  rw [switchTo_apply e hf] at hr
  cases hr
  cases hg
  exact ⟨_, rfl, hjoins, rfl⟩

theorem takes_line_joins (h : ∀ b, Draws b a) :
    Takes (b.Joins made blank true e ps) a fun _ => b.Joins made blank true e ps := by
  intro o s v s' f hf hm hr
  obtain ⟨g, hg, hmidst⟩ := takes_line h o s v s' f hf hm.midst hr
  obtain ⟨g', hg', hd⟩ := takes_of_draws h o s v s' f hf rfl hr
  cases hg.symm.trans hg'
  exact ⟨g, hg, hm.flow hmidst hd⟩

/-- A jump to the last block adds a predecessor. -/
theorem takes_terminate_last {i : BlockId} {t : Ir.Terminator} (ht : ∀ j ∈ t.successors, j ∈ made)
    (he : e ∈ t.successors) :
    Takes (fun f => b.Joins made blank true e ps f ∧ f.current = i) (terminate t)
      fun _ => b.Joins made blank false e (ps ++ [i]) := by
  rintro o s v s' f hf ⟨hm, rfl⟩ hr
  obtain ⟨g, hg, hmidst⟩ :=
    takes_terminate (fun j hj => .inl (ht j hj)) o s v s' f hf hm.midst hr
  rw [modifyCurrent_ok hf hr] at hg ⊢
  cases hg
  refine ⟨_, rfl, hmidst, hm.mem, fun he' ho => ?_⟩
  obtain ⟨hinto, hnodup⟩ := hm.into he' ho
  have hopen := hm.midst.isOpen he' ho rfl
  refine ⟨hinto.close (hm.midst.lays he' ho).flows.exact hopen he, ?_⟩
  simpa using hnodup.concat (hinto.current_notMem hopen)

/-- A jump to other blocks does not. -/
theorem takes_terminate_past {t : Ir.Terminator} (ht : ∀ j ∈ t.successors, j ∈ made)
    (hne : blank.Nodup → e ∉ t.successors) :
    Takes (b.Joins made blank true e ps) (terminate t)
      fun _ => b.Joins made blank false e ps := by
  intro o s v s' f hf hm hr
  obtain ⟨g, hg, hmidst⟩ :=
    takes_terminate (fun j hj => .inl (ht j hj)) o s v s' f hf hm.midst hr
  rw [modifyCurrent_ok hf hr] at hg ⊢
  cases hg
  refine ⟨_, rfl, hmidst, hm.mem, fun he ho => ?_⟩
  have hl := hm.midst.lays he ho
  exact (hm.into he ho).imp_left (·.close_ne hl.flows.exact (hne hl.nodup))

theorem takes_fresh_current (type : Ty) {i : BlockId} :
    Takes (·.current = i) (fresh type) fun _ f => f.current = i := by
  intro o s v s' f hf hp hr
  rw [fresh_apply type hf] at hr
  cases hr
  exact ⟨_, rfl, hp⟩

/-- The phi that chooses between all predecessors. -/
theorem takes_phi (type : Ty) {values : List (Ir.Value × BlockId)} (h : values.map Prod.snd = ps) :
    Takes (fun f => b.Joins made blank true e ps f ∧ f.current = e)
      (compute type fun r => .phi r values) fun _ f => b.Draws f := by
  unfold compute
  refine ((takes_line_joins fun _ => draws_fresh type).and (takes_fresh_current type)).bind
    fun r => Takes.bind (Q := fun _ f => b.Draws f) ?_ fun _ => .pure fun _ hd => hd
  rintro o s v s' f hf ⟨hm, hcurrent⟩ hr
  exact ⟨f.join r values, by rw [modifyCurrent_ok hf hr]; rfl, hm.join hcurrent h⟩

end Emit

end Staged
