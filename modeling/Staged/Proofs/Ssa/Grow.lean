/-
  Staged.Proofs.Ssa.Grow — writing code into a certified function.

  A function grows while code is written into it: blocks, instructions and registers are
  added, and none is taken back (`Function.Grows`), so what was at hand in a block stays
  at hand. Each of the changes that write code keeps the certificate, provided that what
  is written finds its registers: an instruction at the end of a block, the end of a
  block, memory at the start of the entry, a new block and a new register.
-/

import Staged.Proofs.Ssa.Form

namespace Staged.Ir

@[simp] theorem dests_nil : dests [] = [] := rfl

theorem dests_append (a b : List Instr) : dests (a ++ b) = dests a ++ dests b :=
  List.filterMap_append

theorem dests_singleton (i : Instr) : dests [i] = i.dest?.toList := by
  cases h : i.dest? <;> simp [dests, h]

theorem dests_cons (i : Instr) (is : List Instr) : dests (i :: is) = i.dest?.toList ++ dests is := by
  rw [← List.singleton_append, dests_append, dests_singleton]

theorem dests_subset {a b : List Instr} (h : a ⊆ b) : dests a ⊆ dests b :=
  List.filterMap_subset _ h

namespace Function

variable {f f' f'' : Function} {start start' start'' : BlockId → Set Register} {i : BlockId}

structure Grows (f f' : Function) (start start' : BlockId → Set Register) : Prop where
  params : f'.params = f.params
  entry : f'.entry = f.entry
  blocks : f.blocks.size ≤ f'.blocks.size
  next : f.nextRegister ≤ f'.nextRegister
  start : ∀ i < f.blocks.size, start' i = start i
  slots : f.slots ⊆ f'.slots
  dests : ∀ i, f.blockDests i ⊆ f'.blockDests i

theorem Grows.refl (f : Function) (start : BlockId → Set Register) : f.Grows f start start :=
  ⟨rfl, rfl, Nat.le_refl _, Nat.le_refl _, fun _ _ => rfl, fun _ h => h, fun _ _ h => h⟩

theorem Grows.trans (h : f.Grows f' start start') (h' : f'.Grows f'' start' start'') :
    f.Grows f'' start start'' where
  params := h'.params.trans h.params
  entry := h'.entry.trans h.entry
  blocks := h.blocks.trans h'.blocks
  next := h.next.trans h'.next
  start i hi := (h'.start i (hi.trans_le h.blocks)).trans (h.start i hi)
  slots _ hr := h'.slots (h.slots hr)
  dests i _ hr := h'.dests i (h.dests i hr)

theorem Grows.during (h : f.Grows f' start start') (hi : i < f.blocks.size)
    {pre pre' : List Instr} (hpre : Ir.dests pre ⊆ Ir.dests pre') {r : Register}
    (hr : r ∈ f.during start i pre) : r ∈ f'.during start' i pre' := by
  rcases hr with hr | hr | hr | hr
  · exact .inl (h.params ▸ hr)
  · exact .inr (.inl (h.slots hr))
  · exact .inr (.inr (.inl (h.start i hi ▸ hr)))
  · exact .inr (.inr (.inr (hpre hr)))

theorem Grows.out (h : f.Grows f' start start') (hi : i < f.blocks.size) :
    f.out start i ⊆ f'.out start' i := by
  rintro r (hr | hr | hr | hr)
  · exact .inl (h.params ▸ hr)
  · exact .inr (.inl (h.slots hr))
  · exact .inr (.inr (.inl (h.start i hi ▸ hr)))
  · exact .inr (.inr (.inr (h.dests i hr)))

theorem lt_of_block? {b : Block} (h : f.block? i = some b) : i < f.blocks.size :=
  (Array.getElem?_eq_some_iff.mp h).1

structure Block.Keeps (f : Function) (start : BlockId → Set Register) (i : BlockId) (b : Block) :
    Prop where
  uses : ∀ pre instr post, b.instrs.toList = pre ++ instr :: post →
    ∀ r ∈ instr.uses, r ∈ f.during start i pre
  ends : ∀ t, b.term = some t → ∀ r ∈ t.uses, r ∈ f.out start i
  incoming : ∀ instr ∈ b.instrs, ∀ r j, (r, j) ∈ instr.incoming →
    j < f.blocks.size ∧ r ∈ f.out start j
  edges : ∀ next ∈ b.successors, next < f.blocks.size ∧ next ≠ f.entry ∧ start next ⊆ f.out start i
  allocas : ∀ pre instr post, b.instrs.toList = pre ++ instr :: post →
    instr.isAlloca = true → i = f.entry ∧ ∀ x ∈ pre, x.isAlloca = true

theorem certified_iff : f.Certified start ↔
    ((f.params ++ f.assigned).map Register.id).Nodup ∧
    (∀ r ∈ f.params ++ f.assigned, r.id < f.nextRegister) ∧ start f.entry = ∅ ∧
    ∀ i b, f.block? i = some b → Block.Keeps f start i b := by
  constructor
  · intro h
    exact ⟨h.once, h.below, h.first, fun i b hb =>
      ⟨h.uses i b hb, h.ends i b hb, h.incoming i b hb, h.edges i b hb, h.allocas i b hb⟩⟩
  · rintro ⟨honce, hbelow, hfirst, h⟩
    exact ⟨honce, hbelow, hfirst, fun i b hb => (h i b hb).uses, fun i b hb => (h i b hb).ends,
      fun i b hb => (h i b hb).incoming, fun i b hb => (h i b hb).edges,
      fun i b hb => (h i b hb).allocas⟩

/-- A block that is left alone keeps to the certificate of a function that grows. -/
theorem Block.Keeps.mono {b : Block} (h : Block.Keeps f start i b)
    (hg : f.Grows f' start start') (hi : i < f.blocks.size) : Block.Keeps f' start' i b where
  uses pre instr post hb r hr := hg.during hi (fun _ h => h) (h.uses pre instr post hb r hr)
  ends t ht r hr := hg.out hi (h.ends t ht r hr)
  incoming instr hinstr r j hr := by
    obtain ⟨hj, hout⟩ := h.incoming instr hinstr r j hr
    exact ⟨hj.trans_le hg.blocks, hg.out hj hout⟩
  edges next hnext := by
    obtain ⟨hlt, hne, hsub⟩ := h.edges next hnext
    refine ⟨hlt.trans_le hg.blocks, hg.entry ▸ hne, ?_⟩
    rw [hg.start next hlt]
    exact hsub.trans (hg.out hi)
  allocas pre instr post hb halloca := hg.entry ▸ h.allocas pre instr post hb halloca

theorem Certified.keeps (h : f.Certified start) {b : Block} (hb : f.block? i = some b) :
    Block.Keeps f start i b :=
  (certified_iff.mp h).2.2.2 i b hb

/-! ## Changing a block -/

theorem block?_modifyBlock (f : Function) (i j : BlockId) (g : Block → Block) :
    (f.modifyBlock i g).block? j = if i = j then (f.block? j).map g else f.block? j :=
  Array.getElem?_modify

theorem blockDests_modifyBlock {g : Block → Block} {b : Block} (hb : f.block? i = some b)
    (j : BlockId) :
    (f.modifyBlock i g).blockDests j = if i = j then (g b).dests else f.blockDests j := by
  unfold blockDests
  rw [block?_modifyBlock]
  split
  · rename_i h
    subst h
    simp only [hb, Option.map_some, Option.getD_some]
  · rfl

/-- What a function assigns, around a block. -/
theorem assigned_modifyBlock {b : Block} (hb : f.block? i = some b) (g : Block → Block) :
    ∃ before after, f.assigned = before ++ b.dests ++ after ∧
      (f.modifyBlock i g).assigned = before ++ (g b).dests ++ after := by
  have hi : i < f.blocks.toList.length := by simpa using lt_of_block? hb
  have hget : f.blocks.toList[i] = b := by
    have := (Array.getElem?_eq_some_iff.mp hb).2
    simpa using this
  obtain ⟨l₁, a, l₂, hl, hlen, hmodify⟩ := List.exists_of_modify g hi
  have ha : a = b := by
    rw [← hget]
    simp [hl, ← hlen]
  subst ha
  refine ⟨dests (l₁.flatMap (·.instrs.toList)), dests (l₂.flatMap (·.instrs.toList)), ?_, ?_⟩
  · simp only [assigned, instrs, hl, List.flatMap_append, List.flatMap_cons,
      List.filterMap_append, dests, Block.dests, List.append_assoc]
  · simp only [assigned, instrs, modifyBlock, Array.toList_modify, hmodify, List.flatMap_append,
      List.flatMap_cons, List.filterMap_append, dests, Block.dests, List.append_assoc]

theorem slots_modifyBlock {g : Block → Block} {b : Block} (hb : f.block? i = some b) :
    (f.modifyBlock i g).slots =
      if i = f.entry then dests ((g b).instrs.toList.takeWhile Instr.isAlloca) else f.slots := by
  unfold slots
  show Option.getD (Option.map _ ((f.modifyBlock i g).block? f.entry)) [] = _
  rw [block?_modifyBlock]
  split
  · rename_i h
    rw [← h, hb]
    rfl
  · rfl

theorem slots_of_entry {b : Block} (hb : f.block? f.entry = some b) :
    f.slots = dests (b.instrs.toList.takeWhile Instr.isAlloca) := by
  simp only [slots, hb, Option.map_some, Option.getD_some]

theorem grows_modifyBlock {g : Block → Block} {b : Block} (hb : f.block? i = some b)
    (hslots : dests (b.instrs.toList.takeWhile Instr.isAlloca) ⊆
      dests ((g b).instrs.toList.takeWhile Instr.isAlloca))
    (hdests : b.dests ⊆ (g b).dests) : f.Grows (f.modifyBlock i g) start start where
  params := rfl
  entry := rfl
  blocks := (Array.size_modify).ge
  next := Nat.le_refl _
  start _ _ := rfl
  slots := by
    rw [slots_modifyBlock hb]
    split
    · rename_i h
      subst h
      rw [slots_of_entry hb]
      exact hslots
    · exact fun _ h => h
  dests j := by
    rw [blockDests_modifyBlock hb]
    split
    · rename_i h
      subst h
      rw [blockDests_of_block? hb]
      exact hdests
    · exact fun _ h => h

def Pending (f : Function) (r : Register) : Prop :=
  r.id < f.nextRegister ∧ ∀ r' ∈ f.params ++ f.assigned, r'.id ≠ r.id

/-- A block changes, and assigns a few registers more that nothing assigned before. -/
theorem Certified.modifyBlock (hc : f.Certified start) {g : Block → Block} {b : Block}
    (hb : f.block? i = some b) (new : Option Register) (hnew : ∀ r, new = some r → f.Pending r)
    (hdests : ((g b).dests).Perm (new.toList ++ b.dests))
    (hg : f.Grows (f.modifyBlock i g) start start)
    (hkeeps : Block.Keeps (f.modifyBlock i g) start i (g b)) :
    (f.modifyBlock i g).Certified start := by
  obtain ⟨before, after, hold, hassigned⟩ := assigned_modifyBlock hb g
  have hperm : (f.params ++ (f.modifyBlock i g).assigned).Perm
      (new.toList ++ (f.params ++ f.assigned)) := by
    rw [hold, hassigned]
    have h := (hdests.append_left before).append_right after
    refine (h.append_left f.params).trans ?_
    simp only [List.perm_iff_count, List.count_append]
    intro r
    omega
  rw [certified_iff]
  refine ⟨?_, fun r hr => ?_, hc.first, fun j c hj => ?_⟩
  · refine (hperm.map Register.id).nodup_iff.mpr ?_
    cases new with
    | none => exact hc.once
    | some r =>
      refine List.nodup_cons.mpr ⟨fun hr => ?_, hc.once⟩
      obtain ⟨r', hr', hid⟩ := List.mem_map.mp hr
      exact (hnew r rfl).2 r' hr' hid
  · rcases List.mem_append.mp (hperm.subset hr) with h | h
    · exact (hnew r (by simpa using h)).1
    · exact hc.below r h
  · rw [block?_modifyBlock] at hj
    split at hj
    · rename_i h
      subst h
      rw [hb] at hj
      cases hj
      exact hkeeps
    · exact (hc.keeps hj).mono hg (lt_of_block? hj)

/-! ## Instructions and ends -/

theorem dests_push (b : Block) (instr : Instr) :
    (b.push instr).dests = b.dests ++ instr.dest?.toList := by
  simp only [Block.dests, Block.push, Array.toList_push, dests_append, dests_singleton]

theorem takeWhile_push {b : Block} {instr : Instr} (h : instr.isAlloca = false) :
    (b.push instr).instrs.toList.takeWhile Instr.isAlloca =
      b.instrs.toList.takeWhile Instr.isAlloca := by
  simp only [Block.push, Array.toList_push, List.takeWhile_append, List.takeWhile_cons, h,
    Bool.false_eq_true, if_false, List.append_nil]
  split
  · exact ((List.takeWhile_sublist _).eq_of_length ‹_›).symm
  · rfl

theorem grows_push {b : Block} {instr : Instr} (hb : f.block? i = some b)
    (h : instr.isAlloca = false) : f.Grows (f.modifyBlock i (·.push instr)) start start := by
  refine grows_modifyBlock hb ?_ ?_
  · rw [takeWhile_push h]
    exact fun _ h => h
  · rw [dests_push]
    exact List.subset_append_left _ _

/-- The last of several instructions, or one before it. -/
theorem push_split {b : Block} {new instr : Instr} {pre post : List Instr}
    (h : (b.push new).instrs.toList = pre ++ instr :: post) :
    instr = new ∧ pre = b.instrs.toList ∨ ∃ rest, b.instrs.toList = pre ++ instr :: rest := by
  simp only [Block.push, Array.toList_push] at h
  rcases List.eq_nil_or_concat post with rfl | ⟨rest, last, rfl⟩
  · obtain ⟨h₁, h₂⟩ := List.append_inj' h rfl
    cases h₂
    exact .inl ⟨rfl, h₁.symm⟩
  · refine .inr ⟨rest, ?_⟩
    rw [List.concat_eq_append, ← List.cons_append, ← List.append_assoc] at h
    exact (List.append_inj' h rfl).1

/-- An instruction is written that finds its registers. -/
theorem Certified.push (hc : f.Certified start) {b : Block} {instr : Instr}
    (hb : f.block? i = some b) (halloca : instr.isAlloca = false)
    (hdest : ∀ r, instr.dest? = some r → f.Pending r)
    (huses : ∀ r ∈ instr.uses, r ∈ f.out start i)
    (hincoming : ∀ r j, (r, j) ∈ instr.incoming → j < f.blocks.size ∧ r ∈ f.out start j) :
    (f.modifyBlock i (·.push instr)).Certified start := by
  have hg : f.Grows (f.modifyBlock i (·.push instr)) start start := grows_push hb halloca
  have hi := lt_of_block? hb
  have hkeeps := (hc.keeps hb).mono hg hi
  refine hc.modifyBlock hb instr.dest? hdest ?_ hg ⟨fun pre x post hx r hr => ?_, hkeeps.ends,
    fun x hx r j hr => ?_, hkeeps.edges, fun pre x post hx hxa => ?_⟩
  · rw [dests_push]
    exact List.perm_append_comm
  · rcases push_split hx with ⟨rfl, rfl⟩ | ⟨rest, hrest⟩
    · have hout := huses r hr
      unfold out at hout
      rw [blockDests_of_block? hb] at hout
      exact hg.during hi (List.Subset.refl (Ir.dests b.instrs.toList)) hout
    · exact hkeeps.uses pre x rest hrest r hr
  · rcases Array.mem_push.mp hx with hx | rfl
    · exact hkeeps.incoming x hx r j hr
    · obtain ⟨hj, hout⟩ := hincoming r j hr
      exact ⟨hj.trans_le hg.blocks, hg.out hj hout⟩
  · rcases push_split hx with ⟨rfl, rfl⟩ | ⟨rest, hrest⟩
    · rw [halloca] at hxa
      cases hxa
    · exact hkeeps.allocas pre x rest hrest hxa

theorem instrs_close (b : Block) (t : Terminator) : (b.close t).instrs = b.instrs := by
  unfold Block.close
  split <;> rfl

theorem dests_close (b : Block) (t : Terminator) : (b.close t).dests = b.dests := by
  simp only [Block.dests, instrs_close]

theorem grows_close {b : Block} (hb : f.block? i = some b) (t : Terminator) :
    f.Grows (f.modifyBlock i (·.close t)) start start := by
  refine grows_modifyBlock hb ?_ ?_
  · rw [instrs_close]
    exact fun _ h => h
  · rw [dests_close]
    exact fun _ h => h

/-- A block that keeps to the certificate may be closed by a jump that does. -/
theorem Block.Keeps.close {b : Block} (h : Block.Keeps f start i b) {t : Terminator}
    (huses : ∀ r ∈ t.uses, r ∈ f.out start i)
    (hedges : ∀ next ∈ t.successors,
      next < f.blocks.size ∧ next ≠ f.entry ∧ start next ⊆ f.out start i) :
    Block.Keeps f start i (b.close t) := by
  unfold Block.close
  split
  · exact h
  · exact ⟨h.uses, fun t' ht' => by cases ht'; exact huses, h.incoming, hedges, h.allocas⟩

/-- A block is closed by a jump that brings what its targets start with. -/
theorem Certified.close (hc : f.Certified start) {b : Block} {t : Terminator}
    (hb : f.block? i = some b) (huses : ∀ r ∈ t.uses, r ∈ f.out start i)
    (hedges : ∀ next ∈ t.successors,
      next < f.blocks.size ∧ next ≠ f.entry ∧ start next ⊆ f.out start i) :
    (f.modifyBlock i (·.close t)).Certified start := by
  have hg : f.Grows (f.modifyBlock i (·.close t)) start start := grows_close hb t
  have hi := lt_of_block? hb
  refine hc.modifyBlock hb none (fun _ h => by cases h) ?_ hg
    (((hc.keeps hb).close huses hedges).mono hg hi)
  rw [dests_close]
  exact .refl _

/-! ## Reserved memory -/

theorem pushAlloca_toList (b : Block) (instr : Instr) :
    (b.pushAlloca instr).instrs.toList =
      b.instrs.toList.takeWhile Instr.isAlloca ++ instr ::
        b.instrs.toList.dropWhile Instr.isAlloca := by
  have h : b.instrs.toList.drop (b.instrs.toList.takeWhile Instr.isAlloca).length =
      b.instrs.toList.dropWhile Instr.isAlloca := by
    have hall := List.takeWhile_append_dropWhile (p := Instr.isAlloca) (l := b.instrs.toList)
    exact (congrArg _ hall.symm).trans List.drop_left
  simp only [Block.pushAlloca, h]

/-- The new allocation, or an instruction that was there before. -/
theorem pushAlloca_split {b : Block} {new instr : Instr} {pre post : List Instr}
    (h : (b.pushAlloca new).instrs.toList = pre ++ instr :: post) :
    instr = new ∧ pre = b.instrs.toList.takeWhile Instr.isAlloca ∨
      ∃ pre' post', b.instrs.toList = pre' ++ instr :: post' ∧ pre' ⊆ pre ∧
        ∀ x ∈ pre, x ∈ pre' ∨ x = new := by
  have hall := List.takeWhile_append_dropWhile (p := Instr.isAlloca) (l := b.instrs.toList)
  rw [pushAlloca_toList] at h
  generalize b.instrs.toList.takeWhile Instr.isAlloca = lead at h hall ⊢
  generalize b.instrs.toList.dropWhile Instr.isAlloca = rest at h hall
  rcases List.append_eq_append_iff.mp h with ⟨mid, rfl, hmid⟩ | ⟨mid, rfl, hmid⟩
  · cases mid with
    | nil =>
      cases hmid
      exact .inl ⟨rfl, List.append_nil lead⟩
    | cons x mid =>
      cases hmid
      refine .inr ⟨lead ++ mid, post, ?_, ?_, ?_⟩
      · exact hall.symm.trans (List.append_assoc lead mid _).symm
      · simp
      · intro x hx
        simp only [List.mem_append, List.mem_cons] at hx ⊢
        grind
  · cases mid with
    | nil =>
      cases hmid
      exact .inl ⟨rfl, (List.append_nil pre).symm⟩
    | cons x mid =>
      cases hmid
      refine .inr ⟨pre, mid ++ rest, ?_, fun _ h => h, fun _ h => .inl h⟩
      rw [← hall, List.append_assoc, List.cons_append]

theorem isAlloca_of_mem_takeWhile {l : List Instr} {x : Instr}
    (h : x ∈ l.takeWhile Instr.isAlloca) : x.isAlloca = true :=
  List.mem_takeWhile_imp h

theorem takeWhile_pushAlloca {b : Block} {instr : Instr} (h : instr.isAlloca = true) :
    (b.pushAlloca instr).instrs.toList.takeWhile Instr.isAlloca =
      b.instrs.toList.takeWhile Instr.isAlloca ++ [instr] := by
  have hlead : ∀ x ∈ b.instrs.toList.takeWhile Instr.isAlloca, x.isAlloca = true :=
    fun _ => isAlloca_of_mem_takeWhile
  rw [pushAlloca_toList, List.takeWhile_append_of_pos hlead, List.takeWhile_cons, if_pos h]
  congr 2
  rw [List.takeWhile_eq_nil_iff]
  intro hlen
  exact List.dropWhile_get_zero_not _ _ hlen

theorem dests_pushAlloca (b : Block) (instr : Instr) :
    ((b.pushAlloca instr).dests).Perm (instr.dest?.toList ++ b.dests) := by
  have hall := List.takeWhile_append_dropWhile (p := Instr.isAlloca) (l := b.instrs.toList)
  unfold Block.dests
  rw [pushAlloca_toList]
  conv_rhs => rw [← hall]
  rw [dests_append, dests_append, dests_cons]
  exact List.perm_append_comm_assoc _ _ _

theorem grows_reserve {b : Block} {instr : Instr} (hb : f.block? i = some b)
    (h : instr.isAlloca = true) : f.Grows (f.modifyBlock i (·.pushAlloca instr)) start start := by
  refine grows_modifyBlock hb ?_ ?_
  · rw [takeWhile_pushAlloca h, dests_append]
    exact List.subset_append_left _ _
  · exact fun r hr => (dests_pushAlloca b instr).symm.subset (List.mem_append_right _ hr)

/-- Memory is reserved at the start of the entry. -/
theorem Certified.reserve (hc : f.Certified start) {b : Block} {r : Register} {type : Ty}
    {name : Option String} (hb : f.block? f.entry = some b) (hr : f.Pending r) :
    (f.modifyBlock f.entry (·.pushAlloca (.alloca r type name))).Certified start := by
  have hg : f.Grows (f.modifyBlock f.entry (·.pushAlloca (.alloca r type name))) start start :=
    grows_reserve hb rfl
  have hi := lt_of_block? hb
  have hkeeps := (hc.keeps hb).mono hg hi
  have hterm : (b.pushAlloca (.alloca r type name)).term = b.term := rfl
  refine hc.modifyBlock hb (some r) (fun _ h => by cases h; exact hr)
    (dests_pushAlloca b _) hg ⟨fun pre x post hx s hs => ?_, hkeeps.ends,
      fun x hx s j hs => ?_, hkeeps.edges, fun pre x post hx hxa => ?_⟩
  · rcases pushAlloca_split hx with ⟨rfl, -⟩ | ⟨pre', post', hold, hsub, -⟩
    · cases hs
    · have h := hkeeps.uses pre' x post' hold s hs
      exact (Grows.refl _ _).during (lt_of_block? hb |>.trans_le hg.blocks) (dests_subset hsub) h
  · obtain ⟨pre, post, hx⟩ := List.append_of_mem (Array.mem_toList_iff.mpr hx)
    rcases pushAlloca_split hx with ⟨rfl, -⟩ | ⟨pre', post', hold, -⟩
    · cases hs
    · refine hkeeps.incoming x ?_ s j hs
      rw [← Array.mem_toList_iff, hold]
      exact List.mem_append_right _ List.mem_cons_self
  · rcases pushAlloca_split hx with ⟨rfl, rfl⟩ | ⟨pre', post', hold, -, hmem⟩
    · exact ⟨rfl, fun _ => isAlloca_of_mem_takeWhile⟩
    · refine ⟨rfl, fun y hy => ?_⟩
      rcases hmem y hy with hy | rfl
      · exact (hkeeps.allocas pre' x post' hold hxa).2 y hy
      · rfl

theorem mem_slots_reserve {b : Block} {r : Register} {type : Ty} {name : Option String}
    (hb : f.block? f.entry = some b) :
    r ∈ (f.modifyBlock f.entry (·.pushAlloca (.alloca r type name))).slots := by
  rw [slots_modifyBlock hb, if_pos rfl, takeWhile_pushAlloca rfl, dests_append]
  exact List.mem_append_right _ List.mem_cons_self

/-! ## Blocks and registers -/

theorem block?_newBlock (f : Function) (label : Option String) (j : BlockId) :
    (f.newBlock label).1.block? j =
      if j = f.blocks.size then some { label } else f.block? j :=
  Array.getElem?_push

theorem assigned_newBlock (f : Function) (label : Option String) :
    (f.newBlock label).1.assigned = f.assigned := by
  simp only [assigned, instrs, newBlock, Array.toList_push, List.flatMap_append,
    List.flatMap_singleton, List.append_nil]

theorem blockDests_newBlock (f : Function) (label : Option String) (j : BlockId) :
    (f.newBlock label).1.blockDests j = f.blockDests j := by
  unfold blockDests
  rw [block?_newBlock]
  split
  · rename_i h
    have hnone : f.block? j = none := Array.getElem?_eq_none h.ge
    rw [hnone]
    rfl
  · rfl

theorem slots_newBlock {label : Option String} (h : f.entry < f.blocks.size) :
    (f.newBlock label).1.slots = f.slots := by
  show Option.getD (Option.map _ ((f.newBlock label).1.block? f.entry)) [] = _
  rw [block?_newBlock, if_neg h.ne]
  rfl

/-- The certificate of a function with a new block, which starts with what is said. -/
def startWith (start : BlockId → Set Register) (i : BlockId) (at_ : Set Register) :
    BlockId → Set Register :=
  fun j => if j = i then at_ else start j

theorem startWith_self (start : BlockId → Set Register) (i : BlockId) (at_ : Set Register) :
    startWith start i at_ i = at_ := if_pos rfl

theorem grows_newBlock {label : Option String} (h : f.entry < f.blocks.size)
    (at_ : Set Register) :
    f.Grows (f.newBlock label).1 start (startWith start f.blocks.size at_) where
  params := rfl
  entry := rfl
  blocks := by
    simp only [newBlock, Array.size_push]
    exact Nat.le_succ _
  next := Nat.le_refl _
  start _ hi := if_neg hi.ne
  slots := by
    rw [slots_newBlock h]
    exact fun _ h => h
  dests j := by
    rw [blockDests_newBlock]
    exact fun _ h => h

/-- A block that is empty and open. -/
theorem Block.keeps_empty (label : Option String) : Block.Keeps f start i { label } where
  uses pre instr post h := by simp at h
  ends t ht := by cases ht
  incoming instr h := by simp at h
  edges next h := by cases h
  allocas pre instr post h := by simp at h

theorem Certified.newBlock (hc : f.Certified start) (h : f.entry < f.blocks.size)
    (label : Option String) (at_ : Set Register) :
    (f.newBlock label).1.Certified (startWith start f.blocks.size at_) := by
  rw [certified_iff, assigned_newBlock]
  refine ⟨hc.once, hc.below, ?_, fun j b hb => ?_⟩
  · exact (if_neg h.ne).trans hc.first
  · rw [block?_newBlock] at hb
    split at hb
    · cases hb
      exact Block.keeps_empty label
    · exact (hc.keeps hb).mono (grows_newBlock h at_) (lt_of_block? hb)

theorem grows_newRegister (type : Ty) : f.Grows (f.newRegister type).1 start start :=
  ⟨rfl, rfl, Nat.le_refl _, Nat.le_succ _, fun _ _ => rfl, fun _ h => h, fun _ _ h => h⟩

theorem Certified.newRegister (hc : f.Certified start) (type : Ty) :
    (f.newRegister type).1.Certified start :=
  { hc with below := fun r hr => (hc.below r hr).trans (Nat.lt_succ_self _) }

theorem pending_newRegister (hc : f.Certified start) (type : Ty) :
    (f.newRegister type).1.Pending (f.newRegister type).2 :=
  ⟨Nat.lt_succ_self _, fun r hr => (hc.below r hr).ne⟩

/-! ## Whole functions -/

/-- A function that has no code is certified by its parameters. -/
theorem certified_ofSignature (name : String) (params : List Ty) (result : Ty) :
    (ofSignature name params result).Certified fun _ => ∅ := by
  have hids : (ofSignature name params result).params.map Register.id = List.range params.length := by
    rw [List.range_eq_range', ← List.zipIdx_map_snd 0 params]
    simp only [ofSignature, List.map_map]
    rfl
  refine certified_iff.mpr ⟨?_, fun r hr => ?_, rfl, fun i b hb => by cases hb⟩
  · show (List.map Register.id (_ ++ [])).Nodup
    rw [List.append_nil, hids]
    exact List.nodup_range
  · have hr : r ∈ (ofSignature name params result).params := by
      rcases List.mem_append.mp hr with h | h
      · exact h
      · cases h
    have hid := List.mem_map_of_mem (f := Register.id) hr
    rw [hids] at hid
    exact List.mem_range.mp hid

/-- The first block of a function. -/
theorem Certified.begin (hc : f.Certified start) (hblocks : f.blocks = #[])
    (label : Option String) :
    Certified { (f.newBlock label).1 with entry := (f.newBlock label).2 } fun _ => ∅ := by
  rw [certified_iff]
  have hassigned : assigned { (f.newBlock label).1 with entry := (f.newBlock label).2 } =
      f.assigned := assigned_newBlock f label
  rw [hassigned]
  refine ⟨hc.once, hc.below, rfl, fun j b hb => ?_⟩
  have hb : (f.newBlock label).1.block? j = some b := hb
  rw [block?_newBlock] at hb
  split at hb
  · cases hb
    exact Block.keeps_empty label
  · simp [block?, hblocks] at hb

end Function

end Staged.Ir
