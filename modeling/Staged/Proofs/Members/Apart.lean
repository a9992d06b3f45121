/-
  Staged.Proofs.Members.Apart — the members of a type can be told apart.

  A type gets members from its definition and from any number of implementations of skills, in
  the order in which their phases run. Every member is compared with those the type has when it
  is declared. That is enough, whichever comes first, because of two members that clash each
  clashes with the other (`MemberFunction.clashes_comm`), and because no change of the type table
  adds a member without the comparison (`TypeTable.Change.unclashing`). What it means that no two
  members clash is said kind by kind (`Unclashing.apart`).

  Main statement: `members_apart`, over the type tables of every compilation, and over all that
  come of the first one by changes.
-/

import Staged.Proofs.Layouts.Compile

namespace Staged

/-! ## Clashes -/

/-- Kinds of which a type may have several members, told apart by the types of their arguments. -/
def MemberKind.isOverloaded : MemberKind → Bool
  | constructor | fromConvertor | binary _ _ => true
  | _ => false

/-- Members that can be told apart: those with a name by their names, overloads of one kind by
the types of their arguments, convertors by their targets; and of every other kind there is at
most one. -/
structure Apart (ms : List MemberFunction) : Prop where
  names : ((ms.filter (·.kind.isNamed)).map MemberFunction.name).Nodup
  overloads : ∀ kind : MemberKind, kind.isOverloaded = true →
    ((ms.filter (·.kind == kind)).map MemberFunction.argTypes).Nodup
  targets : ((ms.filter (·.kind == .toConvertor)).map MemberFunction.result).Nodup
  single : ∀ kind : MemberKind, kind.isNamed = false → kind.isOverloaded = false →
    kind ≠ .toConvertor → (ms.filter (·.kind == kind)).length ≤ 1

/-- No member clashes with one that comes before it. -/
def Unclashing (ms : List MemberFunction) : Prop := ms.Pairwise fun a b => a.clashes b = false

namespace MemberFunction

variable {a b : MemberFunction}

theorem clashes_comm (a b : MemberFunction) : a.clashes b = b.clashes a := by
  unfold clashes
  rw [Bool.or_comm, Bool.and_comm a.kind.isNamed, Bool.beq_comm (a := a.name),
    Bool.beq_comm (a := a.argTypes), Bool.beq_comm (a := a.result)]
  by_cases hkind : a.kind = b.kind
  · rw [hkind]
  · rw [if_pos hkind, if_pos (Ne.symm hkind)]

theorem clashes_of_named (ha : a.kind.isNamed = true) (hb : b.kind.isNamed = true) :
    a.clashes b = (a.name == b.name) := by
  unfold clashes
  rw [ha, hb]
  rfl

theorem clashes_of_overloaded {kind : MemberKind} (hkind : kind.isOverloaded = true)
    (ha : a.kind = kind) (hb : b.kind = kind) : a.clashes b = (a.argTypes == b.argTypes) := by
  cases kind <;> simp_all [clashes, MemberKind.isNamed, MemberKind.isOverloaded]

theorem clashes_of_convertor (ha : a.kind = .toConvertor) (hb : b.kind = .toConvertor) :
    a.clashes b = (a.result == b.result) := by
  simp [clashes, ha, hb, MemberKind.isNamed]

theorem clashes_of_single {kind : MemberKind} (hnamed : kind.isNamed = false)
    (hoverloaded : kind.isOverloaded = false) (hconvertor : kind ≠ .toConvertor)
    (ha : a.kind = kind) (hb : b.kind = kind) : a.clashes b = true := by
  cases kind <;> simp_all [clashes, MemberKind.isNamed, MemberKind.isOverloaded]

end MemberFunction

namespace Unclashing

variable {ms ms' : List MemberFunction} {m : MemberFunction}

theorem perm (h : Unclashing ms) (hp : ms.Perm ms') : Unclashing ms' :=
  (hp.pairwise_iff fun {a b} hab => (b.clashes_comm a).trans hab).mp h

theorem cons (h : Unclashing ms) (hfree : ∀ m' ∈ ms, m'.clashes m = false) :
    Unclashing (m :: ms) :=
  List.pairwise_cons.mpr ⟨fun m' hm' => (m.clashes_comm m').trans (hfree m' hm'), h⟩

/-- Members of one kind differ in what tells members of the kind apart. -/
theorem nodup_map {α : Type} {p : MemberFunction → Bool} {key : MemberFunction → α}
    (h : Unclashing ms) (hkey : ∀ a b, p a = true → p b = true → key a = key b →
      a.clashes b = true) : ((ms.filter p).map key).Nodup := by
  rw [List.Nodup, List.pairwise_map, List.pairwise_filter]
  exact h.imp fun {a b} hab ha hb heq => Bool.eq_false_iff.mp hab (hkey a b ha hb heq)

theorem apart (h : Unclashing ms) : Apart ms where
  names := h.nodup_map fun a b ha hb heq =>
    (MemberFunction.clashes_of_named ha hb).trans (beq_iff_eq.mpr heq)
  overloads kind hkind := h.nodup_map fun a b ha hb heq =>
    (MemberFunction.clashes_of_overloaded hkind (eq_of_beq ha) (eq_of_beq hb)).trans
      (beq_iff_eq.mpr heq)
  targets := h.nodup_map fun a b ha hb heq =>
    (MemberFunction.clashes_of_convertor (eq_of_beq ha) (eq_of_beq hb)).trans
      (beq_iff_eq.mpr heq)
  single kind hnamed hoverloaded hconvertor := by
    -- two of them would clash whatever they are like
    have hnodup : ((ms.filter (·.kind == kind)).map fun _ => ()).Nodup :=
      h.nodup_map fun a b ha hb _ => MemberFunction.clashes_of_single hnamed hoverloaded
        hconvertor (eq_of_beq ha) (eq_of_beq hb)
    rw [← List.length_map (f := fun _ => ())]
    exact hnodup.length_le_card

end Unclashing

/-! ## Members that are added -/

namespace TypeTable

variable {t t' : TypeTable} {ty : Ty} {m : MemberFunction} {w : Home}

/-- The members of the implementations for a type, after one of them got another member. -/
theorem perm_flatMap_modify :
    ∀ {ds : List DoneSkill} {k : Nat} {d : DoneSkill}, ds[k]? = some d →
      (((ds.modify k fun s => { s with members := s.members ++ [m] }).filter
        (·.target == d.target)).flatMap DoneSkill.members).Perm
      (m :: (ds.filter (·.target == d.target)).flatMap DoneSkill.members)
  | [], _, _, h => by cases h
  | d :: ds, 0, _, h => by
    cases h
    simp
  | d' :: ds, k + 1, d, h => by
    have hk : ds[k]? = some d := h
    have ih := perm_flatMap_modify hk
    rw [List.modify_succ_cons, List.filter_cons, List.filter_cons]
    split
    · rw [List.flatMap_cons, List.flatMap_cons]
      exact (ih.append_left d'.members).trans List.perm_middle
    · exact ih

/-- The implementations for another type keep their members. -/
theorem filter_modify_other {k : Nat} {ds : List DoneSkill} {d : DoneSkill} (hd : ds[k]? = some d)
    (hty : d.target ≠ ty) :
    (ds.modify k fun s => { s with members := s.members ++ [m] }).filter (·.target == ty) =
      ds.filter (·.target == ty) := by
  induction ds generalizing k with
  | nil => cases hd
  | cons d' ds ih =>
    cases k with
    | zero =>
      cases hd
      simp [hty]
    | succ k =>
      rw [List.modify_succ_cons, List.filter_cons, List.filter_cons, ih hd]

/-- A member more for the type that its home belongs to. -/
theorem perm_membersOf_addMember (hhome : t.typeAt w = some ty) :
    ((t.addMember m w).membersOf ty).Perm (m :: t.membersOf ty) := by
  cases w with
  | struct id =>
    obtain ⟨d, hd, rfl⟩ := Option.map_eq_some_iff.mp hhome
    have hold : t.structOf? (.struct id) = some d := hd
    have hnew : (t.addMember m (.struct id)).structOf? (.struct id) =
        some { d with members := d.members ++ [m] } := by
      simp only [addMember, modifyStruct, structOf?, Array.getElem?_modify, if_pos, hd]
      rfl
    unfold membersOf
    rw [hnew, hold]
    show (d.members ++ [m] ++ (t.doneFor (.struct id)).flatMap DoneSkill.members).Perm
      (m :: (d.members ++ (t.doneFor (.struct id)).flatMap DoneSkill.members))
    rw [List.append_assoc]
    exact List.perm_middle
  | done k =>
    obtain ⟨d, hd, rfl⟩ := Option.map_eq_some_iff.mp hhome
    rw [← Array.getElem?_toList] at hd
    unfold membersOf doneFor
    rw [addMember, modifyDone, Array.toList_modify]
    exact ((perm_flatMap_modify hd).append_left _).trans List.perm_middle

/-- No other type gets the member. -/
theorem membersOf_addMember_other {ty' : Ty} (hhome : t.typeAt w = some ty) (hne : ty ≠ ty') :
    (t.addMember m w).membersOf ty' = t.membersOf ty' := by
  cases w with
  | struct id =>
    obtain ⟨d, -, rfl⟩ := Option.map_eq_some_iff.mp hhome
    refine congrArg (· ++ (t.doneFor ty').flatMap DoneSkill.members) ?_
    cases ty' with
    | struct id' =>
      have hid : id ≠ id' := fun h => hne (congrArg Ty.struct h)
      simp only [addMember, modifyStruct, structOf?, Array.getElem?_modify, if_neg hid]
    | _ => rfl
  | done k =>
    obtain ⟨d, hd, rfl⟩ := Option.map_eq_some_iff.mp hhome
    rw [← Array.getElem?_toList] at hd
    unfold membersOf doneFor
    rw [addMember, modifyDone, Array.toList_modify, filter_modify_other hd hne]
    rfl

/-- No change makes members of a type clash. -/
theorem Change.unclashing (h : t.Change t') (ht : ∀ ty, Unclashing (t.membersOf ty)) :
    ∀ ty, Unclashing (t'.membersOf ty) := by
  intro ty
  cases h with
  | same h =>
    rw [h.membersOf]
    exact ht ty
  | addStruct _ hmembers =>
    rw [membersOf_addStruct hmembers]
    exact ht ty
  | addMix _ _ =>
    rw [membersOf_addMix]
    exact ht ty
  | addChoice _ =>
    rw [membersOf_addChoice]
    exact ht ty
  | addDone hmembers =>
    rw [membersOf_addDone hmembers]
    exact ht ty
  | setFields _ _ =>
    rw [membersOf_setFields]
    exact ht ty
  | setVariants _ _ _ => exact ht ty
  | @addMember m w hhome hfree =>
    by_cases hty : m.parent = ty
    · subst hty
      exact ((ht _).cons hfree).perm (perm_membersOf_addMember hhome).symm
    · rw [membersOf_addMember_other hhome hty]
      exact ht ty

theorem Changes.unclashing (h : t.Changes t') (ht : ∀ ty, Unclashing (t.membersOf ty)) :
    ∀ ty, Unclashing (t'.membersOf ty) := by
  induction h with
  | refl => exact ht
  | tail _ h ih => exact h.unclashing ih

end TypeTable

/-! ## Compilations -/

/-- The first type table has no members at all. -/
theorem unclashing_ofOptions (o : Options) (ty : Ty) :
    Unclashing ((Compiler.ofOptions o).types.membersOf ty) := by
  have hnone : (Compiler.ofOptions o).types.membersOf ty = [] := by
    cases ty <;> rfl
  rw [hnone]
  exact .nil

/-- The type tables of a compilation come of one another by changes, from the first to the last.
In each of them, and in all that come of the first one by changes, so also while a phase runs,
no two members of a type clash: those with a name have different names, overloads of one kind
take arguments of different types, convertors have different targets, and of every other kind
there is at most one. -/
theorem members_apart (p : Program) (o : Options) :
    (∀ t ∈ typeTables p o, (Compiler.ofOptions o).types.Changes t) ∧
    (typeTables p o).Pairwise TypeTable.Changes ∧
    ∀ t, (Compiler.ofOptions o).types.Changes t → ∀ ty,
      Unclashing (t.membersOf ty) ∧ Apart (t.membersOf ty) := by
  refine ⟨changes_typeTables p o, pairwise_changes p o, fun t ht ty => ?_⟩
  have h := ht.unclashing (unclashing_ofOptions o) ty
  exact ⟨h, h.apart⟩

/-- A struct `Pair` with a constructor and a method, and an implementation for it with another
constructor and a destructor. -/
def implemented : Program :=
  let range : Span := ⟨0, 0, 0⟩
  let name : QName := ⟨0, [⟨"Pair", range⟩], range⟩
  let arg (name : String) (ty : TypeExpr) : Argument := ⟨⟨name, range⟩, some ty, false, false, range⟩
  let member (form : MemberForm) (args : List Argument) : MemberDecl :=
    ⟨form, .pub, args, none, [], range⟩
  let struct : StructDecl := ⟨⟨"Pair", range⟩, .pub, [⟨⟨"x", range⟩, .int range 32, true, .pub⟩],
    [member .constructor [arg "x" (.int range 32)], member (.method ⟨"get", range⟩ false) []]⟩
  let done : DoSkillDecl := ⟨none, .named range name,
    [member .constructor [arg "x" (.int range 64)], member .destructor []], range⟩
  let decls : List DeclBody := [.doSkill done, .struct struct]
  ⟨#[⟨"app", .file, none, 0, none, decls.map fun d => .entity ⟨d, none, range⟩⟩]⟩

theorem members_apart_implemented :
    ∃ t ∈ typeTables implemented {},
      ((t.membersOf (.struct 0)).map fun m => (m.kind, m.name, m.argTypes)) =
        [(.constructor, "new", [.int 32]), (.method, "get", []), (.constructor, "new", [.int 64]),
          (.destructor, "end", [])] ∧
      Unclashing (t.membersOf (.struct 0)) ∧ Apart (t.membersOf (.struct 0)) := by
  have hlast : (typeTables implemented {}).getLast?.map (fun t =>
      (t.membersOf (.struct 0)).map fun m => (m.kind, m.name, m.argTypes)) =
      some [(.constructor, "new", [.int 32]), (.method, "get", []),
        (.constructor, "new", [.int 64]), (.destructor, "end", [])] := by decide +kernel
  obtain ⟨t, ht, hmembers⟩ := Option.map_eq_some_iff.mp hlast
  have hmem := List.mem_of_getLast? ht
  obtain ⟨hchanges, -, happart⟩ := members_apart implemented {}
  exact ⟨t, hmem, hmembers, happart t (hchanges t hmem) _⟩

end Staged
