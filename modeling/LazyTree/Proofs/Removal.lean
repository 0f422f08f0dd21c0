import LazyTree.Proofs.Detach
import Mathlib.Data.Set.Card
import Mathlib.Logic.Relation

/-!
Removals turn by turn. Ids are taken off a list; a live node met there is dropped, and its children
join the list. Whichever id is taken next, in whatever arena, a removal comes to an end, and what it
has dropped by then is exactly what could be reached when it began.
-/
namespace LazyTree

/-- A removal under way: what it has left of the arena, the ids it has still to look at, and the
number of nodes it has dropped. -/
structure Removal where
  arena : Arena
  todo : List NodeId
  dropped : Nat

namespace Removal
variable {arena : Arena} {id : NodeId} {node : Node} {removal earlier later last : Removal}

def start (arena : Arena) (top : NodeId) : Removal := ⟨arena, [top], 0⟩

/-- A turn looks at any of the ids, the first or the last as well as one between. A node that is
gone is passed over; the children of a live one take the place of its id. -/
inductive Turn : Removal → Removal → Prop where
  | pass {arena : Arena} {id : NodeId} (before after : List NodeId) (dropped : Nat)
      (dead : arena.get? id = none) :
      Turn ⟨arena, before ++ id :: after, dropped⟩ ⟨arena, before ++ after, dropped⟩
  | drop {arena : Arena} {id : NodeId} {node : Node} (before after : List NodeId) (dropped : Nat)
      (live : arena.get? id = some node) :
      Turn ⟨arena, before ++ id :: after, dropped⟩
        ⟨arena.erase id, before ++ node.children ++ after, dropped + 1⟩

theorem Turn.decreases (h : Turn earlier later) :
    Prod.Lex (· < ·) (· < ·) (later.arena.size, later.todo.length)
      (earlier.arena.size, earlier.todo.length) := by
  cases h with
  | pass before after dropped dead => exact .right _ (by simp)
  | drop before after dropped live => exact .left _ _ (Arena.size_erase_lt live)

theorem wellFounded_turn : WellFounded fun later earlier => Turn earlier later :=
  Subrelation.wf Turn.decreases
    (InvImage.wf (fun removal : Removal => (removal.arena.size, removal.todo.length))
      (WellFounded.prod_lex Nat.lt_wfRel.wf Nat.lt_wfRel.wf))

theorem exists_turn (h : removal.todo ≠ []) : ∃ next, Turn removal next := by
  obtain ⟨arena, todo, dropped⟩ := removal
  cases todo with
  | nil => exact absurd rfl h
  | cons id rest =>
    cases hlive : arena.get? id with
    | none => exact ⟨_, .pass [] rest dropped hlive⟩
    | some node => exact ⟨_, .drop [] rest dropped hlive⟩

def pending (removal : Removal) : Set NodeId :=
  {id | ∃ start ∈ removal.todo, removal.arena.Reaches start id}

@[simp] theorem pending_start (arena : Arena) (top : NodeId) :
    (start arena top).pending = {id | arena.Reaches top id} := by
  simp [pending, start]

theorem pending_of_done (h : removal.todo = []) : removal.pending = ∅ := by
  simp [pending, h]

theorem pending_middle (arena : Arena) (before middle after : List NodeId) (dropped : Nat) :
    pending ⟨arena, before ++ middle ++ after, dropped⟩ =
      pending ⟨arena, middle ++ (before ++ after), dropped⟩ := by
  ext id
  simp only [pending, Set.mem_ofPred_eq, List.mem_append]
  exact exists_congr fun start => and_congr_left' (or_assoc.trans or_left_comm)

theorem pending_pass (before after : List NodeId) (dropped : Nat) (dead : arena.get? id = none) :
    pending ⟨arena, before ++ id :: after, dropped⟩ =
      pending ⟨arena, before ++ after, dropped⟩ := by
  have hskip (other : NodeId) : ¬ arena.Reaches id other := fun h => by
    obtain ⟨_, hlive⟩ := h.top_live
    rw [dead] at hlive
    cases hlive
  rw [List.append_cons, pending_middle, List.singleton_append]
  ext other
  simp [pending, hskip]

theorem pending_drop (before after : List NodeId) (dropped : Nat)
    (live : arena.get? id = some node) :
    pending ⟨arena, before ++ id :: after, dropped⟩ =
      insert id (pending ⟨arena.erase id, before ++ node.children ++ after, dropped + 1⟩) := by
  rw [List.append_cons, pending_middle, List.singleton_append, pending_middle]
  ext other
  exact Arena.reaches_stack_cons live

theorem not_mem_pending_erase (arena : Arena) (id : NodeId) (todo : List NodeId) (dropped : Nat) :
    id ∉ pending ⟨arena.erase id, todo, dropped⟩ := by
  rintro ⟨_, _, h⟩
  obtain ⟨_, hlive⟩ := h.live
  exact (Arena.get?_of_get?_erase hlive).1 rfl

open Classical in
/-- What a removal leaves of a slot in the end. -/
noncomputable def left (removal : Removal) (id : NodeId) : Option Node :=
  if id ∈ removal.pending then none else removal.arena.get? id

/-- What two stages of one removal have in common. -/
structure Continues (earlier later : Removal) : Prop where
  nextId : later.arena.nextId = earlier.arena.nextId
  size : later.arena.size + later.dropped = earlier.arena.size + earlier.dropped
  count : later.pending.encard + later.dropped = earlier.pending.encard + earlier.dropped
  left : ∀ id, later.left id = earlier.left id

theorem Continues.trans (h : Continues earlier later) (h' : Continues later last) :
    Continues earlier last :=
  ⟨h'.nextId.trans h.nextId, h'.size.trans h.size, h'.count.trans h.count,
    fun id => (h'.left id).trans (h.left id)⟩

open Classical in
theorem Turn.continues (h : Turn earlier later) : Continues earlier later := by
  cases h with
  | pass before after dropped dead =>
    have hpending := pending_pass before after dropped dead
    exact ⟨rfl, rfl, by rw [hpending], fun other => by rw [left, left, hpending]⟩
  | @drop arena id node before after dropped live =>
    -- The node of the turn was pending and is so no longer: one less to come, one more counted.
    have hpending := pending_drop before after dropped live
    have hgone := not_mem_pending_erase arena id (before ++ node.children ++ after) (dropped + 1)
    constructor
    case nextId => exact Arena.nextId_erase arena id
    case size =>
      have hsize := Arena.size_erase live
      dsimp only
      omega
    case count =>
      rw [hpending, Set.encard_insert_of_notMem hgone, Nat.cast_add, Nat.cast_one, add_right_comm,
        add_assoc]
    case left =>
      intro other
      rw [left, left, hpending, Arena.get?_erase]
      by_cases hother : other = id
      · simp [hother]
      · simp only [Set.mem_insert_iff, hother, if_false, false_or]

theorem continues_of_turns (h : Relation.ReflTransGen Turn earlier later) :
    Continues earlier later := by
  induction h with
  | refl => exact ⟨rfl, rfl, rfl, fun _ => rfl⟩
  | tail _ turn ih => exact ih.trans turn.continues

theorem turns_detachAll (arena : Arena) (todo : List NodeId) (dropped : Nat) :
    Relation.ReflTransGen Turn ⟨arena, todo, dropped⟩
      ⟨(arena.detachAll todo).1, [], dropped + (arena.detachAll todo).2⟩ := by
  fun_induction Arena.detachAll arena todo generalizing dropped with
  | case1 => exact .refl
  | case2 arena id todo dead ih => exact .head (.pass [] todo dropped dead) (ih dropped)
  | case3 arena id todo node live rest ih =>
    have hrest := ih (dropped + 1)
    rw [Nat.add_right_comm, Nat.add_assoc] at hrest
    exact .head (.drop [] todo dropped live) hrest

theorem continues_detach (arena : Arena) (top : NodeId) :
    Continues (start arena top) ⟨(arena.detach top).1, [], (arena.detach top).2⟩ := by
  have hturns := turns_detachAll arena [top] 0
  rw [Nat.zero_add] at hturns
  exact continues_of_turns hturns

theorem left_of_done (h : removal.todo = []) (id : NodeId) :
    removal.left id = removal.arena.get? id := by
  simp [left, pending_of_done h]

/-- A removal can end in one way only. -/
theorem eq_of_done (h : Continues earlier later) (h' : Continues earlier last)
    (hdone : later.todo = []) (hdone' : last.todo = []) : later = last := by
  have harena : later.arena = last.arena :=
    Arena.ext_get? (h.nextId.trans h'.nextId.symm) fun id => by
      rw [← left_of_done hdone, ← left_of_done hdone', h.left, h'.left]
  have hdropped : later.dropped = last.dropped := by
    have hsize := h.size.trans h'.size.symm
    rw [harena] at hsize
    exact Nat.add_left_cancel hsize
  obtain ⟨arena, todo, dropped⟩ := later
  obtain ⟨arena', todo', dropped'⟩ := last
  dsimp only at harena hdropped hdone hdone'
  rw [harena, hdropped, hdone, hdone']

end Removal

namespace Arena

theorem detach_of_dead {arena : Arena} {top : NodeId} (dead : arena.get? top = none) :
    arena.detach top = (arena, 0) := by
  rw [detach, detachAll]
  split
  · rw [detachAll]
  · rename_i live
    rw [dead] at live
    cases live

/-- In every arena, also where child lists name nodes that are gone, hold an id twice, share nodes
or run in circles, a removal ends, and ends alike in whatever order it looks at the ids. It has
dropped the live nodes that could be reached through live nodes, none if it began at a node that was
gone. It counts each of them once, and neither the other nodes nor the ids to come are changed. -/
theorem detach_drops_reached (arena : Arena) (top : NodeId) :
    (Acc (fun later earlier => Removal.Turn earlier later) (.start arena top) ∧
      ∀ last, Relation.ReflTransGen Removal.Turn (.start arena top) last →
        (∀ next, ¬ Removal.Turn last next) →
          last = ⟨(arena.detach top).1, [], (arena.detach top).2⟩) ∧
    (∀ id, arena.Reaches top id ↔
      (∃ node, arena.get? id = some node) ∧ (arena.detach top).1.get? id = none) ∧
    (∀ id, ¬ arena.Reaches top id → (arena.detach top).1.get? id = arena.get? id) ∧
    (arena.get? top = none → arena.detach top = (arena, 0)) ∧
    {id | arena.Reaches top id}.encard = (arena.detach top).2 ∧
    (arena.detach top).1.size + (arena.detach top).2 = arena.size ∧
    (arena.detach top).1.nextId = arena.nextId := by
  have hdetach := Removal.continues_detach arena top
  refine ⟨⟨Removal.wellFounded_turn.apply _, fun last hturns hstop => ?_⟩, fun id => ?_,
    fun id => get?_detach_of_not_reached, detach_of_dead, ?_, hdetach.size, hdetach.nextId⟩
  · have hdone : last.todo = [] := by
      by_contra hne
      obtain ⟨next, hnext⟩ := Removal.exists_turn hne
      exact hstop next hnext
    exact Removal.eq_of_done (Removal.continues_of_turns hturns) hdetach hdone rfl
  · constructor
    · intro h
      exact ⟨h.live, get?_detach_of_reached h⟩
    · rintro ⟨⟨node, hlive⟩, hgone⟩
      by_contra h
      rw [get?_detach_of_not_reached h, hlive] at hgone
      cases hgone
  · have hcount := hdetach.count
    rw [Removal.pending_of_done rfl, Set.encard_empty, zero_add, Removal.pending_start] at hcount
    simpa [Removal.start] using hcount.symm

/-- Nodes 1 and 2 list each other and share node 3, which lists itself; node 1 lists node 2 twice
and an id without a node; node 4 lists node 2, and no node lists node 4. -/
def tangled : Arena :=
  ⟨#[some { Node.fresh (.real "/a") none with children := [2, 3, 2, 5] },
    some { Node.fresh (.real "/a/b") (some 1) with children := [1, 3] },
    some { Node.fresh (.real "/a/c") (some 1) with children := [3] },
    some { Node.fresh (.real "/d") none with children := [2] },
    none]⟩

theorem tangled_reaches_iff {id : NodeId} :
    tangled.Reaches 1 id ↔ id ∈ ({1, 2, 3} : Finset NodeId) := by
  constructor
  · intro h
    induction h with
    | self _ => decide
    | @child above id node childNode _ listing listed live ih =>
      have hclosed : ∀ above ∈ ({1, 2, 3} : Finset NodeId), ∀ id ∈ tangled.childrenOf above,
          tangled.contains id = true → id ∈ ({1, 2, 3} : Finset NodeId) := by decide
      exact hclosed above ih id (by rwa [childrenOf_of_live listing]) (contains_iff.mpr ⟨_, live⟩)
  · have hroot : tangled.Reaches 1 1 := .self rfl
    have hchild : tangled.Reaches 1 2 := hroot.of_listed (by decide) rfl
    rw [Finset.mem_insert, Finset.mem_insert, Finset.mem_singleton]
    rintro (rfl | rfl | rfl)
    · exact hroot
    · exact hchild
    · exact hchild.of_listed (by decide) rfl

theorem tangled_drops_three :
    (tangled.detach 1).2 = 3 ∧ (tangled.detach 1).1.size = 1 ∧
      (tangled.detach 1).1.get? 4 = tangled.get? 4 ∧ tangled.detach 5 = (tangled, 0) := by
  obtain ⟨_, _, hother, _, hcount, hsize, _⟩ := detach_drops_reached tangled 1
  obtain ⟨_, _, _, hdead, _⟩ := detach_drops_reached tangled 5
  have hreached : {id | tangled.Reaches 1 id} = (({1, 2, 3} : Finset NodeId) : Set NodeId) :=
    Set.ext fun _ => tangled_reaches_iff
  have hthree : (tangled.detach 1).2 = 3 := by
    rw [hreached, Set.encard_coe_eq_coe_finsetCard] at hcount
    exact (Nat.cast_inj.mp hcount).symm
  have hfour : tangled.size = 4 := by decide
  refine ⟨hthree, by omega, hother 4 fun h => ?_, hdead rfl⟩
  exact absurd (tangled_reaches_iff.mp h) (by decide)

end Arena

end LazyTree
