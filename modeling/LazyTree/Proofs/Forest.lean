import LazyTree.Proofs.Detach
import Mathlib.Data.List.Nodup
import Mathlib.Tactic.Tauto

/-!
Arenas whose child lists form a forest, and the three changes that a merge makes to one: a new
child, a replaced handle, a child dropped with all below it. While a merge runs, the children of its
node are kept apart; no list of the arena holds them then.
-/
namespace LazyTree.Arena
variable {arena other : Arena} {top id child parent : NodeId} {node : Node}
variable {children before after : List NodeId}

/-- Each listed child is live, points back to the one node that lists it, is listed there once, and
does not lead back to that node. -/
structure Forest (arena : Arena) : Prop where
  owned : ∀ {id child}, child ∈ arena.childrenOf id →
    ∃ node, arena.get? child = some node ∧ node.parent = some id
  once : ∀ id, (arena.childrenOf id).Nodup
  no_cycle : ∀ {id child}, child ∈ arena.childrenOf id → ¬ arena.Reaches child id

theorem forest_of_single (hother : ∀ id, id ≠ parent → arena.childrenOf id = [])
    (hnodup : (arena.childrenOf parent).Nodup)
    (hup : ∀ child ∈ arena.childrenOf parent,
      child ≠ parent ∧ (arena.get? child).bind Node.parent = some parent) : arena.Forest := by
  have hlister {id child : NodeId} (hc : child ∈ arena.childrenOf id) : id = parent := by
    by_contra hne
    exact List.not_mem_nil (hother id hne ▸ hc)
  constructor
  case owned =>
    intro id child hc
    obtain rfl := hlister hc
    exact Option.bind_eq_some_iff.mp (hup child hc).2
  case once =>
    intro id
    by_cases hid : id = parent
    · exact hid ▸ hnodup
    · rw [hother id hid]
      exact .nil
  case no_cycle =>
    intro id child hc hr
    obtain rfl := hlister hc
    have hne := (hup child hc).1
    exact hne (hr.eq_of_childless (hother child hne)).symm

namespace Forest

theorem same_lister (h : arena.Forest) (hc : child ∈ arena.childrenOf id)
    (hc' : child ∈ arena.childrenOf parent) : id = parent := by
  obtain ⟨node, hlive, hup⟩ := h.owned hc
  obtain ⟨node', hlive', hup'⟩ := h.owned hc'
  obtain rfl := Option.some.inj (hlive.symm.trans hlive')
  exact Option.some.inj (hup.symm.trans hup')

theorem reaches_of_lists (h : arena.Forest)
    (hlists : ∀ id, (other.childrenOf id).Sublist (arena.childrenOf id))
    (htop : arena.get? top = some node) (hr : other.Reaches top id) : arena.Reaches top id := by
  induction hr with
  | self _ => exact .self htop
  | child _ listing listed _ ih =>
    have hc := (hlists _).subset (by rwa [childrenOf_of_live listing])
    obtain ⟨_, hlive, _⟩ := h.owned hc
    exact ih.of_listed hc hlive

theorem of_lists (h : arena.Forest)
    (hlists : ∀ id, (other.childrenOf id).Sublist (arena.childrenOf id))
    (hstay : ∀ {id child node}, child ∈ other.childrenOf id → arena.get? child = some node →
      ∃ node', other.get? child = some node' ∧ node'.parent = node.parent) : other.Forest where
  owned hc := by
    obtain ⟨node, hlive, hup⟩ := h.owned ((hlists _).subset hc)
    obtain ⟨node', hlive', hsame⟩ := hstay hc hlive
    exact ⟨node', hlive', hsame.trans hup⟩
  once id := (hlists id).nodup (h.once id)
  no_cycle hc hr := by
    obtain ⟨node, hlive, _⟩ := h.owned ((hlists _).subset hc)
    exact h.no_cycle ((hlists _).subset hc) (h.reaches_of_lists hlists hlive hr)

end Forest

/-- The children of `parent` while they are kept apart: nodes of a forest that no list holds, each
pointing to `parent` and not leading to it. -/
structure Loose (arena : Arena) (parent : NodeId) (children : List NodeId) : Prop where
  forest : arena.Forest
  nodup : children.Nodup
  owned : ∀ {child}, child ∈ children →
    ∃ node, arena.get? child = some node ∧ node.parent = some parent
  unlisted : ∀ {id child}, child ∈ children → child ∉ arena.childrenOf id
  apart : ∀ {child}, child ∈ children → ¬ arena.Reaches child parent

namespace Loose

theorem ne_parent (h : arena.Loose parent children) (hc : child ∈ children) : child ≠ parent := by
  rintro rfl
  obtain ⟨_, hlive, _⟩ := h.owned hc
  exact h.apart hc (.self hlive)

theorem sibling_not_reached {sibling : NodeId} (h : arena.Loose parent children)
    (hs : sibling ∈ children) (hne : sibling ≠ child) : ¬ arena.Reaches child sibling := by
  intro hr
  rcases hr.lister with heq | ⟨_, _, hlisted⟩
  · exact hne heq
  · exact h.unlisted hs hlisted

theorem not_reached_twice {sibling : NodeId} (h : arena.Loose parent children)
    (hc : child ∈ children) (hs : sibling ∈ children) (hne : sibling ≠ child)
    (hr : arena.Reaches child id) : ¬ arena.Reaches sibling id := by
  induction hr with
  | self _ => exact h.sibling_not_reached hc hne.symm
  | @child above id _ _ hr listing listed _ ih =>
    have hlisted : id ∈ arena.childrenOf above := by rwa [childrenOf_of_live listing]
    intro hr'
    rcases hr'.lister with rfl | ⟨other, hother, hlisted'⟩
    · exact h.unlisted hs hlisted
    · exact ih (h.forest.same_lister hlisted' hlisted ▸ hother)

theorem ne_of_split (h : arena.Loose parent (before ++ child :: after))
    (hid : id ∈ before ++ after) : id ≠ child := by
  rintro rfl
  exact (List.nodup_cons.mp (List.nodup_middle.mp h.nodup)).1 hid

theorem get?_detach_sibling (h : arena.Loose parent children) (hc : child ∈ children)
    (hid : id ∈ children ∧ id ≠ child ∨ id = parent) :
    (arena.detach child).1.get? id = arena.get? id := by
  refine get?_detach_of_not_reached fun hr => ?_
  rcases hid with ⟨hs, hne⟩ | rfl
  · exact h.sibling_not_reached hs hne hr
  · exact h.apart hc hr

theorem of_lists (h : arena.Loose parent children) {kids : List NodeId}
    (hkids : kids.Sublist children)
    (hlists : ∀ id, (other.childrenOf id).Sublist (arena.childrenOf id))
    (hstay : ∀ {id node}, id ∈ kids ∨ (∃ owner, id ∈ other.childrenOf owner) →
      arena.get? id = some node →
      ∃ node', other.get? id = some node' ∧ node'.parent = node.parent) :
    other.Loose parent kids where
  forest := h.forest.of_lists hlists fun hc => hstay (.inr ⟨_, hc⟩)
  nodup := hkids.nodup h.nodup
  owned hc := by
    obtain ⟨node, hlive, hup⟩ := h.owned (hkids.subset hc)
    obtain ⟨node', hlive', hsame⟩ := hstay (.inl hc) hlive
    exact ⟨node', hlive', hsame.trans hup⟩
  unlisted hc hlisted := h.unlisted (hkids.subset hc) ((hlists _).subset hlisted)
  apart hc hr := by
    obtain ⟨node, hlive, _⟩ := h.owned (hkids.subset hc)
    exact h.apart (hkids.subset hc) (h.forest.reaches_of_lists hlists hlive hr)

theorem reaches_iff_of_lists (h : arena.Loose parent children) (h' : other.Loose parent children)
    (hlists : ∀ id, other.childrenOf id = arena.childrenOf id) (hc : child ∈ children) :
    other.Reaches child id ↔ arena.Reaches child id := by
  obtain ⟨_, hlive, _⟩ := h.owned hc
  obtain ⟨_, hlive', _⟩ := h'.owned hc
  exact ⟨h.forest.reaches_of_lists (fun id => hlists id ▸ .refl _) hlive,
    h'.forest.reaches_of_lists (fun id => hlists id ▸ .refl _) hlive'⟩

theorem of_insert (h : arena.Loose parent children) (handle : Handle) (owner : Option NodeId) :
    (arena.insert handle owner).1.Loose parent children :=
  h.of_lists (.refl _) (fun id => childrenOf_insert arena handle owner id ▸ .refl _)
    fun _ hlive => ⟨_, get?_insert_of_live hlive .., rfl⟩

theorem reaches_insert_iff (h : arena.Loose parent children) (hc : child ∈ children)
    (handle : Handle) (owner : Option NodeId) :
    (arena.insert handle owner).1.Reaches child id ↔ arena.Reaches child id :=
  h.reaches_iff_of_lists (h.of_insert handle owner) (childrenOf_insert arena handle owner) hc

theorem insert (h : arena.Loose parent (before ++ after)) (hp : arena.get? parent = some node)
    (handle : Handle) :
    (arena.insert handle (some parent)).1.Loose parent (before ++ arena.nextId :: after) := by
  have hlists := childrenOf_insert arena handle (some parent)
  have hold := h.of_insert handle (some parent)
  have hmem {child : NodeId} (hc : child ∈ before ++ arena.nextId :: after) :
      child = arena.nextId ∨ child ∈ before ++ after := by
    simp only [List.mem_append, List.mem_cons] at hc ⊢
    tauto
  constructor
  case forest => exact hold.forest
  case nodup =>
    refine List.nodup_middle.mpr (List.nodup_cons.mpr ⟨fun hc => ?_, h.nodup⟩)
    obtain ⟨_, hnew, _⟩ := h.owned hc
    exact ne_nextId hnew rfl
  case owned =>
    intro child hc
    rcases hmem hc with rfl | hc
    · exact ⟨_, get?_insert_self arena handle _, rfl⟩
    · exact hold.owned hc
  case unlisted =>
    intro id child hc
    rcases hmem hc with rfl | hc
    · rw [hlists]
      intro hlisted
      obtain ⟨_, hnew, _⟩ := h.forest.owned hlisted
      exact ne_nextId hnew rfl
    · exact hold.unlisted hc
  case apart =>
    intro child hc hr
    rcases hmem hc with rfl | hc
    · have hchildless := (hlists arena.nextId).trans (childrenOf_of_dead (get?_nextId arena))
      exact ne_nextId hp (hr.eq_of_childless hchildless)
    · exact hold.apart hc hr

theorem detach (h : arena.Loose parent (before ++ child :: after)) :
    (arena.detach child).1.Loose parent (before ++ after) := by
  have hmem : child ∈ before ++ child :: after := by simp
  have hlists (id : NodeId) : (arena.detach child).1.childrenOf id = arena.childrenOf id ∨
      (arena.detach child).1.childrenOf id = [] := by
    by_cases hr : arena.Reaches child id
    · exact .inr (childrenOf_of_dead (get?_detach_of_reached hr))
    · exact .inl (childrenOf_congr (get?_detach_of_not_reached hr))
  have hkids : (before ++ after).Sublist (before ++ child :: after) :=
    (List.sublist_cons_self child after).append_left before
  refine h.of_lists hkids (fun id => ?_) fun {id node} hid hlive => ⟨node, ?_, rfl⟩
  · rcases hlists id with heq | heq
    · rw [heq]
    · rw [heq]
      exact List.nil_sublist _
  · rcases hid with hid | ⟨owner, hid⟩
    · exact (h.get?_detach_sibling hmem (.inl ⟨hkids.subset hid, h.ne_of_split hid⟩)).trans hlive
    · -- What a remaining node lists is not led to by the child, or that node would be, too.
      obtain ⟨_, howner, hlisted⟩ := live_of_mem_childrenOf hid
      obtain ⟨hnot, howner⟩ := get?_of_get?_detach howner
      have hlisted : id ∈ arena.childrenOf owner := by rwa [childrenOf_of_live howner]
      refine (get?_detach_of_not_reached fun hr => ?_).trans hlive
      rcases hr.lister with rfl | ⟨above, habove, hlisted'⟩
      · exact h.unlisted hmem hlisted
      · exact hnot (h.forest.same_lister hlisted' hlisted ▸ habove)

theorem reaches_detach_iff {sibling : NodeId} (h : arena.Loose parent children)
    (hc : child ∈ children) (hs : sibling ∈ children) (hne : sibling ≠ child) :
    (arena.detach child).1.Reaches sibling id ↔ arena.Reaches sibling id := by
  refine ⟨.mono fun hlive => (get?_of_get?_detach hlive).2, fun hr => ?_⟩
  have hkeep {other : NodeId} {node : Node} (hr : arena.Reaches sibling other)
      (hlive : arena.get? other = some node) : (arena.detach child).1.get? other = some node := by
    refine (get?_detach_of_not_reached fun hr' => ?_).trans hlive
    exact h.not_reached_twice hc hs hne hr' hr
  induction hr with
  | self live => exact .self (hkeep (.self live) live)
  | child hr listing listed live ih =>
    exact .child ih (hkeep hr listing) listed (hkeep (.child hr listing listed live) live)

/-- When the children join the list of their parent, whatever is reached besides is reached through
the parent. -/
theorem reaches_rejoined (hchildren : other.childrenOf parent = children)
    (hlists : ∀ id, id ≠ parent → other.childrenOf id = arena.childrenOf id)
    (hlive : ∀ {id node}, other.get? id = some node → ∃ node', arena.get? id = some node')
    (hr : other.Reaches top id) : arena.Reaches top id ∨
      arena.Reaches top parent ∧ ∃ child ∈ children, arena.Reaches child id := by
  induction hr with
  | self live =>
    obtain ⟨_, live'⟩ := hlive live
    exact .inl (.self live')
  | @child above id _ _ _ listing listed live ih =>
    obtain ⟨_, live'⟩ := hlive live
    have hc : id ∈ other.childrenOf above := by rwa [childrenOf_of_live listing]
    by_cases ha : above = parent
    · subst ha
      rw [hchildren] at hc
      exact .inr ⟨ih.elim (·) And.left, id, hc, .self live'⟩
    · rw [hlists above ha] at hc
      refine ih.imp (·.of_listed hc live') fun ⟨hparent, child, hchild, hbelow⟩ => ?_
      exact ⟨hparent, child, hchild, hbelow.of_listed hc live'⟩

/-- When the children join the list of their parent, there is a forest again. -/
theorem rejoin (h : arena.Loose parent children)
    (hparents : ∀ id, (other.get? id).map Node.parent = (arena.get? id).map Node.parent)
    (hchildren : other.childrenOf parent = children)
    (hlists : ∀ id, id ≠ parent → other.childrenOf id = arena.childrenOf id) : other.Forest := by
  have hlive {id : NodeId} {node : Node} (hnow : other.get? id = some node) :
      ∃ node', arena.get? id = some node' := by
    obtain ⟨node', hnow', _⟩ := live_of_map_get?_eq (hparents id).symm hnow
    exact ⟨node', hnow'⟩
  have howned {id owner : NodeId}
      (hold : ∃ node, arena.get? id = some node ∧ node.parent = some owner) :
      ∃ node, other.get? id = some node ∧ node.parent = some owner := by
    obtain ⟨node, hnode, hup⟩ := hold
    obtain ⟨node', hnode', hsame⟩ := live_of_map_get?_eq (hparents id) hnode
    exact ⟨node', hnode', hsame.trans hup⟩
  constructor
  case owned =>
    intro id child hc
    by_cases hid : id = parent
    · rw [hid, hchildren] at hc
      exact hid ▸ howned (h.owned hc)
    · rw [hlists id hid] at hc
      exact howned (h.forest.owned hc)
  case once =>
    intro id
    by_cases hid : id = parent
    · rw [hid, hchildren]
      exact h.nodup
    · rw [hlists id hid]
      exact h.forest.once id
  case no_cycle =>
    intro id child hc hr
    have hcases := reaches_rejoined hchildren hlists hlive hr
    by_cases hid : id = parent
    · rw [hid, hchildren] at hc
      rw [hid] at hcases
      exact h.apart hc (hcases.elim (·) And.left)
    · rw [hlists id hid] at hc
      rcases hcases with hbelow | ⟨hparent, sibling, hs, hbelow⟩
      · exact h.forest.no_cycle hc hbelow
      · obtain ⟨_, hlive, _⟩ := h.forest.owned hc
        exact h.apart hs (hparent.trans (hbelow.of_listed hc hlive))

end Loose

end LazyTree.Arena
