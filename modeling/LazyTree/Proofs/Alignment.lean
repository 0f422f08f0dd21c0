import LazyTree.Merge
import LazyTree.Proofs.Linked

/-!
A merge in two steps: first it is decided, from the handles alone, what becomes of each child and of
each listed directory; then the decisions are carried out on the arena. In a forest the two steps
together are the merge.
-/
namespace LazyTree

/-- What a merge does with a listed directory, with a child, or with both at once. -/
inductive Fate where
  | added (listed : Handle)
  | kept (child : NodeId) (listed : Handle)
  | dropped (child : NodeId)
deriving DecidableEq, Repr

namespace Fate

def child? : Fate → Option NodeId
  | added _ => none
  | kept child _ => some child
  | dropped child => some child

def listed? : Fate → Option Handle
  | added listed => some listed
  | kept _ listed => some listed
  | dropped _ => none

/-- The place that a fate makes among the children: for a child that stays, or for a new one. -/
def place? : Fate → Option (Option NodeId)
  | added _ => some none
  | kept child _ => some (some child)
  | dropped _ => none

def placement (listed : Handle) : Option Handle → Ordering
  | some handle => siblingOrder listed handle
  | none => .gt

/-- The fates of children, whose handles are given, and listed directories, in sibling order. -/
def align (handleOf : NodeId → Option Handle) : List NodeId → List Handle → List Fate
  | [], [] => []
  | [], listed :: incoming => added listed :: align handleOf [] incoming
  | child :: children, [] => dropped child :: align handleOf children []
  | child :: children, listed :: incoming =>
    match placement listed (handleOf child) with
    | .lt => added listed :: align handleOf (child :: children) incoming
    | .eq => kept child listed :: align handleOf children incoming
    | .gt => dropped child :: align handleOf children (listed :: incoming)
termination_by children incoming => children.length + incoming.length

theorem align_congr {f g : NodeId → Option Handle} {children : List NodeId}
    {incoming : List Handle} (h : ∀ child ∈ children, f child = g child) :
    align f children incoming = align g children incoming := by
  fun_induction align g children incoming with
  | case1 => simp [align]
  | case2 listed incoming ih => rw [align, ih (by simp)]
  | case3 child children ih => rw [align, ih (fun c hc => h c (List.mem_cons_of_mem _ hc))]
  | case4 child children listed incoming hp ih =>
    rw [align, h child List.mem_cons_self, hp]
    simp only [ih h]
  | case5 child children listed incoming hp ih =>
    rw [align, h child List.mem_cons_self, hp]
    simp only [ih (fun c hc => h c (List.mem_cons_of_mem _ hc))]
  | case6 child children listed incoming hp ih =>
    rw [align, h child List.mem_cons_self, hp]
    simp only [ih (fun c hc => h c (List.mem_cons_of_mem _ hc))]

theorem filterMap_child?_align (handleOf : NodeId → Option Handle) (children : List NodeId)
    (incoming : List Handle) : (align handleOf children incoming).filterMap child? = children := by
  fun_induction align handleOf children incoming with
  | case1 => rfl
  | case2 listed incoming ih => exact ih
  | case3 child children ih => exact congrArg (List.cons child) ih
  | case4 child children listed incoming hp ih => exact ih
  | case5 child children listed incoming hp ih => exact congrArg (List.cons child) ih
  | case6 child children listed incoming hp ih => exact congrArg (List.cons child) ih

theorem filterMap_listed?_align (handleOf : NodeId → Option Handle) (children : List NodeId)
    (incoming : List Handle) :
    (align handleOf children incoming).filterMap listed? = incoming := by
  fun_induction align handleOf children incoming with
  | case1 => rfl
  | case2 listed incoming ih => exact congrArg (List.cons listed) ih
  | case3 child children ih => exact ih
  | case4 child children listed incoming hp ih => exact congrArg (List.cons listed) ih
  | case5 child children listed incoming hp ih => exact congrArg (List.cons listed) ih
  | case6 child children listed incoming hp ih => exact ih

theorem mem_of_kept {handleOf : NodeId → Option Handle} {children : List NodeId}
    {incoming : List Handle} {child : NodeId} {listed : Handle}
    (h : kept child listed ∈ align handleOf children incoming) : child ∈ children := by
  rw [← filterMap_child?_align handleOf children incoming]
  exact List.mem_filterMap.mpr ⟨_, h, rfl⟩

theorem placement_of_kept {handleOf : NodeId → Option Handle} {children : List NodeId}
    {incoming : List Handle} {child : NodeId} {listed : Handle}
    (h : kept child listed ∈ align handleOf children incoming) :
    placement listed (handleOf child) = .eq := by
  fun_induction align handleOf children incoming with
  | case1 => simp at h
  | case2 listed incoming ih => exact ih (by simpa using h)
  | case3 child children ih => exact ih (by simpa using h)
  | case4 child children listed incoming hp ih => exact ih (by simpa using h)
  | case5 child children listed incoming hp ih =>
    rcases List.mem_cons.mp h with heq | h
    · cases heq
      exact hp
    · exact ih h
  | case6 child children listed incoming hp ih => exact ih (by simpa using h)

end Fate

namespace Arena
variable {arena : Arena} {parent child id : NodeId} {node : Node} {recursive : Bool}
variable {done : List NodeId} {fates : List Fate}

def handle? (arena : Arena) (id : NodeId) : Option Handle := (arena.get? id).map Node.handle

def setHandle (arena : Arena) (id : NodeId) (handle : Handle) : Arena :=
  arena.modify id (fun node => { node with handle := handle })

def carryOut (parent : NodeId) (recursive : Bool) (arena : Arena) : List Fate → Merged
  | [] => .done arena
  | .added listed :: fates =>
    (carryOut parent recursive (arena.insert listed (some parent)).1 fates).inserting arena.nextId
  | .kept child listed :: fates =>
    (carryOut parent recursive (arena.setHandle child listed) fates).retaining child
      (recursive && arena.isExpanded child)
  | .dropped child :: fates => (carryOut parent recursive (arena.detach child).1 fates).removing

theorem orderToChild_eq (arena : Arena) (listed : Handle) (child : NodeId) :
    arena.orderToChild listed child = Fate.placement listed (arena.handle? child) := by
  cases h : arena.get? child <;> simp [orderToChild, handle?, Fate.placement, h]

theorem childrenOf_setHandle (arena : Arena) (id : NodeId) (handle : Handle) (other : NodeId) :
    (arena.setHandle id handle).childrenOf other = arena.childrenOf other :=
  childrenOf_modify (fun _ => by rfl) other

theorem LinkedBy.setHandle {children : List NodeId}
    (h : arena.LinkedBy (arena.listsWith parent children)) (id : NodeId) (handle : Handle) :
    (arena.setHandle id handle).LinkedBy
      ((arena.setHandle id handle).listsWith parent children) := by
  refine h.congr (map_get?_modify fun _ => by rfl) fun other => ?_
  simp only [listsWith, childrenOf_setHandle]

theorem Loose.setHandle {children : List NodeId} (h : arena.Loose parent children) (id : NodeId)
    (handle : Handle) : (arena.setHandle id handle).Loose parent children := by
  have hparents (other : NodeId) : ((arena.setHandle id handle).get? other).map Node.parent =
      (arena.get? other).map Node.parent := map_get?_modify (fun _ => by rfl) other
  exact h.of_lists (.refl _) (fun other => childrenOf_setHandle arena id handle other ▸ .refl _)
    fun _ hlive => live_of_map_get?_eq (hparents _) hlive

theorem mergeChildren_eq_carryOut (recursive : Bool) (children : List NodeId)
    (incoming : List Handle)
    (h : arena.Loose parent (done ++ children)) (hlive : arena.get? parent = some node) :
    mergeChildren parent recursive arena children incoming =
      carryOut parent recursive arena (Fate.align arena.handle? children incoming) := by
  -- After each change the children still to come have the handles they had.
  have hinsert {arena : Arena} {children : List NodeId} {done : List NodeId}
      (h : arena.Loose parent (done ++ children)) (listed : Handle) :
      ∀ child ∈ children,
        (arena.insert listed (some parent)).1.handle? child = arena.handle? child := by
    intro child hc
    obtain ⟨_, hchild, _⟩ := h.owned (List.mem_append_right done hc)
    rw [handle?, get?_insert_of_ne (ne_nextId hchild), handle?]
  have hdetach {arena : Arena} {child : NodeId} {children : List NodeId} {done : List NodeId}
      (h : arena.Loose parent (done ++ child :: children)) :
      ∀ other ∈ children, (arena.detach child).1.handle? other = arena.handle? other := by
    intro other ho
    have hmem : other ∈ done ++ child :: children := by simp [ho]
    have hne := h.ne_of_split (List.mem_append_right done ho)
    rw [handle?, h.get?_detach_sibling (by simp) (.inl ⟨hmem, hne⟩), handle?]
  fun_induction mergeChildren parent recursive arena children incoming generalizing done with
  | case1 => simp [Fate.align, carryOut]
  | case2 arena listed incoming arena' id hins ih =>
    obtain rfl : (arena.insert listed (some parent)).1 = arena' := congrArg Prod.fst hins
    obtain rfl : arena.nextId = id := congrArg Prod.snd hins
    have h' := h.insert hlive listed
    rw [Fate.align, carryOut, ← Fate.align_congr (hinsert h listed),
      @ih (done ++ [arena.nextId]) (by rwa [List.append_assoc]) (get?_insert_of_live hlive ..)]
  | case3 arena child children ih =>
    have hmem : child ∈ done ++ child :: children := by simp
    have hp := (h.get?_detach_sibling hmem (.inr rfl)).trans hlive
    rw [Fate.align, carryOut, ← Fate.align_congr (hdetach h), ih h.detach hp]
  | case4 arena child children listed incoming ho arena' id hins ih =>
    obtain rfl : (arena.insert listed (some parent)).1 = arena' := congrArg Prod.fst hins
    obtain rfl : arena.nextId = id := congrArg Prod.snd hins
    have h' := h.insert hlive listed
    rw [orderToChild_eq] at ho
    rw [Fate.align, ho]
    simp only [carryOut]
    rw [← Fate.align_congr (hinsert h listed),
      @ih (done ++ [arena.nextId]) (by rwa [List.append_assoc]) (get?_insert_of_live hlive ..)]
  | case5 arena child children listed incoming ho arena' =>
    rename_i ih
    have hmem : child ∈ done ++ child :: children := by simp
    have hsame : ∀ other ∈ children, arena'.handle? other = arena.handle? other := by
      intro other ho
      have hne := h.ne_of_split (List.mem_append_right done ho)
      rw [handle?, get?_modify_of_ne hne, handle?]
    have hp : arena'.get? parent = some node := by
      rw [get?_modify_of_ne (h.ne_parent hmem).symm, hlive]
    have h' := h.setHandle child listed
    rw [orderToChild_eq] at ho
    rw [Fate.align, ho]
    simp only [carryOut, setHandle]
    rw [← Fate.align_congr hsame,
      @ih (done ++ [child]) (by rw [List.append_assoc]; exact h') hp]
  | case6 arena child children listed incoming ho ih =>
    have hmem : child ∈ done ++ child :: children := by simp
    have hp := (h.get?_detach_sibling hmem (.inr rfl)).trans hlive
    rw [orderToChild_eq] at ho
    rw [Fate.align, ho]
    simp only [carryOut]
    rw [← Fate.align_congr (hdetach h), ih h.detach hp]

end Arena

end LazyTree
