import LazyTree.Proofs.Forest

/-!
Forests in which every node with a parent is listed by it, and ids grow downwards, as they do in
the arena of a tree. The changes that a merge makes keep this. While a merge runs, the child list of
its node is kept apart, so the lists are a parameter here.
-/
namespace LazyTree.Arena
variable {arena other : Arena} {lists lists' : NodeId → List NodeId}
variable {top id child parent : NodeId} {node : Node} {children before after : List NodeId}

/-- Each listed child is live, larger than the node that lists it, and points back to that node. -/
structure LinkedBy (arena : Arena) (lists : NodeId → List NodeId) : Prop where
  lower : ∀ {id child}, child ∈ lists id → id < child
  owned : ∀ {id child}, child ∈ lists id →
    ∃ node, arena.get? child = some node ∧ node.parent = some id
  once : ∀ id, (lists id).Nodup
  listed : ∀ {id child node}, arena.get? child = some node → node.parent = some id →
    child ∈ lists id
  live : ∀ {id child}, child ∈ lists id → ∃ node, arena.get? id = some node

/-- The child lists of an arena, but for one node whose list is given. -/
def listsWith (arena : Arena) (parent : NodeId) (children : List NodeId) (id : NodeId) :
    List NodeId :=
  if id = parent then children else arena.childrenOf id

def Linked (arena : Arena) : Prop := arena.LinkedBy arena.childrenOf

/-- `id` is `top` or lies below it, by the parent pointers. -/
inductive Under (arena : Arena) (top : NodeId) : NodeId → Prop where
  | self {node : Node} (live : arena.get? top = some node) : Under arena top top
  | step {id parent : NodeId} {node : Node} (live : arena.get? id = some node)
      (up : node.parent = some parent) (above : Under arena top parent) : Under arena top id

theorem Under.live (h : arena.Under top id) : ∃ node, arena.get? id = some node := by
  cases h with
  | self live => exact ⟨_, live⟩
  | step live _ _ => exact ⟨_, live⟩

theorem Under.top_live (h : arena.Under top id) : ∃ node, arena.get? top = some node := by
  induction h with
  | self live => exact ⟨_, live⟩
  | step _ _ _ ih => exact ih

theorem Under.mono (hsub : ∀ {id node}, other.get? id = some node →
      ∃ node', arena.get? id = some node' ∧ node'.parent = node.parent)
    (h : other.Under top id) : arena.Under top id := by
  induction h with
  | self live =>
    obtain ⟨_, live', _⟩ := hsub live
    exact .self live'
  | step live up _ ih =>
    obtain ⟨_, live', hparent⟩ := hsub live
    exact .step live' (hparent.trans up) ih

theorem Under.congr (h : other.Under top id)
    (hsame : ∀ id, (other.get? id).map Node.parent = (arena.get? id).map Node.parent) :
    arena.Under top id :=
  h.mono fun hlive => live_of_map_get?_eq (hsame _).symm hlive

theorem Under.trans {mid : NodeId} (h : arena.Under mid id) (ht : arena.Under top mid) :
    arena.Under top id := by
  induction h with
  | self _ => exact ht
  | step live up _ ih => exact .step live up ih

theorem Under.up (h : arena.Under top id) (hne : id ≠ top) (hlive : arena.get? id = some node) :
    ∃ parent, node.parent = some parent ∧ arena.Under top parent := by
  cases h with
  | self _ => exact absurd rfl hne
  | @step _ parent node' live up above =>
    obtain rfl : node' = node := Option.some.inj (live.symm.trans hlive)
    exact ⟨parent, up, above⟩

namespace LinkedBy

theorem parent_lt (h : arena.LinkedBy lists) (hlive : arena.get? child = some node)
    (hp : node.parent = some id) : id < child := h.lower (h.listed hlive hp)

theorem parent_live (h : arena.LinkedBy lists) (hlive : arena.get? child = some node)
    (hp : node.parent = some id) : ∃ node, arena.get? id = some node := h.live (h.listed hlive hp)

theorem le_of_under (h : arena.LinkedBy lists) (hu : arena.Under top id) : top ≤ id := by
  induction hu with
  | self _ => exact Nat.le_refl top
  | step live up _ ih => exact Nat.le_of_lt (Nat.lt_of_le_of_lt ih (h.parent_lt live up))

theorem under_antisymm (h : arena.LinkedBy lists) (hu : arena.Under top id)
    (hu' : arena.Under id top) : top = id := Nat.le_antisymm (h.le_of_under hu) (h.le_of_under hu')

theorem under_of_listed (h : arena.LinkedBy lists) (hc : child ∈ lists id)
    (hu : arena.Under top id) : arena.Under top child := by
  obtain ⟨node, hlive, hp⟩ := h.owned hc
  exact .step hlive hp hu

theorem same_lister (h : arena.LinkedBy lists) (hc : child ∈ lists id)
    (hc' : child ∈ lists parent) : id = parent := by
  obtain ⟨node, hlive, hp⟩ := h.owned hc
  obtain ⟨node', hlive', hp'⟩ := h.owned hc'
  obtain rfl : node = node' := Option.some.inj (hlive.symm.trans hlive')
  exact Option.some.inj (hp.symm.trans hp')

theorem under_listed_iff (h : arena.LinkedBy lists) (hc : child ∈ lists id) :
    arena.Under top child ↔ child = top ∨ arena.Under top id := by
  obtain ⟨node, hlive, hp⟩ := h.owned hc
  constructor
  · intro hu
    by_cases hne : child = top
    · exact .inl hne
    · obtain ⟨parent, hp', hup⟩ := hu.up hne hlive
      obtain rfl : id = parent := Option.some.inj (hp.symm.trans hp')
      exact .inr hup
  · rintro (rfl | hu)
    · exact .self hlive
    · exact .step hlive hp hu

theorem reaches_iff_under (h : arena.LinkedBy lists)
    (hown : ∀ id, top ≤ id → arena.childrenOf id = lists id) :
    arena.Reaches top id ↔ arena.Under top id := by
  constructor
  · intro hr
    induction hr with
    | self live => exact .self live
    | child _ listing hmem _ ih =>
      refine h.under_of_listed ?_ ih
      rw [← hown _ (h.le_of_under ih), childrenOf_of_live listing]
      exact hmem
  · intro hu
    induction hu with
    | self live => exact .self live
    | @step id parent node live up above ih =>
      obtain ⟨parentNode, hparent⟩ := above.live
      refine .child ih hparent ?_ live
      rw [← childrenOf_of_live hparent, hown _ (h.le_of_under above)]
      exact h.listed live up

theorem congr (h : arena.LinkedBy lists)
    (hsame : ∀ id, (other.get? id).map Node.parent = (arena.get? id).map Node.parent)
    (hlists : ∀ id, lists' id = lists id) : other.LinkedBy lists' := by
  obtain rfl : lists' = lists := funext hlists
  constructor
  · exact h.lower
  · intro id child hc
    obtain ⟨node, hlive, hp⟩ := h.owned hc
    obtain ⟨node', hlive', hp'⟩ := live_of_map_get?_eq (hsame child) hlive
    exact ⟨node', hlive', hp'.trans hp⟩
  · exact h.once
  · intro id child node hlive hp
    obtain ⟨node', hlive', hp'⟩ := live_of_map_get?_eq (hsame child).symm hlive
    exact h.listed hlive' (hp'.trans hp)
  · intro id child hc
    obtain ⟨node, hlive⟩ := h.live hc
    obtain ⟨node', hlive', _⟩ := live_of_map_get?_eq (hsame id) hlive
    exact ⟨node', hlive'⟩

theorem insert (before after : List NodeId)
    (h : arena.LinkedBy (arena.listsWith parent (before ++ after)))
    (hp : arena.get? parent = some node) (handle : Handle) :
    (arena.insert handle (some parent)).1.LinkedBy
      ((arena.insert handle (some parent)).1.listsWith parent
        (before ++ arena.nextId :: after)) := by
  have hlists {id child} (hc : child ∈ (arena.insert handle (some parent)).1.listsWith parent
      (before ++ arena.nextId :: after) id) :
      (id = parent ∧ child = arena.nextId) ∨
        child ∈ arena.listsWith parent (before ++ after) id := by
    by_cases hid : id = parent
    · simp only [listsWith, hid, if_true, List.mem_append, List.mem_cons] at hc ⊢
      tauto
    · exact .inr (by simpa [listsWith, hid, childrenOf_insert] using hc)
  have hback {id child} (hc : child ∈ arena.listsWith parent (before ++ after) id) :
      child ∈ (arena.insert handle (some parent)).1.listsWith parent
        (before ++ arena.nextId :: after) id := by
    by_cases hid : id = parent
    · simp only [listsWith, hid, if_true, List.mem_append, List.mem_cons] at hc ⊢
      tauto
    · simpa [listsWith, hid, childrenOf_insert] using hc
  constructor
  · intro id child hc
    rcases hlists hc with ⟨rfl, rfl⟩ | hold
    · exact (id_bounds hp).2
    · exact h.lower hold
  · intro id child hc
    rcases hlists hc with ⟨rfl, rfl⟩ | hold
    · exact ⟨_, get?_insert_self arena handle _, rfl⟩
    · obtain ⟨childNode, hlive, hpar⟩ := h.owned hold
      exact ⟨childNode, get?_insert_of_live hlive handle _, hpar⟩
  · intro id
    have hold := h.once id
    by_cases hid : id = parent
    · simp only [listsWith, hid, if_true] at hold ⊢
      refine List.nodup_middle.mpr (List.nodup_cons.mpr ⟨fun hmem => ?_, hold⟩)
      have hmem : arena.nextId ∈ arena.listsWith parent (before ++ after) parent := by
        simpa [listsWith] using hmem
      obtain ⟨_, hlive, _⟩ := h.owned hmem
      exact ne_nextId hlive rfl
    · simpa [listsWith, hid, childrenOf_insert] using hold
  · intro id child childNode hlive hpar
    by_cases hc : child = arena.nextId
    · subst hc
      rw [get?_insert_self] at hlive
      obtain rfl := Option.some.inj hlive
      obtain rfl : parent = id := Option.some.inj hpar
      simp [listsWith]
    · rw [get?_insert_of_ne hc] at hlive
      exact hback (h.listed hlive hpar)
  · intro id child hc
    rcases hlists hc with ⟨rfl, _⟩ | hold
    · exact ⟨node, get?_insert_of_live hp handle _⟩
    · obtain ⟨listing, hlive⟩ := h.live hold
      exact ⟨listing, get?_insert_of_live hlive handle _⟩

theorem reaches_iff_under_child (h : arena.LinkedBy (arena.listsWith parent children))
    (hc : child ∈ children) : arena.Reaches child id ↔ arena.Under child id := by
  have hlt : parent < child := h.lower (by simpa [listsWith] using hc)
  refine h.reaches_iff_under fun id hle => ?_
  have hne : id ≠ parent := Nat.ne_of_gt (Nat.lt_of_lt_of_le hlt hle)
  simp [listsWith, hne]

theorem parent_not_under_child (h : arena.LinkedBy (arena.listsWith parent children))
    (hc : child ∈ children) : ¬ arena.Under child parent := fun hu =>
  Nat.not_lt.mpr (h.le_of_under hu) (h.lower (by simpa [listsWith] using hc))

theorem detach (h : arena.LinkedBy (arena.listsWith parent (before ++ child :: after))) :
    (arena.detach child).1.LinkedBy
      ((arena.detach child).1.listsWith parent (before ++ after)) := by
  have hmem : child ∈ before ++ child :: after := by simp
  have hlisted : child ∈ arena.listsWith parent (before ++ child :: after) parent := by
    simp [listsWith]
  have hreach {id} : arena.Reaches child id ↔ arena.Under child id := h.reaches_iff_under_child hmem
  have hparent := h.parent_not_under_child hmem
  have honce : (before ++ child :: after).Nodup := by simpa [listsWith] using h.once parent
  -- The lists after the change are those before it without what the child took along.
  have hlists {id other} : other ∈ (arena.detach child).1.listsWith parent (before ++ after) id ↔
      ¬ arena.Under child other ∧ other ∈ arena.listsWith parent (before ++ child :: after) id := by
    by_cases hid : id = parent
    · subst hid
      have hcut : other ∈ before ++ after ↔ other ≠ child ∧ other ∈ before ++ child :: after := by
        have hnot := (List.nodup_cons.mp (List.nodup_middle.mp honce)).1
        constructor
        · intro ho
          refine ⟨fun he => hnot (he ▸ ho), ?_⟩
          simp only [List.mem_append, List.mem_cons] at ho ⊢
          tauto
        · rintro ⟨hne, ho⟩
          simp only [List.mem_append, List.mem_cons] at ho ⊢
          tauto
      simp only [listsWith, if_true, hcut]
      refine and_congr_left fun ho => ?_
      have ho : other ∈ arena.listsWith id (before ++ child :: after) id := by
        simpa [listsWith] using ho
      rw [h.under_listed_iff ho]
      simp [hparent]
    · simp only [listsWith, if_neg hid]
      by_cases hu : arena.Under child id
      · rw [childrenOf_of_dead (get?_detach_of_reached (hreach.mpr hu))]
        refine ⟨fun ho => absurd ho List.not_mem_nil, fun ⟨hno, ho⟩ => absurd ?_ hno⟩
        exact h.under_of_listed (by simpa [listsWith, hid] using ho) hu
      · rw [childrenOf_congr (get?_detach_of_not_reached (mt hreach.mp hu))]
        refine (and_iff_right_of_imp fun ho => ?_).symm
        have ho : other ∈ arena.listsWith parent (before ++ child :: after) id := by
          simpa [listsWith, hid] using ho
        rw [h.under_listed_iff ho]
        rintro (rfl | hu')
        · exact hid (h.same_lister ho hlisted)
        · exact hu hu'
  have hkeep {id node} (hu : ¬ arena.Under child id) (hlive : arena.get? id = some node) :
      (arena.detach child).1.get? id = some node :=
    (get?_detach_of_not_reached (mt hreach.mp hu)).trans hlive
  constructor
  · intro id other ho
    exact h.lower (hlists.mp ho).2
  · intro id other ho
    obtain ⟨hu, hold⟩ := hlists.mp ho
    obtain ⟨node, hlive, hp⟩ := h.owned hold
    exact ⟨node, hkeep hu hlive, hp⟩
  · intro id
    by_cases hid : id = parent
    · simpa [listsWith, hid] using (List.nodup_cons.mp (List.nodup_middle.mp honce)).2
    · simp only [listsWith, if_neg hid]
      by_cases hu : arena.Under child id
      · rw [childrenOf_of_dead (get?_detach_of_reached (hreach.mpr hu))]
        exact List.nodup_nil
      · rw [childrenOf_congr (get?_detach_of_not_reached (mt hreach.mp hu))]
        simpa [listsWith, hid] using h.once id
  · intro id other node hlive hp
    obtain ⟨hr, hlive⟩ := get?_of_get?_detach hlive
    exact hlists.mpr ⟨mt hreach.mpr hr, h.listed hlive hp⟩
  · intro id other ho
    obtain ⟨hu, hold⟩ := hlists.mp ho
    obtain ⟨node, hlive⟩ := h.live hold
    exact ⟨node, hkeep (fun hid => hu (h.under_of_listed hold hid)) hlive⟩

end LinkedBy

theorem Linked.forest (h : arena.Linked) : arena.Forest where
  owned := h.owned
  once := h.once
  no_cycle hc hr :=
    Nat.not_lt.mpr (h.le_of_under ((h.reaches_iff_under fun _ _ => rfl).mp hr)) (h.lower hc)

theorem Linked.child_live (h : arena.Linked) (hlive : arena.get? id = some node)
    (hc : child ∈ node.children) :
    ∃ childNode, arena.get? child = some childNode ∧ childNode.parent = some id :=
  h.owned (by rwa [childrenOf_of_live hlive])

end LazyTree.Arena
