import LazyTree.Proofs.Arena

/-!
What a detachment removes: the nodes that can be reached along child lists through live nodes, and
no other. This holds in every arena, also where child lists overlap or run in circles.
-/
namespace LazyTree.Arena
variable {arena other : Arena} {top id child : NodeId} {node childNode : Node}

/-- `id` can be reached from `top` along child lists through live nodes. -/
inductive Reaches (arena : Arena) (top : NodeId) : NodeId → Prop where
  | self {node : Node} (live : arena.get? top = some node) : Reaches arena top top
  | child {id child : NodeId} {node childNode : Node} (above : Reaches arena top id)
      (listing : arena.get? id = some node) (listed : child ∈ node.children)
      (live : arena.get? child = some childNode) : Reaches arena top child

theorem Reaches.live (h : arena.Reaches top id) : ∃ node, arena.get? id = some node := by
  cases h with
  | self live => exact ⟨_, live⟩
  | child _ _ _ live => exact ⟨_, live⟩

theorem Reaches.top_live (h : arena.Reaches top id) : ∃ node, arena.get? top = some node := by
  induction h with
  | self live => exact ⟨_, live⟩
  | child _ _ _ _ ih => exact ih

theorem Reaches.mono (hsub : ∀ {id node}, other.get? id = some node → arena.get? id = some node)
    (h : other.Reaches top id) : arena.Reaches top id := by
  induction h with
  | self live => exact .self (hsub live)
  | child _ listing listed live ih => exact .child ih (hsub listing) listed (hsub live)

theorem Reaches.of_child (hlist : arena.get? top = some node) (hmem : child ∈ node.children)
    (h : arena.Reaches child id) : arena.Reaches top id := by
  induction h with
  | self live => exact .child (.self hlist) hlist hmem live
  | child _ listing listed live ih => exact .child ih listing listed live

theorem Reaches.trans {mid : NodeId} (h : arena.Reaches mid id) (ht : arena.Reaches top mid) :
    arena.Reaches top id := by
  induction h with
  | self _ => exact ht
  | child _ listing listed live ih => exact .child ih listing listed live

theorem Reaches.of_listed (h : arena.Reaches top id) (hc : child ∈ arena.childrenOf id)
    (hlive : arena.get? child = some node) : arena.Reaches top child := by
  obtain ⟨_, hlisting, hmem⟩ := live_of_mem_childrenOf hc
  exact .child h hlisting hmem hlive

theorem Reaches.lister (h : arena.Reaches top id) :
    id = top ∨ ∃ above, arena.Reaches top above ∧ id ∈ arena.childrenOf above := by
  cases h with
  | self _ => exact .inl rfl
  | child above listing listed _ =>
    exact .inr ⟨_, above, by rwa [childrenOf_of_live listing]⟩

theorem Reaches.eq_of_childless (h : arena.Reaches top id) (htop : arena.childrenOf top = []) :
    id = top := by
  induction h with
  | self _ => rfl
  | child _ listing listed _ ih =>
    rw [← childrenOf_of_live listing, ih, htop] at listed
    exact absurd listed List.not_mem_nil

theorem get?_of_get?_erase (h : (arena.erase top).get? id = some node) :
    id ≠ top ∧ arena.get? id = some node := by
  rw [get?_erase] at h
  by_cases hid : id = top
  · simp [hid] at h
  · exact ⟨hid, by simpa [hid] using h⟩

theorem reaches_stack_cons {stack : List NodeId} (hlive : arena.get? top = some node) :
    (∃ start ∈ top :: stack, arena.Reaches start id) ↔
      id = top ∨ ∃ start ∈ node.children ++ stack, (arena.erase top).Reaches start id := by
  have hsub {id node} (h : (arena.erase top).get? id = some node) : arena.get? id = some node :=
    (get?_of_get?_erase h).2
  have hkeep {id node} (hid : id ≠ top) (h : arena.get? id = some node) :
      (arena.erase top).get? id = some node := by rw [get?_erase, if_neg hid, h]
  constructor
  · rintro ⟨start, hstart, h⟩
    induction h with
    | self live =>
      by_cases hs : start = top
      · exact .inl hs
      · have hmem : start ∈ stack := (List.mem_cons.mp hstart).resolve_left hs
        exact .inr ⟨start, List.mem_append_right _ hmem, .self (hkeep hs live)⟩
    | @child above child listing _ _ hlisting hlisted hchild ih =>
      by_cases hc : child = top
      · exact .inl hc
      · rcases ih with hab | ⟨start', hstart', h'⟩
        · subst hab
          obtain rfl : node = listing := Option.some.inj (hlive.symm.trans hlisting)
          exact .inr ⟨child, List.mem_append_left _ hlisted, .self (hkeep hc hchild)⟩
        · obtain ⟨_, hab⟩ := h'.live
          have habove : above ≠ top := (get?_of_get?_erase hab).1
          exact .inr ⟨start', hstart', .child h' (hkeep habove hlisting) hlisted (hkeep hc hchild)⟩
  · rintro (rfl | ⟨start, hstart, h⟩)
    · exact ⟨id, List.mem_cons_self, .self hlive⟩
    · rcases List.mem_append.mp hstart with hc | hs
      · exact ⟨top, List.mem_cons_self, .of_child hlive hc (h.mono hsub)⟩
      · exact ⟨start, List.mem_cons_of_mem _ hs, h.mono hsub⟩

theorem nextId_detachAll (arena : Arena) (stack : List NodeId) :
    (arena.detachAll stack).1.nextId = arena.nextId := by
  fun_induction detachAll arena stack with
  | case1 => rfl
  | case2 arena id stack hdead ih => exact ih
  | case3 arena id stack node hlive rest ih => exact ih.trans (nextId_erase arena id)

open Classical in
theorem get?_detachAll (arena : Arena) (stack : List NodeId) (id : NodeId) :
    (arena.detachAll stack).1.get? id =
      if ∃ start ∈ stack, arena.Reaches start id then none else arena.get? id := by
  fun_induction detachAll arena stack with
  | case1 => simp
  | case2 arena top stack hdead ih =>
    have hskip : ¬ arena.Reaches top id := fun h => by
      obtain ⟨_, hlive⟩ := h.top_live
      simp [hdead] at hlive
    rw [ih]
    simp [hskip]
  | case3 arena top stack node hlive rest ih =>
    simp only [reaches_stack_cons hlive, rest, ih, get?_erase]
    by_cases hid : id = top <;> simp [hid]

theorem get?_detach_of_reached (h : arena.Reaches top id) :
    (arena.detach top).1.get? id = none := by
  rw [detach, get?_detachAll, if_pos ⟨top, List.mem_singleton_self top, h⟩]

theorem get?_detach_of_not_reached (h : ¬ arena.Reaches top id) :
    (arena.detach top).1.get? id = arena.get? id := by
  rw [detach, get?_detachAll, if_neg]
  rintro ⟨start, hstart, hr⟩
  exact h (List.mem_singleton.mp hstart ▸ hr)

@[simp] theorem nextId_detach (arena : Arena) (top : NodeId) :
    (arena.detach top).1.nextId = arena.nextId := nextId_detachAll arena [top]

theorem get?_of_get?_detach (h : (arena.detach top).1.get? id = some node) :
    ¬ arena.Reaches top id ∧ arena.get? id = some node := by
  by_cases hr : arena.Reaches top id
  · simp [get?_detach_of_reached hr] at h
  · exact ⟨hr, get?_detach_of_not_reached hr ▸ h⟩

end LazyTree.Arena
