import LazyTree.Arena

/-!
What the slots of an arena hold after each of its changes. Later modules read an arena through
`get?` and `nextId` alone.
-/
namespace LazyTree.Arena
variable {arena arena' : Arena} {id other : NodeId} {node : Node}

theorem id_bounds (h : arena.get? id = some node) : 0 < id ∧ id < arena.nextId := by
  cases id with
  | zero => simp [get?] at h
  | succ i =>
    obtain ⟨hi, _⟩ := Array.getElem?_eq_some_iff.mp (Option.join_eq_some_iff.mp h)
    exact ⟨Nat.succ_pos i, Nat.succ_lt_succ hi⟩

theorem ne_nextId (h : arena.get? id = some node) : id ≠ arena.nextId :=
  Nat.ne_of_lt (id_bounds h).2

theorem get?_nextId (arena : Arena) : arena.get? arena.nextId = none := by
  cases h : arena.get? arena.nextId with
  | none => rfl
  | some node => exact absurd rfl (ne_nextId h)

theorem ext_get? (hnext : arena.nextId = arena'.nextId)
    (hget : ∀ id, arena.get? id = arena'.get? id) : arena = arena' := by
  obtain ⟨slots⟩ := arena
  obtain ⟨slots'⟩ := arena'
  have hsize : slots.size = slots'.size := Nat.succ.inj hnext
  refine congrArg Arena.mk (Array.ext hsize fun i hi hi' => ?_)
  have hslot := hget (i + 1)
  rwa [get?, get?, Array.getElem?_eq_getElem hi, Array.getElem?_eq_getElem hi'] at hslot

@[simp] theorem get?_empty (id : NodeId) : Arena.empty.get? id = none := by
  cases id <;> simp [empty, get?]

@[simp] theorem get?_clear (arena : Arena) (id : NodeId) : arena.clear.get? id = none := by
  cases id with
  | zero => rfl
  | succ i => cases h : arena.slots[i]? <;> simp [clear, get?, h]

@[simp] theorem nextId_clear (arena : Arena) : arena.clear.nextId = arena.nextId := by
  simp [clear, nextId]

@[simp] theorem nextId_put (arena : Arena) (id : NodeId) (slot : Option Node) :
    (arena.put id slot).nextId = arena.nextId := by
  cases id <;> simp [put, nextId]

theorem get?_put_of_ne (h : other ≠ id) (slot : Option Node) :
    (arena.put id slot).get? other = arena.get? other := by
  cases id with
  | zero => rfl
  | succ i =>
    cases other with
    | zero => rfl
    | succ j =>
      have hij : i ≠ j := fun he => h (congrArg Nat.succ he.symm)
      simp [put, get?, hij]

theorem get?_put_self (h : arena.get? id = some node) (slot : Option Node) :
    (arena.put id slot).get? id = slot := by
  cases id with
  | zero => simp [get?] at h
  | succ i =>
    have hi : i < arena.slots.size := Nat.lt_of_succ_lt_succ (id_bounds h).2
    simp [put, get?, hi]

@[simp] theorem nextId_modify (arena : Arena) (id : NodeId) (f : Node → Node) :
    (arena.modify id f).nextId = arena.nextId := by
  cases h : arena.get? id <;> simp [modify, h]

theorem put_eq_modify (h : arena.get? id = some node) (f : Node → Node) :
    arena.put id (some (f node)) = arena.modify id f := by simp [modify, h]

theorem get?_modify (arena : Arena) (id other : NodeId) (f : Node → Node) :
    (arena.modify id f).get? other =
      if other = id then (arena.get? other).map f else arena.get? other := by
  cases h : arena.get? id with
  | none =>
    by_cases ho : other = id
    · subst ho; simp [modify, h]
    · simp [modify, h, ho]
  | some node =>
    by_cases ho : other = id
    · subst ho; simp [modify, h, get?_put_self h]
    · simp [modify, h, ho, get?_put_of_ne ho]

@[simp] theorem get?_modify_self (arena : Arena) (id : NodeId) (f : Node → Node) :
    (arena.modify id f).get? id = (arena.get? id).map f := by
  simp [get?_modify]

theorem get?_modify_of_ne (h : other ≠ id) (f : Node → Node) :
    (arena.modify id f).get? other = arena.get? other := by
  simp [get?_modify, h]

theorem modify_of_dead (h : arena.get? id = none) (f : Node → Node) :
    arena.modify id f = arena := by
  simp [modify, h]

theorem modify_modify (arena : Arena) (id : NodeId) (f g : Node → Node) :
    (arena.modify id f).modify id g = arena.modify id fun node => g (f node) := by
  refine ext_get? (by simp) fun other => ?_
  simp only [get?_modify]
  split
  · rw [Option.map_map]
    rfl
  · rfl

theorem modify_comm {f g : Node → Node} (hcomm : ∀ node, f (g node) = g (f node)) (arena : Arena)
    (id other : NodeId) :
    (arena.modify id f).modify other g = (arena.modify other g).modify id f := by
  refine ext_get? (by simp) fun i => ?_
  simp only [get?_modify]
  split
  · split
    · rw [Option.map_map, Option.map_map]
      exact congrArg (Option.map · _) (funext fun node => (hcomm node).symm)
    · rfl
  · rfl

theorem modify_eq_self (h : arena.get? id = some node) {f : Node → Node} (hf : f node = node) :
    arena.modify id f = arena := by
  refine ext_get? (nextId_modify ..) fun other => ?_
  rw [get?_modify]
  split
  · rename_i hother
    rw [hother, h, Option.map_some, hf]
  · rfl

theorem get?_modify_cases {f : Node → Node} {now : Node} {other : NodeId}
    (h : (arena.modify id f).get? other = some now) :
    other ≠ id ∧ arena.get? other = some now ∨
      other = id ∧ ∃ node, arena.get? id = some node ∧ now = f node := by
  by_cases hother : other = id
  · subst hother
    rw [get?_modify_self] at h
    obtain ⟨node, hnode, rfl⟩ := Option.map_eq_some_iff.mp h
    exact .inr ⟨rfl, node, hnode, rfl⟩
  · rw [get?_modify_of_ne hother] at h
    exact .inl ⟨hother, h⟩

theorem map_get?_modify {β : Type} {f : Node → Node} {view : Node → β}
    (hf : ∀ node, view (f node) = view node) (other : NodeId) :
    ((arena.modify id f).get? other).map view = (arena.get? other).map view := by
  by_cases ho : other = id
  · subst ho
    cases h : arena.get? other <;> simp [h, hf]
  · rw [get?_modify_of_ne ho]

theorem live_of_map_get?_eq {β : Type} {view : Node → β}
    (h : (arena'.get? id).map view = (arena.get? id).map view) (hlive : arena.get? id = some node) :
    ∃ node', arena'.get? id = some node' ∧ view node' = view node := by
  rw [hlive, Option.map_some] at h
  exact Option.map_eq_some_iff.mp h

theorem dead_of_map_get?_eq {β : Type} {view : Node → β}
    (h : (arena'.get? id).map view = (arena.get? id).map view) (hdead : arena.get? id = none) :
    arena'.get? id = none := by
  rw [hdead, Option.map_none] at h
  exact Option.map_eq_none_iff.mp h

theorem contains_congr {β : Type} {view : Node → β}
    (h : (arena'.get? id).map view = (arena.get? id).map view) :
    arena'.contains id = arena.contains id := by
  simpa [contains] using congrArg Option.isSome h

@[simp] theorem nextId_erase (arena : Arena) (id : NodeId) :
    (arena.erase id).nextId = arena.nextId := nextId_put arena id none

theorem get?_erase (arena : Arena) (id other : NodeId) :
    (arena.erase id).get? other = if other = id then none else arena.get? other := by
  by_cases ho : other = id
  · subst ho
    cases h : arena.get? other with
    | some node => simpa [erase] using get?_put_self h none
    | none =>
      cases other with
      | zero => rfl
      | succ i =>
        by_cases hi : i < arena.slots.size <;> simp [erase, put, get?, hi]
  · simp [erase, ho, get?_put_of_ne ho]

theorem erase_modify (arena : Arena) (id other : NodeId) (f : Node → Node) :
    (arena.modify id f).erase other = (arena.erase other).modify id f := by
  refine ext_get? (by simp) fun i => ?_
  simp only [get?_modify, get?_erase]
  by_cases hother : i = other
  · simp [hother]
  · simp [hother]

@[simp] theorem nextId_insert (arena : Arena) (handle : Handle) (parent : Option NodeId) :
    (arena.insert handle parent).1.nextId = arena.nextId + 1 := by
  simp [insert, nextId]

@[simp] theorem insert_id (arena : Arena) (handle : Handle) (parent : Option NodeId) :
    (arena.insert handle parent).2 = arena.nextId := rfl

theorem get?_insert_of_ne (h : other ≠ arena.nextId) (handle : Handle) (parent : Option NodeId) :
    (arena.insert handle parent).1.get? other = arena.get? other := by
  cases other with
  | zero => rfl
  | succ j =>
    have hj : j ≠ arena.slots.size := fun he => h (congrArg Nat.succ he)
    simp [insert, get?, Array.getElem?_push, hj]

@[simp] theorem get?_insert_self (arena : Arena) (handle : Handle) (parent : Option NodeId) :
    (arena.insert handle parent).1.get? arena.nextId = some (Node.fresh handle parent) := by
  simp [insert, get?, nextId]

theorem get?_insert_of_live (h : arena.get? id = some node) (handle : Handle)
    (parent : Option NodeId) : (arena.insert handle parent).1.get? id = some node := by
  rw [get?_insert_of_ne (ne_nextId h), h]

theorem insert_modify (h : id < arena.nextId) (f : Node → Node) (handle : Handle)
    (parent : Option NodeId) :
    ((arena.modify id f).insert handle parent).1 = (arena.insert handle parent).1.modify id f := by
  refine ext_get? (by simp) fun i => ?_
  by_cases hnew : i = arena.nextId
  · have hself := get?_insert_self (arena.modify id f) handle parent
    rw [nextId_modify] at hself
    rw [hnew, hself, get?_modify_of_ne (Nat.ne_of_gt h), get?_insert_self]
  · rw [get?_insert_of_ne (by rwa [nextId_modify]), get?_modify, get?_modify,
      get?_insert_of_ne hnew]

theorem size_put (h : arena.get? id = some node) (slot : Option Node) :
    (arena.put id slot).size + 1 = arena.size + if slot.isSome then 1 else 0 := by
  cases id with
  | zero => simp [get?] at h
  | succ i =>
    obtain ⟨hi, hslot⟩ := Array.getElem?_eq_some_iff.mp (Option.join_eq_some_iff.mp h)
    have hpos : 0 < arena.slots.countP Option.isSome :=
      Array.countP_pos_iff.mpr ⟨some node, hslot ▸ Array.getElem_mem hi, rfl⟩
    simp only [put, size, Array.setIfInBounds, dif_pos hi, Array.countP_set hi, hslot,
      Option.isSome_some, if_true]
    omega

theorem size_erase (h : arena.get? id = some node) : (arena.erase id).size + 1 = arena.size :=
  size_put h none

theorem erase_of_dead (h : arena.get? id = none) : arena.erase id = arena := by
  refine ext_get? (nextId_erase ..) fun other => ?_
  rw [get?_erase]
  split
  · rename_i hother
    rw [hother, h]
  · rfl

theorem size_le_erase (arena : Arena) (id : NodeId) : arena.size ≤ (arena.erase id).size + 1 := by
  cases hlive : arena.get? id with
  | none =>
    rw [erase_of_dead hlive]
    exact Nat.le_succ _
  | some node => exact Nat.le_of_eq (size_erase hlive).symm

theorem size_modify (arena : Arena) (id : NodeId) (f : Node → Node) :
    (arena.modify id f).size = arena.size := by
  cases hlive : arena.get? id with
  | none => rw [modify_of_dead hlive]
  | some node =>
    rw [← put_eq_modify hlive]
    exact Nat.succ.inj (size_put hlive (some (f node)))

theorem isEmpty_iff :
    arena.isEmpty = true ↔ ∀ id, arena.get? id = none := by
  simp only [isEmpty, size, decide_eq_true_eq, Array.countP_eq_zero]
  constructor
  · intro h id
    cases hlive : arena.get? id with
    | none => rfl
    | some node =>
      cases id with
      | zero => simp [get?] at hlive
      | succ i =>
        obtain ⟨hi, hslot⟩ := Array.getElem?_eq_some_iff.mp (Option.join_eq_some_iff.mp hlive)
        exact absurd rfl (h _ (hslot ▸ Array.getElem_mem hi))
  · intro h slot hslot hsome
    obtain ⟨node, rfl⟩ := Option.isSome_iff_exists.mp hsome
    obtain ⟨i, hi⟩ := Array.getElem?_of_mem hslot
    have hlive : arena.get? (i + 1) = some node := by simp [get?, hi]
    simp [h] at hlive

theorem contains_iff : arena.contains id = true ↔ ∃ node, arena.get? id = some node := by
  rw [contains, Option.isSome_iff_exists]

theorem childrenOf_of_dead (h : arena.get? id = none) : arena.childrenOf id = [] := by
  simp [childrenOf, h]

theorem childrenOf_congr (h : arena'.get? id = arena.get? id) :
    arena'.childrenOf id = arena.childrenOf id := by simp [childrenOf, h]

theorem childrenOf_eq_getD (arena : Arena) (id : NodeId) :
    arena.childrenOf id = ((arena.get? id).map Node.children).getD [] := by
  cases h : arena.get? id <;> simp [childrenOf, h]

theorem childrenOf_modify {f : Node → Node} (hf : ∀ node, (f node).children = node.children)
    (other : NodeId) : (arena.modify id f).childrenOf other = arena.childrenOf other := by
  rw [childrenOf_eq_getD, map_get?_modify hf, ← childrenOf_eq_getD]

theorem live_of_mem_childrenOf {child : NodeId} (h : child ∈ arena.childrenOf id) :
    ∃ node, arena.get? id = some node ∧ child ∈ node.children := by
  cases hn : arena.get? id with
  | none => simp [childrenOf, hn] at h
  | some node => exact ⟨node, rfl, by simpa [childrenOf, hn] using h⟩

theorem childrenOf_insert (arena : Arena) (handle : Handle) (parent : Option NodeId) (id : NodeId) :
    (arena.insert handle parent).1.childrenOf id = arena.childrenOf id := by
  by_cases hid : id = arena.nextId
  · subst hid
    simp [childrenOf, get?_nextId, Node.fresh]
  · exact childrenOf_congr (get?_insert_of_ne hid handle parent)

theorem childrenOf_of_live (h : arena.get? id = some node) :
    arena.childrenOf id = node.children := by
  simp [childrenOf, h]

theorem isExpanded_congr
    (h : (arena'.get? id).map Node.expanded = (arena.get? id).map Node.expanded) :
    arena'.isExpanded id = arena.isExpanded id := by
  cases h₁ : arena'.get? id <;> cases h₂ : arena.get? id <;> simp_all [isExpanded]

theorem isExpanded_of_live (h : arena.get? id = some node) :
    arena.isExpanded id = node.expanded := by
  simp [isExpanded, h]

theorem live_of_isExpanded (h : arena.isExpanded id = true) :
    ∃ node, arena.get? id = some node ∧ node.expanded = true := by
  cases hlive : arena.get? id with
  | none => simp [isExpanded, hlive] at h
  | some node => exact ⟨node, rfl, (isExpanded_of_live hlive).symm.trans h⟩

end LazyTree.Arena
