import LazyTree.Proofs.Alignment

/-!
What a merge leaves behind. In a forest it always succeeds: the node's children afterwards stand for
the listed directories in their order, a child that stays is changed in its handle alone, a new one
is collapsed and empty, and any other node either keeps its slot or lay below a dropped child and is
gone. A linked arena stays linked.
-/
namespace LazyTree

/-- A node as a merge leaves it when its children are then `children`. -/
def Node.relisted (node : Node) (children : List NodeId) (keepOpen : Bool) : Node :=
  { node with
    children := children
    expandable := !children.isEmpty
    expanded := node.expanded && (!children.isEmpty || keepOpen) }

/-- The arena once the merged children have become the children of `parent`. -/
def Merged.rejoined (merged : Merged) (parent : NodeId) (keepOpen : Bool) : Arena :=
  merged.arena.modify parent fun node => node.relisted merged.children keepOpen

namespace Arena
variable {before after : Arena} {parent id child : NodeId} {node : Node} {listed : Handle}
variable {recursive keepOpen : Bool} {done : List NodeId} {fates : List Fate} {merged : Merged}

/-- A child of `parent` after a merge that carried out `fates`, and the listed directory it stands
for. -/
inductive Placed (before after : Arena) (parent : NodeId) (fates : List Fate) (id : NodeId)
    (listed : Handle) : Prop where
  | added (fresh : before.nextId ≤ id)
      (live : after.get? id = some (Node.fresh listed (some parent)))
  | kept {node : Node} (fated : .kept id listed ∈ fates) (was : before.get? id = some node)
      (live : after.get? id = some { node with handle := listed })

theorem Placed.of_earlier {earlier : Arena} {all : List Fate}
    (h : Placed before after parent fates id listed)
    (hsub : ∀ fate ∈ fates, fate ∈ all) (hgrow : earlier.nextId ≤ before.nextId)
    (hback : ∀ node, before.get? id = some node → earlier.get? id = some node) :
    Placed earlier after parent all id listed := by
  cases h with
  | added fresh live => exact .added (Nat.le_trans hgrow fresh) live
  | kept fated was live => exact .kept (hsub _ fated) (hback _ was) live

theorem map_handle?_of_placed {children : List NodeId} {incoming : List Handle}
    (h : List.Forall₂ (Placed before after parent fates) children incoming) :
    children.map after.handle? = incoming.map some := by
  induction h with
  | nil => rfl
  | @cons child listed rest incoming hchild _ ih =>
    have hlive : after.handle? child = some listed := by
      cases hchild with
      | added _ live => simp [handle?, live, Node.fresh]
      | kept _ _ live => simp [handle?, live]
    rw [List.map_cons, List.map_cons, hlive, ih]

/-- What is known of the outcome of `fates`, when `done` are the children placed already. -/
structure Carried (before : Arena) (parent : NodeId) (recursive : Bool) (done : List NodeId)
    (fates : List Fate) (merged : Merged) : Prop where
  loose : merged.arena.Loose parent (done ++ merged.children)
  same_parent : merged.arena.get? parent = before.get? parent
  placed : List.Forall₂ (Placed before merged.arena parent fates) merged.children
    (fates.filterMap Fate.listed?)
  frame : ∀ id, id ∉ merged.children → merged.arena.get? id = before.get? id ∨
    (merged.arena.get? id = none ∧ ∃ child, .dropped child ∈ fates ∧ before.Reaches child id)
  gone : ∀ child id, .dropped child ∈ fates → before.Reaches child id →
    merged.arena.get? id = none
  grows : before.nextId ≤ merged.arena.nextId
  cascade : merged.outcome.cascade =
    merged.children.filter (fun id => recursive && before.isExpanded id)

theorem Carried.get?_done (h : Carried before parent recursive done fates merged)
    (hid : id ∈ done) : merged.arena.get? id = before.get? id := by
  have hnot : id ∉ merged.children := fun hc =>
    List.disjoint_of_nodup_append h.loose.nodup hid hc
  obtain ⟨_, hlive, _⟩ := h.loose.owned (List.mem_append_left _ hid)
  rcases h.frame id hnot with hsame | ⟨hgone, _⟩
  · exact hsame
  · simp [hgone] at hlive

theorem Carried.nil (h : before.Loose parent done) :
    Carried before parent recursive done [] (.done before) where
  loose := by simpa [Merged.done] using h
  same_parent := rfl
  placed := .nil
  frame := fun _ _ => .inl rfl
  gone := by simp
  grows := Nat.le_refl _
  cascade := rfl

theorem exists_of_mem_forall₂ {α β : Type} {R : α → β → Prop} {as : List α} {bs : List β}
    (h : List.Forall₂ R as bs) {a : α} (ha : a ∈ as) : ∃ b ∈ bs, R a b := by
  induction h with
  | nil => simp at ha
  | cons hr _ ih =>
    rcases List.mem_cons.mp ha with rfl | ha
    · exact ⟨_, List.mem_cons_self, hr⟩
    · obtain ⟨b, hb, hr⟩ := ih ha
      exact ⟨b, List.mem_cons_of_mem _ hb, hr⟩

theorem Carried.placed_from {earlier : Arena}
    (h : Carried before parent recursive done fates merged) (fate : Fate)
    (hgrow : earlier.nextId ≤ before.nextId)
    (hback : ∀ id ∈ merged.children, ∀ node, before.get? id = some node →
      earlier.get? id = some node) :
    List.Forall₂ (Placed earlier merged.arena parent (fate :: fates)) merged.children
      (fates.filterMap Fate.listed?) :=
  ((List.forall₂_and_left _ _).mpr ⟨hback, h.placed⟩).imp fun _ _ hp =>
    hp.2.of_earlier (fun _ => List.mem_cons_of_mem fate) hgrow hp.1

theorem Carried.cascade_from {earlier : Arena}
    (h : Carried before parent recursive done fates merged)
    (hsame : ∀ id ∈ merged.children, before.isExpanded id = earlier.isExpanded id) :
    merged.outcome.cascade =
      merged.children.filter (fun id => recursive && earlier.isExpanded id) := by
  rw [h.cascade]
  exact List.filter_congr fun id hid => by rw [hsame id hid]

theorem Carried.get?_dead (h : Carried before parent recursive done fates merged)
    (hdead : before.get? id = none) (hid : id < before.nextId) : merged.arena.get? id = none := by
  by_cases hc : id ∈ merged.children
  · obtain ⟨_, _, hplaced⟩ := exists_of_mem_forall₂ h.placed hc
    cases hplaced with
    | added fresh _ => exact absurd hid (Nat.not_lt.mpr fresh)
    | kept _ was _ => exact absurd (hdead.symm.trans was) (Option.some_ne_none _).symm
  · rcases h.frame id hc with hsame | ⟨hgone, _⟩
    · exact hsame.trans hdead
    · exact hgone

theorem mem_of_dropped (h : .dropped child ∈ fates) (done : List NodeId) :
    child ∈ done ++ fates.filterMap Fate.child? :=
  List.mem_append_right done (List.mem_filterMap.mpr ⟨_, h, rfl⟩)

theorem Carried.added (h : before.Loose parent (done ++ fates.filterMap Fate.child?))
    (hp : before.get? parent = some node)
    (ih : Carried (before.insert listed (some parent)).1 parent recursive (done ++ [before.nextId])
      fates merged) :
    Carried before parent recursive done (.added listed :: fates)
      (merged.inserting before.nextId) := by
  have hnew : merged.arena.get? before.nextId = some (Node.fresh listed (some parent)) :=
    (ih.get?_done (by simp)).trans (get?_insert_self ..)
  have hloose : merged.arena.Loose parent (done ++ before.nextId :: merged.children) := by
    simpa using ih.loose
  have hslot {id : NodeId} (hne : id ≠ before.nextId) :
      (before.insert listed (some parent)).1.get? id = before.get? id :=
    get?_insert_of_ne hne ..
  have hold : ∀ id ∈ merged.children,
      (before.insert listed (some parent)).1.get? id = before.get? id := fun id hid =>
    hslot (hloose.ne_of_split (List.mem_append_right done hid))
  constructor
  case loose => exact hloose
  case same_parent => exact ih.same_parent.trans (hslot (ne_nextId hp))
  case placed =>
    refine .cons (.added (Nat.le_refl _) hnew)
      (ih.placed_from _ (by simp) fun id hid node hlive => ?_)
    rwa [← hold id hid]
  case frame =>
    intro id hid
    simp only [Merged.inserting, List.mem_cons, not_or] at hid
    rcases ih.frame id hid.2 with hsame | ⟨hgone, child, hc, hr⟩
    · exact .inl (hsame.trans (hslot hid.1))
    · exact .inr ⟨hgone, child, List.mem_cons_of_mem _ hc,
        (h.reaches_insert_iff (mem_of_dropped hc done) ..).mp hr⟩
  case gone =>
    intro child id hc hr
    have hc : .dropped child ∈ fates := by simpa using hc
    exact ih.gone child id hc ((h.reaches_insert_iff (mem_of_dropped hc done) ..).mpr hr)
  case grows =>
    have hgrows := ih.grows
    rw [nextId_insert] at hgrows
    exact Nat.le_of_succ_le hgrows
  case cascade =>
    have hfresh : before.isExpanded before.nextId = false := by simp [isExpanded, get?_nextId]
    have hrest := ih.cascade_from fun id hid => isExpanded_congr (congrArg _ (hold id hid))
    simp [Merged.inserting, hrest, hfresh]

theorem Carried.kept (h : before.Loose parent (done ++ child :: fates.filterMap Fate.child?))
    (ih : Carried (before.setHandle child listed) parent recursive (done ++ [child])
      fates merged) :
    Carried before parent recursive done (.kept child listed :: fates)
      (merged.retaining child (recursive && before.isExpanded child)) := by
  have hmem : child ∈ done ++ child :: fates.filterMap Fate.child? := by simp
  obtain ⟨node, hchild, hup⟩ := h.owned hmem
  have hloose : merged.arena.Loose parent (done ++ child :: merged.children) := by
    simpa using ih.loose
  have hslot {id : NodeId} (hne : id ≠ child) :
      (before.setHandle child listed).get? id = before.get? id := get?_modify_of_ne hne _
  have hold : ∀ id ∈ merged.children,
      (before.setHandle child listed).get? id = before.get? id := fun id hid =>
    hslot (hloose.ne_of_split (List.mem_append_right done hid))
  have hstay : merged.arena.get? child = some { node with handle := listed } := by
    rw [ih.get?_done (by simp), setHandle, get?_modify_self, hchild, Option.map_some]
  have hreaches {other id : NodeId} (hc : .dropped other ∈ fates) :
      (before.setHandle child listed).Reaches other id ↔ before.Reaches other id := by
    refine h.reaches_iff_of_lists (h.setHandle child listed)
      (childrenOf_setHandle before child listed) ?_
    have hsub := (List.sublist_cons_self child (fates.filterMap Fate.child?)).append_left done
    exact hsub.subset (mem_of_dropped hc done)
  constructor
  case loose => exact hloose
  case same_parent => exact ih.same_parent.trans (hslot (h.ne_parent hmem).symm)
  case placed =>
    refine .cons (.kept List.mem_cons_self hchild hstay)
      (ih.placed_from _ (by simp [setHandle]) fun id hid node hlive => ?_)
    rwa [← hold id hid]
  case frame =>
    intro id hid
    simp only [Merged.retaining, List.mem_cons, not_or] at hid
    rcases ih.frame id hid.2 with hsame | ⟨hgone, other, hc, hr⟩
    · exact .inl (hsame.trans (hslot hid.1))
    · exact .inr ⟨hgone, other, List.mem_cons_of_mem _ hc, (hreaches hc).mp hr⟩
  case gone =>
    intro other id hc hr
    have hc : .dropped other ∈ fates := by simpa using hc
    exact ih.gone other id hc ((hreaches hc).mpr hr)
  case grows =>
    have hgrows := ih.grows
    rwa [setHandle, nextId_modify] at hgrows
  case cascade =>
    have hrest := ih.cascade_from fun id hid => isExpanded_congr (congrArg _ (hold id hid))
    simp only [Merged.retaining, hrest, List.filter_cons]

theorem Carried.dropped (h : before.Loose parent (done ++ child :: fates.filterMap Fate.child?))
    (ih : Carried (before.detach child).1 parent recursive done fates merged) :
    Carried before parent recursive done (.dropped child :: fates) merged.removing := by
  have hmem : child ∈ done ++ child :: fates.filterMap Fate.child? := by simp
  constructor
  case loose => exact ih.loose
  case same_parent => exact ih.same_parent.trans (h.get?_detach_sibling hmem (.inr rfl))
  case placed =>
    exact ih.placed_from _ (by simp) fun id _ node hlive => (get?_of_get?_detach hlive).2
  case frame =>
    intro id hid
    rcases ih.frame id hid with hsame | ⟨hgone, other, hc, hr⟩
    · by_cases hr : before.Reaches child id
      · exact .inr ⟨hsame.trans (get?_detach_of_reached hr), child, List.mem_cons_self, hr⟩
      · exact .inl (hsame.trans (get?_detach_of_not_reached hr))
    · exact .inr ⟨hgone, other, List.mem_cons_of_mem _ hc,
        hr.mono fun hlive => (get?_of_get?_detach hlive).2⟩
  case gone =>
    intro other id hc hr
    rcases List.mem_cons.mp hc with heq | hc
    · obtain rfl : other = child := by simpa using heq
      obtain ⟨_, hlive⟩ := hr.live
      refine ih.get?_dead (get?_detach_of_reached hr) ?_
      rw [nextId_detach]
      exact (id_bounds hlive).2
    · have hne : other ≠ child := h.ne_of_split (mem_of_dropped hc done)
      have hsub := (List.sublist_cons_self child (fates.filterMap Fate.child?)).append_left done
      have hother := hsub.subset (mem_of_dropped hc done)
      exact ih.gone other id hc ((h.reaches_detach_iff hmem hother hne).mpr hr)
  case grows =>
    have hgrows := ih.grows
    rwa [nextId_detach] at hgrows
  case cascade =>
    refine ih.cascade_from fun id hid => ?_
    obtain ⟨_, _, hplaced⟩ := exists_of_mem_forall₂ ih.placed hid
    cases hplaced with
    | added fresh _ =>
      rw [nextId_detach] at fresh
      have hdead {node : Node} : before.get? id ≠ some node := fun hlive =>
        Nat.not_lt.mpr fresh (id_bounds hlive).2
      have hdead' {node : Node} : (before.detach child).1.get? id ≠ some node := fun hlive =>
        hdead (get?_of_get?_detach hlive).2
      rw [isExpanded_congr]
      rw [Option.eq_none_iff_forall_ne_some.mpr fun _ => hdead,
        Option.eq_none_iff_forall_ne_some.mpr fun _ => hdead']
    | kept _ was _ =>
      exact isExpanded_congr (by rw [was, (get?_of_get?_detach was).2])

theorem carryOut_spec (recursive : Bool)
    (h : before.Loose parent (done ++ fates.filterMap Fate.child?))
    (hp : before.get? parent = some node) :
    Carried before parent recursive done fates (carryOut parent recursive before fates) := by
  induction fates generalizing before done with
  | nil => exact .nil (by simpa using h)
  | cons fate fates ih =>
    cases fate with
    | added listed =>
      refine .added h hp (ih ?_ (get?_insert_of_live hp ..))
      rw [List.append_assoc]
      exact h.insert hp listed
    | kept child listed =>
      have h : before.Loose parent (done ++ child :: fates.filterMap Fate.child?) := h
      have hne : parent ≠ child := (h.ne_parent (by simp)).symm
      refine .kept h (ih ?_ ((get?_modify_of_ne hne _).trans hp))
      rw [List.append_assoc]
      exact h.setHandle child listed
    | dropped child =>
      have h : before.Loose parent (done ++ child :: fates.filterMap Fate.child?) := h
      exact .dropped h (ih h.detach ((h.get?_detach_sibling (by simp) (.inr rfl)).trans hp))

theorem LinkedBy.carryOut (recursive : Bool)
    (h : before.LinkedBy (before.listsWith parent (done ++ fates.filterMap Fate.child?)))
    (hp : before.get? parent = some node) :
    (Arena.carryOut parent recursive before fates).arena.LinkedBy
      ((Arena.carryOut parent recursive before fates).arena.listsWith parent
        (done ++ (Arena.carryOut parent recursive before fates).children)) := by
  induction fates generalizing before done with
  | nil => simpa [Arena.carryOut, Merged.done] using h
  | cons fate fates ih =>
    cases fate with
    | added listed =>
      have hrest := @ih _ (done ++ [before.nextId])
        (by rw [List.append_assoc]; exact h.insert done _ hp listed) (get?_insert_of_live hp ..)
      rwa [List.append_assoc] at hrest
    | kept child listed =>
      have h : before.LinkedBy
        (before.listsWith parent (done ++ child :: fates.filterMap Fate.child?)) := h
      have hne : parent ≠ child := Nat.ne_of_lt (h.lower (by simp [listsWith]))
      have hrest := @ih _ (done ++ [child])
        (by rw [List.append_assoc]; exact h.setHandle child listed)
        ((get?_modify_of_ne hne _).trans hp)
      rwa [List.append_assoc] at hrest
    | dropped child =>
      have h : before.LinkedBy
        (before.listsWith parent (done ++ child :: fates.filterMap Fate.child?)) := h
      have hmem : child ∈ done ++ child :: fates.filterMap Fate.child? := by simp
      refine ih h.detach ((get?_detach_of_not_reached fun hr => ?_).trans hp)
      exact h.parent_not_under_child hmem ((h.reaches_iff_under_child hmem).mp hr)

theorem mem_children_carryOut (h : .kept child listed ∈ fates) :
    child ∈ (carryOut parent recursive before fates).children := by
  induction fates generalizing before with
  | nil => simp at h
  | cons fate fates ih =>
    rcases List.mem_cons.mp h with rfl | hrest
    · simp [carryOut, Merged.retaining]
    · cases fate with
      | added _ => exact List.mem_cons_of_mem _ (ih hrest)
      | kept _ _ => exact List.mem_cons_of_mem _ (ih hrest)
      | dropped _ => exact ih hrest

/-- The id of a node, unless it was given out at `bound` or later. -/
def older? (bound id : NodeId) : Option NodeId := if id < bound then some id else none

theorem older?_of_lt {bound : NodeId} (h : id < bound) : older? bound id = some id := if_pos h

theorem older?_of_le {bound : NodeId} (h : bound ≤ id) : older? bound id = none :=
  if_neg (Nat.not_lt.mpr h)

theorem older?_eq_some_iff {bound old : NodeId} :
    older? bound id = some old ↔ id < bound ∧ id = old := by
  by_cases h : id < bound
  · simp [older?_of_lt h, h]
  · simp [older?_of_le (Nat.le_of_not_lt h), h]

theorem older?_eq_none_iff {bound : NodeId} : older? bound id = none ↔ bound ≤ id := by
  rw [Option.eq_none_iff_forall_ne_some]
  simp only [ne_eq, older?_eq_some_iff, not_and_or]
  refine ⟨fun h => ?_, fun h old => .inl (Nat.not_lt.mpr h)⟩
  rcases h id with hnot | hself
  · exact Nat.le_of_not_lt hnot
  · exact absurd rfl hself

theorem map_older?_carryOut {bound : NodeId} (hbound : bound ≤ before.nextId)
    (hkept : ∀ child listed, .kept child listed ∈ fates → child < bound) :
    (carryOut parent recursive before fates).children.map (older? bound) =
      fates.filterMap Fate.place? := by
  induction fates generalizing before with
  | nil => rfl
  | cons fate fates ih =>
    have hkept' : ∀ child listed, .kept child listed ∈ fates → child < bound :=
      fun child listed hmem => hkept child listed (List.mem_cons_of_mem fate hmem)
    cases fate with
    | added listed =>
      have hnew : older? bound before.nextId = none := older?_of_le hbound
      have hgrow : bound ≤ (before.insert listed (some parent)).1.nextId := by
        rw [nextId_insert]
        exact Nat.le_succ_of_le hbound
      simp only [carryOut, Merged.inserting, List.map_cons, hnew, ih hgrow hkept']
      rfl
    | kept child listed =>
      have hold := older?_of_lt (hkept child listed List.mem_cons_self)
      have hsame : bound ≤ (before.setHandle child listed).nextId := by
        rwa [setHandle, nextId_modify]
      simp only [carryOut, Merged.retaining, List.map_cons, hold, ih hsame hkept']
      rfl
    | dropped child =>
      have hsame : bound ≤ (before.detach child).1.nextId := by rwa [nextId_detach]
      exact ih hsame hkept'

/-- `after` is `before` with the listing `incoming` merged into `parent`. -/
structure Relisted (before after : Arena) (parent : NodeId) (node : Node) (incoming : List Handle)
    (keepOpen : Bool) (children : List NodeId) : Prop where
  linked : after.Linked
  grows : before.nextId ≤ after.nextId
  self : after.get? parent = some (node.relisted children keepOpen)
  placed : List.Forall₂
    (Placed before after parent (Fate.align before.handle? node.children incoming))
    children incoming
  frame : ∀ id, id ≠ parent → id ∉ children → after.get? id = before.get? id ∨
    (after.get? id = none ∧ before.Under parent id)
  stay : ∀ child listed, .kept child listed ∈ Fate.align before.handle? node.children incoming →
    child ∈ children
  places : ∀ bound ≤ before.nextId, (∀ child ∈ node.children, child < bound) →
    children.map (older? bound) =
      (Fate.align before.handle? node.children incoming).filterMap Fate.place?

/-- The arena during a merge: the node's own child list is taken out. -/
def emptied (arena : Arena) (id : NodeId) : Arena :=
  arena.modify id fun node => { node with children := [] }

theorem get?_emptied_of_ne (h : id ≠ parent) : (before.emptied parent).get? id = before.get? id :=
  get?_modify_of_ne h _

theorem get?_emptied_self (h : before.get? parent = some node) :
    (before.emptied parent).get? parent = some { node with children := [] } := by
  rw [emptied, get?_modify_self, h, Option.map_some]

theorem map_get?_emptied {β : Type} {view : Node → β}
    (hview : ∀ node : Node, view { node with children := [] } = view node) (id : NodeId) :
    ((before.emptied parent).get? id).map view = (before.get? id).map view :=
  map_get?_modify hview id

theorem Linked.emptied (h : before.Linked) (hp : before.get? parent = some node) :
    (before.emptied parent).LinkedBy ((before.emptied parent).listsWith parent node.children) := by
  refine h.congr (map_get?_emptied fun _ => rfl) fun id => ?_
  by_cases hid : id = parent
  · simp [listsWith, hid, childrenOf_of_live hp]
  · simp [listsWith, hid, childrenOf_congr (get?_emptied_of_ne hid)]

theorem Forest.emptied (h : before.Forest) (hp : before.get? parent = some node) :
    (before.emptied parent).Loose parent node.children := by
  have hself : (before.emptied parent).childrenOf parent = [] := by
    rw [childrenOf_of_live (get?_emptied_self hp)]
  have hlists (id : NodeId) :
      ((before.emptied parent).childrenOf id).Sublist (before.childrenOf id) := by
    by_cases hid : id = parent
    · rw [hid, hself]
      exact List.nil_sublist _
    · rw [childrenOf_congr (get?_emptied_of_ne hid)]
  have hparents {id : NodeId} {node : Node} (hlive : before.get? id = some node) :
      ∃ node', (before.emptied parent).get? id = some node' ∧ node'.parent = node.parent :=
    live_of_map_get?_eq (map_get?_emptied (fun _ => rfl) id) hlive
  have hlisted {child : NodeId} (hc : child ∈ node.children) :
      child ∈ before.childrenOf parent := by
    rwa [childrenOf_of_live hp]
  constructor
  case forest => exact h.of_lists hlists fun _ => hparents
  case nodup => exact childrenOf_of_live hp ▸ h.once parent
  case owned =>
    intro child hc
    obtain ⟨_, hlive, hup⟩ := h.owned (hlisted hc)
    obtain ⟨node', hlive', hsame⟩ := hparents hlive
    exact ⟨node', hlive', hsame.trans hup⟩
  case unlisted =>
    intro id child hc hlisted'
    obtain rfl := h.same_lister ((hlists id).subset hlisted') (hlisted hc)
    rw [hself] at hlisted'
    exact List.not_mem_nil hlisted'
  case apart =>
    intro child hc hr
    obtain ⟨_, hlive, _⟩ := h.owned (hlisted hc)
    exact h.no_cycle (hlisted hc) (h.reaches_of_lists hlists hlive hr)

theorem mergeListing_eq (h : before.Forest) (hp : before.get? parent = some node)
    (incoming : List Handle) (recursive keepOpen : Bool) :
    ∃ merged,
      merged = carryOut parent recursive (before.emptied parent)
        (Fate.align before.handle? node.children incoming) ∧
      Carried (before.emptied parent) parent recursive []
        (Fate.align before.handle? node.children incoming) merged ∧
      before.mergeListing parent incoming recursive keepOpen =
        (.ok merged.outcome, merged.rejoined parent keepOpen) := by
  have hloose := h.emptied hp
  have hself := get?_emptied_self hp
  have hhandles : Fate.align (before.emptied parent).handle? node.children incoming =
      Fate.align before.handle? node.children incoming :=
    Fate.align_congr fun id _ => map_get?_emptied (fun _ => rfl) id
  have hmerge := @mergeChildren_eq_carryOut _ _ _ [] recursive node.children incoming hloose hself
  rw [hhandles] at hmerge
  have hcarried : Carried (before.emptied parent) parent recursive []
      (Fate.align before.handle? node.children incoming)
      (carryOut parent recursive (before.emptied parent)
        (Fate.align before.handle? node.children incoming)) :=
    carryOut_spec recursive (by rwa [Fate.filterMap_child?_align]) hself
  refine ⟨_, rfl, hcarried, ?_⟩
  have htake : before.put parent (some { node with children := [] }) = before.emptied parent :=
    put_eq_modify hp fun node => { node with children := [] }
  have hself' := hcarried.same_parent.trans hself
  rw [Merged.rejoined, ← put_eq_modify hself']
  simp only [mergeListing, hp, htake, hmerge, hself']
  rfl

theorem get?_rejoined_of_ne (hne : id ≠ parent) (merged : Merged) (keepOpen : Bool) :
    (merged.rejoined parent keepOpen).get? id = merged.arena.get? id :=
  get?_modify_of_ne hne _

theorem Carried.get?_rejoined_self (hp : before.get? parent = some node)
    (h : Carried (before.emptied parent) parent recursive done fates merged) (keepOpen : Bool) :
    (merged.rejoined parent keepOpen).get? parent =
      some (node.relisted merged.children keepOpen) := by
  rw [Merged.rejoined, get?_modify_self, h.same_parent, get?_emptied_self hp]
  rfl

theorem Carried.placed_rejoined
    (h : Carried (before.emptied parent) parent recursive [] fates merged) (keepOpen : Bool) :
    List.Forall₂ (Placed before (merged.rejoined parent keepOpen) parent fates) merged.children
      (fates.filterMap Fate.listed?) := by
  have hne : ∀ id ∈ merged.children, id ≠ parent := fun _ => h.loose.ne_parent
  refine ((List.forall₂_and_left _ _).mpr ⟨hne, h.placed⟩).imp fun id listed hplaced => ?_
  obtain ⟨hne, hplaced⟩ := hplaced
  have hrest := get?_rejoined_of_ne hne merged keepOpen
  cases hplaced with
  | added fresh live =>
    rw [emptied, nextId_modify] at fresh
    exact .added fresh (hrest.trans live)
  | kept fated was live =>
    exact .kept fated ((get?_emptied_of_ne hne).symm.trans was) (hrest.trans live)

theorem Carried.relisted (keepOpen : Bool) (hl : before.Linked)
    (hp : before.get? parent = some node) {incoming : List Handle}
    (h : Carried (before.emptied parent) parent recursive []
      (Fate.align before.handle? node.children incoming) merged)
    (hm : merged = carryOut parent recursive (before.emptied parent)
      (Fate.align before.handle? node.children incoming)) :
    Relisted before (merged.rejoined parent keepOpen) parent node incoming keepOpen
      merged.children := by
  have hself := h.get?_rejoined_self hp keepOpen
  have hrest {id : NodeId} (hne : id ≠ parent) := get?_rejoined_of_ne hne merged keepOpen
  have hbefore := hl.emptied hp
  constructor
  case linked =>
    have hlinked : merged.arena.LinkedBy (merged.arena.listsWith parent merged.children) := by
      rw [hm]
      exact @LinkedBy.carryOut _ _ _ [] _ recursive (by rwa [Fate.filterMap_child?_align])
        (get?_emptied_self hp)
    refine hlinked.congr (map_get?_modify fun _ => by rfl) fun id => ?_
    by_cases hid : id = parent
    · simp [listsWith, hid, childrenOf_of_live hself, Node.relisted]
    · simp [listsWith, hid, childrenOf_congr (hrest hid)]
  case grows =>
    have hgrows := h.grows
    rwa [emptied, nextId_modify, ← nextId_modify merged.arena parent] at hgrows
  case self => exact hself
  case placed =>
    have hplaced := h.placed_rejoined keepOpen
    rwa [Fate.filterMap_listed?_align] at hplaced
  case frame =>
    intro id hne hid
    rw [hrest hne]
    rcases h.frame id hid with hsame | ⟨hgone, child, hc, hr⟩
    · exact .inl (hsame.trans (get?_emptied_of_ne hne))
    · have hmem := mem_of_dropped hc []
      rw [List.nil_append, Fate.filterMap_child?_align] at hmem
      have hu := ((hbefore.reaches_iff_under_child hmem).mp hr).congr
        (map_get?_emptied fun _ => by rfl)
      exact .inr ⟨hgone, hu.trans (hl.under_of_listed (by rwa [childrenOf_of_live hp]) (.self hp))⟩
  case stay =>
    intro child listed hkept
    rw [hm]
    exact mem_children_carryOut hkept
  case places =>
    intro bound hbound hold
    rw [hm]
    refine map_older?_carryOut ?_ fun child listed hkept => hold child (Fate.mem_of_kept hkept)
    rwa [Arena.emptied, nextId_modify]

theorem mergeListing_spec (h : before.Linked) (hp : before.get? parent = some node)
    (incoming : List Handle) (recursive keepOpen : Bool) :
    ∃ outcome after children,
      before.mergeListing parent incoming recursive keepOpen = (.ok outcome, after) ∧
      Relisted before after parent node incoming keepOpen children ∧
      outcome.cascade = children.filter (fun id => recursive && before.isExpanded id) := by
  obtain ⟨merged, hm, hcarried, heq⟩ := mergeListing_eq h.forest hp incoming recursive keepOpen
  exact ⟨_, _, _, heq, hcarried.relisted keepOpen h hp hm,
    hcarried.cascade_from fun id _ => isExpanded_congr (map_get?_emptied (fun _ => rfl) id)⟩

end Arena

end LazyTree
