import LazyTree.Proofs.Merge

/-!
What may happen to a node that exists: it may go, but an id that is gone stays gone; while it lives
its path and its parent stay, and its generation counts the refreshes issued for it.
-/
namespace LazyTree

/-- What `Evolves` compares. -/
def Node.stamp (node : Node) : String × Option NodeId × Nat :=
  (node.path, node.parent, node.generation)

namespace Arena
variable {a b c before after : Arena} {issued later : List NodeId} {id parent child : NodeId}
variable {node : Node} {incoming : List Handle} {keepOpen : Bool} {children : List NodeId}

/-- `after` comes from `before` by changes among which a refresh was issued for each id of `issued`,
as often as the id occurs there. -/
structure Evolves (issued : List NodeId) (before after : Arena) : Prop where
  grows : before.nextId ≤ after.nextId
  old : ∀ {id node'}, after.get? id = some node' → id < before.nextId →
    ∃ node, before.get? id = some node ∧ node'.path = node.path ∧ node'.parent = node.parent ∧
      node'.generation = node.generation + issued.count id

theorem Evolves.refl (arena : Arena) : Evolves [] arena arena :=
  ⟨Nat.le_refl _, fun hlive _ => ⟨_, hlive, rfl, rfl, rfl⟩⟩

theorem Evolves.trans (h : Evolves issued a b) (h' : Evolves later b c) :
    Evolves (issued ++ later) a c := by
  refine ⟨Nat.le_trans h.grows h'.grows, fun {id node₂} hlive hid => ?_⟩
  obtain ⟨node₁, hlive₁, hpath₁, hparent₁, hgen₁⟩ := h'.old hlive (Nat.lt_of_lt_of_le hid h.grows)
  obtain ⟨node₀, hlive₀, hpath₀, hparent₀, hgen₀⟩ := h.old hlive₁ hid
  refine ⟨node₀, hlive₀, hpath₁.trans hpath₀, hparent₁.trans hparent₀, ?_⟩
  rw [hgen₁, hgen₀, List.count_append, Nat.add_assoc]

theorem Evolves.lived (h : Evolves issued a b) {was now : Node} (hwas : a.get? id = some was)
    (hnow : b.get? id = some now) : now.path = was.path ∧ now.parent = was.parent := by
  obtain ⟨_, hold, hpath, hparent, _⟩ := h.old hnow (id_bounds hwas).2
  obtain rfl := Option.some.inj (hwas.symm.trans hold)
  exact ⟨hpath, hparent⟩

theorem Evolves.of_stamp (hnext : after.nextId = before.nextId)
    (hstamp : ∀ id, (after.get? id).map Node.stamp = (before.get? id).map Node.stamp) :
    Evolves [] before after := by
  refine ⟨Nat.le_of_eq hnext.symm, fun {id node'} hlive _ => ?_⟩
  obtain ⟨node, hnode, heq⟩ := live_of_map_get?_eq (hstamp id).symm hlive
  simp only [Node.stamp, Prod.mk.injEq] at heq
  exact ⟨node, hnode, heq.1.symm, heq.2.1.symm, heq.2.2.symm⟩

theorem Evolves.modify (arena : Arena) (id : NodeId) {f : Node → Node}
    (hf : ∀ node, (f node).stamp = node.stamp) : Evolves [] arena (arena.modify id f) :=
  .of_stamp (nextId_modify ..) (map_get?_modify hf)

theorem Evolves.issue (arena : Arena) (id : NodeId) :
    Evolves [id] arena
      (arena.modify id fun node => { node with generation := node.generation + 1 }) := by
  refine ⟨by simp, fun {other node'} hlive _ => ?_⟩
  by_cases ho : other = id
  · rw [ho, get?_modify_self] at hlive
    obtain ⟨node, hnode, rfl⟩ := Option.map_eq_some_iff.mp hlive
    exact ⟨node, ho ▸ hnode, rfl, rfl, by simp [ho]⟩
  · rw [get?_modify_of_ne ho] at hlive
    exact ⟨node', hlive, rfl, rfl, by simp [Ne.symm ho]⟩

theorem Evolves.listed_before (h : Evolves issued a b) (ha : a.Linked) (hb : b.Linked)
    (hc : child ∈ b.childrenOf parent) (hlive : a.get? child = some node) :
    child ∈ a.childrenOf parent := by
  obtain ⟨now, hnow, hup⟩ := hb.owned hc
  obtain ⟨was, hwas, _, hparent, _⟩ := h.old hnow (id_bounds hlive).2
  exact ha.listed hwas (hparent.symm.trans hup)

theorem Evolves.clear (arena : Arena) : Evolves [] arena arena.clear :=
  ⟨by simp, fun hlive _ => by simp at hlive⟩

theorem Evolves.insert (arena : Arena) (handle : Handle) (owner : Option NodeId) :
    Evolves [] arena (arena.insert handle owner).1 := by
  refine ⟨by simp, fun {id node'} hlive hid => ?_⟩
  rw [get?_insert_of_ne (Nat.ne_of_lt hid)] at hlive
  exact ⟨node', hlive, rfl, rfl, rfl⟩

namespace Relisted

theorem child_ne (h : Relisted before after parent node incoming keepOpen children)
    (hc : child ∈ children) : child ≠ parent := by
  have hlisted : child ∈ after.childrenOf parent := by
    rw [childrenOf_of_live h.self]
    exact hc
  exact Nat.ne_of_gt (h.linked.lower hlisted)

theorem child_live (h : Relisted before after parent node incoming keepOpen children)
    (hc : child ∈ children) :
    ∃ childNode, after.get? child = some childNode ∧ childNode.parent = some parent :=
  h.linked.child_live h.self hc

/-- Where a node that is live after a merge comes from. -/
inductive Origin (before : Arena) (parent : NodeId) (node : Node) (incoming : List Handle)
    (keepOpen : Bool) (children : List NodeId) (id : NodeId) : Node → Prop where
  | self (eq : id = parent) : Origin before parent node incoming keepOpen children id
      (node.relisted children keepOpen)
  | added {listed : Handle} (mem : id ∈ children) (fresh : before.nextId ≤ id)
      (listing : listed ∈ incoming) :
      Origin before parent node incoming keepOpen children id (Node.fresh listed (some parent))
  | kept {listed : Handle} {was : Node} (mem : id ∈ children) (live : before.get? id = some was)
      (listing : listed ∈ incoming)
      (fated : .kept id listed ∈ Fate.align before.handle? node.children incoming) :
      Origin before parent node incoming keepOpen children id { was with handle := listed }
  | untouched {now : Node} (ne : id ≠ parent) (not_mem : id ∉ children)
      (live : before.get? id = some now) :
      Origin before parent node incoming keepOpen children id now

theorem origin {now : Node} (h : Relisted before after parent node incoming keepOpen children)
    (hlive : after.get? id = some now) :
    Origin before parent node incoming keepOpen children id now := by
  by_cases hself : id = parent
  · subst hself
    obtain rfl := Option.some.inj (hlive.symm.trans h.self)
    exact .self rfl
  · by_cases hc : id ∈ children
    · obtain ⟨listed, hlisted, hplaced⟩ := exists_of_mem_forall₂ h.placed hc
      cases hplaced with
      | added fresh live =>
        obtain rfl := Option.some.inj (hlive.symm.trans live)
        exact .added hc fresh hlisted
      | kept fated was live =>
        obtain rfl := Option.some.inj (hlive.symm.trans live)
        exact .kept hc was hlisted fated
    · rcases h.frame id hself hc with hsame | ⟨hgone, _⟩
      · exact .untouched hself hc (hsame.symm.trans hlive)
      · simp [hgone] at hlive

theorem evolves {was : Node} (h : Relisted before after parent node incoming keepOpen children)
    (hp : before.get? parent = some was) (hpath : node.path = was.path)
    (hparent : node.parent = was.parent) (hgen : node.generation = was.generation) :
    Evolves [] before after := by
  refine ⟨h.grows, fun {id now} hlive hid => ?_⟩
  cases h.origin hlive with
  | self eq => exact ⟨was, eq ▸ hp, hpath, hparent, hgen⟩
  | added _ fresh _ => exact absurd hid (Nat.not_lt.mpr fresh)
  | kept _ live _ _ => exact ⟨_, live, rfl, rfl, rfl⟩
  | untouched _ _ live => exact ⟨now, live, rfl, rfl, rfl⟩

/-- A node that existed before is the listed node itself, or only its handle may have changed, and
that only if it is a child of the listed node. -/
theorem old_cases {now : Node} (h : Relisted before after parent node incoming keepOpen children)
    (hlive : after.get? id = some now) (hold : id < before.nextId) :
    (id = parent ∧ now = node.relisted children keepOpen) ∨
      (id ≠ parent ∧ ∃ was, before.get? id = some was ∧ now = { was with handle := now.handle } ∧
        (now.parent ≠ some parent → now.handle = was.handle)) := by
  cases h.origin hlive with
  | self eq => exact .inl ⟨eq, rfl⟩
  | added _ fresh _ => exact absurd hold (Nat.not_lt.mpr fresh)
  | @kept listed was mem live _ _ =>
    obtain ⟨child, hchild, hup⟩ := h.child_live mem
    obtain rfl := Option.some.inj (hlive.symm.trans hchild)
    exact .inr ⟨h.child_ne mem, was, live, rfl, fun hother => absurd hup hother⟩
  | untouched ne _ live => exact .inr ⟨ne, now, live, rfl, fun _ => rfl⟩

theorem handle?_elsewhere {now : Node}
    (h : Relisted before after parent node incoming keepOpen children)
    (hp : before.get? parent = some node) (hlive : after.get? id = some now)
    (hold : id < before.nextId) (hup : now.parent ≠ some parent) :
    after.handle? id = before.handle? id := by
  rw [handle?, handle?, hlive]
  rcases h.old_cases hlive hold with ⟨rfl, rfl⟩ | ⟨_, was, hwas, _, hsame⟩
  · rw [hp]
    rfl
  · rw [hwas, Option.map_some, Option.map_some, hsame hup]

theorem of_kept (h : Relisted before after parent node incoming keepOpen children)
    (hl : before.Linked) (hc : child ∈ children) {was : Node}
    (hwas : before.get? child = some was) :
    child ∈ before.childrenOf parent ∧
      ∃ listed ∈ incoming, .kept child listed ∈ Fate.align before.handle? node.children incoming ∧
        after.get? child = some { was with handle := listed } := by
  obtain ⟨listed, hmem, hplaced⟩ := exists_of_mem_forall₂ h.placed hc
  obtain ⟨childNode, hlive, hup⟩ := h.child_live hc
  cases hplaced with
  | added fresh _ => exact absurd (id_bounds hwas).2 (Nat.not_lt.mpr fresh)
  | kept fated was' now =>
    obtain rfl := Option.some.inj (hwas.symm.trans was')
    obtain rfl := Option.some.inj (hlive.symm.trans now)
    exact ⟨hl.listed hwas hup, listed, hmem, fated, now⟩

theorem below_kept (h : Relisted before after parent node incoming keepOpen children)
    (hl : before.Linked) (hc : child ∈ children) (hu : before.Under child id) (hne : id ≠ child) :
    after.get? id = before.get? id := by
  obtain ⟨was, hwas⟩ := hu.top_live
  obtain ⟨hlisted, _, _, _, hnow⟩ := h.of_kept hl hc hwas
  induction hu with
  | self _ => exact absurd rfl hne
  | @step id above node live up hu ih =>
    -- The node above still lists `id`, so `id` is live, and a live node has kept its slot.
    have hkids : after.childrenOf above = before.childrenOf above := by
      by_cases ha : above = child
      · rw [ha, childrenOf_of_live hnow, childrenOf_of_live hwas]
      · exact childrenOf_congr (ih ha)
    have hmem := hl.listed live up
    obtain ⟨_, hlive, _⟩ := h.linked.owned (hkids ▸ hmem)
    have hlt : parent < id :=
      Nat.lt_of_lt_of_le (hl.lower hlisted) (hl.le_of_under (hu.step live up))
    have hnot : id ∉ children := fun hc' => by
      obtain ⟨hsame, _⟩ := h.of_kept hl hc' live
      have heq := hl.same_lister hsame hmem
      exact Nat.not_lt.mpr (hl.le_of_under hu) (heq ▸ hl.lower hlisted)
    rcases h.frame id (Nat.ne_of_gt hlt) hnot with hsame | ⟨hgone, _⟩
    · exact hsame
    · simp [hgone] at hlive

theorem of_changed (h : Relisted b after parent node incoming keepOpen children)
    (hl : b.Linked) (hp : b.get? parent = some node) (hnext : b.nextId = a.nextId)
    (hothers : ∀ id, id ≠ parent → b.get? id = a.get? id)
    (hparents : ∀ id, (b.get? id).map Node.parent = (a.get? id).map Node.parent) :
    Relisted a after parent node incoming keepOpen children := by
  have halign : Fate.align a.handle? node.children incoming =
      Fate.align b.handle? node.children incoming := by
    refine Fate.align_congr fun child hc => ?_
    have hlisted : child ∈ b.childrenOf parent := by rwa [childrenOf_of_live hp]
    rw [handle?, handle?, hothers child (Nat.ne_of_gt (hl.lower hlisted))]
  constructor
  · exact h.linked
  · exact hnext ▸ h.grows
  · exact h.self
  · rw [halign]
    refine ((List.forall₂_and_left _ _).mpr ⟨fun _ => h.child_ne, h.placed⟩).imp ?_
    rintro id listed ⟨hne, hplaced⟩
    refine hplaced.of_earlier (fun _ hfate => hfate) (Nat.le_of_eq hnext.symm) fun node' hlive => ?_
    rw [← hothers id hne, hlive]
  · intro id hne hid
    exact (h.frame id hne hid).imp (·.trans (hothers id hne)) (.imp_right (·.congr hparents))
  · rw [halign]
    exact h.stay
  · rw [halign, ← hnext]
    exact h.places

end Relisted

end Arena

end LazyTree
