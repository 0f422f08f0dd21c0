import LazyTree.FileSystem.Scripted
import LazyTree.Proofs.Convergence
import LazyTree.Proofs.Tickets

/-!
How far children mirror the last listing of their node. A node has a path of its own and the path of
its handle, which a resolution may replace; listings are merged by the second, and the children are
known by the first. The children have the listed paths exactly if no child was kept for a handle
that pointed elsewhere.
-/
namespace LazyTree

namespace TreeView
variable {tree tree' before : TreeView} {target id : NodeId} {node : Node}
variable {listing : Listing} {children : List NodeId} {move : Move} {moves : List Move}

/-- The tree before a move and the listing that the move brings to a node, if it counts. -/
def listedBy (id : NodeId) (tree : TreeView) : Move → Option (TreeView × Listing)
  | .apply ticket (.ok listing) =>
    match (tree.applyFetched ticket (.ok listing)).1 with
    | .ok (.applied _) => if ticket.node = id then some (tree, listing) else none
    | _ => none
  | _ => none

/-- The last listing that moves brought to a node, and the tree before it was applied. -/
def lastListed (id : NodeId) : TreeView → List Move → Option (TreeView × Listing)
  | _, [] => none
  | tree, move :: moves => (lastListed id (tree.act move) moves).or (listedBy id tree move)

theorem applied_of_answer (hw : tree.WellFormed) {ticket : Ticket} {outcome : MergeOutcome}
    (h : (tree.applyFetched ticket (.ok listing)).1 = .ok (.applied outcome)) :
    ∃ node children, tree.arena.get? ticket.node = some node ∧
      Applied tree (tree.act (.apply ticket (.ok listing))) ticket.node node listing children := by
  have hcurrent : tree.Current ticket := by
    by_contra hnot
    simp [applyFetched_of_not_current hnot] at h
  obtain ⟨node, hlive, hgen⟩ := hcurrent
  obtain ⟨_, merged, children, heq, happlied, _⟩ := applyFetched_current hw hlive hgen listing
  have hact : tree.act (.apply ticket (.ok listing)) = merged := congrArg Prod.snd heq
  exact ⟨node, children, hlive, hact ▸ happlied⟩

theorem listedBy_spec (hw : tree.WellFormed) (h : listedBy id tree move = some (before, listing)) :
    before = tree ∧ ∃ node children, Applied tree (tree.act move) id node listing children := by
  unfold listedBy at h
  split at h
  · rename_i ticket listing'
    split at h
    · rename_i outcome hanswer
      split at h
      · rename_i hid
        obtain ⟨rfl, rfl⟩ := Prod.mk.inj (Option.some.inj h)
        obtain rfl := hid
        obtain ⟨node, children, _, happlied⟩ := applied_of_answer hw hanswer
        exact ⟨rfl, node, children, happlied⟩
      · cases h
    · cases h
  · cases h

theorem children_act_of_not_listed (hw : tree.WellFormed) (hnone : listedBy id tree move = none)
    (hlive : tree.arena.get? id = some node) {now : Node}
    (hnow : (tree.act move).arena.get? id = some now) :
    (tree.act move).children id = tree.children id := by
  by_cases hmove : ∃ ticket fetched, move = .apply ticket fetched
  · obtain ⟨ticket, fetched, rfl⟩ := hmove
    rcases applyFetched_cases hw ticket fetched with
      hsame | ⟨was, listing, children, rfl, hwas, hgen, happlied⟩
    · rw [act, hsame]
    · have hne : id ≠ ticket.node := by
        rintro rfl
        obtain ⟨outcome, merged, _, heq, _⟩ := applyFetched_current hw hwas hgen listing
        simp [listedBy, heq] at hnone
      have hsame : now.children = node.children := by
        cases happlied.relisted.origin hnow with
        | self eq => exact absurd eq hne
        | added _ fresh _ => exact absurd (Arena.id_bounds hlive).2 (Nat.not_lt.mpr fresh)
        | kept _ live _ _ =>
          obtain rfl := Option.some.inj (live.symm.trans hlive)
          rfl
        | untouched _ _ live =>
          obtain rfl := Option.some.inj (live.symm.trans hlive)
          rfl
      exact (Arena.childrenOf_of_live hnow).trans
        (hsame.trans (Arena.childrenOf_of_live hlive).symm)
  · cases move with
    | apply ticket fetched => exact absurd ⟨ticket, fetched, rfl⟩ hmove
    | clear => simp [act, clear] at hnow
    | bindTo top =>
      have hid := id_bindTo hnow
      rw [clear, Arena.nextId_clear] at hid
      exact absurd hid (Arena.ne_nextId hlive)
    | issue id recursive =>
      rw [act, issue_snd]
      exact Arena.childrenOf_modify (fun _ => by rfl) _
    | note id found =>
      rw [act, noteExpandable_eq]
      exact Arena.childrenOf_modify (fun _ => by rfl) _
    | setExpanded id expanded => exact Arena.childrenOf_modify (fun _ => by rfl) _
    | useFilter filter => rfl
    | deselect => rfl
    | settle top =>
      have hmap := @map_get?_expandUpwards _ Node.children (fun _ => rfl) tree.arena tree.size
        ((tree.node? top).bind Node.parent) id
      rw [children, children, Arena.childrenOf_eq_getD, Arena.childrenOf_eq_getD]
      exact congrArg (Option.getD · []) hmap

theorem map_eq_map_iff_of_forall₂ {α β γ : Type} {P : α → β → Prop} {Q : α → Prop} {f : α → γ}
    {g : β → γ} {as : List α} {bs : List β} (h : List.Forall₂ P as bs)
    (hiff : ∀ a b, P a b → (f a = g b ↔ Q a)) : as.map f = bs.map g ↔ ∀ a ∈ as, Q a := by
  induction h with
  | nil => simp
  | cons hp _ ih => simp [hiff _ _ hp, ih]

theorem Applied.mirrors_iff (ha : Applied tree tree' id node listing children) :
    (tree'.children id).map tree'.pathOf? = listing.entries.map (fun listed => some listed.path) ↔
      ∀ child ∈ tree'.children id, ∀ was, tree.node? child = some was →
        was.handle.path = was.path := by
  have hchildren : tree'.children id = children := Arena.childrenOf_of_live ha.relisted.self
  rw [hchildren]
  refine map_eq_map_iff_of_forall₂ ha.relisted.placed fun child listed hplaced => ?_
  cases hplaced with
  | added fresh live =>
    have hpath : tree'.pathOf? child = some listed.path := congrArg (Option.map Node.path) live
    refine ⟨fun _ was hwas => ?_, fun _ => hpath⟩
    exact absurd (Arena.id_bounds hwas).2 (Nat.not_lt.mpr fresh)
  | @kept was fated hwas live =>
    have hpath : tree'.pathOf? child = some was.path := congrArg (Option.map Node.path) live
    have hlisted := handlePath_of_kept hwas fated
    rw [hpath, hlisted, Option.some.injEq]
    refine ⟨fun heq now hnow => ?_, fun hall => (hall was hwas).symm⟩
    obtain rfl := Option.some.inj (hwas.symm.trans hnow)
    exact heq.symm

/-- A property of the tree before, between and after the moves. -/
def Throughout (P : TreeView → Prop) (tree : TreeView) : List Move → Prop
  | [] => P tree
  | move :: moves => P tree ∧ Throughout P (tree.act move) moves

theorem Throughout.of_splits {P : TreeView → Prop}
    (h : ∀ first later, moves = first ++ later → P (first.foldl act tree)) :
    Throughout P tree moves := by
  induction moves generalizing tree with
  | nil => exact h [] [] rfl
  | cons move moves ih =>
    refine ⟨h [] _ rfl, ih fun first later heq => ?_⟩
    exact h (move :: first) later (congrArg (List.cons move) heq)

theorem Throughout.append {P : TreeView → Prop} {later : List Move} (h : Throughout P tree moves)
    (h' : Throughout P (moves.foldl act tree) later) : Throughout P tree (moves ++ later) := by
  induction moves generalizing tree with
  | nil => exact h'
  | cons move moves ih => exact ⟨h.1, ih h.2 h'⟩

theorem Throughout.first {P : TreeView → Prop} (h : Throughout P tree moves) : P tree := by
  cases moves with
  | nil => exact h
  | cons move moves => exact h.1

theorem Throughout.last {P : TreeView → Prop} (h : Throughout P tree moves) :
    P (moves.foldl act tree) := by
  induction moves generalizing tree with
  | nil => exact h
  | cons move moves ih => exact ih h.2

theorem Throughout.evolves (h : Throughout WellFormed tree moves) :
    Arena.Evolves (issuedBy moves) tree.arena (moves.foldl act tree).arena := by
  induction moves generalizing tree with
  | nil => exact .refl _
  | cons move moves ih => exact (evolves_act h.1 move).trans (ih h.2)

theorem Throughout.listed {P : TreeView → Prop} (h : Throughout P tree moves)
    (hlast : lastListed id tree moves = some (before, listing))
    (hw : Throughout WellFormed tree moves) : P before := by
  induction moves generalizing tree with
  | nil => cases hlast
  | cons move moves ih =>
    rcases Option.or_eq_some_iff.mp hlast with hrest | ⟨_, hmove⟩
    · exact ih h.2 hrest hw.2
    · exact (listedBy_spec hw.1 hmove).1 ▸ h.1

theorem children_of_not_listed (h : Throughout WellFormed tree moves)
    (hnone : lastListed id tree moves = none) (hlive : tree.arena.get? id = some node) {now : Node}
    (hnow : (moves.foldl act tree).arena.get? id = some now) :
    (moves.foldl act tree).children id = tree.children id := by
  induction moves generalizing tree node with
  | nil => rfl
  | cons move moves ih =>
    obtain ⟨hrest, hmove⟩ := Option.or_eq_none_iff.mp hnone
    have hgrows := (evolves_act h.1 move).grows
    obtain ⟨mid, hmid, _⟩ := h.2.evolves.old hnow
      (Nat.lt_of_lt_of_le (Arena.id_bounds hlive).2 hgrows)
    exact (ih h.2 hrest hmid hnow).trans (children_act_of_not_listed h.1 hmove hlive hmid)

theorem mirrors_iff (h : Throughout WellFormed tree moves)
    (hlast : lastListed id tree moves = some (before, listing))
    (hnow : (moves.foldl act tree).arena.get? id = some node) :
    ((moves.foldl act tree).children id).map (moves.foldl act tree).pathOf? =
        listing.entries.map (fun listed => some listed.path) ↔
      ∀ child ∈ (moves.foldl act tree).children id, ∀ was, before.node? child = some was →
        was.handle.path = was.path := by
  induction moves generalizing tree with
  | nil => cases hlast
  | cons move moves ih =>
    cases hrest : lastListed id (tree.act move) moves with
    | some found =>
      rw [lastListed, hrest] at hlast
      exact ih h.2 (hrest.trans hlast) hnow
    | none =>
      rw [lastListed, hrest] at hlast
      obtain ⟨rfl, merged, children, happlied⟩ := listedBy_spec h.1 hlast
      have hchildren := children_of_not_listed h.2 hrest happlied.relisted.self hnow
      have hpaths := childPaths_eq h.2.first h.2.last h.2.evolves hchildren
      have hmirrors := happlied.mirrors_iff
      rw [map_pathOf?_children h.2.first] at hmirrors
      rw [List.foldl_cons, map_pathOf?_children h.2.last, hpaths, hchildren]
      exact hmirrors

end TreeView

namespace Session
variable {σ : Type} {fs : FileSystem σ} {x : Session σ}

theorem throughout_log {motive : Session σ → Prop} {P : TreeView → Prop}
    (hwell : ∀ x, motive x → x.tree.WellFormed)
    (hnext : ∀ x action, motive x → motive (x.act fs action))
    (hnow : ∀ x, motive x → P x.tree)
    (hwithin : ∀ x action first later, motive x → x.moves fs action = first ++ later →
      P (first.foldl TreeView.act x.tree))
    (hx : motive x) (actions : List (Action σ)) :
    TreeView.Throughout P x.tree (x.log fs actions) := by
  induction actions generalizing x with
  | nil => exact hnow x hx
  | cons action actions ih =>
    have heq := (effect_act fs x action).eq_foldl (hwell x hx)
    refine .append (.of_splits fun first later => hwithin x action first later hx) ?_
    rw [← heq]
    exact ih (hnext x action hx)

theorem wellFormed_throughout (hw : x.tree.WellFormed) (fs : FileSystem σ)
    (actions : List (Action σ)) :
    TreeView.Throughout TreeView.WellFormed x.tree (x.log fs actions) :=
  throughout_log (motive := fun x => x.tree.WellFormed) (fun _ hw => hw)
    (fun x action hw => (effect_act fs x action).wellFormed hw) (fun _ hw => hw)
    (fun x action _ _ hw => (effect_act fs x action).wellFormed_within hw) hw actions

/-- The children of a node have the paths of the listing last applied to it exactly if, when it was
applied, every child that was kept had the path of its handle. So they always have where
placeholders are resolved in place. -/
theorem run_children_mirror_iff (fs : FileSystem σ) (filter : NameFilter) (volumes : VolumeMap)
    (world : σ) (actions : List (Action σ)) :
    let x := (start filter volumes world).run fs actions
    let moves := (start filter volumes world).log fs actions
    x.tree = moves.foldl TreeView.act (.unbound filter volumes) ∧
    ∀ id before listing,
      TreeView.lastListed id (.unbound filter volumes) moves = some (before, listing) →
      (∃ node, x.tree.node? id = some node) →
      let mirrors := (x.tree.children id).map x.tree.pathOf? =
        listing.entries.map (fun listed => some listed.path)
      (mirrors ↔ ∀ child ∈ x.tree.children id, ∀ was, before.node? child = some was →
        was.handle.path = was.path) ∧
      (fs.ResolvesInPlace → mirrors) := by
  intro x moves
  have hstart := wellFormed_start filter volumes world
  have hwell := wellFormed_throughout hstart fs actions
  have htree : x.tree = moves.foldl TreeView.act (.unbound filter volumes) :=
    run_eq_foldl hstart fs actions
  refine ⟨htree, ?_⟩
  intro id before listing hlast ⟨node, hlive⟩ mirrors
  have hiff : mirrors ↔ ∀ child ∈ x.tree.children id, ∀ was, before.node? child = some was →
      was.handle.path = was.path := by
    rw [htree] at hlive
    simp only [mirrors, htree]
    exact TreeView.mirrors_iff hwell hlast hlive
  refine ⟨hiff, fun hfs => hiff.mpr fun child _ was hwas => ?_⟩
  have hfits : TreeView.Throughout (TreeView.HandlesFit · fun _ => True) _ moves :=
    throughout_log (motive := fun x => x.tree.WellFormed ∧ x.Fits fs fun _ => True) (fun _ => (·.1))
      (fun x action hx => ⟨(effect_act fs x action).wellFormed hx.1,
        fits_act hx.1 hfs.gives hx.2 action⟩)
      (fun _ hx => hx.2.handles)
      (fun x action first later hx hmoves => by
        have hrun := (effect_act fs x action).run hx.1 hx.2
        rw [hmoves] at hrun
        exact hrun.split.1.handlesFit hx.1 hfs.gives hx.2.handles)
      ⟨hstart, fits_start fs _ filter volumes world⟩ actions
  exact (hfits.listed hlast hwell child was hwas).1

/-- A root that was listed twice. -/
theorem endless_children_mirror :
    let x := start .everything ⟨"/net", [], "", "", [], []⟩ ()
    let actions : List (Action Unit) := [.operate (.select "/A" 3), .operate (.refresh 1 true)]
    let tree := (x.run .endless actions).tree
    ∃ before listing,
      TreeView.lastListed 1 x.tree (x.log .endless actions) = some (before, listing) ∧
      (tree.children 1).map tree.pathOf? = [some "/A/A", some "/A/b"] ∧
      (tree.children 1).map tree.pathOf? =
        listing.entries.map (fun listed => some listed.path) := by
  intro x actions tree
  have hsome : (TreeView.lastListed 1 x.tree (x.log .endless actions)).isSome = true := by
    decide +kernel
  obtain ⟨⟨before, listing⟩, hlast⟩ := Option.isSome_iff_exists.mp hsome
  obtain ⟨_, hmirrors⟩ := run_children_mirror_iff .endless .everything
    ⟨"/net", [], "", "", [], []⟩ () actions
  exact ⟨before, listing, hlast, by decide +kernel, (hmirrors 1 before listing hlast
    ⟨⟨"/A", .real "/A", none, [2, 3], true, true, 2⟩, by decide +kernel⟩).2
    endless_resolvesInPlace⟩

/-- A placeholder is resolved to a directory that is then listed beside it. -/
theorem resolved_elsewhere_hides_sibling :
    let alone : Scripted :=
      { Scripted.empty with
        listings := [("/a", [⟨"/a/v", "v", true, true⟩]), ("/a/w", [])]
        resolutions := [("/a/v", .real "/a/w")] }
    let both : Scripted :=
      { alone with listings := [("/a", [⟨"/a/v", "v", true, true⟩, .directory "/a/w"])] }
    let actions : List (Action Scripted) :=
      [.operate (.select "/a" 2), .operate (.refresh 2 false), .drift both,
        .operate (.refresh 1 false)]
    let x := start .everything ⟨"/net", [], "", "", [], []⟩ alone
    let tree := (x.run Scripted.fileSystem actions).tree
    (TreeView.lastListed 1 x.tree (x.log Scripted.fileSystem actions)).map
        (fun listed => listed.2.entries.map Handle.path) = some ["/a/v", "/a/w"] ∧
      (tree.children 1).map tree.pathOf? = [some "/a/v", some "/a/v"] := by
  decide +kernel

end Session

end LazyTree
