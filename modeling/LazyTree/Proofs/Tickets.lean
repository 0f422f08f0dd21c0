import LazyTree.Proofs.Session

/-!
When a ticket counts. The generation of a node counts the refreshes issued for it, ids are never
given out twice, and so a ticket fits the generation of its node exactly while the node lives and no
later refresh of it was issued.
-/
namespace LazyTree

namespace TreeView
variable {tree : TreeView} {ticket : Ticket} {node : Node}

/-- The node of the ticket is live and was not refreshed since. -/
def Current (tree : TreeView) (ticket : Ticket) : Prop :=
  ∃ node, tree.node? ticket.node = some node ∧ node.generation = ticket.generation

theorem current_iff_generation :
    tree.Current ticket ↔
      (tree.node? ticket.node).map Node.generation = some ticket.generation := by
  rw [Option.map_eq_some_iff]
  rfl

theorem applyFetched_of_not_current (h : ¬ tree.Current ticket)
    (fetched : Except Failure Listing) : tree.applyFetched ticket fetched = (.ok .stale, tree) := by
  unfold applyFetched
  cases hlive : tree.node? ticket.node with
  | none => rfl
  | some node =>
    have hgen : node.generation ≠ ticket.generation := fun hgen => h ⟨node, hlive, hgen⟩
    simp only [ne_eq, hgen, not_false_eq_true, if_true]

theorem applyFetched_ok_iff (h : tree.WellFormed) (listing : Listing) :
    (∃ outcome tree', tree.applyFetched ticket (.ok listing) = (.ok (.applied outcome), tree')) ↔
      tree.Current ticket := by
  constructor
  · rintro ⟨outcome, tree', heq⟩
    by_contra hnot
    simp [applyFetched_of_not_current hnot] at heq
  · rintro ⟨node, hlive, hgen⟩
    obtain ⟨outcome, tree', _, heq, _⟩ := applyFetched_current h hlive hgen listing
    exact ⟨outcome, tree', heq⟩

theorem applyFetched_error_iff (e : Failure) :
    tree.applyFetched ticket (.error e) = (.error e, tree) ↔ tree.Current ticket := by
  constructor
  · intro heq
    by_contra hnot
    simp [applyFetched_of_not_current hnot] at heq
  · rintro ⟨node, hlive, hgen⟩
    simp [applyFetched, hlive, hgen]

end TreeView

namespace Session
variable {σ : Type} {x : Session σ} {id : NodeId} {recursive : Bool} {ticket : Ticket}

theorem current_run_iff (hw : x.tree.WellFormed) (hcurrent : x.tree.Current ticket)
    (fs : FileSystem σ) (after : List (Action σ)) :
    (x.run fs after).tree.Current ticket ↔
      (∃ node, (x.run fs after).tree.node? ticket.node = some node) ∧
        ticket.node ∉ issuedBy (x.log fs after) := by
  obtain ⟨node, hlive, hfits⟩ := hcurrent
  have hevolves := evolves_run hw fs after
  have hgen {node' : Node} (hlive' : (x.run fs after).tree.arena.get? ticket.node = some node') :
      node'.generation =
        ticket.generation + (issuedBy (x.log fs after)).count ticket.node := by
    obtain ⟨was, hwas, _, _, hgen⟩ := hevolves.old hlive' (Arena.id_bounds hlive).2
    obtain rfl := Option.some.inj (hwas.symm.trans hlive)
    rwa [hfits] at hgen
  constructor
  · rintro ⟨node', hlive', hcurrent⟩
    refine ⟨⟨node', hlive'⟩, List.count_eq_zero.mp ?_⟩
    exact Nat.add_eq_left.mp ((hgen hlive').symm.trans hcurrent)
  · rintro ⟨⟨node', hlive'⟩, hnot⟩
    have hcount := hgen hlive'
    rw [List.count_eq_zero.mpr hnot] at hcount
    exact ⟨node', hlive', hcount⟩

theorem current_of_issue (fs : FileSystem σ)
    (hissue : (x.tree.issue id recursive).1 = .ok ticket) :
    (x.act fs (.issue id recursive)).tree.Current ticket := by
  cases hlive : x.tree.arena.get? id with
  | none => simp [TreeView.issue_of_dead hlive] at hissue
  | some node =>
    rw [TreeView.issue_of_live hlive] at hissue
    obtain rfl : _ = ticket := Except.ok.inj hissue
    have htree : (x.act fs (.issue id recursive)).tree = x.tree.bumped id := by
      simp [act, TreeView.issue_of_live hlive]
    rw [htree]
    exact ⟨_, TreeView.get?_bumped hlive, rfl⟩

theorem applyFetched_takes_effect_iff (fs : FileSystem σ) (filter : NameFilter)
    (volumes : VolumeMap) (world : σ) (before after : List (Action σ)) (id : NodeId)
    (recursive : Bool) (ticket : Ticket)
    (hissue : (((start filter volumes world).run fs before).tree.issue id recursive).1 =
      .ok ticket) :
    let x := ((start filter volumes world).run fs before).act fs (.issue id recursive)
    let y := x.run fs after
    let counts := (∃ node, y.tree.node? ticket.node = some node) ∧
      ticket.node ∉ issuedBy (x.log fs after)
    y.tree = (x.log fs after).foldl TreeView.act x.tree ∧
    (∀ listing, (∃ outcome tree', y.tree.applyFetched ticket (.ok listing) =
      (.ok (.applied outcome), tree')) ↔ counts) ∧
    (∀ e, y.tree.applyFetched ticket (.error e) = (.error e, y.tree) ↔ counts) ∧
    (¬ counts → ∀ fetched, y.tree.applyFetched ticket fetched = (.ok .stale, y.tree)) := by
  intro x y counts
  have hstart := wellFormed_run (wellFormed_start filter volumes world) fs before
  have hx : x.tree.WellFormed := (effect_act fs _ _).wellFormed hstart
  have hcurrent : y.tree.Current ticket ↔ counts :=
    current_run_iff hx (current_of_issue fs hissue) fs after
  refine ⟨run_eq_foldl hx fs after, fun listing => ?_, fun e => ?_, fun hnot fetched => ?_⟩
  · rw [← hcurrent]
    exact TreeView.applyFetched_ok_iff (wellFormed_run hx fs after) listing
  · rw [← hcurrent]
    exact TreeView.applyFetched_error_iff e
  · exact TreeView.applyFetched_of_not_current (mt hcurrent.mp hnot) fetched

/-- Of two tickets of the root the first is stale. That of its child counts, whatever is done with
the root, and brings in two directories. -/
theorem applyFetched_of_first_ticket :
    let x := (start .everything ⟨"/net", [], "", "", [], []⟩ ()).run .endless
      [.operate (.select "/a" 3), .issue 1 false, .issue 2 false, .issue 1 true]
    (∀ fetched, x.tree.applyFetched ⟨1, 2, .real "/a", false⟩ fetched = (.ok .stale, x.tree)) ∧
      ∃ outcome tree, x.tree.applyFetched ⟨2, 1, .real "/a/A", false⟩
          (.ok ⟨none, [.real "/a/A/A", .real "/a/A/b"]⟩) = (.ok (.applied outcome), tree) ∧
        x.tree.children 2 = [] ∧ tree.children 2 = [4, 5] := by
  intro x
  have hfirst := applyFetched_takes_effect_iff .endless .everything ⟨"/net", [], "", "", [], []⟩ ()
    [.operate (.select "/a" 3)] [.issue 2 false, .issue 1 true] 1 false
    ⟨1, 2, .real "/a", false⟩ (by decide +kernel)
  have hchild := applyFetched_takes_effect_iff .endless .everything ⟨"/net", [], "", "", [], []⟩ ()
    [.operate (.select "/a" 3), .issue 1 false] [.issue 1 true] 2 false
    ⟨2, 1, .real "/a/A", false⟩ (by decide +kernel)
  obtain ⟨outcome, tree, happly⟩ := (hchild.2.1 ⟨none, [.real "/a/A/A", .real "/a/A/b"]⟩).mpr
    ⟨⟨⟨"/a/A", .real "/a/A", some 1, [], false, true, 1⟩, by decide +kernel⟩, by decide +kernel⟩
  have hlisted := congrArg (fun result => result.2.children 2) happly
  exact ⟨hfirst.2.2.2 fun counts => counts.2 (by decide +kernel), outcome, tree, happly,
    by decide +kernel, hlisted.symm.trans (by decide +kernel)⟩

end Session

end LazyTree
