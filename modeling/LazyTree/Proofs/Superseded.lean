import LazyTree.Proofs.Cascade
import LazyTree.Proofs.Tickets

/-!
Tickets that a new filter outdates. Replacing the filter refreshes the root and, when no refresh
fails, every expanded node below expanded nodes; tickets of these nodes, and of the nodes that go,
are stale from then on. A ticket of any other node still counts, until the node goes or is
refreshed, and may bring in a listing that was fetched with the old filter.
-/
namespace LazyTree
variable {σ : Type} {fs : FileSystem σ}

namespace TreeView
variable {tree tree' : TreeView} {root i : NodeId} {next : NameFilter} {s s' : σ}
variable {totals : Totals}

theorem turns_of_useFilter (hw : tree.WellFormed) (hroot : tree.root = some root)
    (hnew : tree.filter ≠ next) (fs : FileSystem σ) (s : σ) :
    let refreshed := issuedBy (tree.useFilterMoves fs next s)
    root ∈ refreshed ∧ ∀ i ∈ refreshed, i ≠ root → tree.arena.isExpanded i = true := by
  obtain ⟨node, hlive, _⟩ := hw.root_live hroot
  have hlive' : ({ tree with filter := next } : TreeView).arena.get? root = some node := hlive
  obtain ⟨⟨cascaded, hfirst⟩, _, hopen, _⟩ := turns_of_refresh (hw.refiltered next) hlive' fs s
  intro refreshed
  have hrefreshed : refreshed =
      issuedBy (refreshMoves fs root true false { tree with filter := next } s) := by
    simp only [refreshed, useFilterMoves_of_root hroot hnew]
    rfl
  rw [hrefreshed]
  refine ⟨?_, fun i hi hother => (hopen i hi hother).2.2⟩
  rw [hfirst]
  exact List.mem_cons_self

theorem issued_covered_of_useFilter (hw : tree.WellFormed) (hroot : tree.root = some root)
    (hnew : tree.filter ≠ next) (h : tree.useFilter fs next s = (.ok totals, tree', s'))
    (hfailed : totals.failed = 0) (hcovered : tree'.Covered root i) :
    i ∈ issuedBy (tree.useFilterMoves fs next s) := by
  rw [useFilter_of_root hroot hnew] at h
  rw [useFilterMoves_of_root hroot hnew]
  exact issued_of_covered (hw.refiltered next) h hfailed hcovered

end TreeView

namespace Session
variable {x : Session σ} {id : NodeId} {recursive : Bool} {ticket : Ticket}

theorem dead_run (hw : x.tree.WellFormed) (hdead : x.tree.node? id = none)
    (hold : id < x.tree.arena.nextId) (fs : FileSystem σ) (actions : List (Action σ)) :
    (x.run fs actions).tree.node? id = none := by
  refine Option.eq_none_iff_forall_ne_some.mpr fun node hlive => ?_
  obtain ⟨_, hwas, _⟩ := (evolves_run hw fs actions).old hlive hold
  simp [TreeView.node?, hwas] at hdead

theorem stale_of_outdated (hw : x.tree.WellFormed) (hcurrent : x.tree.Current ticket)
    (fs : FileSystem σ) (between later : List (Action σ))
    (houtdated : (x.run fs between).tree.node? ticket.node = none ∨
      ticket.node ∈ issuedBy (x.log fs between)) (fetched : Except Failure Listing) :
    let y := (x.run fs between).run fs later
    y.tree.applyFetched ticket fetched = (.ok .stale, y.tree) := by
  intro y
  refine TreeView.applyFetched_of_not_current (fun hstill => ?_) fetched
  have hy : y = x.run fs (between ++ later) := (run_append ..).symm
  rw [hy] at hstill
  obtain ⟨⟨node, hlive⟩, hnot⟩ := (current_run_iff hw hcurrent fs (between ++ later)).mp hstill
  rcases houtdated with hdead | hissued
  · obtain ⟨_, hwas, _⟩ := hcurrent
    have hold := Nat.lt_of_lt_of_le (Arena.id_bounds hwas).2 (evolves_run hw fs between).grows
    have hgone := dead_run (wellFormed_run hw fs between) hdead hold fs later
    rw [run_append] at hlive
    exact Option.some_ne_none _ (hlive.symm.trans hgone)
  · rw [log_append, TreeView.issuedBy_append] at hnot
    exact hnot (List.mem_append_left _ hissued)

theorem counts_of_not_issued (hw : x.tree.WellFormed) (hcurrent : x.tree.Current ticket)
    (fs : FileSystem σ) (later : List (Action σ)) :
    let z := x.run fs later
    (∃ node, z.tree.node? ticket.node = some node) → ticket.node ∉ issuedBy (x.log fs later) →
      (∀ listing, ∃ outcome tree,
        z.tree.applyFetched ticket (.ok listing) = (.ok (.applied outcome), tree)) ∧
      ∀ e, z.tree.applyFetched ticket (.error e) = (.error e, z.tree) := by
  intro z hlive hnot
  have hstill := (current_run_iff hw hcurrent fs later).mpr ⟨hlive, hnot⟩
  exact ⟨fun listing =>
      (TreeView.applyFetched_ok_iff (wellFormed_run hw fs later) listing).mpr hstill,
    fun e => (TreeView.applyFetched_error_iff e).mpr hstill⟩

/-- The ticket was issued at any time before the filter is replaced, and is applied at any time
after. It is stale where the filter refreshed or dropped its node, and where that was the newest
ticket of any other node it counts as ever. -/
theorem useFilter_outdates (fs : FileSystem σ) (filter : NameFilter) (volumes : VolumeMap)
    (world : σ) (before between : List (Action σ)) (id : NodeId) (recursive : Bool)
    (ticket : Ticket)
    (hissue : (((start filter volumes world).run fs before).tree.issue id recursive).1 =
      .ok ticket) (root : NodeId) (next : NameFilter) (totals : Totals) :
    let x := (((start filter volumes world).run fs before).act fs (.issue id recursive)).run fs
      between
    let y := x.act fs (.operate (.useFilter next))
    let moves := x.moves fs (.operate (.useFilter next))
    x.tree.root = some root → x.tree.filter ≠ next →
      (x.tree.useFilter fs next x.world).1 = .ok totals →
      TreeView.Trail fs x.tree x.world moves y.tree y.world ∧
      ((ticket.node = root ∨ y.tree.node? ticket.node = none ∨ ticket.node ∈ issuedBy moves ∨
          totals.failed = 0 ∧ y.tree.Covered root ticket.node) →
        ∀ later fetched, let z := y.run fs later
          z.tree.applyFetched ticket fetched = (.ok .stale, z.tree)) ∧
      (x.tree.Current ticket →
        ticket.node ∉ issuedBy moves ∨
          ticket.node ≠ root ∧ x.tree.arena.isExpanded ticket.node = false →
        ∀ later, let z := y.run fs later
          (∃ node, z.tree.node? ticket.node = some node) →
            ticket.node ∉ issuedBy (y.log fs later) →
            (∀ listing, ∃ outcome tree,
              z.tree.applyFetched ticket (.ok listing) = (.ok (.applied outcome), tree)) ∧
            ∀ e, z.tree.applyFetched ticket (.error e) = (.error e, z.tree)) := by
  intro x y moves hroot hnew hanswer
  have hstart := wellFormed_run (wellFormed_start filter volumes world) fs before
  have hissued : (((start filter volumes world).run fs before).act fs
      (.issue id recursive)).tree.WellFormed := (effect_act fs _ _).wellFormed hstart
  have hw : x.tree.WellFormed := wellFormed_run hissued fs between
  have hturns := TreeView.turns_of_useFilter hw hroot hnew fs x.world
  refine ⟨Operation.trail hw fs x.world (.useFilter next), fun hnode later fetched => ?_,
    fun hcurrent hnode later => ?_⟩
  · have hstale := stale_of_outdated hissued (current_of_issue fs hissue) fs
      (between ++ [.operate (.useFilter next)]) later
    rw [run_append, log_append, TreeView.issuedBy_append] at hstale
    have hrefreshed (hmem : ticket.node ∈ issuedBy moves) : ticket.node ∈
        issuedBy (x.log fs [.operate (.useFilter next)]) := by
      rwa [log, log, List.append_nil]
    refine hstale ?_ fetched
    rcases hnode with rfl | hdead | hmem | ⟨hfailed, hcovered⟩
    · exact .inr (List.mem_append_right _ (hrefreshed hturns.1))
    · exact .inl hdead
    · exact .inr (List.mem_append_right _ (hrefreshed hmem))
    · have hresult : x.tree.useFilter fs next x.world =
          (.ok totals, y.tree, (x.tree.useFilter fs next x.world).2.2) := Prod.ext hanswer rfl
      exact .inr (List.mem_append_right _ (hrefreshed
        (TreeView.issued_covered_of_useFilter hw hroot hnew hresult hfailed hcovered)))
  · have hspared : ticket.node ∉ issuedBy moves := by
      rcases hnode with hspared | ⟨hother, hcollapsed⟩
      · exact hspared
      · intro hmem
        simp [hturns.2 _ hmem hother] at hcollapsed
    intro z hlive hnot
    refine counts_of_not_issued hw hcurrent fs (.operate (.useFilter next) :: later) hlive ?_
    rw [log, TreeView.issuedBy_append, List.mem_append]
    exact fun h => h.elim hspared hnot

/-- Tickets of two children, issued before the filter shows more. That of the expanded child is
stale, that of the collapsed one counts. -/
theorem endless_useFilter_outdates :
    let x := (start ⟨true, ["b"]⟩ ⟨"/net", [], "", "", [], []⟩ ()).run .endless
      [.operate (.select "/A" 3), .operate (.expand 2), .issue 2 false, .issue 3 false]
    let y := x.act .endless (.operate (.useFilter .hideDotNames))
    (∀ later fetched, let z := y.run .endless later
      z.tree.applyFetched ⟨2, 2, .real "/A/A", false⟩ fetched = (.ok .stale, z.tree)) ∧
    (∀ listing, ∃ outcome tree,
      y.tree.applyFetched ⟨3, 1, .real "/A/A/A", false⟩ (.ok listing) =
        (.ok (.applied outcome), tree)) := by
  have hopen := useFilter_outdates .endless ⟨true, ["b"]⟩ ⟨"/net", [], "", "", [], []⟩ ()
    [.operate (.select "/A" 3), .operate (.expand 2)] [.issue 3 false] 2 false
    ⟨2, 2, .real "/A/A", false⟩ (by decide +kernel) 1 .hideDotNames ⟨2, 2, 0, 0, false, 3⟩
    (by decide +kernel) (by decide +kernel) (by decide +kernel)
  have hclosed := useFilter_outdates .endless ⟨true, ["b"]⟩ ⟨"/net", [], "", "", [], []⟩ ()
    [.operate (.select "/A" 3), .operate (.expand 2), .issue 2 false] [] 3 false
    ⟨3, 1, .real "/A/A/A", false⟩ (by decide +kernel) 1 .hideDotNames ⟨2, 2, 0, 0, false, 3⟩
    (by decide +kernel) (by decide +kernel) (by decide +kernel)
  refine ⟨hopen.2.1 (.inr (.inr (.inr ⟨rfl, ?_⟩))), ?_⟩
  · exact .child .self (by decide +kernel) (by decide +kernel)
  · refine (hclosed.2.2 (TreeView.current_iff_generation.mpr (by decide +kernel))
      (.inr ⟨by decide, by decide +kernel⟩) [] ?_ List.not_mem_nil).1
    exact ⟨⟨"/A/A/A", .real "/A/A/A", some 2, [], false, true, 1⟩, by decide +kernel⟩

/-- The ticket of a collapsed directory brings in what the filter of its time let through. -/
theorem veiled_ticket_counts :
    let x := (start .everything ⟨"/net", [], "", "", [], []⟩ ()).run .veiled
      [.operate (.select "/a" 2), .issue 2 false, .keepLister, .fetch 0 0]
    let y := x.act .veiled (.operate (.useFilter .hideDotNames))
    x.tree.root = some 1 ∧ x.tree.filter ≠ .hideDotNames ∧
      (x.tree.useFilter .veiled .hideDotNames ()).1 = .ok ⟨1, 0, 0, 0, false, 1⟩ ∧
      y.results = [(⟨2, 1, .real "/a/b", false⟩, .ok ⟨none, [.real "/a/b/.c"]⟩)] ∧
      (y.tree.applyFetched ⟨2, 1, .real "/a/b", false⟩ (.ok ⟨none, [.real "/a/b/.c"]⟩)).1 =
        .ok (.applied ⟨1, 0, 0, []⟩) := by
  decide +kernel

end Session

end LazyTree
