import LazyTree.Proofs.Laziness
import LazyTree.Settings

/-!
Which node a change outside the tree is followed to. The walk to it goes down from the root along
the first child on the way, as the search for a path does, but leaves off at a node that does not
cover the path. Both walks come to an end, and they end alike below a root that covers the path.
-/
namespace LazyTree

namespace TreeView
variable {σ : Type} {tree : TreeView} {passes : String → Bool} {target top : String}
variable {id child root mid : NodeId} {above : List NodeId} {answer answer' : Option NodeId}

/-- Where a walk from a node down to the node of a path comes to an end, however long it is. It goes
on below the nodes whose paths pass. -/
inductive Seeks (tree : TreeView) (passes : String → Bool) (target : String) :
    NodeId → Option NodeId → Prop where
  | gone {id : NodeId} (dead : tree.pathOf? id = none) : Seeks tree passes target id none
  | found {id : NodeId} (here : tree.pathOf? id = some target) :
    Seeks tree passes target id (some id)
  | stopped {id : NodeId} {path : String} (named : tree.pathOf? id = some path)
      (other : path ≠ target) (blocked : passes path = false) : Seeks tree passes target id none
  | lost {id : NodeId} {path : String} (named : tree.pathOf? id = some path)
      (other : path ≠ target) (passed : passes path = true)
      (noWay : tree.wayTo? id target = none) : Seeks tree passes target id none
  | down {id child : NodeId} {path : String} {answer : Option NodeId}
      (named : tree.pathOf? id = some path) (other : path ≠ target) (passed : passes path = true)
      (way : tree.wayTo? id target = some child) (rest : Seeks tree passes target child answer) :
    Seeks tree passes target id answer

namespace Seeks

theorem unique (h : tree.Seeks passes target id answer) (h' : tree.Seeks passes target id answer') :
    answer = answer' := by
  induction h generalizing answer' with
  | gone dead => cases h' <;> simp_all
  | found here => cases h' <;> simp_all
  | stopped named other blocked => cases h' <;> simp_all
  | lost named other passed noWay => cases h' <;> simp_all
  | down named other passed way rest ih =>
    cases h' with
    | down named' other' passed' way' rest' =>
      obtain rfl := Option.some.inj (way.symm.trans way')
      exact ih rest'
    | _ => simp_all

/-- A walk with as many steps to take as there are nodes besides those above it comes to its end. -/
theorem of_steps (hw : tree.WellFormed) {walk : Nat → NodeId → Option NodeId}
    (hstop : ∀ id, walk 0 id = none)
    (hstep : ∀ depth id, walk (depth + 1) id =
      match tree.pathOf? id with
      | none => none
      | some path =>
        if path = target then some id
        else if passes path then (tree.wayTo? id target).bind (walk depth)
        else none)
    {depth : Nat} (habove : tree.arena.Passed above id)
    (hdepth : tree.size ≤ depth + above.length) :
    tree.Seeks passes target id (walk depth id) := by
  induction depth generalizing above id with
  | zero =>
    rw [hstop]
    refine .gone (Option.map_eq_none_iff.mpr (Option.eq_none_iff_forall_ne_some.mpr ?_))
    intro node hlive
    rw [Nat.zero_add] at hdepth
    exact absurd (habove.length_lt hlive) (Nat.not_lt.mpr hdepth)
  | succ depth ih =>
    rw [hstep]
    cases hpath : tree.pathOf? id with
    | none => exact .gone hpath
    | some path =>
      dsimp only
      split
      · rename_i heq
        exact .found (heq ▸ hpath)
      · rename_i hother
        split
        · rename_i hpassed
          cases hway : tree.wayTo? id target with
          | none => exact .lost hpath hother hpassed hway
          | some child =>
            obtain ⟨node, hlive, _⟩ := Option.map_eq_some_iff.mp hpath
            have hlt : id < child := hw.linked.lower (mem_children_of_wayTo? hway)
            refine .down hpath hother hpassed hway (ih (habove.cons hlive hlt) ?_)
            rw [List.length_cons]
            omega
        · rename_i hblocked
          exact .stopped hpath hother (Bool.eq_false_iff.mpr hblocked)

theorem guarded (h : tree.Seeks (fun _ => true) target id answer)
    (hcovers : ∀ path, tree.pathOf? id = some path → Path.covers path target = true) :
    tree.Seeks (Path.covers · target) target id answer := by
  induction h with
  | gone dead => exact .gone dead
  | found here => exact .found here
  | stopped _ _ blocked => cases blocked
  | lost named other _ noWay => exact .lost named other (hcovers _ named) noWay
  | down named other _ way _ ih =>
    exact .down named other (hcovers _ named) way (ih fun _ => covers_of_wayTo? way)

theorem under (h : tree.Seeks passes target id answer) (hw : tree.WellFormed)
    (hanswer : answer = some mid) : tree.arena.Under id mid := by
  induction h with
  | found here =>
    obtain rfl := Option.some.inj hanswer
    obtain ⟨node, hlive, _⟩ := Option.map_eq_some_iff.mp here
    exact .self hlive
  | @down id child path answer named _ _ way _ ih =>
    obtain ⟨node, hlive, _⟩ := Option.map_eq_some_iff.mp named
    exact (ih hanswer).trans
      (hw.linked.under_of_listed (mem_children_of_wayTo? way) (.self hlive))
  | _ => cases hanswer

theorem path_of_found (h : tree.Seeks passes target id answer) (hanswer : answer = some mid) :
    tree.pathOf? mid = some target := by
  induction h with
  | found here =>
    obtain rfl := Option.some.inj hanswer
    exact here
  | down _ _ _ _ _ ih => exact ih hanswer
  | _ => cases hanswer

end Seeks

theorem seeks_find? (hw : tree.WellFormed) (hroot : tree.root = some root) (path : String) :
    tree.Seeks (fun _ => true) (Path.normalize path) root (tree.find? path) := by
  rw [find?, hroot, Option.bind_some]
  exact Seeks.of_steps hw (fun _ => rfl) (fun _ _ => rfl) (.nil _ root) (Nat.le_refl _)

theorem seeks_owner? (hw : tree.WellFormed) (hroot : tree.root = some root) (changed : String) :
    tree.Seeks (Path.covers · (Path.normalize changed)) (Path.normalize changed) root
      (tree.owner? changed) := by
  rw [owner?, hroot, Option.bind_some]
  exact Seeks.of_steps hw (fun _ => rfl) (fun _ _ => rfl) (.nil _ root) (Nat.le_refl _)

/-- The change of a directory is followed to the node that a search for it finds below a root that
covers it. -/
theorem owner?_eq_some_iff (hw : tree.WellFormed) {changed : String} :
    tree.owner? changed = some id ↔
      (∃ top, tree.rootPath? = some top ∧ Path.covers top (Path.normalize changed) = true) ∧
        tree.find? changed = some id := by
  cases hroot : tree.root with
  | none => simp [owner?, find?, hroot]
  | some root =>
    have howner := seeks_owner? hw hroot changed
    obtain ⟨node, hlive, _⟩ := hw.root_live hroot
    have htop : tree.pathOf? root = some node.path := congrArg (Option.map Node.path) hlive
    have hrootPath : tree.rootPath? = some node.path := by
      rw [rootPath?, hroot, Option.bind_some, htop]
    by_cases hcovers : Path.covers node.path (Path.normalize changed) = true
    · have hfind := (seeks_find? hw hroot changed).guarded fun path hpath => by
        obtain rfl := Option.some.inj (htop.symm.trans hpath)
        exact hcovers
      rw [howner.unique hfind]
      exact ⟨fun h => ⟨⟨_, hrootPath, hcovers⟩, h⟩, And.right⟩
    · have hother : node.path ≠ Path.normalize changed := fun heq =>
        hcovers (heq ▸ Path.covers_self _)
      have hnone := howner.unique (.stopped htop hother (Bool.eq_false_iff.mpr hcovers))
      rw [hnone]
      refine iff_of_false (by simp) ?_
      rintro ⟨⟨top, hsame, hover⟩, _⟩
      obtain rfl := Option.some.inj (hrootPath.symm.trans hsame)
      exact hcovers hover

theorem issuedBy_followMoves (hw : tree.WellFormed) (fs : FileSystem σ) (changed : String) (s : σ) :
    issuedBy (followMoves fs changed tree s) = (tree.owner? changed).toList := by
  rw [← map_snd_issues tree, issues_followMoves hw]
  unfold turnOwner?
  cases tree.owner? changed <;> rfl

/-- The node of a changed directory: the root is bound and covers the directory, and a search for
the directory finds the node. -/
def Houses (tree : TreeView) (changed : String) (id : NodeId) : Prop :=
  (∃ top, tree.rootPath? = some top ∧ Path.covers top (Path.normalize changed) = true) ∧
    tree.find? changed = some id

end TreeView

namespace Session
variable {σ : Type}

/-- In every session a change is followed by a refresh of the node of the directory, of no other and
not recursive, and where there is no such node nothing is asked of any filesystem and nothing done.
The search for the node and the walk to it come to an end, whichever way they go. -/
theorem run_follows_found (fs : FileSystem σ) (filter : NameFilter) (volumes : VolumeMap)
    (world : σ) (actions : List (Action σ)) (changed : String) :
    let x := (start filter volumes world).run fs actions
    let followed := x.tree.follow fs changed x.world
    let moves := x.tree.followMoves fs changed x.world
    TreeView.Trail fs x.tree x.world moves followed.2.1 followed.2.2 ∧
    (∀ id, issuedBy moves = [id] ↔ x.tree.Houses changed id) ∧
    (∀ id, x.tree.Houses changed id →
      followed = ((x.tree.refresh fs id false x.world).1.map fun _ => true,
        (x.tree.refresh fs id false x.world).2) ∧
      ∀ i was node, x.tree.node? i = some was → followed.2.1.node? i = some node →
        node.generation = was.generation + if id = i then 1 else 0) ∧
    ((¬ ∃ id, x.tree.Houses changed id) →
      issuedBy moves = [] ∧
      ∀ (τ : Type) (other : FileSystem τ) (s : τ),
        x.tree.follow other changed s = (.ok false, x.tree, s)) ∧
    ∀ root, x.tree.root = some root →
      x.tree.Seeks (fun _ => true) (Path.normalize changed) root (x.tree.find? changed) ∧
      x.tree.Seeks (Path.covers · (Path.normalize changed)) (Path.normalize changed) root
        (x.tree.owner? changed) := by
  intro x followed moves
  have hw : x.tree.WellFormed := wellFormed_run (wellFormed_start filter volumes world) fs actions
  have htrail : TreeView.Trail fs x.tree x.world moves followed.2.1 followed.2.2 :=
    TreeView.follow_trail hw fs changed x.world
  have hissued : issuedBy moves = (x.tree.owner? changed).toList :=
    TreeView.issuedBy_followMoves hw fs changed x.world
  have howner {id : NodeId} : x.tree.owner? changed = some id ↔ x.tree.Houses changed id :=
    TreeView.owner?_eq_some_iff hw
  refine ⟨htrail, fun id => ?_, fun id hid => ⟨?_, fun i was node hwas hlive => ?_⟩,
    fun hnone => ?_, fun root hroot => ?_⟩
  · rw [hissued, ← howner]
    cases x.tree.owner? changed <;> simp
  · exact TreeView.follow_of_owner (howner.mpr hid) fs x.world
  · obtain ⟨_, hbefore, _, _, hgen⟩ :=
      (htrail.run.evolves hw).old hlive (Arena.id_bounds hwas).2
    obtain rfl := Option.some.inj (hwas.symm.trans hbefore)
    rw [hgen, hissued, howner.mpr hid, Option.toList_some, List.count_singleton]
    simp only [beq_iff_eq]
  · have hlost : x.tree.owner? changed = none :=
      Option.eq_none_iff_forall_ne_some.mpr fun id hid => hnone ⟨id, howner.mp hid⟩
    exact ⟨by rw [hissued, hlost]; rfl, fun _ other => TreeView.follow_of_no_owner hlost other⟩
  · exact ⟨TreeView.seeks_find? hw hroot changed, TreeView.seeks_owner? hw hroot changed⟩

/-- The change of a child is followed by its refresh. A shortcut that lies outside the drive is
found, but no change is followed to it. -/
theorem shortcut_is_not_followed :
    let x := (start .everything Settings.unset.volumeMap ()).run .endless
      [.operate (.select "/drive" 3)]
    (x.tree.Houses "/drive/A" 2 ∧
      x.tree.follow .endless "/drive/A" () =
        (.ok true, (x.tree.refresh .endless 2 false ()).2) ∧
      (x.tree.follow .endless "/drive/A" ()).2.1.children 2 = [6, 7]) ∧
    x.tree.find? "/drive_recent" = some 5 ∧ (¬ ∃ id, x.tree.Houses "/drive_recent" id) ∧
      ∀ (τ : Type) (other : FileSystem τ) (s : τ),
        x.tree.follow other "/drive_recent" s = (.ok false, x.tree, s) := by
  intro x
  have htop : x.tree.rootPath? = some "/drive" := by decide +kernel
  have hhouses : x.tree.Houses "/drive/A" 2 :=
    ⟨⟨"/drive", htop, by decide +kernel⟩, by decide +kernel⟩
  have hnone : ¬ ∃ id, x.tree.Houses "/drive_recent" id := by
    rintro ⟨id, ⟨top, hbound, hcovers⟩, _⟩
    obtain rfl := Option.some.inj (htop.symm.trans hbound)
    exact absurd hcovers (by decide +kernel)
  obtain ⟨_, _, hfollowed, _⟩ := run_follows_found .endless .everything Settings.unset.volumeMap ()
    [.operate (.select "/drive" 3)] "/drive/A"
  obtain ⟨_, _, _, hignored, _⟩ := run_follows_found .endless .everything
    Settings.unset.volumeMap () [.operate (.select "/drive" 3)] "/drive_recent"
  exact ⟨⟨hhouses, (hfollowed 2 hhouses).1.trans (Prod.ext (by decide +kernel) rfl),
    by decide +kernel⟩, by decide +kernel, hnone, (hignored hnone).2⟩

end Session

end LazyTree
