import LazyTree.Proofs.Following
import LazyTree.Proofs.Locality
import LazyTree.Proofs.Reissued
import LazyTree.Proofs.Watching

/-!
Batches of changed directories. They are in ascending order, which puts a directory behind those
that lie above it. So a refresh finds the node of its directory as the refreshes above it left the
node, and none that follows drops the node again.
-/
namespace LazyTree

namespace Path
variable {parent path : String}

theorem prefix_of_covers (h : covers parent path = true) : parent.toList <+: path.toList := by
  by_cases htop : parent = "/"
  · rw [htop] at h ⊢
    obtain ⟨rest, hrest⟩ := covers_top_iff.mp h
    exact ⟨rest, hrest.symm⟩
  · cases (covers_iff htop).mp h with
    | inl heq => exact heq ▸ List.prefix_refl _
    | inr hbelow =>
      obtain ⟨rest, hrest⟩ := hbelow
      exact ⟨'/' :: rest, hrest.symm⟩

theorem not_covers_of_lt (h : compare path parent = .lt) : covers parent path = false := by
  have hlt : path < parent := compareOfLessAndEq_eq_lt.mp h
  refine Bool.eq_false_iff.mpr fun hcovers => ?_
  exact (prefix_of_covers hcovers).le (String.lt_iff.mp hlt)

end Path

variable {paths : List String}

theorem pairwise_insertPath (path : String) (h : paths.Pairwise (compare · · = .lt)) :
    (insertPath path paths).Pairwise (compare · · = .lt) := by
  fun_induction insertPath path paths with
  | case1 => exact List.pairwise_singleton _ _
  | case2 p rest hlt =>
    refine List.pairwise_cons.mpr ⟨fun other hother => ?_, h⟩
    cases List.mem_cons.mp hother with
    | inl heq => exact heq ▸ hlt
    | inr hrest => exact Std.TransCmp.lt_trans hlt (List.rel_of_pairwise_cons h hrest)
  | case3 p rest heq => exact h
  | case4 p rest hgt ih =>
    obtain ⟨hp, hrest⟩ := List.pairwise_cons.mp h
    refine List.pairwise_cons.mpr ⟨fun other hother => ?_, ih hrest⟩
    cases mem_insertPath.mp hother with
    | inl heq => exact heq ▸ Std.OrientedCmp.gt_iff_lt.mp hgt
    | inr hmem => exact hp other hmem

theorem pairwise_ascending (paths : List String) :
    (ascending paths).Pairwise (compare · · = .lt) := by
  induction paths with
  | nil => exact .nil
  | cons path rest ih => exact pairwise_insertPath path ih

namespace TreeView
variable {σ : Type} {tree last : TreeView} {id n : NodeId} {path dir : String} {s : σ}
variable {dirs : List String} {issued : List NodeId}

/-- The node is live, and the paths of the nodes above it cover `path`. -/
structure Sheltered (tree : TreeView) (path : String) (id : NodeId) : Prop where
  live : ∃ node, tree.arena.get? id = some node
  above : ∀ top, tree.arena.Under top id →
    ∃ outer, tree.pathOf? top = some outer ∧ Path.covers outer path = true

theorem Seeks.covers_above {top mid : NodeId} {answer : Option NodeId}
    (h : tree.Seeks (Path.covers · path) path top answer) (hw : tree.WellFormed)
    (hanswer : answer = some id) (hmid : tree.arena.Under top mid) (hid : tree.arena.Under mid id) :
    ∃ outer, tree.pathOf? mid = some outer ∧ Path.covers outer path = true := by
  induction h with
  | @found top here =>
    obtain rfl := Option.some.inj hanswer
    have hsame : mid = top := hw.linked.under_antisymm hid hmid
    exact ⟨path, hsame ▸ here, Path.covers_self path⟩
  | @down top child outer answer named _ passed way rest ih =>
    have hlisted := mem_children_of_wayTo? way
    -- The node lies on the rest of the walk, or it is where the walk is now.
    cases (rest.under hw hanswer).comparable hid with
    | inl hbelow => exact ih hanswer hbelow
    | inr habove =>
      cases (hw.linked.under_listed_iff hlisted).mp habove with
      | inl heq =>
        obtain ⟨_, hlive⟩ := habove.live
        exact ih hanswer (heq ▸ .self hlive)
      | inr hover =>
        have hsame : mid = top := hw.linked.under_antisymm hover hmid
        exact ⟨outer, hsame ▸ named, passed⟩
  | _ => cases hanswer

theorem bound_of_owner? (howner : tree.owner? dir = some id) : ∃ root, tree.root = some root := by
  cases hroot : tree.root with
  | none => simp [owner?, hroot] at howner
  | some root => exact ⟨root, rfl⟩

theorem pathOf?_owner? (hw : tree.WellFormed) (howner : tree.owner? dir = some id) :
    tree.pathOf? id = some (Path.normalize dir) := by
  obtain ⟨root, hroot⟩ := bound_of_owner? howner
  exact (seeks_owner? hw hroot dir).path_of_found howner

theorem sheltered_of_owner? (hw : tree.WellFormed) (howner : tree.owner? dir = some id) :
    tree.Sheltered (Path.normalize dir) id := by
  obtain ⟨root, hroot⟩ := bound_of_owner? howner
  have hwalk := seeks_owner? hw hroot dir
  refine ⟨(hwalk.under hw howner).live, fun top htop => ?_⟩
  obtain ⟨_, hlive⟩ := htop.top_live
  obtain ⟨root', hroot', hunder⟩ := hw.under_root hlive
  obtain rfl := Option.some.inj (hroot.symm.trans hroot')
  exact hwalk.covers_above hw howner hunder htop

theorem Sheltered.evolves (h : tree.Sheltered path id) (hw : tree.WellFormed)
    (he : Arena.Evolves issued tree.arena last.arena)
    (hlive : ∃ node, last.arena.get? id = some node) : last.Sheltered path id := by
  obtain ⟨was, hwas⟩ := h.live
  refine ⟨hlive, fun top htop => ?_⟩
  have hbefore := he.under_before hw.linked htop hwas
  obtain ⟨outer, hover, hcovers⟩ := h.above top hbefore
  obtain ⟨node, hnode, hpath⟩ := Option.map_eq_some_iff.mp hover
  obtain ⟨now, hnow⟩ := htop.top_live
  exact ⟨outer, Option.map_eq_some_iff.mpr ⟨now, hnow, (he.lived hnode hnow).1.trans hpath⟩,
    hcovers⟩

theorem wellFormed_follow (hw : tree.WellFormed) (fs : FileSystem σ) (dir : String) (s : σ) :
    (follow fs dir tree s).2.1.WellFormed := (follow_trail hw fs dir s).run.wellFormed hw

theorem sheltered_after_own (hw : tree.WellFormed) (howner : tree.owner? dir = some id)
    (fs : FileSystem σ) (s : σ) :
    (follow fs dir tree s).2.1.Sheltered (Path.normalize dir) id := by
  have hbefore := sheltered_of_owner? hw howner
  obtain ⟨_, hlive⟩ := hbefore.live
  refine hbefore.evolves hw ((follow_trail hw fs dir s).run.evolves hw) ?_
  rw [follow_of_owner howner, refresh, refreshWith_false_eq hw]
  exact visit_live hw hlive ..

theorem Sheltered.follow (h : tree.Sheltered path id) (hw : tree.WellFormed)
    (hnot : Path.covers (Path.normalize dir) path = false) (fs : FileSystem σ) (s : σ) :
    (follow fs dir tree s).2.1.Sheltered path id := by
  refine h.evolves hw ((follow_trail hw fs dir s).run.evolves hw) ?_
  obtain ⟨node, hlive⟩ := h.live
  cases howner : tree.owner? dir with
  | none => exact ⟨node, by rw [follow_of_no_owner howner]; exact hlive⟩
  | some top =>
    -- A node above is at a path that covers, and `dir` is no such path.
    have hapart : ¬ tree.arena.Under top id := fun hu => by
      obtain ⟨outer, hover, hcovers⟩ := h.above top hu
      obtain rfl := Option.some.inj ((pathOf?_owner? hw howner).symm.trans hover)
      exact Bool.false_ne_true (hnot.symm.trans hcovers)
    rw [follow_of_owner howner]
    exact ⟨node, refresh_untouched hw hlive hapart fs false s⟩

/-- One directory of a batch: what was there when its turn came, the answer, and what was left. -/
structure Handling (σ : Type) where
  dir : String
  before : TreeView × σ
  answer : Except Failure Bool
  after : TreeView × σ

/-- The directories of a batch, handled in turn. -/
def handlings (fs : FileSystem σ) : List String → TreeView × σ → List (Handling σ)
  | [], _ => []
  | dir :: dirs, before =>
    let result := follow fs dir before.1 before.2
    ⟨dir, before, result.1, result.2⟩ :: handlings fs dirs result.2

namespace Handling
variable {fs : FileSystem σ} {h : Handling σ} {done rest : List (Handling σ)}
variable {before : TreeView × σ}

def refreshed (h : Handling σ) : Bool :=
  match h.answer with
  | .ok hit => hit
  | .error _ => false

def bumped (h : Handling σ) (n : NodeId) : Handling σ :=
  { h with
    before := (h.before.1.bumped n, h.before.2)
    after := (h.after.1.bumped n, h.after.2) }

/-- The tree and the filesystem that the handlings leave. -/
def left (before : TreeView × σ) (batch : List (Handling σ)) : TreeView × σ :=
  batch.foldl (fun _ h => h.after) before

theorem map_dir (fs : FileSystem σ) (dirs : List String) (before : TreeView × σ) :
    (handlings fs dirs before).map Handling.dir = dirs := by
  induction dirs generalizing before with
  | nil => rfl
  | cons dir dirs ih => exact congrArg (dir :: ·) (ih _)

theorem followDirs_eq (fs : FileSystem σ) (dirs : List String) (any : Bool) (tree : TreeView)
    (s : σ) :
    followDirs fs dirs any tree s =
      (any || (handlings fs dirs (tree, s)).any refreshed,
        left (tree, s) (handlings fs dirs (tree, s))) := by
  induction dirs generalizing any tree s with
  | nil => simp [followDirs, handlings, left]
  | cons dir dirs ih =>
    simp only [followDirs, handlings, left, List.foldl_cons, List.any_cons, refreshed]
    generalize TreeView.follow fs dir tree s = result
    obtain ⟨answer, tree', s'⟩ := result
    cases answer with
    | error e => simp only [ih, left, Bool.false_or]
    | ok hit => simp only [ih, left, Bool.or_assoc]

theorem of_split (hw : before.1.WellFormed)
    (hsplit : handlings fs dirs before = done ++ h :: rest) :
    h.before.1.WellFormed ∧ (h.answer, h.after) = TreeView.follow fs h.dir h.before.1 h.before.2 ∧
      rest = handlings fs (rest.map Handling.dir) h.after := by
  induction done generalizing dirs before with
  | nil =>
    cases dirs with
    | nil => simp [handlings] at hsplit
    | cons dir dirs =>
      obtain ⟨rfl, rfl⟩ := List.cons.inj hsplit
      exact ⟨hw, rfl, by rw [map_dir]⟩
  | cons first done ih =>
    cases dirs with
    | nil => simp [handlings] at hsplit
    | cons dir dirs =>
      obtain ⟨_, hrest⟩ := List.cons.inj hsplit
      exact ih (wellFormed_follow hw fs dir before.2) hrest

theorem refreshed_iff
    (hfollows : (h.answer, h.after) = TreeView.follow fs h.dir h.before.1 h.before.2) :
    h.refreshed = true ↔ ∃ id totals, h.before.1.owner? h.dir = some id ∧
      (refresh fs id false h.before.1 h.before.2).1 = .ok totals := by
  have hanswer : h.answer = (TreeView.follow fs h.dir h.before.1 h.before.2).1 :=
    congrArg Prod.fst hfollows
  cases howner : h.before.1.owner? h.dir with
  | none => simp [refreshed, hanswer, follow_of_no_owner howner]
  | some id =>
    rw [follow_of_owner howner] at hanswer
    cases hrefresh : (refresh fs id false h.before.1 h.before.2).1 with
    | error e => simp [refreshed, hanswer, hrefresh, Except.map]
    | ok totals => simp [refreshed, hanswer, hrefresh, Except.map]

theorem handlings_bumped (hw : tree.WellFormed) (hn : n < tree.arena.nextId) (fs : FileSystem σ)
    (dirs : List String) (s : σ) :
    handlings fs dirs (tree.bumped n, s) = (handlings fs dirs (tree, s)).map (bumped · n) := by
  induction dirs generalizing tree s with
  | nil => rfl
  | cons dir dirs ih =>
    have hgrown : n < (TreeView.follow fs dir tree s).2.1.arena.nextId :=
      Nat.lt_of_lt_of_le hn ((follow_trail hw fs dir s).run.evolves hw).grows
    simp only [handlings, List.map_cons, follow_bumped hw hn]
    rw [ih (wellFormed_follow hw fs dir s) hgrown]
    rfl

/-- A failed refresh is a count at its node; but for that, the directories behind it are handled as
if there had been nothing to refresh. -/
theorem of_error (hw : before.1.WellFormed) (hsplit : handlings fs dirs before = done ++ h :: rest)
    {e : Failure} (he : h.answer = .error e) :
    ∃ id, h.before.1.owner? h.dir = some id ∧ h.after.1 = h.before.1.bumped id ∧
      rest = (handlings fs (rest.map Handling.dir) (h.before.1, h.after.2)).map (bumped · id) := by
  obtain ⟨hbefore, hfollows, hrest⟩ := of_split hw hsplit
  have hfailed := (congrArg Prod.fst hfollows).symm.trans he
  obtain ⟨id, howner, hbumped⟩ := follow_error hbefore hfailed
  have hafter : h.after.1 = h.before.1.bumped id :=
    (congrArg (fun result => result.2.1) hfollows).trans hbumped
  refine ⟨id, howner, hafter, ?_⟩
  obtain ⟨_, hlive⟩ := (sheltered_of_owner? hbefore howner).live
  rw [← handlings_bumped hbefore (Arena.id_bounds hlive).2, ← hafter]
  exact hrest

end Handling

theorem Sheltered.handlings (h : tree.Sheltered path id) (hw : tree.WellFormed)
    (hdirs : ∀ dir ∈ dirs, Path.covers (Path.normalize dir) path = false) (fs : FileSystem σ)
    (s : σ) : ∀ later ∈ handlings fs dirs (tree, s), later.after.1.holds id = true := by
  induction dirs generalizing tree s with
  | nil =>
    intro later hlater
    cases hlater
  | cons dir dirs ih =>
    have hnext := h.follow hw (hdirs dir List.mem_cons_self) fs s
    intro later hlater
    cases List.mem_cons.mp hlater with
    | inl heq =>
      rw [heq, holds, Arena.contains_iff]
      exact hnext.live
    | inr hrest =>
      exact ih hnext (wellFormed_follow hw fs dir s)
        (fun dir hdir => hdirs dir (List.mem_cons_of_mem _ hdir)) _ later hrest

theorem handlings_pairwise (hw : tree.WellFormed)
    (hdirs : dirs.Pairwise fun earlier later => Path.covers later earlier = false)
    (hnormal : ∀ dir ∈ dirs, Path.Normal dir) (fs : FileSystem σ) (s : σ) :
    (handlings fs dirs (tree, s)).Pairwise fun earlier later =>
      Path.covers later.dir earlier.dir = false ∧
        ∀ id, earlier.before.1.owner? earlier.dir = some id → later.after.1.holds id = true := by
  induction dirs generalizing tree s with
  | nil => exact .nil
  | cons dir dirs ih =>
    obtain ⟨hfirst, hrest⟩ := List.pairwise_cons.mp hdirs
    have hnormal' (later : String) (hlater : later ∈ dirs) : Path.Normal later :=
      hnormal later (List.mem_cons_of_mem _ hlater)
    refine List.pairwise_cons.mpr ⟨fun later hlater => ⟨?_, fun id howner => ?_⟩,
      ih (wellFormed_follow hw fs dir s) hrest hnormal' _⟩
    · have hmem := List.mem_map_of_mem (f := Handling.dir) hlater
      rw [Handling.map_dir] at hmem
      exact hfirst later.dir hmem
    · refine (sheltered_after_own hw howner fs s).handlings (wellFormed_follow hw fs dir s)
        (fun other hother => ?_) fs _ later hlater
      rw [hnormal' other hother, hnormal dir List.mem_cons_self]
      exact hfirst other hother

end TreeView

namespace Session
variable {σ : Type}

/-- In every session a batch of changed directories is handled to its end: each directory once,
behind those above it, and `true` is the answer if a refresh succeeded. A refresh that fails leaves
a count and is otherwise as good as none, and what is refreshed stays in the tree. -/
theorem run_handles_batch (fs : FileSystem σ) (filter : NameFilter) (volumes : VolumeMap)
    (world : σ) (actions : List (Action σ)) (dirs : List String)
    (hdirs : ∀ dir ∈ dirs, Path.Normal dir) :
    let x := (start filter volumes world).run fs actions
    let batch := TreeView.handlings fs (ascending dirs) (x.tree, x.world)
    x.tree.followAll fs (.ofDirs dirs) x.world =
      (.ok (batch.any TreeView.Handling.refreshed),
        TreeView.Handling.left (x.tree, x.world) batch) ∧
    (batch.map TreeView.Handling.dir).Nodup ∧
    (∀ dir, dir ∈ batch.map TreeView.Handling.dir ↔ dir ∈ dirs) ∧
    batch.Pairwise (fun earlier later =>
      Path.covers later.dir earlier.dir = false ∧
        ∀ id, earlier.before.1.owner? earlier.dir = some id → later.after.1.holds id = true) ∧
    (∀ h ∈ batch, h.refreshed = true ↔ ∃ id totals, h.before.1.owner? h.dir = some id ∧
      (h.before.1.refresh fs id false h.before.2).1 = .ok totals) ∧
    ∀ done h rest e, batch = done ++ h :: rest → h.answer = .error e →
      ∃ id, h.before.1.owner? h.dir = some id ∧ h.after.1 = h.before.1.bumped id ∧
        rest = (TreeView.handlings fs (rest.map TreeView.Handling.dir)
          (h.before.1, h.after.2)).map (TreeView.Handling.bumped · id) := by
  intro x batch
  have hw : x.tree.WellFormed := wellFormed_run (wellFormed_start filter volumes world) fs actions
  have hmap : batch.map TreeView.Handling.dir = ascending dirs := TreeView.Handling.map_dir ..
  have hsorted := pairwise_ascending dirs
  refine ⟨?_, ?_, fun dir => ?_, ?_, fun h hmem => ?_, fun done h rest e hsplit he => ?_⟩
  · have hdone := TreeView.Handling.followDirs_eq fs (ascending dirs) false x.tree x.world
    rw [Bool.false_or] at hdone
    simp only [TreeView.followAll, Touched.ofDirs, hdone]
    rfl
  · rw [hmap]
    refine hsorted.imp fun {a b} hlt heq => ?_
    have hself : compare b b = .eq := Std.ReflCmp.compare_self
    rw [heq, hself] at hlt
    cases hlt
  · rw [hmap, mem_ascending]
  · exact TreeView.handlings_pairwise hw (hsorted.imp Path.not_covers_of_lt)
      (fun dir hdir => hdirs dir (mem_ascending.mp hdir)) fs x.world
  · obtain ⟨done, rest, hsplit⟩ := List.append_of_mem hmem
    exact TreeView.Handling.refreshed_iff (TreeView.Handling.of_split hw hsplit).2.1
  · exact TreeView.Handling.of_error hw hsplit he

/-- The middle one of three directories cannot be listed. -/
theorem middle_failure_stops_nothing :
    let x := (start .everything ⟨"/net", [], "", "", [], []⟩ twoBranches).run Scripted.fileSystem
      [.operate (.select "/a" 2), .operate (.expand 2), .operate (.expand 3),
        .drift { twoBranches with failures := [("/a/b", .permissionDenied)] }]
    let batch := TreeView.handlings Scripted.fileSystem (ascending ["/a/c", "/a/b", "/a"])
      (x.tree, x.world)
    (∀ dir ∈ ["/a/c", "/a/b", "/a"], Path.Normal dir) ∧
      batch.map TreeView.Handling.dir = ["/a", "/a/b", "/a/c"] ∧
      batch.map TreeView.Handling.refreshed = [true, false, true] ∧
      (x.tree.followAll Scripted.fileSystem (.ofDirs ["/a/c", "/a/b", "/a"]) x.world).1 =
        .ok (batch.any TreeView.Handling.refreshed) := by
  intro x batch
  have hdirs : ∀ dir ∈ ["/a/c", "/a/b", "/a"], Path.Normal dir := by
    unfold Path.Normal
    decide +kernel
  refine ⟨hdirs, by decide +kernel, by decide +kernel, ?_⟩
  exact congrArg Prod.fst (run_handles_batch Scripted.fileSystem .everything
    ⟨"/net", [], "", "", [], []⟩ twoBranches
    [.operate (.select "/a" 2), .operate (.expand 2), .operate (.expand 3),
      .drift { twoBranches with failures := [("/a/b", .permissionDenied)] }]
    ["/a/c", "/a/b", "/a"] hdirs).1

end Session

end LazyTree
