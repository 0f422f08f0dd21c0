import LazyTree.Proofs.Descent
import LazyTree.Proofs.Names
import LazyTree.Proofs.Structure
import LazyTree.Proofs.Walk
import LazyTree.Settings
import Mathlib.Data.List.Pairwise

/-!
Finding nodes by their paths. The search walks down from the root along the first child on the way
and never turns back. It is complete where siblings do not cover one another: directories are told
apart by their names, and shortcuts have to lie apart from the remote root and from each other.
-/
namespace LazyTree
variable {σ : Type} {fs : FileSystem σ} {volumes : VolumeMap} {scope : Scope}

namespace Path
variable {dir a b : String}

theorem child_inj : child dir a = child dir b ↔ a = b := by
  unfold child
  split <;> simp

end Path

namespace VolumeMap

/-- No search root lies at, above or below the remote root, and none lies below another. -/
def Separate (volumes : VolumeMap) : Prop :=
  ∀ root ∈ volumes.searchRoots, Path.covers volumes.remoteRoot root.path = false ∧
    Path.covers root.path volumes.remoteRoot = false ∧
    ∀ other ∈ volumes.searchRoots, Path.covers root.path other.path = true → root.path = other.path

instance (volumes : VolumeMap) : Decidable volumes.Separate :=
  inferInstanceAs (Decidable (∀ root ∈ volumes.searchRoots, _ ∧ _ ∧ _))

structure Normalized (volumes : VolumeMap) : Prop where
  remoteRoot : Path.Normal volumes.remoteRoot
  searchRoots : ∀ root ∈ volumes.searchRoots, Path.Normal root.path

theorem Normalized.rootOf (h : volumes.Normalized) {target : String} (ht : Path.Normal target) :
    Path.Normal (volumes.rootOf target) := by
  unfold VolumeMap.rootOf
  split
  · exact h.remoteRoot
  · split
    · exact ht.firstSegments _
    · exact ht.firstSegments _

/-- The path of a shortcut that is listed in a directory. -/
def ShortcutIn (volumes : VolumeMap) (dir path : String) : Prop :=
  dir = volumes.remoteRoot ∧ ∃ root ∈ volumes.searchRoots, path = root.path

/-- How the children of a directory may lie: right below it, each path once, or as shortcuts. -/
structure Lays (volumes : VolumeMap) (dir : String) (paths : List String) : Prop where
  below : ∀ path ∈ paths, (∃ name, Path.IsName name ∧ path = Path.child dir name) ∨
    volumes.ShortcutIn dir path
  once : paths.Pairwise fun a b => a = b → volumes.ShortcutIn dir a

theorem lays_nil (volumes : VolumeMap) (dir : String) : volumes.Lays dir [] := ⟨by simp, .nil⟩

theorem once_arrangeRemote {handles : List Handle} (h : (handles.map Handle.path).Nodup) :
    (volumes.arrangeRemote handles).Pairwise fun a b =>
      a.path = b.path → volumes.ShortcutIn volumes.remoteRoot a.path := by
  rw [arrangeRemote, List.pairwise_append]
  have hshortcut : ∀ handle ∈ volumes.searchRoots.map SearchRoot.handle,
      volumes.ShortcutIn volumes.remoteRoot handle.path := by
    intro handle hmem
    obtain ⟨root, hroot, rfl⟩ := List.mem_map.mp hmem
    exact ⟨rfl, root, hroot, rfl⟩
  refine ⟨?_, ?_, fun a _ b hb heq => heq ▸ hshortcut b hb⟩
  · rw [List.pairwise_map]
    have hkept := ((List.pairwise_map.mp h).filter
      fun handle => !volumes.remoteHidden.contains handle.name)
    refine hkept.imp fun {a b} hne heq => absurd ?_ hne
    split at heq <;> split at heq <;> exact heq
  · exact List.pairwise_of_forall_mem_list fun a ha b _ _ => hshortcut a ha

end VolumeMap

/-- Each directory lists a name once. -/
def FileSystem.ListsOnce (fs : FileSystem σ) : Prop :=
  ∀ {s dir entries}, (fs.enumerate s dir).1 = .ok entries → (entries.map Entry.name).Nodup

theorem visible_once (hfs : fs.ListsBelow scope.Filter Path.IsName) (honce : fs.ListsOnce)
    {filter : NameFilter} (hfilter : scope.Filter filter) {s : σ} {dir : String}
    {entries : List Entry} (henumerate : (fs.enumerate s dir).1 = .ok entries) :
    ((visibleHandles filter entries).map Handle.path).Nodup := by
  rw [visibleHandles, List.map_map]
  refine List.pairwise_map.mpr ?_
  have hnames := (List.pairwise_map.mp (honce henumerate)).filter filter.shows
  refine hnames.imp_of_mem fun {a b} ha hb hne heq => hne ?_
  obtain ⟨ha, hshowsA⟩ := List.mem_filter.mp ha
  obtain ⟨hb, hshowsB⟩ := List.mem_filter.mp hb
  have hpathA := (hfs.listed henumerate hfilter a ha hshowsA).1
  have hpathB := (hfs.listed henumerate hfilter b hb hshowsB).1
  have hpaths : a.path = b.path := heq
  rwa [hpathA, hpathB, Path.child_inj] at hpaths

theorem lays_fetched (hfs : fs.ListsBelow scope.Filter Path.IsName) (honce : fs.ListsOnce)
    {handle : Handle} {listing : Listing} (hfetched : scope.Fetched fs handle listing) :
    scope.volumes.Lays handle.path (listing.entries.map Handle.path) := by
  have hbelow := (hfs.lays.fetched hfetched).2
  obtain ⟨filter, s, hfilter, hfetch⟩ := hfetched
  refine ⟨fun path hpath => ?_, List.pairwise_map.mpr ?_⟩
  · obtain ⟨listed, hmem, rfl⟩ := List.mem_map.mp hpath
    refine (hbelow listed hmem).2.imp_right ?_
    rintro ⟨htop, root, hroot, rfl⟩
    exact ⟨htop, root, hroot, rfl⟩
  have harranged {s : σ} {dir : String} {entries : List Entry}
      (henumerate : (fs.enumerate s dir).1 = .ok entries) :
      (arrange filter scope.volumes handle entries).Pairwise fun a b =>
        a.path = b.path → scope.volumes.ShortcutIn handle.path a.path := by
    have honce := visible_once hfs honce hfilter henumerate
    refine ((perm_sortSiblings _).pairwise_iff ?_).mpr ?_
    · exact fun {a b} hab heq => heq ▸ hab heq.symm
    · by_cases htop : handle.path = scope.volumes.remoteRoot
      · simp only [VolumeMap.isRemoteTop, htop, decide_true, if_true]
        exact VolumeMap.once_arrangeRemote honce
      · simp only [VolumeMap.isRemoteTop, htop, decide_false, Bool.false_eq_true, if_false]
        exact (List.pairwise_map.mp honce).imp fun hne heq => absurd heq hne
  rcases fetchVisible_ok hfetch with ⟨_, rfl⟩ | ⟨_, hlist⟩ | ⟨found, _, _, _, hlist⟩
  · exact .nil
  · obtain ⟨entries, henumerate, rfl⟩ := listDirectory_ok hlist
    exact harranged henumerate
  · obtain ⟨entries, henumerate, rfl⟩ := listDirectory_ok hlist
    exact harranged henumerate

namespace TreeView
variable {tree tree' : TreeView} {id : NodeId} {node : Node}

def Laid (volumes : VolumeMap) (tree : TreeView) : Prop :=
  ∀ id node, tree.arena.get? id = some node → volumes.Lays node.path (tree.childPaths id)

theorem childPaths_of_face
    (hsame : ∀ id, (tree'.arena.get? id).map Node.face = (tree.arena.get? id).map Node.face)
    (id : NodeId) : tree'.childPaths id = tree.childPaths id := by
  have hpath (i : NodeId) : tree'.pathOf? i = tree.pathOf? i := by
    have := congrArg (Option.map Prod.fst) (hsame i)
    simpa [pathOf?, node?, Node.face, Function.comp_def] using this
  have hchildren : tree'.children id = tree.children id := by
    have := congrArg (Option.map fun face => face.2.2) (hsame id)
    simp only [Option.map_map, Function.comp_def, Node.face] at this
    rw [children, children, Arena.childrenOf_eq_getD, Arena.childrenOf_eq_getD]
    exact congrArg (Option.getD · []) this
  rw [childPaths, childPaths, hchildren]
  exact List.filterMap_congr fun i _ => hpath i

theorem Laid.of_face (h : tree.Laid volumes)
    (hsame : ∀ id, (tree'.arena.get? id).map Node.face = (tree.arena.get? id).map Node.face) :
    tree'.Laid volumes := by
  intro id node hlive
  obtain ⟨was, hwas, heq⟩ := Arena.live_of_map_get?_eq (hsame id).symm hlive
  have hpath : was.path = node.path := congrArg Prod.fst heq
  rw [childPaths_of_face hsame, ← hpath]
  exact h id was hwas

theorem Laid.applied (h : tree.Laid volumes) (hw : tree.WellFormed) {target : NodeId}
    (hlive : tree.arena.get? target = some node) {listing : Listing} {children : List NodeId}
    (ha : Applied tree tree' target node listing children)
    (hfit : tree'.HandlesFit fun _ => True)
    (hlays : volumes.Lays node.path (listing.entries.map Handle.path)) : tree'.Laid volumes := by
  have hw' := ha.wellFormed hw hlive
  have hevolves := ha.evolves hlive
  have hsame {id : NodeId} {was now : Node} (hwas : tree.arena.get? id = some was)
      (hnow : tree'.arena.get? id = some now) (hpath : now.path = was.path)
      (hchildren : now.children = was.children) :
      volumes.Lays now.path (tree'.childPaths id) := by
    have hkept : tree'.children id = tree.children id :=
      (Arena.childrenOf_of_live hnow).trans
        (hchildren.trans (Arena.childrenOf_of_live hwas).symm)
    rw [childPaths_eq hw hw' hevolves hkept, hpath]
    exact h id was hwas
  intro id now hnow
  cases ha.relisted.origin hnow with
  | self eq =>
    rw [eq, ← map_path_childHandles hfit, ha.childHandles]
    exact hlays
  | added _ _ _ =>
    have hnone : tree'.children id = [] := Arena.childrenOf_of_live hnow
    rw [childPaths_of_empty hnone]
    exact volumes.lays_nil _
  | @kept listed was _ live _ _ => exact hsame live hnow rfl rfl
  | untouched _ _ live => exact hsame live hnow rfl rfl

theorem laid_of_childless (h : ∀ id node, tree.arena.get? id = some node → node.children = []) :
    tree.Laid volumes := by
  intro id node hlive
  have hnone : tree.children id = [] := (Arena.childrenOf_of_live hlive).trans (h id node hlive)
  rw [childPaths_of_empty hnone]
  exact volumes.lays_nil _

theorem keeps_laid (hfs : fs.ListsBelow scope.Filter Path.IsName) (honce : fs.ListsOnce) :
    scope.Keeps fs (fun tree => tree.Descending scope Path.IsName ∧ tree.Laid scope.volumes)
      (Directs scope Path.IsName) where
  issue := fun recursive hw h hlive => h.1.directs hw hlive recursive
  act := by
    intro tree move hw h hmove hticket hsettle
    have hkept := (keeps_descending hfs).act hw h.1 hmove hticket hsettle
    refine ⟨⟨hkept.1, ?_⟩, hkept.2⟩
    cases move with
    | apply ticket fetched =>
      rcases applyFetched_cases hw ticket fetched with
        hsame | ⟨node, listing, children, rfl, hlive, _, happlied⟩
      · rw [act, hsame]
        exact h.2
      · have hpath : ticket.handle.path = node.path := (hticket ticket _ rfl).knows.2 node hlive
        exact h.2.applied hw hlive happlied hkept.1.handles (hpath ▸ lays_fetched hfs honce hmove)
    | clear => exact laid_of_childless fun _ _ hlive => by simp [act, clear] at hlive
    | bindTo top =>
      exact laid_of_childless fun _ _ hlive => by rw [get?_bindTo hlive]; rfl
    | _ => exact h.2.of_face (face_act_of_kept tree (by simp) (by simp) (by simp))

theorem wayTo?_eq {parent child : NodeId} {target : String} (hchild : child ∈ tree.children parent)
    (hlive : tree.arena.get? child = some node) (hcovers : Path.covers node.path target = true)
    (honly : ∀ other ∈ tree.children parent, ∀ path, tree.pathOf? other = some path →
      Path.covers path target = true → other = child) :
    tree.wayTo? parent target = some child := by
  have hpath : tree.pathOf? child = some node.path := congrArg (Option.map Node.path) hlive
  unfold wayTo?
  cases hfind : (tree.children parent).find? _ with
  | none => simpa [hpath, hcovers] using List.find?_eq_none.mp hfind child hchild
  | some other =>
    have hother := List.find?_some hfind
    cases hq : tree.pathOf? other with
    | none => simp [hq] at hother
    | some path =>
      rw [hq] at hother
      rw [honly other (List.mem_of_find?_eq_some hfind) path hq hother]

theorem Laid.shortcut_of_same (h : tree.Laid volumes) (hw : tree.WellFormed) {parent a b : NodeId}
    {path : String} (hlive : tree.arena.get? parent = some node) (ha : a ∈ tree.children parent)
    (hb : b ∈ tree.children parent) (hne : a ≠ b) (hpathA : tree.pathOf? a = some path)
    (hpathB : tree.pathOf? b = some path) : volumes.ShortcutIn node.path path := by
  have honce := (h parent node hlive).once
  have hlists := map_pathOf?_children hw parent
  have hpairs : (tree.children parent).Pairwise fun a b =>
      ∀ p, tree.pathOf? a = some p → tree.pathOf? b = some p →
        volumes.ShortcutIn node.path p := by
    have hmapped : ((tree.childPaths parent).map some).Pairwise fun a b =>
        ∀ p, a = some p → b = some p → volumes.ShortcutIn node.path p := by
      refine List.pairwise_map.mpr (honce.imp fun {a b} hab p hp hq => ?_)
      obtain rfl := Option.some.inj hp
      exact hab (Option.some.inj hq).symm
    rw [← hlists] at hmapped
    exact List.pairwise_map.mp hmapped
  have hsymm : Std.Symm fun a b => ∀ p, tree.pathOf? a = some p → tree.pathOf? b = some p →
      volumes.ShortcutIn node.path p := ⟨fun _ _ hab p hp hq => hab p hq hp⟩
  exact hpairs.forall ha hb hne path hpathA hpathB

/-- What a search for a path needs of a tree. -/
structure Searchable (volumes : VolumeMap) (tree : TreeView) : Prop where
  wellFormed : tree.WellFormed
  descending : tree.Descending ⟨volumes, fun _ => True, Path.Normal⟩ Path.IsName
  laid : tree.Laid volumes
  normalized : volumes.Normalized
  separate : volumes.Separate

namespace Searchable

theorem normal (h : tree.Searchable volumes) (hd : tree.arena.Descends Path.IsName id)
    (hlive : tree.arena.get? id = some node) : Path.Normal node.path := by
  obtain ⟨root, hroot, _⟩ := h.wellFormed.under_root hlive
  obtain ⟨top, htop, hup⟩ := h.wellFormed.root_live hroot
  exact (h.wellFormed.names hd hlive hroot htop (h.descending.top htop hup) fun _ hname => hname).1

theorem apart (h : tree.Searchable volumes) {dir path : String}
    (hs : volumes.ShortcutIn dir path) {name : String} (hname : Path.IsName name) :
    path ≠ Path.child dir name := by
  obtain ⟨rfl, root, hroot, rfl⟩ := hs
  intro heq
  have hnot := (h.separate root hroot).1
  have hcovers : Path.covers volumes.remoteRoot root.path = true :=
    heq ▸ h.normalized.remoteRoot.covers_child hname
  simp [hnot] at hcovers

theorem wayTo?_child (h : tree.Searchable volumes) {parent : NodeId} {above : Node}
    {name target : String} (hlive : tree.arena.get? id = some node)
    (hup : node.parent = some parent) (hover : tree.arena.get? parent = some above)
    (hnormal : Path.Normal above.path) (hname : Path.IsName name)
    (hpath : node.path = Path.child above.path name) (htarget : Path.Normal target)
    (hcovers : Path.covers node.path target = true) :
    tree.wayTo? parent target = some id := by
  have hlisted : id ∈ tree.children parent := h.wellFormed.linked.listed hlive hup
  refine wayTo?_eq hlisted hlive hcovers fun other hother path hq hway => ?_
  rw [hpath] at hcovers
  have hmem : path ∈ tree.childPaths parent := List.mem_filterMap.mpr ⟨other, hother, hq⟩
  rcases (h.laid parent above hover).below path hmem with
    ⟨name', hname', rfl⟩ | ⟨htop, root, hroot, rfl⟩
  · rw [(hnormal.child hname').covers_iff htarget, Path.segments_child _ hname'] at hway
    rw [(hnormal.child hname).covers_iff htarget, Path.segments_child _ hname] at hcovers
    have hsame : name' = name := by
      have hprefix := List.prefix_of_prefix_length_le hway hcovers (by simp)
      simpa using hprefix.eq_of_length (by simp)
    subst hsame
    by_contra hne
    have hshortcut := h.laid.shortcut_of_same h.wellFormed hover hother hlisted hne hq
      (hpath ▸ congrArg (Option.map Node.path) hlive)
    exact h.apart hshortcut hname rfl
  · -- A shortcut on the way would lie above or below the remote root.
    obtain ⟨hbelow, habove, _⟩ := h.separate root hroot
    have hnormalRoot := h.normalized.searchRoots root hroot
    have hupper := hnormal.covers_trans (hnormal.child hname) htarget (hnormal.covers_child hname)
      hcovers
    have hline := hnormalRoot.covers_or_covers hnormal htarget hway hupper
    simp [htop, hbelow, habove] at hline

/-- A search that succeeds from a node, in as many steps as there are nodes on its way. -/
def Finds (tree : TreeView) (target : String) (id goal : NodeId) : Prop :=
  ∃ way : List NodeId, way.Nodup ∧ (∀ i ∈ way, id ≤ i ∧ ∃ node, tree.arena.get? i = some node) ∧
    ∀ depth, way.length ≤ depth → tree.findFrom? target depth id = some goal

theorem Finds.self (hlive : tree.arena.get? id = some node) : Finds tree node.path id id := by
  refine ⟨[id], by simp, by simpa using ⟨node, hlive⟩, fun depth hdepth => ?_⟩
  cases depth with
  | zero => simp at hdepth
  | succ depth =>
    have hpath : tree.pathOf? id = some node.path := congrArg (Option.map Node.path) hlive
    simp [findFrom?, hpath]

theorem Finds.step {target : String} {parent goal : NodeId} {above : Node}
    (h : Finds tree target id goal) (hlt : parent < id)
    (hover : tree.arena.get? parent = some above) (hne : above.path ≠ target)
    (hway : tree.wayTo? parent target = some id) : Finds tree target parent goal := by
  obtain ⟨way, hnodup, hall, hfinds⟩ := h
  refine ⟨parent :: way, List.nodup_cons.mpr ⟨fun hmem => ?_, hnodup⟩, fun i hi => ?_,
    fun depth hdepth => ?_⟩
  · exact Nat.not_lt.mpr (hall parent hmem).1 hlt
  · cases List.mem_cons.mp hi with
    | inl heq =>
      subst heq
      exact ⟨Nat.le_refl _, above, hover⟩
    | inr hmem => exact ⟨Nat.le_trans (Nat.le_of_lt hlt) (hall i hmem).1, (hall i hmem).2⟩
  · cases depth with
    | zero => simp at hdepth
    | succ depth =>
      have hpath : tree.pathOf? parent = some above.path :=
        congrArg (Option.map Node.path) hover
      simp only [findFrom?, hpath, hne, if_false, hway, Option.bind_some]
      exact hfinds depth (Nat.le_of_succ_le_succ hdepth)

theorem Finds.find? {target : String} {root goal : NodeId} (h : Finds tree target root goal)
    (hroot : tree.root = some root) (htarget : Path.Normal target) :
    tree.find? target = some goal := by
  obtain ⟨way, hnodup, hall, hfinds⟩ := h
  have hnormal : Path.normalize target = target := htarget
  rw [TreeView.find?, hroot, Option.bind_some, hnormal]
  exact hfinds _ (Arena.length_le_size hnodup fun i hi => (hall i hi).2)

theorem finds_from_root (h : tree.Searchable volumes) {root goal : NodeId}
    (hroot : tree.root = some root) {target : String} (htarget : Path.Normal target)
    (hd : tree.arena.Descends Path.IsName id) (hlive : tree.arena.get? id = some node)
    (hcovers : Path.covers node.path target = true) (hfinds : Finds tree target id goal) :
    Finds tree target root goal := by
  induction hd generalizing node with
  | top live up =>
    obtain rfl := Option.some.inj (hroot.symm.trans (h.wellFormed.top live up))
    exact hfinds
  | @child id parent was above name live up upper named path rest ih =>
    obtain rfl := Option.some.inj (live.symm.trans hlive)
    have hnormal := h.normal rest upper
    have hway := h.wayTo?_child live up upper hnormal named path htarget hcovers
    rw [path] at hcovers
    have hne : above.path ≠ target := by
      rintro rfl
      simp [hnormal.child_not_covers named] at hcovers
    refine ih upper ?_ (hfinds.step (h.wellFormed.linked.parent_lt live up) upper hne hway)
    exact hnormal.covers_trans (hnormal.child named) htarget (hnormal.covers_child named) hcovers

theorem find?_of_descends (h : tree.Searchable volumes)
    (hd : tree.arena.Descends Path.IsName id) (hlive : tree.arena.get? id = some node) :
    tree.find? node.path = some id := by
  obtain ⟨root, hroot, _⟩ := h.wellFormed.under_root hlive
  have hnormal := h.normal hd hlive
  exact (h.finds_from_root hroot hnormal hd hlive (Path.covers_self _) (.self hlive)).find? hroot
    hnormal

/-- A shortcut that the root lists is found by its path, or another shortcut with that path is. -/
theorem find?_of_shortcut (h : tree.Searchable volumes) {root : NodeId} {top : Node}
    (hroot : tree.root = some root) (htop : tree.arena.get? root = some top)
    (hlive : tree.arena.get? id = some node) (hup : node.parent = some root)
    (hshortcut : volumes.ShortcutIn top.path node.path) :
    ∃ found, tree.find? node.path = some found ∧ tree.pathOf? found = some node.path := by
  obtain ⟨hremote, shortcut, hmem, hpath⟩ := hshortcut
  have hnormal := h.normalized.remoteRoot
  have hnormalPath : Path.Normal node.path := hpath ▸ h.normalized.searchRoots shortcut hmem
  have hbelow : Path.covers volumes.remoteRoot node.path = false := by
    rw [hpath, (h.separate shortcut hmem).1]
  -- Whatever child comes first on the way is a shortcut to the same path.
  obtain ⟨other, hway, now, hother, hsame⟩ : ∃ other, tree.wayTo? root node.path = some other ∧
      ∃ now, tree.arena.get? other = some now ∧ now.path = node.path := by
    unfold wayTo?
    cases hfind : (tree.children root).find? _ with
    | none =>
      have hnode : tree.pathOf? id = some node.path := congrArg (Option.map Node.path) hlive
      have hlisted : id ∈ tree.children root := h.wellFormed.linked.listed hlive hup
      simpa [hnode, Path.covers_self] using List.find?_eq_none.mp hfind id hlisted
    | some other =>
      have hmemOther := List.mem_of_find?_eq_some hfind
      obtain ⟨now, hnow, _⟩ := h.wellFormed.linked.owned hmemOther
      have hpathOther : tree.pathOf? other = some now.path := congrArg (Option.map Node.path) hnow
      have hcovers := List.find?_some hfind
      simp only [hpathOther] at hcovers
      refine ⟨other, rfl, now, hnow, ?_⟩
      rcases (h.laid root top htop).below now.path
        (List.mem_filterMap.mpr ⟨other, hmemOther, hpathOther⟩) with
        ⟨name, hname, heq⟩ | ⟨_, another, hanother, heq⟩
      · rw [heq, hremote] at hcovers
        have hover := hnormal.covers_trans (hnormal.child hname) hnormalPath
          (hnormal.covers_child hname) hcovers
        simp [hbelow] at hover
      · rw [heq, hpath] at hcovers
        rw [heq, hpath, (h.separate another hanother).2.2 shortcut hmem hcovers]
  have hne : top.path ≠ node.path := by
    intro heq
    simp [← hremote, heq, Path.covers_self] at hbelow
  have hlower : root < other := by
    unfold wayTo? at hway
    exact h.wellFormed.linked.lower (List.mem_of_find?_eq_some hway)
  have hfinds := Finds.self hother
  rw [hsame] at hfinds
  refine ⟨other, (hfinds.step hlower htop hne hway).find? hroot hnormalPath, ?_⟩
  exact hsame ▸ congrArg (Option.map Node.path) hother

theorem shortcut_of_not_descends (h : tree.Searchable volumes)
    (hlive : tree.arena.get? id = some node) (hnot : ¬ tree.arena.Descends Path.IsName id) :
    volumes.Shortcut node.handle ∧ ∃ parent above, node.parent = some parent ∧
      tree.arena.get? parent = some above ∧ tree.arena.Descends Path.IsName parent ∧
      volumes.ShortcutIn above.path node.path := by
  refine ⟨by_contra fun hplain => hnot (h.descending.descends hlive (.inl hplain)), ?_⟩
  cases hup : node.parent with
  | none => exact absurd (.top hlive hup) hnot
  | some parent =>
    have hlisted := h.wellFormed.linked.listed hlive hup
    obtain ⟨above, hover⟩ := h.wellFormed.linked.parent_live hlive hup
    have hchildren : above.children ≠ [] := by
      rw [Arena.childrenOf_of_live hover] at hlisted
      exact List.ne_nil_of_mem hlisted
    have hrest := h.descending.descends hover (.inr hchildren)
    have hmem : node.path ∈ tree.childPaths parent :=
      List.mem_filterMap.mpr ⟨id, hlisted, congrArg (Option.map Node.path) hlive⟩
    refine ⟨parent, above, rfl, hover, hrest, ?_⟩
    refine ((h.laid parent above hover).below _ hmem).resolve_left ?_
    rintro ⟨name, hname, hpath⟩
    exact hnot (.child hlive hup hover hname hpath hrest)

theorem eq_root (h : tree.Searchable volumes) {root : NodeId}
    (hroot : tree.root = some root) {top : Node} (htop : tree.arena.get? root = some top)
    (hd : tree.arena.Descends Path.IsName id) (hlive : tree.arena.get? id = some node)
    (hpath : node.path = top.path) : id = root := by
  obtain ⟨now, hnow, hup⟩ := h.wellFormed.root_live hroot
  obtain rfl := Option.some.inj (htop.symm.trans hnow)
  obtain ⟨_, names, _, hsegments, hnone⟩ := h.wellFormed.names hd hlive hroot htop
    (h.descending.top htop hup) fun _ hname => hname
  exact hnone (by simpa [hpath] using hsegments)

theorem find?_live (h : tree.Searchable volumes) (hlive : tree.arena.get? id = some node)
    (hshown : tree.rootPath? = some volumes.remoteRoot ∨ ¬ volumes.Shortcut node.handle) :
    ∃ found, tree.find? node.path = some found ∧ tree.pathOf? found = some node.path := by
  by_cases hd : tree.arena.Descends Path.IsName id
  · exact ⟨id, h.find?_of_descends hd hlive, congrArg (Option.map Node.path) hlive⟩
  · obtain ⟨hshortcut, parent, above, hup, hover, hrest, hlisted⟩ :=
      h.shortcut_of_not_descends hlive hd
    obtain ⟨root, hroot, _⟩ := h.wellFormed.under_root hlive
    obtain ⟨top, htop, _⟩ := h.wellFormed.root_live hroot
    have htopPath : top.path = volumes.remoteRoot := by
      simpa [rootPath?, hroot, pathOf?, node?, htop] using
        hshown.resolve_right fun hplain => hplain hshortcut
    obtain rfl := h.eq_root hroot htop hrest hover (hlisted.1.trans htopPath.symm)
    obtain rfl := Option.some.inj (htop.symm.trans hover)
    exact h.find?_of_shortcut hroot htop hlive hup hlisted

end Searchable

end TreeView

theorem Settings.normalized (settings : Settings) : settings.volumeMap.Normalized where
  remoteRoot := Path.normal_normalize _
  searchRoots := by
    intro root hroot
    obtain ⟨root, _, rfl⟩ := List.mem_map.mp hroot
    exact Path.normal_normalize root.path

theorem Settings.within (settings : Settings) {σ : Type} (action : Action σ) :
    action.Within ⟨settings.volumeMap, fun _ => True, Path.Normal⟩ :=
  action.within_of (fun path _ _ => settings.normalized.rootOf (Path.normal_normalize path))
    fun _ _ => trivial

namespace FileSystem

theorem endless_listsBelow (Filter : NameFilter → Prop) :
    endless.ListsBelow Filter Path.IsName where
  listed := by
    intro s dir entries filter h _ entry hentry _
    obtain rfl : _ = entries := Except.ok.inj h
    rcases List.mem_cons.mp hentry with rfl | hentry
    · exact ⟨rfl, by simp [Path.IsName]⟩
    · obtain rfl := List.mem_singleton.mp hentry
      exact ⟨rfl, by simp [Path.IsName]⟩
  in_place := fun h => (endless_regular.resolved h).1

theorem endless_listsOnce : endless.ListsOnce := by
  intro s dir entries h
  obtain rfl : _ = entries := Except.ok.inj h
  simp

/-- A filesystem whose only directory below the top is the drive. -/
def drive : FileSystem Unit :=
  .ofListing (fun s dir => (.ok (if dir = "/" then [⟨"/drive", "drive", true, false⟩] else []), s))
    (fun s path => (.ok (.real path), s))

theorem drive_listsBelow (Filter : NameFilter → Prop) : drive.ListsBelow Filter Path.IsName where
  listed := by
    intro s dir entries filter h _ entry hentry _
    obtain rfl : _ = entries := Except.ok.inj h
    split at hentry
    · rename_i htop
      obtain rfl := List.mem_singleton.mp hentry
      exact ⟨by rw [htop]; decide, by simp [Path.IsName]⟩
    · cases hentry
  in_place := by
    intro s path found h
    obtain rfl : _ = found := Except.ok.inj h
    rfl

theorem drive_listsOnce : drive.ListsOnce := by
  intro s dir entries h
  obtain rfl : _ = entries := Except.ok.inj h
  split <;> simp

end FileSystem

namespace Session

/-- Every node is found by its path, or a node at the same path is: over a filesystem that lists
each directory's items right below it, each once, and with search roots that lie apart. A shortcut
is found only below the remote root that lists it. -/
theorem run_finds_nodes (fs : FileSystem σ)
    (hfs : fs.ListsBelow (fun _ => True) Path.IsName) (honce : fs.ListsOnce)
    (settings : Settings) (hseparate : settings.volumeMap.Separate) (filter : NameFilter)
    (world : σ) (actions : List (Action σ)) :
    let x := (start filter settings.volumeMap world).run fs actions
    ∀ id node, x.tree.node? id = some node →
      x.tree.rootPath? = some settings.volumeMap.remoteRoot ∨
        ¬ settings.volumeMap.Shortcut node.handle →
      ∃ found, x.tree.find? node.path = some found ∧ x.tree.pathOf? found = some node.path := by
  intro x id node hlive hshown
  let scope : Scope := ⟨settings.volumeMap, fun _ => True, Path.Normal⟩
  have hempty : (TreeView.unbound filter settings.volumeMap).Laid settings.volumeMap :=
    TreeView.laid_of_childless fun _ _ hlive => by simp [TreeView.unbound] at hlive
  have hstart : (start filter settings.volumeMap world).Keeping fs scope
      (fun tree => tree.Descending scope Path.IsName ∧ tree.Laid settings.volumeMap)
      (TreeView.Directs scope Path.IsName) :=
    keeping_start trivial ⟨TreeView.descending_unbound .., hempty⟩ world
  have hactions : ∀ action ∈ actions, action.Within scope := fun action _ => settings.within action
  have hkeeping := hstart.run (TreeView.keeps_laid hfs honce) hactions
  have hsearchable : x.tree.Searchable settings.volumeMap :=
    ⟨hkeeping.wellFormed, hkeeping.tree.1, hkeeping.tree.2, settings.normalized, hseparate⟩
  exact hsearchable.find?_live hlive hshown

/-- A shortcut is found below the drive that is the root. -/
theorem endless_finds_shortcut :
    let x := (start .everything Settings.unset.volumeMap ()).run .endless
      [.operate (.select "/drive" 1)]
    ∃ found, x.tree.find? "/drive_recent" = some found ∧
      x.tree.pathOf? found = some "/drive_recent" :=
  run_finds_nodes .endless (FileSystem.endless_listsBelow _) FileSystem.endless_listsOnce
    Settings.unset (by decide) .everything () [.operate (.select "/drive" 1)] 5
    ⟨"/drive_recent", .searchRoot "/drive_recent" "Recent", some 1, [], false, false, 0⟩
    (by decide +kernel) (.inl (by decide +kernel))

/-- A shortcut is not found in a tree that is bound above the drive. -/
theorem drive_loses_shortcut :
    let x := (start .everything Settings.unset.volumeMap ()).run .drive
      [.operate (.select "/" 1), .operate (.expand 2)]
    FileSystem.drive.ListsBelow (fun _ => True) Path.IsName ∧ FileSystem.drive.ListsOnce ∧
      Settings.unset.volumeMap.Separate ∧ x.tree.pathOf? 4 = some "/drive_recent" ∧
      x.tree.find? "/drive_recent" = none :=
  ⟨FileSystem.drive_listsBelow _, FileSystem.drive_listsOnce, by decide +kernel⟩

end Session

end LazyTree
