import LazyTree.Proofs.Descent
import LazyTree.Proofs.Visited

/-!
Where the shortcuts are. Over a filesystem that resolves to no search roots, a node that is one is a
shortcut of the volumes, and it hangs below a node at the remote root.
-/
namespace LazyTree
variable {σ : Type} {fs : FileSystem σ} {volumes : VolumeMap}

namespace TreeView
variable {tree tree' : TreeView} {id : NodeId} {node : Node} {scope : Scope} {P : String → Prop}

/-- Every node that is a search root is a shortcut of the volumes. -/
def KnowsShortcuts (volumes : VolumeMap) (tree : TreeView) : Prop :=
  ∀ id node, tree.arena.get? id = some node → node.handle.kind = .searchRoot →
    volumes.Shortcut node.handle

theorem shortcut_of_fetched (hfs : fs.ResolvesInPlace) {handle : Handle} {listing : Listing}
    (hfetched : scope.Fetched fs handle listing) :
    (∀ dir, listing.resolved = some dir → dir.kind ≠ .searchRoot) ∧
      ∀ listed ∈ listing.entries, listed.kind = .searchRoot →
        handle.path = scope.volumes.remoteRoot ∧ scope.volumes.Shortcut listed := by
  obtain ⟨filter, s, _, hfetch⟩ := hfetched
  have harranged {entries : List Entry} : ∀ listed ∈ arrange filter scope.volumes handle entries,
      listed.kind = .searchRoot →
        handle.path = scope.volumes.remoteRoot ∧ scope.volumes.Shortcut listed := by
    intro listed hmem hkind
    rcases mem_arrange hmem with ⟨entry, _, _, label, rfl⟩ | ⟨htop, root, hroot, rfl⟩
    · cases hvirtual : entry.isVirtual <;> simp [Entry.toHandle, hvirtual] at hkind
    · exact ⟨htop, root, hroot, rfl⟩
  rcases fetchVisible_ok hfetch with ⟨_, rfl⟩ | ⟨_, hlist⟩ | ⟨found, _, hresolve, _, hlist⟩
  · simp [Listing.empty]
  · obtain ⟨entries, _, rfl⟩ := listDirectory_ok hlist
    exact ⟨by simp, harranged⟩
  · obtain ⟨entries, _, rfl⟩ := listDirectory_ok hlist
    refine ⟨fun dir hdir => ?_, harranged⟩
    obtain rfl := Option.some.inj hdir
    exact (hfs hresolve).2

theorem KnowsShortcuts.applied (h : tree.KnowsShortcuts volumes) {listing : Listing}
    {children : List NodeId} (hlive : tree.arena.get? id = some node)
    (ha : Applied tree tree' id node listing children)
    (hresolved : ∀ dir, listing.resolved = some dir → dir.kind ≠ .searchRoot)
    (hentries : ∀ listed ∈ listing.entries, listed.kind = .searchRoot → volumes.Shortcut listed) :
    tree'.KnowsShortcuts volumes := by
  intro i now hnow hkind
  cases ha.relisted.origin hnow with
  | self eq =>
    cases hr : listing.resolved with
    | none =>
      simp only [Node.relisted, hr, Option.getD_none] at hkind ⊢
      exact h id node hlive hkind
    | some dir =>
      simp only [Node.relisted, hr, Option.getD_some] at hkind
      exact absurd hkind (hresolved dir hr)
  | added _ _ listing => exact hentries _ listing hkind
  | kept _ _ listing _ => exact hentries _ listing hkind
  | untouched _ _ live => exact h i now live hkind

theorem KnowsShortcuts.of_face (h : tree.KnowsShortcuts volumes)
    (hsame : ∀ id, (tree'.arena.get? id).map Node.face = (tree.arena.get? id).map Node.face) :
    tree'.KnowsShortcuts volumes := by
  intro id now hnow hkind
  obtain ⟨was, hwas, heq⟩ := Arena.live_of_map_get?_eq (hsame id).symm hnow
  have hhandle : was.handle = now.handle := congrArg (fun face => face.2.1) heq
  exact hhandle ▸ h id was hwas (hhandle ▸ hkind)

theorem keeps_shortcuts (hlists : fs.LaysBelow scope.Filter P) (hfs : fs.ResolvesInPlace) :
    scope.Keeps fs (fun tree => tree.Descending scope P ∧ tree.KnowsShortcuts scope.volumes)
      (Directs scope P) where
  issue := fun recursive hw h hlive => h.1.directs hw hlive recursive
  act := by
    intro tree move hw h hmove hticket hsettle
    have hkept := (keeps_descending_of_lays hlists).act hw h.1 hmove hticket hsettle
    refine ⟨⟨hkept.1, ?_⟩, hkept.2⟩
    cases move with
    | apply ticket fetched =>
      rcases applyFetched_cases hw ticket fetched with
        hsame | ⟨node, listing, children, rfl, hlive, _, happlied⟩
      · rw [act, hsame]
        exact h.2
      · obtain ⟨hresolved, hentries⟩ := shortcut_of_fetched hfs hmove
        exact h.2.applied hlive happlied hresolved fun listed hmem hkind =>
          (hentries listed hmem hkind).2
    | clear =>
      intro id node hlive
      simp [act, clear] at hlive
    | bindTo top =>
      intro id node hlive hkind
      simp [get?_bindTo hlive, Node.fresh, Handle.placeholder, Handle.ofPath] at hkind
    | _ => exact h.2.of_face (face_act_of_kept tree (by simp) (by simp) (by simp))

/-- Every shortcut hangs below a node at the remote root. -/
def HangsShortcuts (volumes : VolumeMap) (tree : TreeView) : Prop :=
  ∀ id node, tree.arena.get? id = some node → volumes.Shortcut node.handle →
    ∃ above, node.parent = some above ∧ tree.pathOf? above = some volumes.remoteRoot

theorem HangsShortcuts.hung (h : tree.HangsShortcuts volumes) (hw' : tree'.WellFormed)
    {issued : List NodeId} (hevolves : Arena.Evolves issued tree.arena tree'.arena) {was now : Node}
    (hwas : tree.arena.get? id = some was) (hnow : tree'.arena.get? id = some now)
    (hs : volumes.Shortcut was.handle) :
    ∃ above, now.parent = some above ∧ tree'.pathOf? above = some volumes.remoteRoot := by
  obtain ⟨above, hup, htop⟩ := h id was hwas hs
  obtain ⟨old, hold, hpath⟩ := Option.map_eq_some_iff.mp htop
  have hup' := (hevolves.lived hwas hnow).2.trans hup
  obtain ⟨new, hnew⟩ := hw'.linked.parent_live hnow hup'
  refine ⟨above, hup', ?_⟩
  rw [pathOf?, node?, hnew, Option.map_some, (hevolves.lived hold hnew).1, hpath]

theorem HangsShortcuts.applied (h : tree.HangsShortcuts volumes) {listing : Listing}
    {children : List NodeId} (hw : tree.WellFormed) (hlive : tree.arena.get? id = some node)
    (ha : Applied tree tree' id node listing children)
    (hresolved : ∀ dir, listing.resolved = some dir → dir.kind ≠ .searchRoot)
    (hentries : ∀ listed ∈ listing.entries, listed.kind = .searchRoot →
      node.path = volumes.remoteRoot) : tree'.HangsShortcuts volumes := by
  have hw' := ha.wellFormed hw hlive
  have hevolves := ha.evolves hlive
  have hself : node.path = volumes.remoteRoot → tree'.pathOf? id = some volumes.remoteRoot := by
    rintro hpath
    rw [pathOf?, node?, ha.relisted.self]
    exact congrArg some hpath
  intro i now hnow hs
  cases ha.relisted.origin hnow with
  | self eq =>
    subst eq
    have hwas : volumes.Shortcut node.handle := by
      change volumes.Shortcut (listing.resolved.getD node.handle) at hs
      cases hr : listing.resolved with
      | none => rwa [hr] at hs
      | some dir =>
        rw [hr] at hs
        exact absurd hs.kind (hresolved dir hr)
    exact h.hung hw' hevolves hlive hnow hwas
  | added _ _ listed => exact ⟨id, rfl, hself (hentries _ listed hs.kind)⟩
  | @kept listed was mem live hmem _ =>
    obtain ⟨child, hchild, hup⟩ := ha.relisted.child_live mem
    obtain rfl := Option.some.inj (hnow.symm.trans hchild)
    exact ⟨id, hup, hself (hentries listed hmem hs.kind)⟩
  | untouched _ _ live => exact h.hung hw' hevolves live hnow hs

theorem HangsShortcuts.of_face (h : tree.HangsShortcuts volumes) (hw' : tree'.WellFormed)
    {issued : List NodeId} (hevolves : Arena.Evolves issued tree.arena tree'.arena)
    (hsame : ∀ id, (tree'.arena.get? id).map Node.face = (tree.arena.get? id).map Node.face) :
    tree'.HangsShortcuts volumes := by
  intro id now hnow hs
  obtain ⟨was, hwas, heq⟩ := Arena.live_of_map_get?_eq (hsame id).symm hnow
  have hhandle : was.handle = now.handle := congrArg (fun face => face.2.1) heq
  exact h.hung hw' hevolves hwas hnow (hhandle ▸ hs)

theorem keeps_hanging (hlists : fs.LaysBelow scope.Filter P) (hfs : fs.ResolvesInPlace) :
    scope.Keeps fs (fun tree => tree.Descending scope P ∧ tree.HangsShortcuts scope.volumes)
      (Directs scope P) where
  issue := fun recursive hw h hlive => h.1.directs hw hlive recursive
  act := by
    intro tree move hw h hmove hticket hsettle
    have hkept := (keeps_descending_of_lays hlists).act hw h.1 hmove hticket hsettle
    have hw' := hw.act_of_live hsettle
    refine ⟨⟨hkept.1, ?_⟩, hkept.2⟩
    cases move with
    | apply ticket fetched =>
      rcases applyFetched_cases hw ticket fetched with
        hsame | ⟨node, listing, children, rfl, hlive, _, happlied⟩
      · rw [act, hsame]
        exact h.2
      · obtain ⟨hresolved, hentries⟩ := shortcut_of_fetched hfs hmove
        have hpath : ticket.handle.path = node.path := (hticket ticket _ rfl).knows.2 node hlive
        exact h.2.applied hw hlive happlied hresolved fun listed hmem hkind =>
          hpath.symm.trans (hentries listed hmem hkind).1
    | clear =>
      intro id node hlive
      simp [act, clear] at hlive
    | bindTo top =>
      intro id node hlive hs
      simpa [get?_bindTo hlive, Node.fresh, Handle.placeholder, Handle.ofPath] using hs.kind
    | _ =>
      exact h.2.of_face hw' (evolves_act hw _) (face_act_of_kept tree (by simp) (by simp) (by simp))

end TreeView

end LazyTree
