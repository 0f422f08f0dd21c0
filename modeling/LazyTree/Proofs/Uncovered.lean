import LazyTree.Proofs.Expansion
import LazyTree.Proofs.Sifted

/-!
Whether all that is shown obeys the filter in force, on a filesystem that never fails. A new filter
is refreshed for wherever nodes are shown, and every listing is made by the filter of its time; what
lies below a collapsed node keeps its old listing. Expanding the node lists it anew. A selection
does not, and it alone may uncover what was listed by an older filter.
-/
namespace LazyTree
variable {σ : Type} {fs : FileSystem σ}

/-- Every directory can be listed, and every placeholder stands for a directory. -/
structure FileSystem.NeverFails (fs : FileSystem σ) : Prop where
  lists : ∀ s dir, ∃ entries, (fs.enumerate s dir).1 = .ok entries
  resolves : ∀ s path, ∃ found, (fs.resolve s path).1 = .ok found ∧ found.isUnresolved = false

namespace FileSystem.NeverFails

theorem lists_directory (h : fs.NeverFails) (filter : NameFilter) (volumes : VolumeMap)
    (handle : Handle) (resolved : Option Handle) (dir : String) (s : σ) :
    ∃ listing, (listDirectory fs filter volumes handle resolved dir s).1 = .ok listing := by
  obtain ⟨entries, hentries⟩ := h.lists s dir
  unfold listDirectory
  split
  · rename_i hfailed
    simp [hfailed] at hentries
  · exact ⟨_, rfl⟩

theorem fetches (h : fs.NeverFails) (filter : NameFilter) (volumes : VolumeMap) (handle : Handle)
    (s : σ) : ∃ listing, (fetchVisible fs filter volumes handle s).1 = .ok listing := by
  unfold fetchVisible
  cases handle.kind with
  | searchRoot => exact ⟨_, rfl⟩
  | real => exact h.lists_directory ..
  | placeholder =>
    obtain ⟨found, hfound, hresolved⟩ := h.resolves s handle.path
    cases hresult : fs.resolve s handle.path with
    | mk answer world =>
      obtain rfl : answer = .ok found := (congrArg Prod.fst hresult).symm.trans hfound
      simp only [hresolved, Bool.false_eq_true, if_false]
      exact h.lists_directory ..

end FileSystem.NeverFails

def Move.keepsFilter : Move → Bool
  | .useFilter _ => false
  | _ => true

theorem keepsFilter_of_quiet {move : Move} (h : move.quiet = true) : move.keepsFilter = true := by
  cases move <;> first | rfl | simp [Move.quiet] at h

theorem keepsFilter_of_refreshes {moves : List Move} (h : moves.all Move.refreshes = true) :
    moves.all Move.keepsFilter = true := all_of_all (keepsFilter_of_quiet ∘ quiet_of_refreshes) h

theorem Settling.keepsFilter {moves : List Move} (h : Settling Move.quiet moves) :
    moves.all Move.keepsFilter = true := by
  rcases h with hquiet | ⟨first, id, rfl, hfirst⟩
  · exact all_of_all keepsFilter_of_quiet hquiet
  · rw [List.all_append, all_of_all keepsFilter_of_quiet hfirst]
    rfl

/-- How a move changes which nodes count as fresh. -/
def freshen (fresh : List NodeId) : Move → List NodeId
  | .useFilter _ => []
  | move => fresh ++ move.issued

def refreshedSince (moves : List Move) : List NodeId := moves.foldl freshen []

theorem foldl_freshen {moves : List Move} (h : moves.all Move.keepsFilter = true)
    (fresh : List NodeId) : moves.foldl freshen fresh = fresh ++ issuedBy moves := by
  induction moves generalizing fresh with
  | nil => exact (List.append_nil fresh).symm
  | cons move moves ih =>
    rw [List.all_cons, Bool.and_eq_true] at h
    have hmove : freshen fresh move = fresh ++ move.issued := by
      cases move <;> first | rfl | simp [Move.keepsFilter] at h
    rw [List.foldl_cons, hmove, ih h.2, List.append_assoc]
    rfl

namespace TreeView
variable {tree last : TreeView} {top id i : NodeId} {node : Node} {s : σ} {move : Move}
variable {moves : List Move} {issued : List NodeId} {opened : NodeId → Prop}
variable {shown : NameFilter} {expanded : Bool}

theorem Covered.before (hc : last.Covered top i)
    (hevolves : Arena.Evolves issued tree.arena last.arena) (hw : tree.WellFormed)
    (hlast : last.WellFormed)
    (hopened : ∀ i, last.arena.isExpanded i = true → tree.arena.isExpanded i = true ∨ opened i) :
    tree.Covered top i ∨ ∃ first, opened first ∧ last.Covered first i := by
  induction hc with
  | self => exact .inl .self
  | @child parent i _ listed expanded ih =>
    rcases ih with hbefore | ⟨first, hfirst, hbelow⟩
    · rcases hopened i expanded with hwas | hi
      · obtain ⟨node, hlive, _⟩ := Arena.live_of_isExpanded hwas
        have hlisted := hevolves.listed_before hw.linked hlast.linked listed hlive
        exact .inl (hbefore.child hlisted hwas)
      · exact .inr ⟨i, hi, .self⟩
    · exact .inr ⟨first, hfirst, hbelow.child listed expanded⟩

section
variable (hfs : fs.NeverFails)
include hfs

theorem visit_succeeds (hw : tree.WellFormed) (hlive : tree.arena.get? id = some node)
    (lister : Lister) (recursive always : Bool) (s : σ) :
    ∃ outcome, (visit fs lister id recursive always tree s).answer = .ok (.applied outcome) := by
  obtain ⟨listing, hfetch⟩ := hfs.fetches lister.filter lister.volumes node.handle s
  rcases visit_of_live hw hlive fs lister recursive always s with
    ⟨e, herror, _⟩ | ⟨_, outcome, _, _, _, _, _, heq⟩
  · simp [hfetch] at herror
  · exact ⟨outcome, by rw [heq, visitChecks_answer]⟩

theorem cascade_succeeds (lister : Lister) (count : Nat) {c : Cascade σ}
    (hw : c.tree.WellFormed) :
    (Cascade.run fs lister count c).totals.failed = c.totals.failed := by
  induction count generalizing c with
  | zero => rfl
  | succ count ih =>
    unfold Cascade.run
    cases hqueue : c.queue with
    | nil => rfl
    | cons id queue =>
      cases hlive : c.tree.arena.get? id with
      | none =>
        rw [step_of_dead hqueue hlive]
        exact ih hw
      | some node =>
        obtain ⟨outcome, hanswer⟩ := visit_succeeds hfs hw hlive lister true false c.world
        rw [step_of_live hqueue hlive]
        simp only [hanswer]
        exact ih ((visit_run ..).wellFormed hw)

theorem refresh_succeeds (hw : tree.WellFormed) (hlive : tree.arena.get? id = some node)
    (recursive : Bool) (s : σ) :
    ∃ totals, (refresh fs id recursive tree s).1 = .ok totals ∧ totals.failed = 0 := by
  obtain ⟨outcome, hanswer⟩ := visit_succeeds hfs hw hlive tree.lister recursive false s
  have hvisited := (visit_run fs tree.lister id recursive false tree s).wellFormed hw
  rw [refresh, refreshWith_eq]
  simp only [hanswer]
  exact ⟨_, rfl, cascade_succeeds hfs tree.lister _ hvisited⟩

end

theorem filter_act (hmove : move.refreshes = false) (hkeeps : move.keepsFilter = true) :
    (tree.act move).filter = tree.filter := by
  cases move with
  | useFilter filter => simp [Move.keepsFilter] at hkeeps
  | issue id recursive => simp [Move.refreshes] at hmove
  | apply ticket fetched => simp [Move.refreshes] at hmove
  | note id found => simp [Move.refreshes] at hmove
  | _ => rfl

theorem Sifted.act (h : tree.Sifted fs shown i) (hmove : move.refreshes = false) :
    (tree.act move).Sifted fs shown i := by
  have hapart : ∀ ticket fetched, move ≠ .apply ticket fetched := by
    rintro ticket fetched rfl
    simp [Move.refreshes] at hmove
  rcases face_act tree hapart with hsame | hgone
  · exact h.of_face hsame
  · intro child hc
    obtain ⟨lister, hlister, hmem⟩ := Arena.live_of_mem_childrenOf hc
    obtain ⟨_, hface⟩ := hgone i lister hlister
    simp only [Node.face, Prod.mk.injEq] at hface
    simp [hface.2.2] at hmem

theorem expanded_before_setExpanded
    (h : (tree.setExpanded id expanded).arena.isExpanded i = true) :
    tree.arena.isExpanded i = true ∨ expanded = true ∧ i = id := by
  by_cases hi : i = id
  · subst hi
    cases hlive : tree.arena.get? i with
    | none => simp [TreeView.setExpanded, TreeView.modify, Arena.isExpanded, hlive] at h
    | some node => exact .inr ⟨(isExpanded_setExpanded_self hlive).symm.trans h, rfl⟩
  · exact .inl ((isExpanded_setExpanded_of_ne hi).symm.trans h)

section
variable (hfs : fs.NeverFails) (hnames : fs.KeepsNames) (hw : tree.WellFormed)
include hfs hnames hw

theorem Course.sifted (h : Course fs tree moves last) {fresh : List NodeId}
    (hfresh : ∀ i ∈ fresh, tree.Sifted fs tree.filter i) :
    ∀ i ∈ moves.foldl freshen fresh, last.Sifted fs last.filter i := by
  induction h generalizing fresh with
  | nil => exact hfresh
  | @visit tree _ _ id recursive always s _ ih =>
    rw [List.foldl_append, foldl_freshen (keepsFilter_of_refreshes (refreshes_visitMoves ..))]
    refine ih ((visit_run ..).wellFormed hw) fun i hi => ?_
    have hlister := lister_visit hw fs tree.lister id recursive always s
    rw [show (TreeView.visit ..).tree.filter = tree.filter from congrArg Lister.filter hlister]
    cases hlive : tree.arena.get? id with
    | none =>
      have hnone : visitMoves fs tree.lister id recursive always tree s = [] := by
        simp only [visitMoves, issue_of_dead hlive]
      rw [hnone, issuedBy, List.flatMap_nil, List.append_nil] at hi
      rw [visit_of_dead hlive]
      exact hfresh i hi
    | some node =>
      -- The visited node is listed by the filter in force; other nodes keep their children.
      rw [issuedBy_visitMoves hlive] at hi
      rcases List.mem_append.mp hi with hi | hi
      · exact (hfresh i hi).visit hnames hw hlive tree.lister recursive always fun _ => rfl
      · obtain rfl := List.mem_singleton.mp hi
        obtain ⟨outcome, hanswer⟩ := visit_succeeds hfs hw hlive tree.lister recursive always s
        exact sifted_of_visit hnames hw hlive hanswer
  | @move tree _ move _ apart allowed _ ih =>
    refine ih (hw.act allowed) fun i hi => ?_
    by_cases hkeeps : move.keepsFilter = true
    · have hsame : freshen fresh move = fresh := by
        cases move <;> simp_all [Move.refreshes, Move.keepsFilter, freshen, Move.issued]
      rw [filter_act apart hkeeps]
      exact (hfresh i (hsame ▸ hi)).act apart
    · cases move <;> simp [Move.keepsFilter, freshen] at hkeeps hi

theorem Course.keeps_sifted (h : Course fs tree moves last)
    (hkeeps : moves.all Move.keepsFilter = true) (hi : tree.Sifted fs tree.filter i) :
    last.Sifted fs last.filter i := by
  have hfresh : ∀ j ∈ [i], tree.Sifted fs tree.filter j := by simpa using hi
  refine h.sifted hfs hnames hw hfresh i ?_
  rw [foldl_freshen hkeeps]
  exact List.mem_cons_self

theorem AllSifted.course (h : tree.AllSifted fs tree.filter) (hcourse : Course fs tree moves last)
    (hkeeps : moves.all Move.keepsFilter = true) (hroot : last.root = tree.root)
    (hopened : ∀ i, last.arena.isExpanded i = true → tree.arena.isExpanded i = true ∨ opened i)
    (hlisted : ∀ first, opened first → ∀ i, last.Covered first i →
      last.Sifted fs last.filter i) : last.AllSifted fs last.filter := by
  intro root hr i hcovered
  have hlast := hcourse.run.wellFormed hw
  rcases hcovered.before (hcourse.run.evolves hw) hw hlast hopened with
    hbefore | ⟨first, hfirst, hbelow⟩
  · exact hcourse.keeps_sifted hfs hnames hw hkeeps (h root (hroot.symm.trans hr) i hbefore)
  · exact hlisted first hfirst i hbelow

theorem AllSifted.refreshes (h : tree.AllSifted fs tree.filter)
    (hcourse : Course fs tree moves last) (hmoves : moves.all Move.refreshes = true) :
    last.AllSifted fs last.filter :=
  h.course hfs hnames hw hcourse (keepsFilter_of_refreshes hmoves)
    (root_of_frame (hcourse.run.frame hw hmoves))
    (fun _ hi => .inl (hcourse.run.expanded_before hw hmoves hi))
    (fun _ (hnone : False) => hnone.elim)

theorem AllSifted.collapse (h : tree.AllSifted fs tree.filter) (id : NodeId) :
    (tree.collapse id).2.AllSifted fs (tree.collapse id).2.filter := by
  unfold TreeView.collapse
  split
  · exact h
  · split
    · have hcourse : Course fs tree [.setExpanded id false] (tree.setExpanded id false) :=
        .single rfl trivial
      refine h.course hfs hnames hw hcourse rfl rfl (fun i hi => ?_)
        (fun _ (hnone : False) => hnone.elim)
      exact (expanded_before_setExpanded hi).imp_right (by simp)
    · exact h

theorem AllSifted.expand (h : tree.AllSifted fs tree.filter) (id : NodeId) (s : σ) :
    (tree.expand fs id s).2.1.AllSifted fs (tree.expand fs id s).2.1.filter := by
  by_cases hholds : tree.holds id = true
  · have hw' := hw.setExpanded id true
    obtain ⟨node, hlive⟩ : ∃ node, (tree.setExpanded id true).arena.get? id = some node := by
      obtain ⟨node, hnode⟩ := Arena.contains_iff.mp hholds
      exact ⟨_, by rw [TreeView.setExpanded, TreeView.modify, Arena.get?_modify_self, hnode]; rfl⟩
    obtain ⟨totals, hok, hfailed⟩ := refresh_succeeds hfs hw' hlive true s
    have hresult : refresh fs id true (tree.setExpanded id true) s = (.ok totals, _, _) :=
      Prod.ext hok rfl
    have hrefresh := refresh_course hw' fs id true s
    have hmoves := refreshes_refreshMoves fs id true false (tree.setExpanded id true) s
    have hframe := hrefresh.run.frame hw' hmoves
    rcases expand_cases hw fs id s with hsame | ⟨heq, _⟩ | ⟨_, ⟨e, herror⟩, _⟩
    · rwa [hsame]
    · have hcourse : Course fs tree (.setExpanded id true :: _) _ := .move rfl trivial hrefresh
      rw [heq]
      refine h.course hfs hnames hw hcourse ?_ (root_of_frame hframe) (fun i hi =>
        expanded_before_setExpanded (hrefresh.run.expanded_before hw' hmoves hi)) ?_
      · rw [List.all_cons, keepsFilter_of_refreshes hmoves]
        rfl
      · rintro first ⟨_, rfl⟩ i hcovered
        rw [filter_of_frame hframe]
        exact sifted_of_refresh hnames hw' hresult hfailed hcovered
    · simp [hok] at herror
  · rw [TreeView.expand, if_neg hholds]
    exact h

theorem AllSifted.useFilter (h : tree.AllSifted fs tree.filter) (next : NameFilter) (s : σ) :
    (tree.useFilter fs next s).2.1.AllSifted fs (tree.useFilter fs next s).2.1.filter := by
  rw [filter_useFilter hw]
  by_cases hsame : tree.filter = next
  · rw [useFilter_again hsame]
    exact hsame ▸ h
  · obtain ⟨totals, hanswer, hfailed⟩ : ∃ totals, (tree.useFilter fs next s).1 = .ok totals ∧
        totals.failed = 0 := by
      cases hroot : tree.root with
      | none => exact ⟨.zero, by simp [TreeView.useFilter, Ne.symm hsame, hroot], rfl⟩
      | some root =>
        obtain ⟨node, hlive, _⟩ := hw.root_live hroot
        rw [useFilter_of_root hroot hsame]
        exact refresh_succeeds hfs (hw.refiltered next) hlive true s
    exact allSifted_of_useFilter hnames hw hsame (Prod.ext hanswer rfl) hfailed

end

end TreeView

/-- An action that applies no ticket. -/
def Action.direct : Action σ → Bool
  | .operate _ => true
  | .drift _ => true
  | _ => false

namespace Session
variable {x : Session σ} {action : Action σ}

theorem course_act (hw : x.tree.WellFormed) (fs : FileSystem σ) (h : action.direct = true) :
    TreeView.Course fs x.tree (x.moves fs action) (x.act fs action).tree := by
  cases action with
  | operate operation => exact operation.course hw fs x.world
  | drift world => exact .nil
  | _ => simp [Action.direct] at h

section
variable (hfs : fs.NeverFails) (hnames : fs.KeepsNames) (hw : x.tree.WellFormed)
include hfs hnames hw

theorem sifted_run {actions : List (Action σ)}
    (hdirect : ∀ action ∈ actions, action.direct = true)
    {fresh : List NodeId} (hfresh : ∀ i ∈ fresh, x.tree.Sifted fs x.tree.filter i) :
    ∀ i ∈ (x.log fs actions).foldl freshen fresh,
      (x.run fs actions).tree.Sifted fs (x.run fs actions).tree.filter i := by
  induction actions generalizing x fresh with
  | nil => exact hfresh
  | cons action actions ih =>
    have hcourse := course_act hw fs (hdirect action List.mem_cons_self)
    rw [log, List.foldl_append]
    exact ih (hcourse.run.wellFormed hw) (fun later hlater => hdirect later (.tail _ hlater))
      (hcourse.sifted hfs hnames hw hfresh)

theorem allSifted_act (h : x.tree.AllSifted fs x.tree.filter) (hdirect : action.direct = true)
    (hselect : ∀ path budget, action = .operate (.select path budget) →
      (x.act fs action).tree.AllSifted fs (x.act fs action).tree.filter) :
    (x.act fs action).tree.AllSifted fs (x.act fs action).tree.filter := by
  have hcourse := course_act hw fs hdirect
  cases action with
  | drift world => exact h
  | operate operation =>
    cases operation with
    | select path budget => exact hselect path budget rfl
    | refresh id recursive =>
      exact h.refreshes hfs hnames hw hcourse (TreeView.refreshes_refreshMoves ..)
    | expand id => exact h.expand hfs hnames hw id x.world
    | collapse id => exact h.collapse hfs hnames hw id
    | useFilter next => exact h.useFilter hfs hnames hw next x.world
    | clear => exact fun root hroot => by simp [act, Operation.perform, TreeView.clear] at hroot
    | follow changed =>
      exact h.refreshes hfs hnames hw hcourse (TreeView.refreshes_followMoves ..)
    | followAll changes =>
      exact h.refreshes hfs hnames hw hcourse (TreeView.refreshes_followAllMoves ..)
  | _ => simp [Action.direct] at hdirect

end

/-- Every node with children that an action uncovers was refreshed since the filter was replaced. -/
def UncoversFresh (fs : FileSystem σ) (x : Session σ) (done : List (Action σ))
    (action : Action σ) : Prop :=
  let before := (x.run fs done).tree
  let after := (x.run fs (done ++ [action])).tree
  ∀ root, after.root = some root → ∀ id, after.Covered root id → after.children id ≠ [] →
    before.root = some root ∧ before.Covered root id ∨
      id ∈ refreshedSince (x.log fs (done ++ [action]))

theorem uncoversFresh_of_refreshed {done : List (Action σ)} (top : NodeId) (ids : List NodeId)
    (hroot : (x.run fs (done ++ [action])).tree.root = some top) (htop : top ∈ ids)
    (hclosed : ∀ parent ∈ ids, ∀ child ∈ (x.run fs (done ++ [action])).tree.children parent,
      (x.run fs (done ++ [action])).tree.arena.isExpanded child = true → child ∈ ids)
    (hrefreshed : ∀ id ∈ ids, id ∈ refreshedSince (x.log fs (done ++ [action]))) :
    x.UncoversFresh fs done action := by
  intro root hroot' id hcovered _
  obtain rfl : top = root := Option.some.inj (hroot.symm.trans hroot')
  exact .inr (hrefreshed id (hcovered.mem htop hclosed))

/-- As long as selections uncover only what was refreshed since the filter was replaced, everything
shown obeys the filter, whatever else is done. -/
theorem run_obeys (fs : FileSystem σ) (hfs : fs.NeverFails) (hnames : fs.KeepsNames)
    (filter : NameFilter) (volumes : VolumeMap) (world : σ) (actions : List (Action σ))
    (hdirect : ∀ action ∈ actions, action.direct = true)
    (huncovers : ∀ n path budget, actions[n]? = some (.operate (.select path budget)) →
      (start filter volumes world).UncoversFresh fs (actions.take n)
        (.operate (.select path budget))) (n : Nat) :
    let tree := ((start filter volumes world).run fs (actions.take n)).tree
    tree.Obeys tree.filter := by
  have hstart := wellFormed_start filter volumes world
  suffices hall : ((start filter volumes world).run fs (actions.take n)).tree.AllSifted fs _ from
    hall.obeys
  refine forall_run_take fs (motive := fun x => x.tree.AllSifted fs x.tree.filter)
    (fun root hroot => by simp [start, TreeView.unbound] at hroot) (fun n action haction h => ?_) n
  have hw := wellFormed_run hstart fs (actions.take n)
  have hmem : action.direct = true := hdirect action (List.mem_of_getElem? haction)
  refine allSifted_act hfs hnames hw h hmem fun path budget heq root hroot id hcovered => ?_
  subst heq
  rw [← run_take_succ haction] at hroot hcovered ⊢
  have htake : actions.take (n + 1) = actions.take n ++ [.operate (.select path budget)] := by
    rw [List.take_add_one, haction]
    rfl
  have hfresh := huncovers n path budget haction root
  simp only [← htake] at hfresh
  by_cases hempty : ((start filter volumes world).run fs (actions.take (n + 1))).tree.children
      id = []
  · intro child hc
    simp [hempty] at hc
  · rcases hfresh hroot id hcovered hempty with ⟨hbound, hbefore⟩ | hrefreshed
    -- A selection keeps the filter, and with it what was sifted before.
    · have hcourse := course_act hw fs hmem
      rw [← run_take_succ haction] at hcourse
      exact hcourse.keeps_sifted hfs hnames hw (TreeView.settling_selectMoves ..).keepsFilter
        (h root hbound id hbefore)
    · exact sifted_run hfs hnames hstart
        (fun action haction => hdirect action (List.mem_of_mem_take haction)) (by simp) id
        hrefreshed

theorem veiled_neverFails : FileSystem.veiled.NeverFails :=
  ⟨fun _ _ => ⟨_, rfl⟩, fun _ path => ⟨.real path, rfl, rfl⟩⟩

theorem veiled_keepsNames : FileSystem.veiled.KeepsNames := by
  intro s t dir entries entry found henumerate hentry hvirtual _
  obtain rfl : _ = entries := Except.ok.inj henumerate
  split at hentry
  · simp_all [Entry.directory]
  · split at hentry <;> simp_all [Entry.directory]

/-- A directory is collapsed and selected again before the filter hides what it holds. -/
theorem veiled_run_obeys :
    let x (n : Nat) := (start .everything ⟨"/net", [], "", "", [], []⟩ ()).run .veiled
      (([.operate (.select "/a/b/.c" 3), .operate (.collapse 2), .operate (.select "/a/b/.c" 3),
        .drift (), .operate (.useFilter .hideDotNames)] : List (Action Unit)).take n)
    ∀ n, (x n).tree.Obeys (x n).tree.filter := by
  refine run_obeys .veiled veiled_neverFails veiled_keepsNames .everything
    ⟨"/net", [], "", "", [], []⟩ () _ (by decide) fun n path budget haction => ?_
  have hcases : n = 0 ∨ n = 2 := by
    match n with
    | 0 => exact .inl rfl
    | 1 => simp at haction
    | 2 => exact .inr rfl
    | 3 => simp at haction
    | 4 => simp at haction
    | n + 5 => simp at haction
  have hselect : "/a/b/.c" = path ∧ 3 = budget := by
    rcases hcases with rfl | rfl <;> simpa using haction
  obtain ⟨rfl, rfl⟩ := hselect
  rcases hcases with rfl | rfl
  · exact uncoversFresh_of_refreshed 1 [1, 2] (by decide +kernel) (by decide) (by decide +kernel)
      (by decide +kernel)
  · exact uncoversFresh_of_refreshed 1 [1, 2] (by decide +kernel) (by decide) (by decide +kernel)
      (by decide +kernel)

/-- The hidden directory lies below a collapsed one when the filter is replaced. -/
theorem selection_uncovers_hidden :
    let x := (start .everything ⟨"/net", [], "", "", [], []⟩ ()).run .veiled
      [.operate (.select "/a/b/.c" 3), .operate (.select "/a" 1), .operate (.collapse 2),
        .operate (.useFilter .hideDotNames), .operate (.select "/a/b/.c" 3)]
    FileSystem.veiled.NeverFails ∧ x.tree.filter = .hideDotNames ∧ x.tree.selected = some 3 ∧
      ¬ x.tree.Obeys x.tree.filter := by
  refine ⟨veiled_neverFails, by decide +kernel, by decide +kernel, fun h => ?_⟩
  have hadmits := h ⟨3, ".c", 2, false, true, true⟩ (by decide +kernel)
    ⟨"/a/b/.c", .real "/a/b/.c", some 2, [], false, false, 0⟩ (by decide +kernel)
    (by decide +kernel) (by decide +kernel)
  exact absurd hadmits (by decide +kernel)

end Session

end LazyTree
