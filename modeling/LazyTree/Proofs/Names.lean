import LazyTree.Proofs.Handles

/-!
Filesystems whose entries lie where their directory and their name say, and whose resolved
directories are named after their path. Every handle of a tree over one is named after its path.
-/
namespace LazyTree

theorem Path.lastName_child {dir name : String} (hne : name ≠ "") (hslash : '/' ∉ name.toList) :
    Path.lastName (Path.child dir name) = name := by
  obtain ⟨above, habove⟩ : ∃ above, (Path.child dir name).toList.reverse =
      name.toList.reverse ++ '/' :: above := by
    unfold Path.child
    split
    · rename_i hlast
      obtain ⟨above, habove⟩ := List.getLast?_eq_some_iff.mp hlast
      exact ⟨above.reverse, by simp [habove]⟩
    · exact ⟨dir.toList.reverse, by simp⟩
  have hslash' : ∀ c ∈ name.toList.reverse, c ≠ '/' := by
    rintro c hc rfl
    exact hslash (List.mem_reverse.mp hc)
  cases hrev : name.toList.reverse with
  | nil => simp at hrev; exact absurd hrev hne
  | cons last rest =>
    have hkeep : Path.trimmedReverse (Path.child dir name) =
        name.toList.reverse ++ '/' :: above := by
      have hlast : last ≠ '/' := hslash' last (by simp [hrev])
      rw [Path.trimmedReverse, habove, hrev, List.cons_append,
        List.dropWhile_cons_of_neg (by simpa using hlast)]
    have htake : (name.toList.reverse ++ '/' :: above).takeWhile (fun c => c ≠ '/') =
        name.toList.reverse := by
      rw [List.takeWhile_append_of_pos (by simpa using hslash')]
      simp
    unfold Path.lastName
    rw [hkeep]
    split
    · rename_i hnil
      simp at hnil
    · rw [htake, List.reverse_reverse, String.ofList_toList]

/-- Entries lie below the directory that lists them and are named after their path, and so are the
directories that placeholders resolve to. -/
structure FileSystem.Regular {σ : Type} (fs : FileSystem σ) : Prop where
  listed : ∀ {s dir entries}, (fs.enumerate s dir).1 = .ok entries → ∀ entry ∈ entries,
    entry.path = Path.child dir entry.name ∧ entry.name ≠ "" ∧ '/' ∉ entry.name.toList
  resolved : ∀ {s path found}, (fs.resolve s path).1 = .ok found →
    found.path = path ∧ found.name = Path.lastName path

theorem FileSystem.Regular.gives {σ : Type} {fs : FileSystem σ} (h : fs.Regular) :
    fs.Gives Handle.Named where
  in_place := fun hresolve => (h.resolved hresolve).1
  resolved := by
    intro s path found hresolve
    obtain ⟨hpath, hname⟩ := h.resolved hresolve
    rw [Handle.Named, hname, hpath]
  entry := by
    intro s dir entries henumerate entry hentry
    obtain ⟨hpath, hne, hslash⟩ := h.listed henumerate entry hentry
    exact (Path.lastName_child hne hslash).symm.trans (congrArg Path.lastName hpath.symm)
  of_path := fun _ _ => rfl
  relabel := fun _ hnamed => hnamed

theorem FileSystem.Gives.sorted {σ : Type} {fs : FileSystem σ} {s : σ} (h : fs.Gives Handle.Named)
    {filter : NameFilter} {volumes : VolumeMap} {handle : Handle} {listing : Listing}
    (hfetch : (fetchVisible fs filter volumes handle s).1 = .ok listing) :
    listing.entries.Pairwise fun a b => siblingOrder a b ≠ .gt := by
  have harranged {dir : String} {entries : List Entry} {s : σ}
      (henumerate : (fs.enumerate s dir).1 = .ok entries) :
      (arrange filter volumes handle entries).Pairwise fun a b => siblingOrder a b ≠ .gt := by
    refine pairwise_sortSiblings (rankable_of_named fun listed hlisted => ?_)
    exact h.arranged henumerate (mem_sortSiblings.mpr hlisted)
  rcases fetchVisible_ok hfetch with ⟨_, rfl⟩ | ⟨_, hlist⟩ | ⟨found, _, _, _, hlist⟩
  · exact .nil
  · obtain ⟨entries, henumerate, rfl⟩ := listDirectory_ok hlist
    exact harranged henumerate
  · obtain ⟨entries, henumerate, rfl⟩ := listDirectory_ok hlist
    exact harranged henumerate

theorem FileSystem.endless_regular : FileSystem.endless.Regular where
  listed := by
    intro s dir entries h entry hentry
    obtain rfl : _ = entries := Except.ok.inj h
    rcases List.mem_cons.mp hentry with rfl | hentry
    · exact ⟨rfl, by simp, by simp⟩
    · obtain rfl := List.mem_singleton.mp hentry
      exact ⟨rfl, by simp, by simp⟩
  resolved := by
    intro s path found h
    obtain rfl : _ = found := Except.ok.inj h
    exact ⟨rfl, rfl⟩

end LazyTree
