import LazyTree.Arena
import LazyTree.CommandLine.Arguments
import LazyTree.CommandLine.Help
import LazyTree.CommandLine.Run
import LazyTree.Entry
import LazyTree.EventQueue
import LazyTree.Failure
import LazyTree.FileSystem
import LazyTree.FileSystem.Scripted
import LazyTree.Host.Change
import LazyTree.Host.Disk
import LazyTree.Host.Manifest
import LazyTree.Host.Mount
import LazyTree.Host.Path
import LazyTree.Host.Watcher
import LazyTree.Listing
import LazyTree.Main
import LazyTree.Merge
import LazyTree.NameFilter
import LazyTree.Path
import LazyTree.Proofs.Alignment
import LazyTree.Proofs.Approach
import LazyTree.Proofs.Arena
import LazyTree.Proofs.Asking
import LazyTree.Proofs.Batches
import LazyTree.Proofs.Cascade
import LazyTree.Proofs.Checks
import LazyTree.Proofs.Churn
import LazyTree.Proofs.Completions
import LazyTree.Proofs.Confinement
import LazyTree.Proofs.Convergence
import LazyTree.Proofs.Curation
import LazyTree.Proofs.Descent
import LazyTree.Proofs.Detach
import LazyTree.Proofs.EnumerationOrder
import LazyTree.Proofs.Evolution
import LazyTree.Proofs.Expandable
import LazyTree.Proofs.Expansion
import LazyTree.Proofs.FailedSelection
import LazyTree.Proofs.Failures
import LazyTree.Proofs.Fetches
import LazyTree.Proofs.Flags
import LazyTree.Proofs.Following
import LazyTree.Proofs.Forest
import LazyTree.Proofs.Handles
import LazyTree.Proofs.HostPaths
import LazyTree.Proofs.HostRoundTrip
import LazyTree.Proofs.Identity
import LazyTree.Proofs.Layers
import LazyTree.Proofs.Laziness
import LazyTree.Proofs.LevelByLevel
import LazyTree.Proofs.Levels
import LazyTree.Proofs.Linked
import LazyTree.Proofs.Locality
import LazyTree.Proofs.Lookup
import LazyTree.Proofs.Merge
import LazyTree.Proofs.MergeOutcome
import LazyTree.Proofs.Mirror
import LazyTree.Proofs.Mounted
import LazyTree.Proofs.Moves
import LazyTree.Proofs.Names
import LazyTree.Proofs.OnVolume
import LazyTree.Proofs.Ordered
import LazyTree.Proofs.Outline
import LazyTree.Proofs.Passage
import LazyTree.Proofs.PathOrder
import LazyTree.Proofs.Paths
import LazyTree.Proofs.Preorder
import LazyTree.Proofs.Presented
import LazyTree.Proofs.Refreshing
import LazyTree.Proofs.Reissued
import LazyTree.Proofs.Removal
import LazyTree.Proofs.Repetition
import LazyTree.Proofs.Requests
import LazyTree.Proofs.Reselection
import LazyTree.Proofs.Resting
import LazyTree.Proofs.Rows
import LazyTree.Proofs.Scope
import LazyTree.Proofs.Session
import LazyTree.Proofs.Shortcuts
import LazyTree.Proofs.Siblings
import LazyTree.Proofs.Sifted
import LazyTree.Proofs.SortedMerge
import LazyTree.Proofs.Steady
import LazyTree.Proofs.Stocked
import LazyTree.Proofs.Structure
import LazyTree.Proofs.Superseded
import LazyTree.Proofs.Tickets
import LazyTree.Proofs.Touched
import LazyTree.Proofs.Trace
import LazyTree.Proofs.Uncovered
import LazyTree.Proofs.Unflagged
import LazyTree.Proofs.Unseen
import LazyTree.Proofs.Visit
import LazyTree.Proofs.Visited
import LazyTree.Proofs.Volumes
import LazyTree.Proofs.Walk
import LazyTree.Proofs.Watching
import LazyTree.Proofs.Way
import LazyTree.Proofs.WellFormed
import LazyTree.Settings
import LazyTree.Settings.Decode
import LazyTree.Settings.Sources
import LazyTree.SiblingOrder
import LazyTree.Text.CaseTable
import LazyTree.Text.CodeRange
import LazyTree.Text.Lowercase
import LazyTree.Text.PrintTable
import LazyTree.Text.Quoted
import LazyTree.Toml.Document
import LazyTree.Toml.Expression
import LazyTree.Toml.Quoted
import LazyTree.Toml.Scalar
import LazyTree.Toml.Table
import LazyTree.Toml.Value
import LazyTree.Touched
import LazyTree.TreeView
import LazyTree.TreeView.Changes
import LazyTree.TreeView.Drawing
import LazyTree.TreeView.Refresh
import LazyTree.TreeView.Selection
import LazyTree.TreeView.Snapshot
import LazyTree.VolumeMap
