import GitShell.Text.Order
import GitShell.Line.Basic
import GitShell.Line.Cursor
import GitShell.Chain.Execute
import GitShell.Editing.Editor
import GitShell.Session.CommandLine
import GitShell.Main
import GitShell.Host.Environment
import GitShell.Proofs.Line.Tiling
import GitShell.Proofs.Line.Joining
import GitShell.Proofs.Chain.Evaluation
import GitShell.Proofs.Chain.Grammar
import GitShell.Proofs.Chain.Writing
import GitShell.Proofs.Chain.Calls
import GitShell.Proofs.Chain.FirstError
import GitShell.Proofs.Chain.Sequence
import GitShell.Proofs.Session.Foreground
import GitShell.Proofs.Line.Command
import GitShell.Proofs.Text.OrderedSet
import GitShell.Proofs.Text.Coloring
import GitShell.Proofs.Text.Lines
import GitShell.Proofs.Editing.Painting
import GitShell.Proofs.Editing.Answers
import GitShell.Proofs.Editing.Coloring
import GitShell.Proofs.Editing.Agreement
import GitShell.Proofs.Editing.LastWord
import GitShell.Proofs.Editing.Sequence
import GitShell.Proofs.Editing.Replacement
import GitShell.Proofs.Editing.Insertion
import GitShell.Proofs.Host.Places
import GitShell.Proofs.Host.Writing
import GitShell.Proofs.Session.Record
import GitShell.Proofs.Session.Frame
import GitShell.Proofs.Session.Course
import GitShell.Proofs.Session.Coherence
import GitShell.Proofs.Session.Snapshot
import GitShell.Proofs.Session.Persistence
import GitShell.Proofs.Help.Writing
import GitShell.Proofs.Help.Manual
import GitShell.Proofs.Help.Mined
import GitShell.Proofs.Help.NameCut
import GitShell.Proofs.Line.Place
import GitShell.Proofs.Line.Bare
import GitShell.Proofs.Editing.SameCommand
import GitShell.Proofs.Editing.LastGroup
import GitShell.Proofs.Editing.MinedOptions
import GitShell.Proofs.Help.Overstrike
import GitShell.Proofs.Line.Spacing
import GitShell.Proofs.Chain.Spacing
import GitShell.Proofs.Text.ByteOrder
import GitShell.Proofs.Editing.Enumeration
import GitShell.Proofs.Editing.HintedOption
import GitShell.Proofs.Session.HintedOption
import GitShell.Proofs.Chain.Report
import GitShell.Proofs.Repository.Listing
import GitShell.Proofs.Repository.AliasChange
import GitShell.Proofs.Session.Route
import GitShell.Proofs.Editing.ByteOffset
import GitShell.Proofs.Line.Moves
import GitShell.Proofs.Session.Paths
