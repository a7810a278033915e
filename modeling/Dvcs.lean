import Dvcs.Author
import Dvcs.CommandLine
import Dvcs.CommandLine.Option
import Dvcs.CommandLine.Request
import Dvcs.Commit
import Dvcs.Commit.Dump
import Dvcs.Commit.Record
import Dvcs.Console
import Dvcs.Console.Plain
import Dvcs.Discovery
import Dvcs.Error
import Dvcs.FileTree
import Dvcs.FileType
import Dvcs.Git
import Dvcs.Git.Change
import Dvcs.Git.Command
import Dvcs.Git.Exchange
import Dvcs.Git.Failure
import Dvcs.Git.History
import Dvcs.Git.Inspect
import Dvcs.Git.State
import Dvcs.Hash
import Dvcs.Hunk
import Dvcs.Hunk.Block
import Dvcs.Instant
import Dvcs.LineReader
import Dvcs.LineReader.Lookahead
import Dvcs.Main
import Dvcs.Mercurial
import Dvcs.Mercurial.Change
import Dvcs.Mercurial.Clean
import Dvcs.Mercurial.Command
import Dvcs.Mercurial.Exchange
import Dvcs.Mercurial.Extension
import Dvcs.Mercurial.Extension.Source
import Dvcs.Mercurial.History
import Dvcs.Mercurial.Inspect
import Dvcs.Mercurial.PathSettings
import Dvcs.Mercurial.Replay
import Dvcs.Mercurial.Revset
import Dvcs.Patch
import Dvcs.Patch.Extended
import Dvcs.Patch.Unified
import Dvcs.Path
import Dvcs.Path.Quoted
import Dvcs.Process
import Dvcs.Process.Environment
import Dvcs.Process.Handle
import Dvcs.Proofs.Author
import Dvcs.Proofs.Backends
import Dvcs.Proofs.Clean
import Dvcs.Proofs.CommandLine.Log
import Dvcs.Proofs.Commit.Compose
import Dvcs.Proofs.Commit.Facts
import Dvcs.Proofs.Commit.Fault
import Dvcs.Proofs.Commit.Record
import Dvcs.Proofs.Commit.Seen
import Dvcs.Proofs.Commit.Stream
import Dvcs.Proofs.Commit.Truncation
import Dvcs.Proofs.Console.Markup
import Dvcs.Proofs.Console.Plain
import Dvcs.Proofs.FailedCommand
import Dvcs.Proofs.FileTree
import Dvcs.Proofs.FileTree.Effects
import Dvcs.Proofs.Git.Clean
import Dvcs.Proofs.Git.Command
import Dvcs.Proofs.Git.History
import Dvcs.Proofs.Git.PathSettings
import Dvcs.Proofs.Git.Scratch
import Dvcs.Proofs.Hash
import Dvcs.Proofs.Hunk.Block
import Dvcs.Proofs.Hunk.Counts
import Dvcs.Proofs.Hunk.Cut
import Dvcs.Proofs.Hunk.Fault
import Dvcs.Proofs.Hunk.Frame
import Dvcs.Proofs.Hunk.Header
import Dvcs.Proofs.Hunk.Normal
import Dvcs.Proofs.Hunk.Script
import Dvcs.Proofs.Hunk.Seen
import Dvcs.Proofs.Hunk.Truncation
import Dvcs.Proofs.Instant
import Dvcs.Proofs.LineReader
import Dvcs.Proofs.LineReader.Compose
import Dvcs.Proofs.LineReader.Cursor
import Dvcs.Proofs.LineReader.Seen
import Dvcs.Proofs.Mercurial.Clean
import Dvcs.Proofs.Mercurial.Command
import Dvcs.Proofs.Mercurial.Extension
import Dvcs.Proofs.Mercurial.Facts
import Dvcs.Proofs.Mercurial.Form
import Dvcs.Proofs.Mercurial.Log
import Dvcs.Proofs.Mercurial.Operation
import Dvcs.Proofs.Mercurial.PathSettings
import Dvcs.Proofs.Mercurial.Replay
import Dvcs.Proofs.Mercurial.Revset
import Dvcs.Proofs.Mercurial.Rewrite
import Dvcs.Proofs.Mercurial.Scratch
import Dvcs.Proofs.Mercurial.SettingsFile
import Dvcs.Proofs.Mercurial.Tags
import Dvcs.Proofs.Mercurial.Traversal
import Dvcs.Proofs.Mercurial.User
import Dvcs.Proofs.Patch.Agreement
import Dvcs.Proofs.Patch.Body
import Dvcs.Proofs.Patch.CStyle
import Dvcs.Proofs.Patch.Coherent
import Dvcs.Proofs.Patch.Fault
import Dvcs.Proofs.Patch.Frame
import Dvcs.Proofs.Patch.Header
import Dvcs.Proofs.Patch.Lines
import Dvcs.Proofs.Patch.Normal
import Dvcs.Proofs.Patch.Notice
import Dvcs.Proofs.Patch.RoundTrip
import Dvcs.Proofs.Patch.Seen
import Dvcs.Proofs.Patch.Stop
import Dvcs.Proofs.Patch.Truncation
import Dvcs.Proofs.Patch.Unified
import Dvcs.Proofs.Patch.Visits
import Dvcs.Proofs.Path.CStyle
import Dvcs.Proofs.Path.Normal
import Dvcs.Proofs.Path.Part
import Dvcs.Proofs.Path.Piece
import Dvcs.Proofs.Path.Quoted
import Dvcs.Proofs.Process.Ending
import Dvcs.Proofs.Process.Handle
import Dvcs.Proofs.Process.Output
import Dvcs.Proofs.Process.Stream
import Dvcs.Proofs.Range
import Dvcs.Proofs.TemporaryFiles
import Dvcs.Proofs.Text.Cut
import Dvcs.Proofs.Text.Digits
import Dvcs.Proofs.Text.Join
import Dvcs.Proofs.Text.Lines
import Dvcs.Proofs.Text.Space
import Dvcs.Proofs.Text.Stray
import Dvcs.Proofs.Text.Strict
import Dvcs.Proofs.Text.Utf8
import Dvcs.Proofs.World
import Dvcs.Proofs.World.Acts
import Dvcs.Proofs.World.Lifetime
import Dvcs.Proofs.World.Scope
import Dvcs.Proofs.World.Steps
import Dvcs.Range
import Dvcs.ReadError
import Dvcs.Reference
import Dvcs.Repository
import Dvcs.Settings
import Dvcs.Settings.EnvFile
import Dvcs.Text
import Dvcs.Text.Cited
import Dvcs.Text.Digits
import Dvcs.Text.LowerCase
import Dvcs.Text.Space
import Dvcs.Text.Strict
import Dvcs.Text.Utf8
import Dvcs.Validation
import Dvcs.World
