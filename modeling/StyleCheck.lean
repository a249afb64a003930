import StyleCheck.Fault
import StyleCheck.OrdSet
import StyleCheck.Path
import StyleCheck.Files
import StyleCheck.Violation
import StyleCheck.Report
import StyleCheck.Text.Basic
import StyleCheck.Text.Utf8
import StyleCheck.Text.Numeral
import StyleCheck.Text.Lines
import StyleCheck.Text.Column
import StyleCheck.Text.Comment
import StyleCheck.Pattern.Basic
import StyleCheck.Pattern.Parse
import StyleCheck.Tree.Kind
import StyleCheck.Tree.KindTable
import StyleCheck.Tree.Node
import StyleCheck.Tree.Token
import StyleCheck.Indent.Settings
import StyleCheck.Indent.Levels
import StyleCheck.Indent.Construct
import StyleCheck.Indent.Frame
import StyleCheck.Indent.Scene
import StyleCheck.Indent.Finding
import StyleCheck.Indent.Braces
import StyleCheck.Indent.DoLoop
import StyleCheck.Indent.Rules
import StyleCheck.Indent.Check
import StyleCheck.Spacing.Namespace
import StyleCheck.Spacing.Check
import StyleCheck.TextRule.Todo
import StyleCheck.TextRule.Basic
import StyleCheck.Suppression
import StyleCheck.Display
import StyleCheck.Walk.Filter
import StyleCheck.Walk.Event
import StyleCheck.Walk.Check
import StyleCheck.Walk.Trace
import StyleCheck.Audit
import StyleCheck.CommandLine
import StyleCheck.Profile
import StyleCheck.Main
import StyleCheck.Proofs.Trees
import StyleCheck.Proofs.Paths
import StyleCheck.Proofs.Filters
import StyleCheck.Proofs.Tours
import StyleCheck.Proofs.Following
import StyleCheck.Proofs.FrameStack
import StyleCheck.Proofs.LookedAt
import StyleCheck.Proofs.LevelSums
import StyleCheck.Proofs.AuditUnion
import StyleCheck.Proofs.Parallel
import StyleCheck.Proofs.TokenRanges
import StyleCheck.Proofs.DoLoops
import StyleCheck.Proofs.LineShift
import StyleCheck.Proofs.ShiftedWalks
import StyleCheck.Proofs.ReportedLines
import StyleCheck.Proofs.SeenFiles
import StyleCheck.Proofs.ClassTemplates
import StyleCheck.Proofs.DisplayCounts
import StyleCheck.Proofs.TabStops
import StyleCheck.Proofs.LineStarts
import StyleCheck.Proofs.TokensInside
import StyleCheck.Proofs.BraceLayout
import StyleCheck.Proofs.BorrowedBraces
import StyleCheck.Proofs.BraceLevels
import StyleCheck.Proofs.ScratchAudits
import StyleCheck.Proofs.LoopBraces
import StyleCheck.Proofs.AccessLabels
import StyleCheck.Proofs.DetachedNodes
import StyleCheck.Proofs.Spellings
import StyleCheck.Proofs.Lexing
import StyleCheck.Proofs.FilterRequests
import StyleCheck.Proofs.IncludedDirs
import StyleCheck.Proofs.CommentPlaces
import StyleCheck.Proofs.TodoForms
import StyleCheck.Proofs.ByteOrder
import StyleCheck.Proofs.DisplayOrder
import StyleCheck.Proofs.NamespaceSpacing
import StyleCheck.Proofs.HeaderLines
import StyleCheck.Proofs.CachedFiles
import StyleCheck.Proofs.CachedAudits
import StyleCheck.Proofs.LevelHistories
