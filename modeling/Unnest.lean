import Unnest.Text.Basic
import Unnest.Text.Lines
import Unnest.Error
import Unnest.Token.Basic
import Unnest.Token.Lexeme
import Unnest.Token.Scan
import Unnest.Group.Basic
import Unnest.Group.Nest
import Unnest.Cursor
import Unnest.Decl.TypeRef
import Unnest.Decl.Basic
import Unnest.Decl.ClassBody
import Unnest.Grammar.Skip
import Unnest.Grammar.Modifiers
import Unnest.Grammar.Types
import Unnest.Grammar.Code
import Unnest.Grammar.Member
import Unnest.Grammar.Body
import Unnest.Grammar.File
import Unnest.Decl.Geometry
import Unnest.Decl.Outline
import Unnest.Plan.Label
import Unnest.Plan.Basic
import Unnest.Plan.Resolve
import Unnest.Plan.Bases
import Unnest.Plan.Order
import Unnest.Header.TypeText
import Unnest.Header.Layout
import Unnest.Header.Basic
import Unnest.Header.Initialization
import Unnest.Header.ConstructorCall
import Unnest.Header.Overriding
import Unnest.Header.ClassText
import Unnest.Header.MemberText
import Unnest.Header.Text
import Unnest.Command.Count
import Unnest.Command.Options
import Unnest.Command.Target
import Unnest.Command.Usage
import Unnest.Report.Diagnostic
import Unnest.Report.Metrics
import Unnest.Report.Milliseconds
import Unnest.Command.FileTree
import Unnest.Command.Convert
import Unnest.Command.Pool
import Unnest.Command.Run
import Unnest.Main
import Unnest.Proofs.Outcome
import Unnest.Proofs.Heads
import Unnest.Proofs.Twins
import Unnest.Proofs.Extent
import Unnest.Proofs.Elements
import Unnest.Proofs.MemberParts
import Unnest.Proofs.Moving
import Unnest.Proofs.MemberHeads
import Unnest.Proofs.Bodies
import Unnest.Proofs.Runs
import Unnest.Proofs.Exclusion
import Unnest.Proofs.Brackets
import Unnest.Proofs.Numerals
import Unnest.Proofs.Lookahead
import Unnest.Proofs.Scanning
import Unnest.Proofs.Positions
import Unnest.Proofs.Codes
import Unnest.Proofs.Rescan
import Unnest.Proofs.Initializers
import Unnest.Proofs.Expressions
import Unnest.Proofs.ErrorPlaces
import Unnest.Proofs.Tiling
import Unnest.Proofs.Shadows
import Unnest.Proofs.LockstepHeads
import Unnest.Proofs.Essence
import Unnest.Proofs.CommentFree
import Unnest.Proofs.Lockstep
import Unnest.Proofs.LockstepForms
import Unnest.Proofs.Recognition
import Unnest.Proofs.TwinRuns
import Unnest.Proofs.Tails
import Unnest.Proofs.Prefixes
import Unnest.Proofs.Appending
import Unnest.Proofs.OpaqueBodies
import Unnest.Proofs.Classes
import Unnest.Proofs.Ordering
import Unnest.Proofs.BaseLookup
import Unnest.Proofs.ClassNodes
import Unnest.Proofs.AnonymousNames
import Unnest.Proofs.DeclarationOrder
import Unnest.Proofs.Creations
import Unnest.Proofs.Fragments
import Unnest.Proofs.SortedBodies
import Unnest.Proofs.OwnWords
import Unnest.Proofs.HeaderCreations
import Unnest.Proofs.Separators
import Unnest.Proofs.EmittedNames
import Unnest.Proofs.Paths
import Unnest.Proofs.FileTrees
import Unnest.Proofs.Conversions
import Unnest.Proofs.Workers
import Unnest.Proofs.Turns
import Unnest.Proofs.Renumbering
import Unnest.Proofs.Reordering
import Unnest.Proofs.Nesting
import Unnest.Proofs.Readings
import Unnest.Proofs.ClassBodies
import Unnest.Proofs.Progress
import Unnest.Proofs.Reentry
import Unnest.Proofs.CommentedTokens
import Unnest.Proofs.CreationRuns
import Unnest.Proofs.ConstructorCalls
import Unnest.Proofs.Aliases
import Unnest.Proofs.Cycles
import Unnest.Proofs.Overriding
import Unnest.Proofs.ConstantBodies
import Unnest.Proofs.Initialization
import Unnest.Proofs.LineBreaks
import Unnest.Proofs.NumberEnds
import Unnest.Proofs.WrittenTypes
import Unnest.Proofs.TypeWords
import Unnest.Proofs.TypeReading
import Unnest.Proofs.Characters
import Unnest.Proofs.Excerpts
import Unnest.Proofs.Outlines
import Unnest.Proofs.Indentation
import Unnest.Proofs.Arguments
import Unnest.Proofs.Counts
import Unnest.Proofs.Agreement
import Unnest.Proofs.InheritedClasses
import Unnest.Proofs.SkippedComments
