import OutOfLine.Text
import OutOfLine.Text.CharClass
import OutOfLine.Text.Blank
import OutOfLine.Text.WordChar
import OutOfLine.Text.Unprintable
import OutOfLine.Token
import OutOfLine.Token.Lexer
import OutOfLine.Document
import OutOfLine.Code
import OutOfLine.Stream
import OutOfLine.Scope
import OutOfLine.Scope.Header
import OutOfLine.Scope.Resolver
import OutOfLine.Scope.Boundary
import OutOfLine.Declaration
import OutOfLine.Declaration.Signature
import OutOfLine.Declaration.Parser
import OutOfLine.Access
import OutOfLine.Statement
import OutOfLine.Parameters
import OutOfLine.Config
import OutOfLine.Definition
import OutOfLine.Path
import OutOfLine.FileRole
import OutOfLine.Edit
import OutOfLine.Text.Quoted
import OutOfLine.Intent
import OutOfLine.Error
import OutOfLine.Log
import OutOfLine.Plan
import OutOfLine.Session
import OutOfLine.JsonValue
import OutOfLine.FileSystem
import OutOfLine.Config.File
import OutOfLine.Config.PlainFile
import OutOfLine.CommandLine
import OutOfLine.Command
import OutOfLine.Main
import OutOfLine.Proofs.ByteOffsets
import OutOfLine.Proofs.Lines
import OutOfLine.Proofs.CodeTokens
import OutOfLine.Proofs.LocatedTokens
import OutOfLine.Proofs.Locators
import OutOfLine.Proofs.Reader
import OutOfLine.Proofs.Signatures
import OutOfLine.Proofs.PlanSafety
import OutOfLine.Proofs.ScopeChains
import OutOfLine.Proofs.LocatorAgreement
import OutOfLine.Proofs.RecordInk
import OutOfLine.Proofs.ShortenedSource
import OutOfLine.Proofs.KeptDeclaration
import OutOfLine.Proofs.MovedHeader
import OutOfLine.Proofs.JoinedLines
import OutOfLine.Proofs.ScopeEnds
import OutOfLine.Proofs.Brackets
import OutOfLine.Proofs.SignatureTokens
import OutOfLine.Proofs.SeparatedText
import OutOfLine.Proofs.Prototypes
import OutOfLine.Proofs.StrippedParameters
import OutOfLine.Proofs.ReturnTypes
import OutOfLine.Proofs.RenderedDefinitions
import OutOfLine.Proofs.StreamTokens
import OutOfLine.Proofs.CommentRegions
import OutOfLine.Proofs.RecognisedComments
import OutOfLine.Proofs.RelocatedPlans
import OutOfLine.Proofs.CommentedLines
import OutOfLine.Proofs.InsertedBraces
import OutOfLine.Proofs.OfferedIntents
import OutOfLine.Proofs.TokenPlaces
import OutOfLine.Proofs.LineEndings
import OutOfLine.Proofs.AppliedFiles
import OutOfLine.Proofs.FaithfulTokens
import OutOfLine.Proofs.HiddenBraces
import OutOfLine.Proofs.InsertedStatements
import OutOfLine.Proofs.StrippedDefaults
import OutOfLine.Proofs.RestartedStreams
import OutOfLine.Proofs.ReproducedSource
import OutOfLine.Proofs.ConsistentRecords
import OutOfLine.Proofs.SimultaneousEdits
import OutOfLine.Proofs.StableDefaults
import OutOfLine.Proofs.MemberInitializers
import OutOfLine.Proofs.OpenScopes
import OutOfLine.Proofs.RaisedBounds
import OutOfLine.Proofs.GuardedReading
import OutOfLine.Proofs.LineIndex
import OutOfLine.Proofs.PairedRoles
import OutOfLine.Proofs.TokenSpots
import OutOfLine.Proofs.MatchingBraces
