import LoxLang.Main
import LoxLang.Proofs.CommandLine.Modes
import LoxLang.Proofs.Direct.Sessions
import LoxLang.Proofs.Fuel
import LoxLang.Proofs.Lexical.Distances
import LoxLang.Proofs.Lexical.OwnInitializer
import LoxLang.Proofs.Lexical.Refinement
import LoxLang.Proofs.Lexical.Uses
import LoxLang.Proofs.Parsing.Accepts
import LoxLang.Proofs.Parsing.Contained
import LoxLang.Proofs.Parsing.Progress
import LoxLang.Proofs.Running.Restored
import LoxLang.Proofs.Running.Returns
import LoxLang.Proofs.Session.FullOutput
import LoxLang.Proofs.Session.Histories
import LoxLang.Proofs.Session.Latches
import LoxLang.Proofs.Session.Layout
import LoxLang.Proofs.Session.Operators
import LoxLang.Proofs.Session.Pieces
import LoxLang.Proofs.Session.Records
import LoxLang.Proofs.Session.Rejected
import LoxLang.Proofs.Session.Renamed
import LoxLang.Proofs.Session.Restored
import LoxLang.Proofs.Session.Returns
import LoxLang.Proofs.Session.StaticErrors
import LoxLang.Proofs.Session.SyntaxOrder
import LoxLang.Proofs.Store.AtDistance
import LoxLang.Proofs.Token.Cursor
import LoxLang.Proofs.Token.Lines
import LoxLang.Proofs.Token.Longest
import LoxLang.Proofs.Token.Spaced
import LoxLang.Proofs.Token.Unrecognized
import LoxLang.Proofs.Tree.Unambiguous
