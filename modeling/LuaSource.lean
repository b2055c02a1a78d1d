import LuaSource.Chunk
import LuaSource.Format
import LuaSource.Text.Cursor
import LuaSource.Visitor
import LuaSource.Proofs.Grammar.Letter
import LuaSource.Proofs.Grammar.Meets
import LuaSource.Proofs.Tree.Everywhere
import LuaSource.Proofs.Tree.Need
import LuaSource.Proofs.Tree.Shape
import LuaSource.Proofs.Grammar.Rules
import LuaSource.Proofs.Grammar.ReadExpression
import LuaSource.Proofs.Grammar.ReadStatement
import LuaSource.Proofs.Grammar.Locality
import LuaSource.Proofs.Grammar.LocalGrammar
import LuaSource.Proofs.Grammar.Beginnings
import LuaSource.Proofs.Grammar.Gives
import LuaSource.Proofs.Grammar.GiveExpression
import LuaSource.Proofs.Grammar.GiveStatement
import LuaSource.Proofs.Lexeme.Cut
import LuaSource.Proofs.Lexeme.CutLexeme
import LuaSource.Proofs.Lexeme.Sound
import LuaSource.Proofs.Lexer.Stream
import LuaSource.Proofs.Grammar.Spans
import LuaSource.Proofs.Accept
import LuaSource.Proofs.Numeral.Decimal
import LuaSource.Proofs.Numeral.Grammar
import LuaSource.Proofs.Numeral.Shortest
import LuaSource.Proofs.Numeral.Written
import LuaSource.Proofs.Format.Legible
import LuaSource.Proofs.Format.Resumed
import LuaSource.Proofs.Fault
import LuaSource.Proofs.Format.Spelled
import LuaSource.Proofs.Format.RoundTrip
import LuaSource.Proofs.Depth
import LuaSource.Proofs.Excerpt
import LuaSource.Proofs.Format.Canonical
import LuaSource.Proofs.Format.Preserved
import LuaSource.Proofs.Grammar.Relayout
import LuaSource.Proofs.Grammar.InStepGrammar
import LuaSource.Proofs.Relayout
import LuaSource.Proofs.Scanner.Loop
import LuaSource.Proofs.Scanner.Bracket
import LuaSource.Proofs.Consumed
import LuaSource.Proofs.Grammar.PlacedOrder
import LuaSource.Proofs.Visit
import LuaSource.Proofs.Text.TruePosition
import LuaSource.Checked.Lexer
import LuaSource.Proofs.Checked.Cursor
import LuaSource.Proofs.Checked.Scanner
import LuaSource.Proofs.Lexer.Places
import LuaSource.Proofs.Checked.Lexer
import LuaSource.Checked.Chunk
import LuaSource.Proofs.Checked.Parse
import LuaSource.Proofs.Checked.Grammar
import LuaSource.Proofs.Checked.Chunk
import LuaSource.Proofs.Text.PositionOrder
import LuaSource.Proofs.Tree.Children
import LuaSource.Proofs.Grammar.PlacedSpans
import LuaSource.Proofs.Grammar.PlacedEnds
import LuaSource.Proofs.Nesting
import LuaSource.Proofs.Positions
import LuaSource.Proofs.Lexer.Joined
import LuaSource.Proofs.Lexer.Shift
import LuaSource.Proofs.Logs
import LuaSource.Proofs.Reports
import LuaSource.Proofs.Numeral.Hexadecimal
import LuaSource.Proofs.Grammar.Stratified
import LuaSource.Proofs.Lexer.Seam
import LuaSource.Proofs.Grammar.Shifted
import LuaSource.Proofs.Grammar.Semicolon
import LuaSource.Proofs.Concatenated
import LuaSource.Proofs.Tree.Signs
import LuaSource.Proofs.Tree.SignedBases
import LuaSource.Proofs.Format.Signs
import LuaSource.Proofs.Text.Newlines
import LuaSource.Proofs.Lexer.Calls
import LuaSource.Proofs.Lexer.LongBracket
import LuaSource.Proofs.Lexeme.Items
import LuaSource.Proofs.Lexer.ShortString
import LuaSource.Proofs.Numeral.WellFormed
import LuaSource.Proofs.Lexer.Shebang
import LuaSource.Proofs.Tree.Bared
import LuaSource.Proofs.Format.Minimal
import LuaSource.Proofs.Format.Printed
import LuaSource.Proofs.Format.Stacked
import LuaSource.Proofs.Format.Laid
import LuaSource.Proofs.Format.Regular
import LuaSource.Proofs.Closing.Openers
import LuaSource.Proofs.Closing.Tracks
import LuaSource.Proofs.Closing.TracksGrammar
import LuaSource.Proofs.Closing.Forks
import LuaSource.Proofs.Closing.ForkRules
import LuaSource.Proofs.Closing.ForksGrammar
import LuaSource.Proofs.Closing.Continued
import LuaSource.Proofs.Closing.Missing
import LuaSource.Proofs.Tree.Overrides
import LuaSource.Proofs.Grammar.PlacedClauses
import LuaSource.Proofs.Clauses
import LuaSource.Proofs.Format.Separator
