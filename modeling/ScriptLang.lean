import ScriptLang.Main
import ScriptLang.Proofs.Tree.RoundTrip
import ScriptLang.Proofs.Grammar.Blame
import ScriptLang.Proofs.Grammar.Layout
import ScriptLang.Proofs.Lexer.Joining
import ScriptLang.Proofs.Grammar.Parametric
import ScriptLang.Proofs.Stream.Tape
import ScriptLang.Proofs.Lexer.Eager
import ScriptLang.Proofs.Grammar.Thrift
import ScriptLang.Proofs.Grammar.Demand
import ScriptLang.Proofs.Lexer.Splitting
import ScriptLang.Proofs.Lexer.Writing
import ScriptLang.Proofs.Stream.Position
import ScriptLang.Proofs.Grammar.Refusals
import ScriptLang.Proofs.Lexer.SlashRuns
import ScriptLang.Proofs.Tree.Numbers
import ScriptLang.Proofs.Grammar.Foresight
import ScriptLang.Proofs.Grammar.Precedence
import ScriptLang.Proofs.Json.Leaves
import ScriptLang.Proofs.Json.Pretty
import ScriptLang.Proofs.Tree.Encoding
import ScriptLang.Proofs.Tree.Dates
import ScriptLang.Proofs.Lexer.Boundaries
import ScriptLang.Proofs.Grammar.Checked
import ScriptLang.Proofs.Grammar.Progress
import ScriptLang.Proofs.Lexer.Listing
import ScriptLang.Proofs.Tree.Indentation
import ScriptLang.Proofs.Grammar.Peeking
import ScriptLang.Proofs.Grammar.Scanning
