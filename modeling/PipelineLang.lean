import PipelineLang.Command
import PipelineLang.Grammar.Program
import PipelineLang.Main
import PipelineLang.Proofs.Address.Groups
import PipelineLang.Proofs.Address.Shapes
import PipelineLang.Proofs.Address.Words
import PipelineLang.Proofs.Concatenation
import PipelineLang.Proofs.Depth
import PipelineLang.Proofs.Excerpts
import PipelineLang.Proofs.Frontmatter
import PipelineLang.Proofs.Grammar.Accuracy
import PipelineLang.Proofs.Grammar.Containment
import PipelineLang.Proofs.Grammar.Context
import PipelineLang.Proofs.Grammar.DerivedExpressions
import PipelineLang.Proofs.Grammar.DerivedStatements
import PipelineLang.Proofs.Grammar.Expectations
import PipelineLang.Proofs.Grammar.Failure
import PipelineLang.Proofs.Grammar.Heedless
import PipelineLang.Proofs.Grammar.Joining
import PipelineLang.Proofs.Grammar.Placement
import PipelineLang.Proofs.Grammar.ProgramCompleteness
import PipelineLang.Proofs.Grammar.Segments
import PipelineLang.Proofs.Grammar.Tracked
import PipelineLang.Proofs.Grammar.Unclosed
import PipelineLang.Proofs.KeptTokens
import PipelineLang.Proofs.Limits
import PipelineLang.Proofs.Literal.Addresses
import PipelineLang.Proofs.Literal.Decoding
import PipelineLang.Proofs.Literal.Grammars
import PipelineLang.Proofs.Literal.Longest
import PipelineLang.Proofs.Literal.RawStrings
import PipelineLang.Proofs.Literal.Shapes
import PipelineLang.Proofs.Literal.Strings
import PipelineLang.Proofs.Precedence
import PipelineLang.Proofs.Rereading
import PipelineLang.Proofs.RoundTrip
import PipelineLang.Proofs.Source.Accuracy
import PipelineLang.Proofs.Syntax.Moved
import PipelineLang.Proofs.Syntax.Places
import PipelineLang.Proofs.Text.Longest
import PipelineLang.Proofs.Text.Matching
import PipelineLang.Proofs.Text.Walking
import PipelineLang.Proofs.Token.Accuracy
import PipelineLang.Proofs.Token.Calls
import PipelineLang.Proofs.Token.Comments
import PipelineLang.Proofs.Token.Extent
import PipelineLang.Proofs.Token.Format
import PipelineLang.Proofs.Token.Frontmatter
import PipelineLang.Proofs.Token.Joining
import PipelineLang.Proofs.Token.Locality
import PipelineLang.Proofs.Token.Lossless
import PipelineLang.Proofs.Token.Moved
import PipelineLang.Proofs.Token.Nesting
import PipelineLang.Proofs.Token.PathWords
import PipelineLang.Proofs.Token.Progress
import PipelineLang.Proofs.Token.Rereading
import PipelineLang.Proofs.Token.Resumption
import PipelineLang.Proofs.Token.Running
import PipelineLang.Syntax.Layout
import PipelineLang.Syntax.Tree
import PipelineLang.Token.Scanner
import PipelineLang.Proofs.Literal.Decimals
import PipelineLang.Proofs.Literal.Exactness
