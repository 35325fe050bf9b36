import Vyb.Collections.HashMapRefine
import Vyb.Collections.BTreeIter
import Vyb.Collections.OrderedInt
import Vyb.Semantic.Match
import Vyb.Semantic.MatchCompare
import Vyb.Semantic.ThreadBoundary
import Vyb.Codegen.Monomorph
import Vyb.Syntax.RangeFor
import Vyb.Semantic.AspectInheritance
import Vyb.Semantic.SelfType
import Vyb.Semantic.Captures
import Vyb.Semantic.Failability
import Vyb.Semantic.IntegerAssignment
import Vyb.Semantic.Exclusivity
import Vyb.Semantic.Narrowing
import Vyb.Semantic.UseAfterMove
import Vyb.Semantic.BorrowLifetime
import Vyb.Packages.Versions
import Vyb.Runtime.Rand
import Vyb.Runtime.CallStack
import Vyb.Runtime.JsonMembers
import Vyb.Modules.Visibility
import Vyb.Runtime.StrSearch
import Vyb.Runtime.Regex
import Vyb.Runtime.Utf8
import Vyb.Stdlib.Base64
import Vyb.Stdlib.WebSocketStream
import Vyb.Stdlib.SignedChain
import Vyb.Stdlib.ChainText
import Vyb.Stdlib.InflateHalts
import Vyb.Stdlib.Png
import Vyb.Stdlib.HttpClient
import Vyb.Stdlib.TokenizerRoundTrip
import Vyb.Stdlib.TokenizerMerges
import Vyb.Lsp.JsonWrite
import Vyb.Lsp.Server
import Vyb.Packages.LockRuns
import Vyb.Packages.Register
import Vyb.Packages.Repl
