import Routing.Unicode.Ranges
import Routing.Unicode.Digit
import Routing.Unicode.Space
import Routing.Unicode.Word
import Routing.Unicode.Fold
import Routing.Regex.Syntax
import Routing.Regex.Property
import Routing.Regex.Parse
import Routing.Regex.Match
import Routing.Regex.Engine
import Routing.Regex.Quote
import Routing.Error
import Routing.Template.Token
import Routing.Template.Constraint
import Routing.Template.Compile
import Routing.Template.PathRegex
import Routing.Template.PathValues
import Routing.Text.Utf8
import Routing.Text.Percent
import Routing.Path.Config
import Routing.Path.Normalize
import Routing.Dispatch.ParamIndex
import Routing.Dispatch.HandlerTable
import Routing.Text.Bytes
import Routing.Trie.Node
import Routing.Trie.Insert
import Routing.Trie.Walk
import Routing.Trie.Search
import Routing.Trie.RootPath
import Routing.Router.Basic
import Routing.Router.Lookup
import Routing.Router.Render
import Routing.Cache.Lru
import Routing.Cache.Recency
import Routing.Cache.Cached
import Routing.Proofs.Text.CommonPrefix
import Routing.Proofs.Text.Slicing
import Routing.Proofs.Trie.Growth
import Routing.Proofs.Trie.Descent
import Routing.Proofs.Trie.RootPaths
import Routing.Proofs.Trie.Registry
import Routing.Proofs.Template.Shape
import Routing.Proofs.Router.Reachable
import Routing.Proofs.Router.Tree
import Routing.Proofs.Trie.Walk
import Routing.Proofs.Template.Reading
import Routing.Proofs.Trie.Matching
import Routing.Proofs.Router.Resolve
import Routing.Proofs.Router.LiteralRoutes
import Routing.Proofs.Trie.Priority
import Routing.Proofs.Router.Params
import Routing.Proofs.Cache.Recency
import Routing.Proofs.Cache.Cached
import Routing.Proofs.Router.Stability
import Routing.Proofs.Template.Suffix
import Routing.Proofs.Trie.Unfolded
import Routing.Proofs.Trie.Siblings
import Routing.Proofs.Router.Order
import Routing.Proofs.Template.Lossless
import Routing.Proofs.Trie.Termination
import Routing.Proofs.Regex.Backtracking
import Routing.Proofs.Regex.Chain
import Routing.Proofs.Template.ChainedSpan
import Routing.Proofs.Trie.Bounds
import Routing.Proofs.Regex.Exact
import Routing.Proofs.Path.Normalize
import Routing.Proofs.Template.Optional
import Routing.Proofs.Regex.PathGroups
import Routing.Proofs.Template.WholePath
import Routing.Proofs.Router.Drawing
import Routing.Proofs.Template.Indexed
