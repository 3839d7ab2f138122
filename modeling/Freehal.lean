import Freehal.Ram.SynonymSearch
import Freehal.Disk.SynonymOrigins
import Freehal.Reasoning.ConclusionFile
import Freehal.Records.Window
import Freehal.Hal2012.Engines
import Freehal.Ram.Strategy
import Freehal.Ram.Deep
import Freehal.Ram.Loops
import Freehal.Ram.Answers
import Freehal.Ram.Sessions
import Freehal.Ram.PerQuestion
import Freehal.Universal.Bindings
import Freehal.Ram.Asking
import Freehal.Wiki.Brackets
import Freehal.Reasoning.Idempotent
import Freehal.Universal.Dividing
import Freehal.Records.Columns
import Freehal.Universal.SynonymLists
import Freehal.Hal2012.Dispatcher
import Freehal.Util.MultiHashMap
import Freehal.Hal2012.Ranking
import Freehal.Lib.Multimap
import Freehal.Grammar2012.ReaderSafety
import Freehal.Lib.Dangling
import Freehal.Pos.Toggling
import Freehal.Pos.Rewriting
import Freehal.Pos.Endings
import Freehal.Grammar2012.TagFiles
import Freehal.Grammar2012.Guessing
import Freehal.Pos.Guessing
import Freehal.Pos.Affixes
import Freehal.Lib.Best
import Freehal.Grammar2012.PairSentences
import Freehal.Lib.Pairing
import Freehal.Hal2012.Signals
import Freehal.Wiki.Termination
import Freehal.Wiki.Page
import Freehal.Lib.Walk
import Freehal.Wiki.Sentences
import Freehal.Universal.Negotiating
import Freehal.Records.MakeCsv
import Freehal.Grammar.Entity
import Freehal.Lib.HashMap
import Freehal.Grammar.StandardGrammar
import Freehal.Grammar.Lemmas.Entity
import Freehal.Grammar.Lemmas.Grammar
import Freehal.Grammar.Derivation
import Freehal.Grammar.Lemmas.Replace
import Freehal.Grammar.Lemmas.Reduce
import Freehal.Grammar.Theorems
import Freehal.Universal.Text
import Freehal.Lib.Relational
import Freehal.Universal.Match
import Freehal.Universal.Lemmas.Levels
import Freehal.Universal.Theorems
import Freehal.Index.FactIndex
import Freehal.Index.Lemmas.Content
import Freehal.Index.Lemmas.Run
import Freehal.Index.Theorems
import Freehal.Lib.Run
import Freehal.Lib.Script
import Freehal.Lib.Table
import Freehal.Disk.Database
import Freehal.Disk.Engine
import Freehal.Disk.Lemmas.Statements
import Freehal.Disk.Lemmas.Calls
import Freehal.Disk.Lemmas.Histories
import Freehal.Disk.Lemmas.Entries
import Freehal.Disk.Theorems
import Freehal.Disk.Lemmas.Search
import Freehal.Disk.Lemmas.Index
import Freehal.Disk.Lemmas.Reporting
import Freehal.Lib.Duplicates
import Freehal.Storage.BerkeleyDb
import Freehal.Storage.Theorems
import Freehal.Lib.Closure
import Freehal.Index.SynonymIndex
import Freehal.Index.SynonymClasses
import Freehal.Disk.Lemmas.Sources
import Freehal.Xml.XmlObj
import Freehal.Xml.Identity
import Freehal.Talk.FactSource
import Freehal.Talk.Theorems
import Freehal.Index.Freshness
import Freehal.Grammar.Helpers
import Freehal.Xml.Chunking
import Freehal.Grammar2012.XmlObj
import Freehal.Grammar2012.Lemmas.Reader
import Freehal.Grammar2012.RoundTrip
import Freehal.Xml.Serializer
import Freehal.Xml.Lemmas.Reading
import Freehal.Xml.Lemmas.Printed
import Freehal.Xml.Lemmas.Image
import Freehal.Xml.RoundTrip
import Freehal.Disk.QueryCache
import Freehal.Disk.Transparency
import Freehal.Ram.Theorems
import Freehal.Boinc.Checkpoint
import Freehal.Grammar2012.Synonyms
import Freehal.Grammar.Groups
import Freehal.Pos.RoundTrip
import Freehal.Pos.Stores
import Freehal.Grammar2012.FactFreshness
import Freehal.Hal2012.RoundTrip
import Freehal.Pos.CachedReader
import Freehal.Grammar.Language
import Freehal.Grammar.Replacement
import Freehal.Grammar.Printing
import Freehal.Grammar.Termination
import Freehal.Reasoning.Pattern
import Freehal.Reasoning.TextMatch
import Freehal.Reasoning.Binding
import Freehal.Reasoning.Frame
import Freehal.Reasoning.Returns
import Freehal.Lib.Regroup
import Freehal.Reasoning.Trim
import Freehal.Grammar2012.Trim
import Freehal.Reasoning.Copies
import Freehal.WordCache.Objects
import Freehal.WordCache.Coherence
import Freehal.WordCache.Insertion
import Freehal.WordCache.Toggling
import Freehal.WordCache.Runs
import Freehal.Index.SynonymFile
import Freehal.Lib.Pieces
import Freehal.Universal.Splitting
import Freehal.Universal.LogicalOperators
import Freehal.Lib.CString
import Freehal.Lib.Loop
import Freehal.Universal.Wildcards.Copy
import Freehal.Universal.Wildcards.Matches
import Freehal.Words.Net
import Freehal.Words.Interning
import Freehal.Words.Runs
import Freehal.Lib.Collect
import Freehal.Ram.Search
import Freehal.Ram.Net
import Freehal.Disk.DetectWords
import Freehal.Talk.Csv
import Freehal.Ram.Thesaurus
import Freehal.Lib.Shifting
import Freehal.Universal.Deleting
import Freehal.Universal.Sparing
import Freehal.Records.Shape
import Freehal.Wiki.Termination
import Freehal.Grammar2012.PairSentences
import Freehal.Lib.Best
import Freehal.Pos.Affixes
import Freehal.Pos.Guessing
import Freehal.Grammar2012.Guessing
import Freehal.Pos.Toggling
import Freehal.Reasoning.ConclusionFile
import Freehal.Disk.Thesaurus

