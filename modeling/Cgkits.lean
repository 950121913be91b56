import Cgkits.Lib.Loop
import Cgkits.Lib.Machine
import Cgkits.Lib.ShellSort
import Cgkits.Lib.ContextFree
import Cgkits.Lib.Erase
import Cgkits.Lib.Fragment
import Cgkits.Lib.BitMap
import Cgkits.Lib.Lines
import Cgkits.Lib.Outcome
import Cgkits.Lib.Links
import Cgkits.Lib.Trace
import Cgkits.Lib.Cursor
import Cgkits.Lib.Region
import Cgkits.Lib.SearchTree
import Cgkits.Lib.Watched
import Cgkits.Lib.FreeList
import Cgkits.Lib.Predictive
import Cgkits.Lib.Munch
import Cgkits.Lib.Attributed
import Cgkits.Support.Set
import Cgkits.Support.SetTest
import Cgkits.Support.SetOrder
import Cgkits.Support.SetNext
import Cgkits.Support.Hash
import Cgkits.Support.HashNext
import Cgkits.Support.Concat
import Cgkits.Support.Sort
import Cgkits.Support.Numeral
import Cgkits.Parser.Symbol
import Cgkits.Parser.First
import Cgkits.Parser.Follow
import Cgkits.Parser.Acts
import Cgkits.Parser.Dollar
import Cgkits.Parser.Patch
import Cgkits.Parser.Patching
import Cgkits.Parser.Patched
import Cgkits.Parser.Select
import Cgkits.Parser.LlDriver
import Cgkits.Parser.LlRecovery
import Cgkits.Parser.Closure
import Cgkits.Parser.LeastClosure
import Cgkits.Parser.Lalr
import Cgkits.Parser.Family
import Cgkits.Parser.Unfinished
import Cgkits.Parser.ItemSort
import Cgkits.Parser.EpsilonItems
import Cgkits.Parser.ItemStore
import Cgkits.Parser.Ownership
import Cgkits.Parser.ItemRuns
import Cgkits.Parser.ItemMoves
import Cgkits.Parser.ItemTransitions
import Cgkits.Parser.ItemReuse
import Cgkits.Parser.Tables
import Cgkits.Parser.Pairs
import Cgkits.Parser.Reductions
import Cgkits.Parser.Precedence
import Cgkits.Parser.LrDriver
import Cgkits.Parser.YyStack
import Cgkits.Parser.LrMachine
import Cgkits.Parser.LrRecovery
import Cgkits.Parser.LrTables
import Cgkits.Parser.LrParse
import Cgkits.Parser.Nonassoc
import Cgkits.Parser.LrEnds
import Cgkits.Parser.Attributes
import Cgkits.Parser.Grouped
import Cgkits.Parser.Calls
import Cgkits.Parser.Actions
import Cgkits.Lex.Dfa
import Cgkits.Lex.MinDfa
import Cgkits.Lex.Minimal
import Cgkits.Lex.Input
import Cgkits.Lex.InputBuffer
import Cgkits.Lex.Yylex
import Cgkits.Lex.Marks
import Cgkits.Lex.Lookahead
import Cgkits.Lex.Pushback
import Cgkits.Lex.Term
import Cgkits.Lex.Rules
import Cgkits.Lex.RuleCalls
import Cgkits.Lex.ActionScan
import Cgkits.Lex.Action
import Cgkits.Lex.Driver
import Cgkits.Lex.Classes
import Cgkits.Lex.Nfa
import Cgkits.Lex.Thompson
import Cgkits.Lex.Terp
import Cgkits.Lex.Subset
import Cgkits.Lex.Priority
import Cgkits.Lex.Pieces
import Cgkits.Lex.Regex
import Cgkits.Lex.Visits
import Cgkits.Lex.Regular
import Cgkits.Lex.Languages
import Cgkits.Lex.Unambiguous
import Cgkits.Lex.Syntax
import Cgkits.Lex.Anchors
import Cgkits.Lex.Advance
import Cgkits.Lex.Macros
import Cgkits.Lex.Escapes
import Cgkits.Lex.Lexemes
import Cgkits.Lex.AcceptStrings
import Cgkits.Lex.WorkStack
import Cgkits.Lex.DiscardStack
import Cgkits.Lex.Scanner
import Cgkits.Lex.Columns
import Cgkits.Lex.Supply
import Cgkits.Lex.Follows
import Cgkits.Lex.LongestMatch
import Cgkits.Lex.WholeFile
import Cgkits.Lex.Cglex
import Cgkits.Parser.Tail
import Cgkits.Parser.TailText
import Cgkits.Parser.CodeBlock
import Cgkits.Parser.LlTables
import Cgkits.Parser.LlGenerate
import Cgkits.Parser.LlOut
import Cgkits.Parser.Meaning
import Cgkits.Parser.Llama
import Cgkits.Parser.LlPar
import Cgkits.Parser.LlAttributes
import Cgkits.Parser.StateTable
