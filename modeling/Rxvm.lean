import Rxvm.Lib.Horspool
import Rxvm.Lex
import Rxvm.Lfix
import Rxvm.Vmcode
import Rxvm.Stage1
import Rxvm.Vm
import Rxvm.Bmh
import Rxvm.Fsearch
import Rxvm.BmhSpec
import Rxvm.Case
import Rxvm.Scanner
import Rxvm.FsearchSpec
import Rxvm.Search
import Rxvm.Nfa
import Rxvm.Threads
import Rxvm.Scan
import Rxvm.MatchSpec
import Rxvm.SearchSpec
import Rxvm.SimpleSpec
import Rxvm.CompileSpec
import Rxvm.History
import Rxvm.Operand
import Rxvm.Ownership
import Rxvm.Progress
import Rxvm.ClassSpec
import Rxvm.ParenSpec
import Rxvm.Instructions
import Rxvm.Gen
import Rxvm.GenSpec
import Rxvm.Icase
import Rxvm.Leftmost
import Rxvm.LiteralSpec
import Rxvm.MeaningSpec
import Rxvm.Ground
import Rxvm.Reading
import Rxvm.Longest
import Rxvm.LfixSpec
import Rxvm.Reads
import Rxvm.GenLimit
import Rxvm.GenExact
import Rxvm.Resume
import Rxvm.Words
import Rxvm.FinalNewline
import Rxvm.Charset
import Rxvm.Span
import Rxvm.FileReads
import Rxvm.Restarts
import Rxvm.LineStart
import Rxvm.FastPath
import Rxvm.FileSearch
import Rxvm.TableSpec
import Rxvm.StepBound
import Rxvm.Release
import Rxvm.Counts
import Rxvm.Nchar
import Rxvm.StrbSpec
import Rxvm.Unroll
import Rxvm.Codegen
import Rxvm.Respelled
import Rxvm.Randexp
import Rxvm.RandexpSpec
import Rxvm.Taken
import Rxvm.Fuzz
import Rxvm.Lib.Spans
import Rxvm.Regex
import Rxvm.Viable
import Rxvm.Verdict
import Rxvm.LineSearch
import Rxvm.LiteralLoop
