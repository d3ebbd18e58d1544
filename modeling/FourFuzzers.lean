import FourFuzzers.Lib.Traced
import FourFuzzers.Lib.Block
import FourFuzzers.Lib.Text
import FourFuzzers.Lib.RawArray
import FourFuzzers.Lib.Stateful
import FourFuzzers.CJson.Basic
import FourFuzzers.CJson.Parse
import FourFuzzers.CJson.Print
import FourFuzzers.CJson.IntLibc
import FourFuzzers.CJson.Harness
import FourFuzzers.CJson.Verify.Log
import FourFuzzers.CJson.Verify.ParseString
import FourFuzzers.CJson.Verify.Parser
import FourFuzzers.CJson.Verify.PrintString
import FourFuzzers.CJson.Verify.Printer
import FourFuzzers.CJson.Verify.StringOutput
import FourFuzzers.CJson.Verify.StringGrammar
import FourFuzzers.CJson.Verify.ValidStrings
import FourFuzzers.CJson.Verify.GroundTruth
import FourFuzzers.CJson.Verify.RoundTrip
import FourFuzzers.Sqlite.Basic
import FourFuzzers.Sqlite.Tokenize
import FourFuzzers.Sqlite.Keywords
import FourFuzzers.Sqlite.Memory
import FourFuzzers.Sqlite.Verify.Tokenizer
import FourFuzzers.Sqlite.Verify.Identifier
import FourFuzzers.Sqlite.Verify.Memory
import FourFuzzers.Sqlite.Verify.Loop
import FourFuzzers.Sqlite.Verify.Overflow
import FourFuzzers.Re2.Alloc
import FourFuzzers.Re2.Range
import FourFuzzers.Re2.Verify.Alloc
import FourFuzzers.Re2.Verify.Graph
import FourFuzzers.Re2.Verify.Trie
import FourFuzzers.Re2.Verify.AddSuffix
import FourFuzzers.Re2.Verify.Suffix
import FourFuzzers.Re2.Verify.Words
import FourFuzzers.Re2.Verify.Range
import FourFuzzers.Bugs.Identify
import FourFuzzers.Bugs.Scan
import FourFuzzers.Bugs.Report
import FourFuzzers.Bugs.Verify.Score
import FourFuzzers.Bugs.Verify.LogScan
import FourFuzzers.Bench.Coverage
import FourFuzzers.Lib.Network
import FourFuzzers.Re2.Machine
import FourFuzzers.Re2.Regexp
import FourFuzzers.Re2.Compile
import FourFuzzers.Re2.Verify.Patch
import FourFuzzers.Re2.Verify.Wired
import FourFuzzers.Re2.Verify.Fragments
import FourFuzzers.Re2.Verify.Construct
import FourFuzzers.Re2.Verify.Choices
import FourFuzzers.Re2.Verify.Complete
import FourFuzzers.Re2.Verify.Classes
import FourFuzzers.Re2.Verify.Sets
