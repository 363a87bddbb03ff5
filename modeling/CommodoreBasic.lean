import CommodoreBasic.Main
import CommodoreBasic.Program.Log
import CommodoreBasic.Proofs.Program.LineByLine
import CommodoreBasic.Proofs.Program.Relisting
import CommodoreBasic.Proofs.Grammar.Viability
import CommodoreBasic.Proofs.Dump.Report
import CommodoreBasic.Proofs.Grammar.Parentheses
import CommodoreBasic.Proofs.Program.KeywordAt
import CommodoreBasic.Proofs.Program.TextLine
import CommodoreBasic.Proofs.Program.Encodings
import CommodoreBasic.Proofs.Program.NodeText
import CommodoreBasic.Proofs.Program.KeywordSpan
import CommodoreBasic.Proofs.Program.LetterCase
import CommodoreBasic.Proofs.Program.Parenthesized
import CommodoreBasic.Proofs.Grammar.InputEnd
import CommodoreBasic.Proofs.Program.Refusal
import CommodoreBasic.Proofs.Program.Log
import CommodoreBasic.Proofs.Program.WordArithmetic
import CommodoreBasic.Proofs.Dump.Tree
import CommodoreBasic.Proofs.CommandLine.Coordinate
import CommodoreBasic.Proofs.Lexical.KeywordTable
import CommodoreBasic.Proofs.Dump.Colour
