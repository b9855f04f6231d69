import Esoterica.Main
import Esoterica.Console.Script
import Esoterica.Directory
import Esoterica.Whitespace.Assembly
import Esoterica.Proofs.Lockstep
import Esoterica.Proofs.PrefixCode
import Esoterica.Proofs.Whitespace.Number
import Esoterica.Proofs.Whitespace.Scan
import Esoterica.Proofs.Whitespace.Encoding
import Esoterica.Proofs.Text.Decimal
import Esoterica.Proofs.Text.Words
import Esoterica.Proofs.Whitespace.Listing
import Esoterica.Proofs.Whitespace.RoundTrip
import Esoterica.Proofs.Whitespace.Indexed
import Esoterica.Proofs.Whitespace.Refinement
import Esoterica.Proofs.Whitespace.Synchrony
import Esoterica.Proofs.Whitespace.Reassembly
import Esoterica.Proofs.Whitespace.Grammar
import Esoterica.Proofs.Whitespace.Acceptance
import Esoterica.Proofs.Brainfuck.Block
import Esoterica.Proofs.Brainfuck.Brackets
import Esoterica.Proofs.Brainfuck.Loops
import Esoterica.Proofs.Whitespace.Slices
import Esoterica.Proofs.Text.Utf8
import Esoterica.Proofs.Console.Agreement
import Esoterica.Proofs.Brainfuck.Encodings
import Esoterica.Proofs.Console.Move
import Esoterica.Proofs.Console.Terminal
import Esoterica.Proofs.Halting
import Esoterica.Proofs.Session.Lockstep
import Esoterica.Proofs.Session.Composition
import Esoterica.Proofs.Brainfuck.TrailingComment
import Esoterica.Proofs.LastLine
import Esoterica.Proofs.Session.Typing
import Esoterica.Proofs.Befunge.EndlessZeros
import Esoterica.Proofs.Whitespace.Frame
import Esoterica.Proofs.Befunge.Field
import Esoterica.Proofs.Befunge.Playfield
import Esoterica.Proofs.Session.Ending
import Esoterica.Proofs.Byter.Step
import Esoterica.Proofs.Byter.Halting
import Esoterica.Proofs.Whitespace.Resumption
import Esoterica.Proofs.Whitespace.Definitions
import Esoterica.Proofs.Whitespace.Written
import Esoterica.Proofs.Brainfuck.SpoonLanguage
import Esoterica.Proofs.Brainfuck.Bounds
import Esoterica.Proofs.Brainfuck.Matching
import Esoterica.Proofs.Console.Reading
import Esoterica.Proofs.Whitespace.Failure
import Esoterica.Proofs.Befunge.Failure
import Esoterica.Proofs.Byter.Trail
import Esoterica.Proofs.SplitMix
import Esoterica.Proofs.Befunge.Turns
import Esoterica.Proofs.Whitespace.Decoration
import Esoterica.Proofs.Whitespace.Columns
import Esoterica.Proofs.PrefixCode.Tables
import Esoterica.Proofs.Whitespace.Countdown
import Esoterica.Proofs.Session.Listing
