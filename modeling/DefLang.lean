import DefLang.Text.Bytes
import DefLang.Text.Lines
import DefLang.Text.Piece
import DefLang.Span
import DefLang.Token
import DefLang.Token.Scanner
import DefLang.Tree
import DefLang.Tree.Reading
import DefLang.Script
import DefLang.Compile
import DefLang.Diagnostic
import DefLang.Directory
import DefLang.Command
import DefLang.Main
import DefLang.Proofs.Acceptance
import DefLang.Proofs.Refusal
import DefLang.Proofs.Layout
import DefLang.Proofs.Emission
import DefLang.Proofs.Source
import DefLang.Proofs.Compilation
import DefLang.Proofs.Agreement
import DefLang.Proofs.Scanning
import DefLang.Proofs.Position
import DefLang.Proofs.Fault
import DefLang.Proofs.Drawing
import DefLang.Proofs.Overflow
import DefLang.Proofs.Conservation
import DefLang.Proofs.Recompilation
import DefLang.Proofs.Relayout
import DefLang.Proofs.Cursor
import DefLang.Proofs.Reporting
import DefLang.Proofs.Depth
import DefLang.Proofs.Preorder
import DefLang.Proofs.Stray
import DefLang.Proofs.Coordinates
import DefLang.Proofs.Diagnosis
import DefLang.Proofs.Literals
import DefLang.Proofs.Descent
import DefLang.Proofs.Bounds
import DefLang.Proofs.Writing
import DefLang.Proofs.Matching
import DefLang.Proofs.Lexing
