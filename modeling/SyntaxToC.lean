import SyntaxToC.Main
import SyntaxToC.Proofs.Rounding
import SyntaxToC.Proofs.Shortest
import SyntaxToC.Proofs.Numerals
import SyntaxToC.Proofs.Decoding
import SyntaxToC.Proofs.Induction
import SyntaxToC.Proofs.Slots
import SyntaxToC.Proofs.Unsupported
import SyntaxToC.Proofs.Wire
import SyntaxToC.Proofs.Writing
import SyntaxToC.Proofs.Reading
import SyntaxToC.Proofs.Reordering
import SyntaxToC.Proofs.TextRoundTrip
import SyntaxToC.Proofs.Terminators
import SyntaxToC.Proofs.Loading
import SyntaxToC.Proofs.Faults
import SyntaxToC.Proofs.Pointer
import SyntaxToC.Proofs.Location
import SyntaxToC.Proofs.Replacement
import SyntaxToC.Proofs.Effects
import SyntaxToC.Proofs.Pieces
import SyntaxToC.Proofs.Readable
import SyntaxToC.Proofs.Relevance
import SyntaxToC.Proofs.Indent
import SyntaxToC.Proofs.Lines
import SyntaxToC.Proofs.Truncation
import SyntaxToC.Proofs.Signatures
import SyntaxToC.Proofs.EmptySlots
import SyntaxToC.Proofs.IntegerLiterals
import SyntaxToC.Proofs.PointerTypes
import SyntaxToC.Proofs.ArgumentOrder
import SyntaxToC.Proofs.Records
import SyntaxToC.Proofs.Rooms
import SyntaxToC.Proofs.Weight
import SyntaxToC.Proofs.Expansion
import SyntaxToC.Proofs.ExitStatus
