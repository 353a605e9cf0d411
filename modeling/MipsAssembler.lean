import MipsAssembler.CommandLine.Run
import MipsAssembler.Main
import MipsAssembler.Proofs.MachineWord
import MipsAssembler.Proofs.Outcome
import MipsAssembler.Proofs.Tiling
import MipsAssembler.Proofs.FirstFit
import MipsAssembler.Proofs.Editing
import MipsAssembler.Proofs.Acceptance
import MipsAssembler.Proofs.Addressing
import MipsAssembler.Proofs.Linking
import MipsAssembler.Proofs.FlatMemory
import MipsAssembler.Proofs.Occupancy
import MipsAssembler.Proofs.Image
import MipsAssembler.Proofs.MovedWindows
import MipsAssembler.Proofs.StoreHistory
import MipsAssembler.Proofs.Symbols
import MipsAssembler.Proofs.Settlement
import MipsAssembler.Proofs.Scheduling
import MipsAssembler.Proofs.Written
import MipsAssembler.Proofs.LabelMap
import MipsAssembler.Proofs.PseudoInstructions
import MipsAssembler.Proofs.Alignment
import MipsAssembler.Proofs.Emission
import MipsAssembler.Proofs.Stability
import MipsAssembler.Proofs.LowestAddress
import MipsAssembler.Proofs.SourceLines
import MipsAssembler.Proofs.Transcription
import MipsAssembler.Proofs.Numerals
import MipsAssembler.Proofs.Operands
import MipsAssembler.Proofs.Disassembly
import MipsAssembler.Proofs.Refusal
import MipsAssembler.Proofs.Padding
import MipsAssembler.Proofs.FreeData
import MipsAssembler.Proofs.QuotedText
import MipsAssembler.Proofs.PayloadText
import MipsAssembler.Proofs.Growth
import MipsAssembler.Proofs.JumpText
import MipsAssembler.Proofs.FixedData
import MipsAssembler.Proofs.LabelBounds
import MipsAssembler.Proofs.DataLayout
import MipsAssembler.Proofs.LineEnds
import MipsAssembler.Proofs.ErrorLines
import MipsAssembler.Proofs.CharacterLiterals
import MipsAssembler.Proofs.Coalescing
import MipsAssembler.Proofs.Dump
import MipsAssembler.Proofs.SourceLabels
import MipsAssembler.Proofs.Usage
import MipsAssembler.Proofs.ExactCover
import MipsAssembler.Proofs.SymbolListing
