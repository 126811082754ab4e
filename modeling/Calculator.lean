import Calculator.Preset
import Calculator.Tables
import Calculator.Workspace
import Calculator.Proofs.Nesting
import Calculator.Proofs.Grammar
import Calculator.Proofs.Conversion
import Calculator.Proofs.Machine
import Calculator.Proofs.Lexing
import Calculator.Proofs.Writing
import Calculator.Proofs.Conservation
import Calculator.Proofs.Programs
import Calculator.Proofs.Acceptance
import Calculator.Proofs.Refusals
import Calculator.Proofs.Separators
import Calculator.Proofs.Histories
import Calculator.Proofs.Tokens
import Calculator.Proofs.Rejection
import Calculator.Proofs.Parsing
import Calculator.Proofs.Bounds
import Calculator.Proofs.GivenLimits
import Calculator.Proofs.Readings
import Calculator.Proofs.Answers
import Calculator.Proofs.Lookups
import Calculator.Proofs.Rereading
import Calculator.Proofs.Constants
import Calculator.Proofs.Views
import Calculator.Proofs.Outcomes
import Calculator.Proofs.Sharing
import Calculator.Proofs.Replacement
import Calculator.Proofs.Tiling
import Calculator.Proofs.Footprint
import Calculator.Proofs.Turns
import Calculator.Proofs.Interference
import Calculator.Proofs.Identifiers
import Calculator.Proofs.Positions
import Calculator.Proofs.Copies
import Calculator.Proofs.Numerals
import Calculator.Proofs.Longest
import Calculator.Proofs.Groups
import Calculator.Proofs.Parentheses
import Calculator.Proofs.Heights
import Calculator.Proofs.Writes
import Calculator.Proofs.Agreement
import Calculator.Proofs.FirstFailure
import Calculator.Proofs.Placement
import Calculator.Proofs.Spacing
import Calculator.Proofs.Vocabulary
import Calculator.Proofs.Chains
import Calculator.Proofs.Usage
import Calculator.Proofs.Signs
import Calculator.Proofs.Carets
import Calculator.Proofs.Events
import Calculator.Proofs.Spellings
import Calculator.Proofs.Unsigned
import Calculator.Proofs.Layers
