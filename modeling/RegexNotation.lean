import RegexNotation.CodeSet.Lemmas
import RegexNotation.Parser.Progress
import RegexNotation.Proofs.Agreement
import RegexNotation.Proofs.Alternatives
import RegexNotation.Proofs.Brackets
import RegexNotation.Proofs.ByteOrder
import RegexNotation.Proofs.Characters
import RegexNotation.Proofs.CodePoints
import RegexNotation.Proofs.CodeSets
import RegexNotation.Proofs.Combinators
import RegexNotation.Proofs.Completions
import RegexNotation.Proofs.Depths
import RegexNotation.Proofs.Errors
import RegexNotation.Proofs.Forks
import RegexNotation.Proofs.Grammar
import RegexNotation.Proofs.Inclusions
import RegexNotation.Proofs.Meanings
import RegexNotation.Proofs.Misses
import RegexNotation.Proofs.Nesting
import RegexNotation.Proofs.NormalForms
import RegexNotation.Proofs.Normalizing
import RegexNotation.Proofs.Numerals
import RegexNotation.Proofs.Overflows
import RegexNotation.Proofs.Patterns
import RegexNotation.Proofs.Places
import RegexNotation.Proofs.Quantifiers
import RegexNotation.Proofs.Reductions
import RegexNotation.Proofs.RoundTrip
import RegexNotation.Proofs.Scan.Backtracking
import RegexNotation.Proofs.Scan.Basic
import RegexNotation.Proofs.Scan.Positions
import RegexNotation.Proofs.Scan.Productions
import RegexNotation.Proofs.Scan.Steps
import RegexNotation.Proofs.Searching
import RegexNotation.Proofs.SetAlgebra
import RegexNotation.Proofs.SetTexts
import RegexNotation.Proofs.Spelling
import RegexNotation.Proofs.Spines
import RegexNotation.Proofs.Walks
import RegexNotation.Proofs.Words
import RegexNotation.Session
