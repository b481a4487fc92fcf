import GraphQLCheck.Coercion
import GraphQLCheck.Command.Run
import GraphQLCheck.Document.Reader
import GraphQLCheck.Main
import GraphQLCheck.Schema.Loading
import GraphQLCheck.Suggestion
import GraphQLCheck.Validation
import GraphQLCheck.Proofs.SpreadGraph
import GraphQLCheck.Proofs.Walk
import GraphQLCheck.Proofs.Reports
import GraphQLCheck.Proofs.CycleSearch
import GraphQLCheck.Proofs.Sets
import GraphQLCheck.Proofs.Overlap.Fields
import GraphQLCheck.Proofs.Overlap.Entries
import GraphQLCheck.Proofs.Overlap.Ranks
import GraphQLCheck.Proofs.Overlap.Comparisons
import GraphQLCheck.Proofs.Overlap.Search
import GraphQLCheck.Proofs.FieldMerging
import GraphQLCheck.Proofs.BuiltSchemas
import GraphQLCheck.Proofs.Substitution
import GraphQLCheck.Proofs.VariableUses
import GraphQLCheck.Proofs.SilentRules
import GraphQLCheck.Proofs.VariableSoundness
import GraphQLCheck.Proofs.KnownScopes
import GraphQLCheck.Proofs.Assembling.Parts
import GraphQLCheck.Proofs.WellFormed
import GraphQLCheck.Proofs.Assembling.Taking
import GraphQLCheck.Proofs.Assembling.Extending
import GraphQLCheck.Proofs.Assembling.Building
import GraphQLCheck.Proofs.Assembling.Sources
import GraphQLCheck.Proofs.SchemaAcceptance
import GraphQLCheck.Proofs.LoadOrder
import GraphQLCheck.Proofs.Occurrences
import GraphQLCheck.Proofs.VariableOccurrences
import GraphQLCheck.Proofs.SharedRun
import GraphQLCheck.Proofs.UniqueNames
import GraphQLCheck.Proofs.DefaultValues
import GraphQLCheck.Proofs.Readers
import GraphQLCheck.Proofs.Scanning.Pieces
import GraphQLCheck.Proofs.Scanning.Lexemes
import GraphQLCheck.Proofs.Scanning.Reading
import GraphQLCheck.Proofs.RepeatedFields
import GraphQLCheck.Proofs.Reordering.Visits
import GraphQLCheck.Proofs.Reordering.Clashes
import GraphQLCheck.Proofs.DefinitionOrder
import GraphQLCheck.Proofs.Typing.Fields
import GraphQLCheck.Proofs.Typing.Reached
import GraphQLCheck.Proofs.Typing.Stored
import GraphQLCheck.Proofs.FieldTyping
import GraphQLCheck.Proofs.RootTypes
import GraphQLCheck.Proofs.Assembling.Written
import GraphQLCheck.Proofs.SchemaContents
import GraphQLCheck.Proofs.Parameters
import GraphQLCheck.Proofs.WalkScopes
import GraphQLCheck.Proofs.ReportedCycles
import GraphQLCheck.Proofs.RunSafety
import GraphQLCheck.Proofs.Overlap.Calls
import GraphQLCheck.Proofs.Overlap.Subjects
import GraphQLCheck.Proofs.Overlap.Exploring
import GraphQLCheck.Proofs.SearchTermination
import GraphQLCheck.Proofs.EditDistance
import GraphQLCheck.Proofs.Subtypes
import GraphQLCheck.Proofs.Coercible
import GraphQLCheck.Proofs.TopFields
import GraphQLCheck.Proofs.TypeOverlap
import GraphQLCheck.Proofs.SuggestedTypes
import GraphQLCheck.Proofs.Printing.Doubles
import GraphQLCheck.Proofs.Printing.Numerals
import GraphQLCheck.Proofs.Printing.Literals
import GraphQLCheck.Proofs.Printing.Readable
import GraphQLCheck.Proofs.SameArguments
import GraphQLCheck.Proofs.NameCounts
import GraphQLCheck.Proofs.Printing.ReadBack
import GraphQLCheck.Proofs.Printing.Passages
import GraphQLCheck.Proofs.Printing.Locality
import GraphQLCheck.Proofs.Printing.Exchange
import GraphQLCheck.Proofs.PrintedLiterals
import GraphQLCheck.Proofs.Scanning.Coordinates
import GraphQLCheck.Proofs.FieldPositions
import GraphQLCheck.Proofs.ExclusiveFields
import GraphQLCheck.Proofs.ComparedPairs
import GraphQLCheck.Proofs.NestedSpreads
