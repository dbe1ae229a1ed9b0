import TextSearch.Main
import TextSearch.Proofs.Acceptance
import TextSearch.Proofs.Candidates
import TextSearch.Proofs.Groups
import TextSearch.Proofs.Meaning
import TextSearch.Query.Optimize
import TextSearch.Query.Resolve
import TextSearch.Query.Score
import TextSearch.Proofs.Leaves
import TextSearch.Proofs.NormalForm
import TextSearch.Proofs.Resolving
import TextSearch.Proofs.Weights
import TextSearch.Proofs.Stages
import TextSearch.Proofs.Entries
import TextSearch.Proofs.Fields
import TextSearch.Proofs.Suppression
import TextSearch.Proofs.SearchFields
import TextSearch.Proofs.Addresses
import TextSearch.Proofs.Literals
import TextSearch.Proofs.SelfPhrase
import TextSearch.Proofs.Filtering
import TextSearch.Proofs.History
import TextSearch.Proofs.DisjunctiveForm
import TextSearch.Proofs.Postings
import TextSearch.Proofs.Reduced
import TextSearch.Proofs.Partition
import TextSearch.Proofs.Records
import TextSearch.Proofs.Everywhere
import TextSearch.Proofs.PlainAddresses
import TextSearch.Proofs.LooseCounts
import TextSearch.Proofs.ExactCounts
import TextSearch.Proofs.Edits
import TextSearch.Proofs.Globs
import TextSearch.Proofs.Expansions
import TextSearch.Proofs.Similarities
import TextSearch.Proofs.ErrorPositions
import TextSearch.Proofs.LateTerms
import TextSearch.Proofs.WordPositions
import TextSearch.Proofs.CanonicalWords
import TextSearch.Proofs.SignedEntries
import TextSearch.Proofs.Increments
import TextSearch.Proofs.PatternParts
