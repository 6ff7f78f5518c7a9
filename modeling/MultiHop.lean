import MultiHop.Ascending
import MultiHop.Consult
import MultiHop.Decimal.Fixed
import MultiHop.Decimal.Positional
import MultiHop.Decimal.Shortest
import MultiHop.Decimal.Word
import MultiHop.Fault
import MultiHop.Fuzzy.Norm
import MultiHop.Fuzzy.Set
import MultiHop.GraphError
import MultiHop.Id
import MultiHop.Index
import MultiHop.Json.Basic
import MultiHop.Json.Graph
import MultiHop.Json.Number
import MultiHop.Json.Query
import MultiHop.Json.Reader
import MultiHop.Json.Record
import MultiHop.Json.Token
import MultiHop.Json.Writer
import MultiHop.Link.Chain
import MultiHop.Link.Constraints
import MultiHop.Link.FactSearch
import MultiHop.Link.Predictor
import MultiHop.Link.Query
import MultiHop.LogitTable
import MultiHop.Model
import MultiHop.Proofs.Consult
import MultiHop.Proofs.Fuzzy.Calibration
import MultiHop.Proofs.Fuzzy.Crisp
import MultiHop.Proofs.Fuzzy.Order
import MultiHop.Proofs.Fuzzy.StrongNegation
import MultiHop.Proofs.Link.Masking
import MultiHop.Proofs.Query.Answer
import MultiHop.Proofs.Query.Basic
import MultiHop.Proofs.Query.Beam
import MultiHop.Proofs.Query.Binding
import MultiHop.Proofs.Query.Crisp
import MultiHop.Proofs.Query.Evaluation
import MultiHop.Proofs.Query.Hop
import MultiHop.Proofs.Query.Pruning
import MultiHop.Proofs.Query.Range
import MultiHop.Proofs.Query.WellFormed
import MultiHop.Proofs.Score.Prefix
import MultiHop.Proofs.Score.TopK
import MultiHop.Proofs.Single.Arithmetic
import MultiHop.Proofs.Single.Order
import MultiHop.Proofs.Single.Rounding
import MultiHop.Proofs.Single.Shifting
import MultiHop.Proofs.Single.Unpacked
import MultiHop.Proofs.Single.Value
import MultiHop.Query.Answer
import MultiHop.Query.Basic
import MultiHop.Query.Beam
import MultiHop.Query.Binding
import MultiHop.Query.Error
import MultiHop.Query.Evaluation
import MultiHop.Query.Hop
import MultiHop.Query.Kind
import MultiHop.Query.Payload
import MultiHop.Query.Reasoner
import MultiHop.Query.Settings
import MultiHop.Query.Shape
import MultiHop.Query.Trail
import MultiHop.Rank.KnownFacts
import MultiHop.Rank.Summary
import MultiHop.Score.Elementary
import MultiHop.Score.Probability
import MultiHop.Score.TopK
import MultiHop.Text.Blank
import MultiHop.Text.Quoted
import MultiHop.Text.Unprintable
import MultiHop.Vocabulary
import MultiHop.Proofs.Query.Cost
import MultiHop.Proofs.Rank.KnownFacts
import MultiHop.Proofs.Query.Reading
import MultiHop.Proofs.LogitTable
import MultiHop.Proofs.Query.Agreement
import MultiHop.Proofs.Query.Grammar
import MultiHop.Proofs.Query.Blame
import MultiHop.Proofs.Fuzzy.Sign
import MultiHop.Proofs.Score.Moved
import MultiHop.Proofs.Query.Renumbering
import MultiHop.Register
import MultiHop.Proofs.Index
import MultiHop.Proofs.Query.Writing
import MultiHop.Proofs.Query.DirectHop
import MultiHop.Proofs.Query.PruningLoss
import MultiHop.Proofs.Fuzzy.Combination
import MultiHop.Proofs.Fuzzy.Disjunction
import MultiHop.Proofs.Query.Combination
import MultiHop.Proofs.Query.Disjunction
import MultiHop.Proofs.Query.Lattice
import MultiHop.Proofs.Query.Batch
import MultiHop.Proofs.Ascending
import MultiHop.Proofs.Link.Calibrated
import MultiHop.Proofs.Link.Chain
import MultiHop.Proofs.Link.Range
import MultiHop.Proofs.Link.FactSearch
import MultiHop.Proofs.Rank.Breach
import MultiHop.Proofs.Rank.Filtering
import MultiHop.Proofs.Score.Sigmoid
import MultiHop.Proofs.Rank.Listing
import MultiHop.Proofs.Rank.Order
import MultiHop.Link.Mask
import MultiHop.Proofs.Link.Mask
import MultiHop.Proofs.Rank.Pooling
import MultiHop.Proofs.Query.Ties
import MultiHop.Proofs.Json.Text
import MultiHop.Proofs.Json.Index
import MultiHop.Proofs.Query.Mismatch
import MultiHop.Proofs.Json.Payload
import MultiHop.Proofs.Score.Logit
