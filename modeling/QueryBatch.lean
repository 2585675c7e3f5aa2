import QueryBatch.Batch.Executor
import QueryBatch.Document.Equality
import QueryBatch.Document.OfSource
import QueryBatch.Document.Printer
import QueryBatch.Json.Strict
import QueryBatch.Operation.Alias
import QueryBatch.Operation.Merge
import QueryBatch.Operation.Template
import QueryBatch.Proofs.Batch.Composition
import QueryBatch.Proofs.Batch.Delivery
import QueryBatch.Proofs.Batch.Faithfulness
import QueryBatch.Proofs.Batch.Index
import QueryBatch.Proofs.Batch.Naming
import QueryBatch.Proofs.Batch.Session
import QueryBatch.Proofs.Batch.Warnings
import QueryBatch.Proofs.Batch.Wire
import QueryBatch.Proofs.Document.Acceptance
import QueryBatch.Proofs.Document.Erasure
import QueryBatch.Proofs.Document.Groups
import QueryBatch.Proofs.Document.Guards
import QueryBatch.Proofs.Document.Indentation
import QueryBatch.Proofs.Document.Layout
import QueryBatch.Proofs.Document.Occurrences
import QueryBatch.Proofs.Document.Quotation
import QueryBatch.Proofs.Document.Recovery
import QueryBatch.Proofs.Document.RoundTrip
import QueryBatch.Proofs.Document.Safety
import QueryBatch.Proofs.Document.SingleLine
import QueryBatch.Proofs.Operation.Capture
import QueryBatch.Proofs.Operation.Inverse
import QueryBatch.Proofs.Operation.Joining
import QueryBatch.Proofs.Operation.Merging
import QueryBatch.Proofs.Operation.Prefixing
import QueryBatch.Proofs.Operation.Renaming
import QueryBatch.Proofs.Operation.Rewriting
import QueryBatch.Proofs.Source.Position
import QueryBatch.Proofs.Token.Rescan
import QueryBatch.Proofs.Wire.Settling
import QueryBatch.Source.Bag
import QueryBatch.Wire.Code
import QueryBatch.Wire.Request
import QueryBatch.Wire.Response
