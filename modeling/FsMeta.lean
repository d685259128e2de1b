import FsMeta.Http.Api
import FsMeta.Main
import FsMeta.Settings
import FsMeta.Proofs.Store.Readers
import FsMeta.Proofs.Store.Commits
import FsMeta.Proofs.Store.Faithful
import FsMeta.Proofs.Store.World
import FsMeta.Proofs.Store.Run
import FsMeta.Proofs.Store.Isolation
import FsMeta.Proofs.Bytes
import FsMeta.Proofs.Record.Layout
import FsMeta.Proofs.Journal.Frames
import FsMeta.Proofs.Journal.Recovery
import FsMeta.Proofs.Journal.Writer
import FsMeta.Proofs.Store.Journaled
import FsMeta.Proofs.Store.Durability
import FsMeta.Proofs.Record.INode
import FsMeta.Proofs.Key
import FsMeta.Proofs.Scope
import FsMeta.Proofs.Tree.Records
import FsMeta.Proofs.Tree.Weave
import FsMeta.Proofs.Tree.Operations
import FsMeta.Proofs.Tree.Sweep
import FsMeta.Proofs.Tree.Agreement
import FsMeta.Proofs.Journal.Appending
import FsMeta.Proofs.Store.Inspection
import FsMeta.Proofs.Store.Timestamps
import FsMeta.Proofs.Writing
import FsMeta.Proofs.Service.Confined
import FsMeta.Proofs.Service.Atomicity
import FsMeta.Proofs.Record.Reading
import FsMeta.Proofs.Tree.Ancestry
import FsMeta.Proofs.Tree.Changes
import FsMeta.Proofs.Store.Calls
import FsMeta.Proofs.Tree.Acyclicity
import FsMeta.Proofs.Service.Childless
import FsMeta.Proofs.Store.Crew
import FsMeta.Proofs.Tree.Moves
import FsMeta.Proofs.Record.Block
import FsMeta.Proofs.Chain.Standing
import FsMeta.Proofs.Chain.Turns
import FsMeta.Proofs.Chain.Edits
import FsMeta.Proofs.Chain.Insertion
import FsMeta.Proofs.Chain.Truncation
import FsMeta.Proofs.Chain.Concurrency
import FsMeta.Proofs.Store.Rivals
import FsMeta.Proofs.Http.Atomicity
import FsMeta.Proofs.Tree.Walk
import FsMeta.Proofs.Tree.Exclusion
import FsMeta.Proofs.Chain.Exclusion
import FsMeta.Proofs.Indifference
import FsMeta.Proofs.Chain.Within
import FsMeta.Proofs.Service.Separation
import FsMeta.Proofs.Yielding
import FsMeta.Proofs.Remaining
import FsMeta.Proofs.Record.Replicas
import FsMeta.Proofs.Service.Replicas
import FsMeta.Proofs.Tree.Guards
import FsMeta.Proofs.Tree.Creation
import FsMeta.Proofs.Tree.Reparenting
import FsMeta.Proofs.Chain.Erasure
import FsMeta.Proofs.Tree.Clearing
import FsMeta.Proofs.Tree.Deletion
import FsMeta.Proofs.Chain.Resolution
import FsMeta.Proofs.Chain.Sizes
import FsMeta.Proofs.Chain.Shortening
import FsMeta.Proofs.Chain.Upserting
import FsMeta.Proofs.Chain.Replacing
import FsMeta.Proofs.Service.Updating
import FsMeta.Proofs.Service.Trimming
import FsMeta.Proofs.Journal.Checksum
import FsMeta.Proofs.Journal.Alteration
import FsMeta.Proofs.Reporting
import FsMeta.Proofs.Refusing
import FsMeta.Proofs.Chain.Refusing
import FsMeta.Proofs.Tree.Refusing
import FsMeta.Proofs.Mutations
import FsMeta.Proofs.Journal.Failing
import FsMeta.Proofs.Store.Failing
import FsMeta.Proofs.Journal.Decoding
import FsMeta.Proofs.Journal.Reading
import FsMeta.Proofs.Record.Delimiting
import FsMeta.Proofs.Json.Lexer
import FsMeta.Proofs.Json.Number
import FsMeta.Proofs.Json.Parser
import FsMeta.Proofs.Record.Wire
import FsMeta.Proofs.Key.Decoding
import FsMeta.Proofs.Scanning
import FsMeta.Proofs.Tree.Listing
import FsMeta.Proofs.Store.Pruning
import FsMeta.Proofs.Store.Registry
import FsMeta.Proofs.Store.Representation
import FsMeta.Proofs.Record.Merging
