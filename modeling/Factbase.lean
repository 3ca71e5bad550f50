import Factbase.Catalog.Building
import Factbase.Command.Run
import Factbase.Database.Basic
import Factbase.Main
import Factbase.Query.Results
import Factbase.Schema.Codec
import Factbase.Proofs.Store.Addressing
import Factbase.Proofs.Store.Backends
import Factbase.Proofs.Store.Sessions
import Factbase.Proofs.Schema.Stored
import Factbase.Proofs.Outcome
import Factbase.Proofs.Schema.Conformance
import Factbase.Proofs.Schema.Reading
import Factbase.Proofs.Schema.Registered
import Factbase.Proofs.Ingest.Dumps
import Factbase.Proofs.Ingest.Staging
import Factbase.Proofs.Ingest.Following
import Factbase.Proofs.Catalog.Lifecycle
import Factbase.Proofs.Query.Courses
import Factbase.Proofs.Query.Execution
import Factbase.Proofs.Query.Liveness
import Factbase.Proofs.Query.Programs
import Factbase.Proofs.Query.Stages
import Factbase.Proofs.Query.Typing
import Factbase.Proofs.Schema.Images
import Factbase.Proofs.Schema.Registry
import Factbase.Proofs.Query.Draws
import Factbase.Proofs.Query.KeySearch
import Factbase.Proofs.Query.Limits
import Factbase.Proofs.Catalog.Filling
import Factbase.Proofs.Schema.Agreeing
import Factbase.Proofs.Query.Printing
import Factbase.Proofs.Query.Monotone
import Factbase.Proofs.Query.Growth
import Factbase.Proofs.Schema.Umbrella
import Factbase.Proofs.Ingest.Origins
import Factbase.Proofs.Catalog.Reloading
import Factbase.Proofs.Query.Lookups
import Factbase.Proofs.Store.Ownership
import Factbase.Proofs.Query.Expansion
import Factbase.Proofs.Query.Marks
import Factbase.Proofs.Catalog.Loading
import Factbase.Proofs.Query.Nesting
import Factbase.Proofs.Query.Recursion
import Factbase.Proofs.Ingest.Repeating
import Factbase.Proofs.Schema.Semicolons
import Factbase.Proofs.Source.Tiling
import Factbase.Proofs.Query.Profiles
import Factbase.Proofs.Query.Modes
import Factbase.Proofs.Faults
import Factbase.Proofs.Query.Scoping
import Factbase.Proofs.Query.InPlace
