import ApiClient.Main
import ApiClient.Proofs.Compile.Chains
import ApiClient.Proofs.Compile.Splitting
import ApiClient.Proofs.Compile.Enums
import ApiClient.Proofs.Compile.Results
import ApiClient.Proofs.Compile.Origins
import ApiClient.Proofs.Compile.Tracing
import ApiClient.Proofs.Compile.Ledger
import ApiClient.Proofs.Compile.Marking
import ApiClient.Proofs.Compile.Calls
import ApiClient.Proofs.Compile.Dangling
import ApiClient.Proofs.Compile.Scanning
import ApiClient.Proofs.Operation.Functions
import ApiClient.Proofs.Operation.Declarations
import ApiClient.Proofs.Operation.Isolation
import ApiClient.Proofs.Compile.FunctionNames
import ApiClient.Proofs.Compile.TypeNames
import ApiClient.Proofs.Compile.Histories
import ApiClient.Proofs.Compile.Registry
import ApiClient.Proofs.Compile.SharedEnums
import ApiClient.Proofs.Operation.Closed
import ApiClient.Proofs.Operation.Arguments
import ApiClient.Proofs.Operation.ValueNames
import ApiClient.Proofs.Operation.LegalNames
import ApiClient.Proofs.Document.GivenBack
import ApiClient.Proofs.Document.ComponentReferences
import ApiClient.Proofs.Document.Finite
import ApiClient.Proofs.Compile.Extensions
import ApiClient.Proofs.Operation.Skipping
import ApiClient.Proofs.Compile.SingleMode
import ApiClient.Proofs.Compile.UndefinedMembers
import ApiClient.Proofs.Compile.Recompiling
import ApiClient.Proofs.Compile.EnumReferences
import ApiClient.Proofs.Compile.KeptProperties
import ApiClient.Proofs.Document.Completing
import ApiClient.Proofs.Compile.TaggedUnions
import ApiClient.Proofs.Compile.ImplicitValues
import ApiClient.Proofs.Compile.EnumFailures
import ApiClient.Proofs.Compile.MemberNames
import ApiClient.Proofs.Operation.BodyMedia
import ApiClient.Proofs.Operation.Partition
import ApiClient.Proofs.Operation.Requested
import ApiClient.Proofs.Servers.Defaults
import ApiClient.Proofs.Servers.Keys
import ApiClient.Proofs.Document.PercentEscapes
import ApiClient.Proofs.Compile.BaseKeys
import ApiClient.Proofs.Operation.Merging
import ApiClient.Proofs.Operation.ArgumentNames
import ApiClient.Proofs.Operation.Reordering
import ApiClient.Proofs.Operation.FoldedMembers
import ApiClient.Proofs.TypeScript.Comments
import ApiClient.Proofs.TypeScript.TypesReadBack
