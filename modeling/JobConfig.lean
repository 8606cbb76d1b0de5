import JobConfig.Main
import JobConfig.Session
import JobConfig.Proofs.JobRoundTrip
import JobConfig.Proofs.SelfContained
import JobConfig.Proofs.Dependence
import JobConfig.Proofs.Checked
import JobConfig.Proofs.TextFields
import JobConfig.Proofs.FieldTypes
import JobConfig.Proofs.Documents
import JobConfig.Proofs.Custody
import JobConfig.Proofs.Loading
import JobConfig.Proofs.Checking
import JobConfig.Proofs.Layout
import JobConfig.Proofs.Generable
import JobConfig.Proofs.Building
import JobConfig.Proofs.Referable
import JobConfig.Proofs.InPlace
import JobConfig.Proofs.LoadOrder
import JobConfig.Proofs.Spans
import JobConfig.Proofs.Segments
import JobConfig.Proofs.Interpolation
import JobConfig.Proofs.Leaves
import JobConfig.Proofs.Asking
import JobConfig.Proofs.StepRules
import JobConfig.Proofs.DeclarationRules
import JobConfig.Proofs.Declaring
import JobConfig.Proofs.FirstOffers
import JobConfig.Proofs.ExecutorDefinitions
import JobConfig.Proofs.ReferenceNames
import JobConfig.Proofs.BuildFaults
import JobConfig.Proofs.Bystanders
import JobConfig.Proofs.NamedExecutors
import JobConfig.Proofs.TypedOverrides
import JobConfig.Proofs.DefinitionOrder
