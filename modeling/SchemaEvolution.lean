import SchemaEvolution.Main
import SchemaEvolution.Proofs.Sharing
import SchemaEvolution.Proofs.Totality
import SchemaEvolution.Proofs.RecordUpgrade
import SchemaEvolution.Proofs.UpgradePaths
import SchemaEvolution.Proofs.AssignmentTypes
import SchemaEvolution.Proofs.NestedUpgrades
import SchemaEvolution.Proofs.ChainOrder
import SchemaEvolution.Proofs.IdentityText
import SchemaEvolution.Proofs.PathReferences
import SchemaEvolution.Proofs.ClosedDocument
import SchemaEvolution.Proofs.Sequencing
import SchemaEvolution.Proofs.Hierarchy
import SchemaEvolution.Proofs.Reordering
import SchemaEvolution.Proofs.DeclarationOrder
import SchemaEvolution.Proofs.MirroredPaths
import SchemaEvolution.Proofs.Insertion
import SchemaEvolution.Proofs.AppendedVersion
import SchemaEvolution.Proofs.Arena
import SchemaEvolution.Proofs.MirroredGraph
import SchemaEvolution.Proofs.EmptyVersion
import SchemaEvolution.Proofs.Inheritance
import SchemaEvolution.Proofs.WellFormed
import SchemaEvolution.Proofs.Identities
import SchemaEvolution.Proofs.WriteOnce
import SchemaEvolution.Proofs.Folder
import SchemaEvolution.Proofs.CommandLine
import SchemaEvolution.Proofs.Commands
import SchemaEvolution.Proofs.IndependentTypes
import SchemaEvolution.Proofs.LayoutHistory
import SchemaEvolution.Proofs.Undo
import SchemaEvolution.Proofs.OperationLog
import SchemaEvolution.Proofs.UnionUpgrade
import SchemaEvolution.Proofs.CodeRegistry
import SchemaEvolution.Proofs.InterfaceConformance
import SchemaEvolution.Proofs.InheritanceCircles
import SchemaEvolution.Proofs.UpgradeChains
import SchemaEvolution.Proofs.CodeSpelling
import SchemaEvolution.Proofs.Dependents
import SchemaEvolution.Proofs.WorkerShares
import SchemaEvolution.Proofs.WithoutInterfaces
import SchemaEvolution.Proofs.TypeHistory
import SchemaEvolution.Proofs.FaithfulInterchange
import SchemaEvolution.Proofs.Lockstep
import SchemaEvolution.Proofs.ConfigRoundTrip
