import Overlay.FileTree.Edit
import Overlay.Loader.Memory
import Overlay.Main
import Overlay.ModuleLoader
import Overlay.Proofs.Coherence
import Overlay.Proofs.DefineOnce
import Overlay.Proofs.Defining
import Overlay.Proofs.Shadowing
import Overlay.Proofs.Delegation
import Overlay.Proofs.Sanction
import Overlay.Proofs.Nesting
import Overlay.Proofs.Transformation
import Overlay.Proofs.Hiding
import Overlay.Proofs.Ensemble
import Overlay.Proofs.Tagging
import Overlay.Proofs.Preference
import Overlay.Proofs.SharedRegistry
import Overlay.Proofs.Interchange
import Overlay.Proofs.Describing
import Overlay.Proofs.Attribution
import Overlay.Proofs.Ahead
import Overlay.Proofs.Prewarming
import Overlay.Proofs.Cells
import Overlay.Proofs.DescribeOnce
import Overlay.Proofs.Undisturbed
import Overlay.Proofs.SharedViews
import Overlay.Proofs.Enumeration
import Overlay.Proofs.Foretelling
import Overlay.Proofs.Scanning
import Overlay.Proofs.LeadingDescriptor
import Overlay.Proofs.SignerOrder
import Overlay.Proofs.Growth
import Overlay.Proofs.BrokenArchives
import Overlay.Proofs.Confinement
import Overlay.Proofs.LeadingBack
import Overlay.Proofs.ReservedNames
import Overlay.Proofs.WrittenDescriptor
import Overlay.Proofs.EnvironmentOverrides
import Overlay.Proofs.Inheritance
import Overlay.Proofs.EntryNames
import Overlay.Proofs.ListValues
import Overlay.Proofs.Assembly
import Overlay.Proofs.TransformConfigs
