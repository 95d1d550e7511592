import JarRename.Hierarchy.Resolver
import JarRename.Main
import JarRename.Proofs.AttributeFormat
import JarRename.Proofs.AttributeRoundTrip
import JarRename.Proofs.ModifiedUtf8
import JarRename.Proofs.MalformedUtf8
import JarRename.Proofs.ConstantPool
import JarRename.Proofs.ClassFormat
import JarRename.Proofs.Renaming.Pool
import JarRename.Proofs.Renaming.Text
import JarRename.Proofs.Renaming.Constants
import JarRename.Proofs.Renaming.Annotations
import JarRename.Proofs.Renaming.Attributes
import JarRename.Proofs.Renaming.Class
import JarRename.Proofs.Hierarchy.Cycles
import JarRename.Proofs.Hierarchy.Index
import JarRename.Proofs.Hierarchy.Owners
import JarRename.Proofs.Mapping.ClassNames
import JarRename.Proofs.Hierarchy.Images
import JarRename.Proofs.Renaming.Members
import JarRename.Proofs.Descriptor
import JarRename.Proofs.Descriptor.SourceType
import JarRename.Proofs.Renaming.Steps
import JarRename.Proofs.Renaming.WellFormed
import JarRename.Proofs.Renaming.Summaries
import JarRename.Proofs.Linking
import JarRename.Proofs.Signature.Composition
import JarRename.Proofs.Mapping.Identity
import JarRename.Proofs.Renaming.Identity
import JarRename.Proofs.Hierarchy.Ancestors
import JarRename.Proofs.MemberMappings
import JarRename.Proofs.Hierarchy.Acyclic
import JarRename.Proofs.Hierarchy.BreadthFirst
import JarRename.Proofs.PoolIndices
import JarRename.Proofs.PoolLookups
import JarRename.Proofs.FailedReplacements
import JarRename.Proofs.SlotVec.Calls
import JarRename.Proofs.SlotVec.Failures
import JarRename.Proofs.LongTexts
import JarRename.Proofs.Mapping.Descriptors
import JarRename.Proofs.Signature.Descriptors
import JarRename.Proofs.Jar.Batches
import JarRename.Proofs.Jar.Refusals
import JarRename.Proofs.Jar.Versions
import JarRename.Proofs.Jar.Outputs
import JarRename.Proofs.Jar.Unchanged
import JarRename.Proofs.Jar.Temporary
import JarRename.Proofs.Jar.Failures
import JarRename.Proofs.Jar.Threads
import JarRename.Proofs.Mapping.NestedClasses
import JarRename.Proofs.Mapping.Inverse
import JarRename.Proofs.Mapping.BadLines
import JarRename.Proofs.Mapping.Formats
import JarRename.Proofs.Mapping.InverseTables
import JarRename.Proofs.Jar.SourceName
import JarRename.Proofs.Jar.MainClass
import JarRename.Proofs.Jar.Digests
import JarRename.Proofs.Jar.Providers
import JarRename.Proofs.Renaming.SimpleNames
