import DesignSystem.Main
import DesignSystem.World
import DesignSystem.Proofs.TreeUpdate
import DesignSystem.Proofs.DocumentMeaning
import DesignSystem.Proofs.TidyText
import DesignSystem.Proofs.FileReading
import DesignSystem.Proofs.Runs
import DesignSystem.Proofs.Formatting
import DesignSystem.Proofs.TierNames
import DesignSystem.Proofs.Ways
import DesignSystem.Proofs.Batching
import DesignSystem.Proofs.Grouping
import DesignSystem.Proofs.ElementWalk
import DesignSystem.Proofs.ElementGroups
import DesignSystem.Proofs.Numeral
import DesignSystem.Proofs.Coercion
import DesignSystem.Proofs.CanonicalTree
import DesignSystem.Proofs.EmitParse
import DesignSystem.Proofs.TokenRecords
import DesignSystem.Proofs.ElementBatches
import DesignSystem.Proofs.NodePlacement
import DesignSystem.Proofs.Sections
import DesignSystem.Proofs.Variants
import DesignSystem.Proofs.TierValues
import DesignSystem.Proofs.References
import DesignSystem.Proofs.Loading
import DesignSystem.Proofs.BuildOutcome
import DesignSystem.Proofs.FolderUpdate
import DesignSystem.Proofs.Storage
import DesignSystem.Proofs.TreeStorage
import DesignSystem.Proofs.Delivery
import DesignSystem.Proofs.Blocks
import DesignSystem.Proofs.Nesting
import DesignSystem.Proofs.NestedBlocks
import DesignSystem.Proofs.AliasLookup
import DesignSystem.Proofs.AliasLayouts
import DesignSystem.Proofs.AlikeTrees
import DesignSystem.Proofs.SpacedNames
import DesignSystem.Proofs.AliasSpacing
import DesignSystem.Proofs.TierWidths
import DesignSystem.Proofs.JsonNumber
import DesignSystem.Proofs.OutputValues
import DesignSystem.Proofs.JsonParts
import DesignSystem.Proofs.JsonFaithful
import DesignSystem.Proofs.OrderedMap
import DesignSystem.Proofs.PropertyEntry
import DesignSystem.Proofs.ByteOrder
import DesignSystem.Proofs.PathParts
import DesignSystem.Proofs.PathWalk
import DesignSystem.Proofs.DocumentScan
import DesignSystem.Proofs.ExcludedPaths
import DesignSystem.Proofs.MergedScans
import DesignSystem.Proofs.CoercedValues
import DesignSystem.Proofs.OuterPaths
import DesignSystem.Proofs.FolderChain
import DesignSystem.Proofs.MissingFolders
import DesignSystem.Proofs.NewProject
import DesignSystem.Proofs.InnerPaths
import DesignSystem.Proofs.OverlookedFolders
import DesignSystem.Proofs.MovedProject
