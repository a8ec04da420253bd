import ClassRenaming.Main
import ClassRenaming.Proofs.Idempotence
import ClassRenaming.Proofs.HierarchyView
import ClassRenaming.Proofs.TypeOrder
import ClassRenaming.Proofs.AlikeStates
import ClassRenaming.Proofs.PostFixpoint
import ClassRenaming.Proofs.ReachedStates
import ClassRenaming.Proofs.Reading
import ClassRenaming.Proofs.StoredPool
import ClassRenaming.Proofs.PoolGrowth
import ClassRenaming.Proofs.Texts
import ClassRenaming.Proofs.ComesBack
import ClassRenaming.Proofs.MappedTexts
import ClassRenaming.Proofs.RetoldPool
import ClassRenaming.Proofs.MappedBack
import ClassRenaming.Proofs.Retelling
import ClassRenaming.Proofs.StoredConstants
import ClassRenaming.Proofs.StoredAnnotations
import ClassRenaming.Proofs.StoredFrames
import ClassRenaming.Proofs.LayoutMap
import ClassRenaming.Proofs.StoredInstructions
import ClassRenaming.Proofs.StoredCode
import ClassRenaming.Proofs.StoredAttributes
import ClassRenaming.Proofs.StoredClasses
import ClassRenaming.Proofs.WalkBounds
import ClassRenaming.Proofs.MergeHeights
import ClassRenaming.Proofs.NameHeights
import ClassRenaming.Proofs.SwappedLocals
import ClassRenaming.Proofs.AnalysisEnds
import ClassRenaming.Proofs.Gives
import ClassRenaming.Proofs.ReadParts
import ClassRenaming.Proofs.ReadClasses
import ClassRenaming.Proofs.SettledClasses
import ClassRenaming.Proofs.ProperRenaming
import ClassRenaming.Proofs.DescriptorGrammar
import ClassRenaming.Proofs.DerivedDescriptors
import ClassRenaming.Proofs.TypesInStates
import ClassRenaming.Proofs.NamesInTypes
import ClassRenaming.Proofs.TypesInFlows
import ClassRenaming.Proofs.NamesInStates
import ClassRenaming.Proofs.RecomputedBodies
import ClassRenaming.Proofs.CarvedHandlers
import ClassRenaming.Proofs.EmittedFrames
import ClassRenaming.Proofs.LiveDispatch
import ClassRenaming.Proofs.ReplacedSpans
import ClassRenaming.Proofs.SettledBodies
import ClassRenaming.Proofs.RecomputedClasses
import ClassRenaming.Proofs.WrittenClasses
import ClassRenaming.Proofs.InternedValues
import ClassRenaming.Proofs.RepeatedWriting
import ClassRenaming.Proofs.ReadTexts
import ClassRenaming.Proofs.MovedAgain
import ClassRenaming.Proofs.Reencoding
import ClassRenaming.Proofs.SameAnswers
import ClassRenaming.Proofs.PlacedRuns
import ClassRenaming.Proofs.RecomputedAgain
import ClassRenaming.Proofs.ProcessingOrder
import ClassRenaming.Proofs.LeastAncestors
import ClassRenaming.Proofs.SignatureText
import ClassRenaming.Proofs.SignatureGrammar
import ClassRenaming.Proofs.SignatureNames
import ClassRenaming.Proofs.SpelledWords
import ClassRenaming.Proofs.SpelledSignatures
import ClassRenaming.Proofs.RenamedSites
import ClassRenaming.Proofs.RenamedDescriptors
import ClassRenaming.Proofs.RenamedSignatures
import ClassRenaming.Proofs.RespelledSignatures
import ClassRenaming.Proofs.RemainingSites
import ClassRenaming.Proofs.ThoroughTables
import ClassRenaming.Proofs.RelocatedAgain
import ClassRenaming.Proofs.StoredUnits
import ClassRenaming.Proofs.RenamedUnits
import ClassRenaming.Proofs.ExactTexts
import ClassRenaming.Proofs.Labels
import ClassRenaming.Proofs.CarriedTexts
import ClassRenaming.Proofs.RememberedAnswers
import ClassRenaming.Proofs.UntouchedClasses
import ClassRenaming.Proofs.DistinctTables
import ClassRenaming.Proofs.Relabeling
import ClassRenaming.Proofs.RelabeledTypes
import ClassRenaming.Proofs.RelabeledStates
import ClassRenaming.Proofs.RelabeledMerges
import ClassRenaming.Proofs.RelabeledRuns
import ClassRenaming.Proofs.RelabeledCode
import ClassRenaming.Proofs.NearestInterfaces
import ClassRenaming.Proofs.FirstAnnotations
import ClassRenaming.Proofs.Maxima
import ClassRenaming.Proofs.InternalFaults
import ClassRenaming.Proofs.PrefixFree
import ClassRenaming.Proofs.AnalysisSteps
import ClassRenaming.Proofs.WholeLocals
import ClassRenaming.Proofs.FreshValues
import ClassRenaming.Proofs.UndoneNames
import ClassRenaming.Proofs.WrittenFiles
import ClassRenaming.Proofs.DumpedClasses
import ClassRenaming.Proofs.MergedNames
import ClassRenaming.Proofs.InstructionSizes
import ClassRenaming.Proofs.WrittenNumbers
import ClassRenaming.Proofs.FrameNumbers
import ClassRenaming.Proofs.NestedAttributes
import ClassRenaming.Proofs.OffsetSums
import ClassRenaming.Proofs.OffsetBounds
import ClassRenaming.Proofs.MovedFiles
import ClassRenaming.Proofs.ArchiveOrder
