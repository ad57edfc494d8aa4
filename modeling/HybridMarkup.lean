import HybridMarkup.Analysis
import HybridMarkup.Main
import HybridMarkup.Proofs.Tiling
import HybridMarkup.Proofs.Progress
import HybridMarkup.Proofs.FaithfulArtifacts
import HybridMarkup.Proofs.CopiedOnce
import HybridMarkup.Proofs.TreeWellFormed
import HybridMarkup.Proofs.RoundTrip
import HybridMarkup.Proofs.Drift
import HybridMarkup.Proofs.FenceEdit
import HybridMarkup.Proofs.Updates
import HybridMarkup.Proofs.Freshness
import HybridMarkup.Proofs.Orphans
import HybridMarkup.Proofs.WorkspaceRuns
import HybridMarkup.Proofs.GeneratedNames
import HybridMarkup.Proofs.Places
import HybridMarkup.Proofs.Coherence
import HybridMarkup.Proofs.VersionedMap
import HybridMarkup.Proofs.Isolation
import HybridMarkup.Proofs.Reports
import HybridMarkup.Proofs.StrictParse
import HybridMarkup.Proofs.Lockstep
import HybridMarkup.Proofs.Spellings
import HybridMarkup.Proofs.EditorAnswers
import HybridMarkup.Proofs.NameOrigins
import HybridMarkup.Proofs.Payloads
import HybridMarkup.Proofs.LineEndingReaders
import HybridMarkup.Proofs.LineEndingTokens
import HybridMarkup.Proofs.Brackets
import HybridMarkup.Proofs.OpenElements
import HybridMarkup.Proofs.Silence
import HybridMarkup.Proofs.NestedElements
import HybridMarkup.Proofs.RawBodies
import HybridMarkup.Proofs.FenceEnds
import HybridMarkup.Proofs.Landmarks
import HybridMarkup.Proofs.Unclosed
import HybridMarkup.Proofs.EndTags
import HybridMarkup.Proofs.ProseLines
import HybridMarkup.Proofs.Duplicates
import HybridMarkup.Proofs.AttributeValues
import HybridMarkup.Proofs.FailedUpdates
import HybridMarkup.Proofs.Repetition
import HybridMarkup.Proofs.Positions
import HybridMarkup.Proofs.Coalescing
import HybridMarkup.Proofs.ConditionChains
import HybridMarkup.Proofs.RuleIndependence
import HybridMarkup.Proofs.DirectiveStatements
import HybridMarkup.Proofs.DirectiveNames
import HybridMarkup.Proofs.MappingSymmetry
import HybridMarkup.Proofs.Relabelling
import HybridMarkup.Proofs.Outlines
import HybridMarkup.Proofs.Siblings
import HybridMarkup.Proofs.Traversals
import HybridMarkup.Proofs.NormalForms
