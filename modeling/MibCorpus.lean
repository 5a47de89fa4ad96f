import MibCorpus.Load.Loader
import MibCorpus.Model.Parts
import MibCorpus.Model.Report
import MibCorpus.Proofs.Arenas
import MibCorpus.Proofs.Chronicle
import MibCorpus.Proofs.Claimants
import MibCorpus.Proofs.ConstraintChecks
import MibCorpus.Proofs.DottedNotation
import MibCorpus.Proofs.Enrolment
import MibCorpus.Proofs.EntryDepths
import MibCorpus.Proofs.FaithfulLowering
import MibCorpus.Proofs.FileSelection
import MibCorpus.Proofs.Generation
import MibCorpus.Proofs.IgnoredInput
import MibCorpus.Proofs.ImportAccounts
import MibCorpus.Proofs.ImportChains
import MibCorpus.Proofs.Indices
import MibCorpus.Proofs.InternCalls
import MibCorpus.Proofs.IntrinsicRoots
import MibCorpus.Proofs.Isolation
import MibCorpus.Proofs.Loading
import MibCorpus.Proofs.Lookups
import MibCorpus.Proofs.MonotoneRuns
import MibCorpus.Proofs.NameStores
import MibCorpus.Proofs.OidFailures
import MibCorpus.Proofs.OrderIndependence
import MibCorpus.Proofs.PatternMatching
import MibCorpus.Proofs.PolicyScope
import MibCorpus.Proofs.ProblemSubjects
import MibCorpus.Proofs.RefinementChains
import MibCorpus.Proofs.SelfContained
import MibCorpus.Proofs.Settled
import MibCorpus.Proofs.TypeCycles
import MibCorpus.Proofs.TypeIndifference
import MibCorpus.Proofs.WalkOrder
import MibCorpus.Source.Outline
