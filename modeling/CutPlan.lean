import CutPlan.Controller.GoalText
import CutPlan.Controller.InitReplacement
import CutPlan.Controller.LegalPrefixes
import CutPlan.Controller.NameCodec
import CutPlan.Controller.PhaseChannels
import CutPlan.Controller.RateLimiter
import CutPlan.Controller.StableOutcomes
import CutPlan.Controller.RecorderTotals
import CutPlan.Controller.BatchResults
import CutPlan.Controller.UsableSamples
import CutPlan.Landmarks.CostPartition
import CutPlan.Landmarks.FractionalLandmark
import CutPlan.Landmarks.HMax
import CutPlan.Landmarks.IncrementalAgreement
import CutPlan.Landmarks.Termination
import CutPlan.Lib.ParentForest
import CutPlan.Pipeline.ArithmeticExpressions
import CutPlan.Pipeline.EffectConditions
import CutPlan.Pipeline.ResponseAgreement
import CutPlan.Pipeline.TruncatedResponses
import CutPlan.Preprocess.NumericState
import CutPlan.Preprocess.Pruning
import CutPlan.Preprocess.WrittenVariables
import CutPlan.Search.ActionNames
import CutPlan.Search.AdaptiveQueue
import CutPlan.Search.AnytimeProgress
import CutPlan.Search.AxiomPropagation
import CutPlan.Search.BestMetric
import CutPlan.Search.BoundStages
import CutPlan.Search.BoundedLines
import CutPlan.Search.BridgeAccounting
import CutPlan.Search.Epsilons
import CutPlan.Search.GlobalConstraint
import CutPlan.Search.ImpliedConstraints
import CutPlan.Search.Linearisation
import CutPlan.Search.MessageKinds
import CutPlan.Search.MetricCost
import CutPlan.Search.NonInterference
import CutPlan.Search.OpenStates
import CutPlan.Search.PlanSoundness
import CutPlan.Search.ReadableMessages
import CutPlan.Search.RequestThrottle
import CutPlan.Search.StaticBounds
import CutPlan.Search.SuccessorGenerator
import CutPlan.Search.TieBreakingOrder
import CutPlan.Translate.DerivedPredicates
import CutPlan.Translate.NumericEffectCounts
import CutPlan.Search.ActivityWindows
import CutPlan.Search.AncestorStagnation
import CutPlan.Translate.SimplificationPreserves
import CutPlan.Translate.ProgramModel
