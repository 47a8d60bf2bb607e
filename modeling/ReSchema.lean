import ReSchema.Py.Text
import ReSchema.Py.Json
import ReSchema.Py.Codec
import ReSchema.Py.Loads
import ReSchema.Py.RoundTrip
import ReSchema.Py.Limits
import ReSchema.Py.Sorted
import ReSchema.Py.Utf8
import ReSchema.Py.Interpreter
import ReSchema.Py.Sightings
import ReSchema.Py.IntHex
import ReSchema.Trace
import ReSchema.Canonical
import ReSchema.Compare
import ReSchema.Observed
import ReSchema.WriteShape
import ReSchema.Variation
import ReSchema.Candidate
import ReSchema.HiddenSuite
import ReSchema.ProgramReplay
import ReSchema.ReplaySound
import ReSchema.Py.Sizes
import ReSchema.ReplayTotal
import ReSchema.Spec
import ReSchema.Py.Random
import ReSchema.Calling
import ReSchema.FdTable
import ReSchema.AddressNames
import ReSchema.C.Exec
import ReSchema.Pkfmt
import ReSchema.PkfmtExtract
import ReSchema.PkfmtMain
import ReSchema.PkfmtGrammar
import ReSchema.Corpus
import ReSchema.CorpusManifest
import ReSchema.CorpusFailure
import ReSchema.CorpusStamp
import ReSchema.Regrade
import ReSchema.RegradeEvidence
import ReSchema.RegradeReplay
import ReSchema.RegradeIsolation
import ReSchema.X86.Region
import ReSchema.OriginalVm
import ReSchema.BatchedOriginals
import ReSchema.FunctionGate
import ReSchema.Marshalling
import ReSchema.Survivors
import ReSchema.FunctionSound
import ReSchema.NativeWorker
import ReSchema.RoundCases
import ReSchema.HonestWorker
import ReSchema.FunctionComplete
import ReSchema.FunctionFeedback
import ReSchema.WorkerOutput
import ReSchema.VoidFloor
import ReSchema.Disasm
import ReSchema.AbiTemplate
import ReSchema.TargetedBuild
import ReSchema.StackLayout
import ReSchema.ExperimentFunction
import ReSchema.DrawnCases
import ReSchema.SliceAnchor
import ReSchema.CanonicalTwice
import ReSchema.NormSource
import ReSchema.CampaignRoundTrip
import ReSchema.Fingerprint
import ReSchema.UnreadParts
import ReSchema.Submit
import ReSchema.HonestReplay
import ReSchema.Experiment
import ReSchema.HiddenStream
import ReSchema.FunctionProbe
import ReSchema.RegradeMain
import ReSchema.C.Store
import ReSchema.Calc
import ReSchema.TextSeeds
import ReSchema.Py.Shlex
import ReSchema.SlotTasks
import ReSchema.CampaignMain
import ReSchema.BuildRound
