import TriforceAFL.Proofs.ForkReturns
import TriforceAFL.Proofs.InterestDedup
import TriforceAFL.Proofs.QemuVerdict
import TriforceAFL.Proofs.Cmin
import TriforceAFL.Proofs.AsLines
import TriforceAFL.Proofs.QueueSeek
import TriforceAFL.Proofs.BitmapHelpers
import TriforceAFL.Proofs.ScoreRuns
import TriforceAFL.Proofs.Splice
import TriforceAFL.Proofs.AutoTokens
import TriforceAFL.Proofs.AutoSave
import TriforceAFL.Proofs.TrimSession
import TriforceAFL.Proofs.DictFile
import TriforceAFL.Proofs.Hash
import TriforceAFL.Proofs.Shuffle
import TriforceAFL.Proofs.Timeout
import TriforceAFL.Proofs.FileNames
import TriforceAFL.Proofs.KillSignal
import TriforceAFL.Proofs.AllocSizes
import TriforceAFL.Proofs.TminStats
import TriforceAFL.Proofs.HavocBounds
import TriforceAFL.Proofs.StageMax
import TriforceAFL.Proofs.Analyze
import TriforceAFL.Proofs.GrownArray
import TriforceAFL.Proofs.Tracker
