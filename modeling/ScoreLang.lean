import ScoreLang.Main
import ScoreLang.Proofs.Code.Coverage
import ScoreLang.Proofs.Code.Jumps
import ScoreLang.Proofs.Correct.Logical
import ScoreLang.Proofs.Correct.Program
import ScoreLang.Proofs.Correct.Switch
import ScoreLang.Proofs.Labels.Session
import ScoreLang.Proofs.Machine.Balance
import ScoreLang.Proofs.Machine.Calls
import ScoreLang.Proofs.Machine.Frames
import ScoreLang.Proofs.Machine.Return
import ScoreLang.Proofs.Parse.Failure
import ScoreLang.Proofs.Parse.Placement
import ScoreLang.Proofs.Score.Decoding
import ScoreLang.Proofs.Score.Onset
import ScoreLang.Proofs.Score.Ornament
import ScoreLang.Proofs.Score.Reader
import ScoreLang.Proofs.Score.RoundTrip
import ScoreLang.Proofs.Token.Ending
import ScoreLang.Proofs.Token.Marks
import ScoreLang.Proofs.Token.Names
import ScoreLang.Proofs.Tree.Reader
