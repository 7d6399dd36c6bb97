import Mahjong.Proofs.Lobby
import Mahjong.Proofs.Claim
import Mahjong.Proofs.Course
import Mahjong.Proofs.Offers
import Mahjong.Proofs.Lines
import Mahjong.Proofs.Opening
import Mahjong.Proofs.Bookkeeping
import Mahjong.Proofs.Sorting
import Mahjong.Proofs.Backtrack
import Mahjong.Proofs.Waits
import Mahjong.Proofs.Honours
import Mahjong.Proofs.Triplets
import Mahjong.Proofs.Victory
import Mahjong.Proofs.Exhaust
import Mahjong.Proofs.Senders
import Mahjong.Proofs.Hands
import Mahjong.Proofs.Listening
import Mahjong.Client.Program
import Mahjong.Proofs.Outcome
