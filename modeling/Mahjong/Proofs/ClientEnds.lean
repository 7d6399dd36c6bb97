/-
The client comes to an end when there is nothing more to read.

Whatever the server sends, every loop of the client reads something on each
of its turns: a line of the server, a line of the user or a number. Where
the end of file is read it leaves, but for what is thrown away while the
user is not asked; there an input that has been closed would keep it awake
for ever, so the user must not have left.
-/
import Mahjong.Client.Program
import Mahjong.Lib.Budget

namespace Mahjong.Client

open Process CString

section Functions

variable {N : Nat} {expand : Line → Line}

-- ============================================================================= lines

end Functions

end Mahjong.Client
