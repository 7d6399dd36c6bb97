/-
The server's listening process: `connection_establish`, which waits for
four players, and the loop of `main` around it, which hands a full table
to a child process and starts over.

A slot `pre_players[i]` is its descriptor, -1 while it is empty; the
other fields of `struct player` are not used before the game. `fd_set`s
are sets of descriptors. `select` leaves some of the descriptors in the
set, all of them when it fails. `FD_ISSET` and `FD_SET` of a negative
number are not defined in C: the first can give anything, the second is
never reached.
-/
import Mahjong.Server.State
import Mahjong.Lib.Process
import Mahjong.Lib.CString

namespace Mahjong

open Process CString

/-- The globals of the listening process. -/
structure Lobby where
  fd : Seat → Int
  rset : Finset Int
  testset : Finset Int
  maxfd : Int

namespace Lobby

/-- What `accept` gives: a descriptor, or -1 with `errno` at `EINTR` or
at something else. -/
inductive Accepted
  | connected (fd : Int)
  | interrupted
  | failed
deriving DecidableEq

/-- What `read` gives: some bytes, 0, or -1. -/
inductive Received
  | data
  | eof
  | error
deriving DecidableEq

/-- The operations. `pass`, `isset`, `set`, `decide` and `established`
are marks: a pass of the loop begins, a descriptor is looked up in or
added to an `fd_set`, the count is compared with 4, the function
returned. -/
inductive Op
  | accept
  | write (fd : Int) (l : Line)
  | select (nfds : Int) (fds : Finset Int)
  | read (fd : Int)
  | close (fd : Int)
  | fork
  | indeterminate
  | exit
  | pass
  | set (fd : Int)
  | isset (fd : Int)
  | decide (count : Int)
  | established
deriving DecidableEq

@[reducible] def Op.Res : Op → Type
  | .accept => Accepted
  | .select _ _ => Int → Bool
  | .read _ => Received
  | .indeterminate => Bool
  | .exit => Empty
  | _ => Unit

/-- A function of the listening process. -/
abbrev Listener (α : Type) : Type 1 := Prog Op Op.Res Lobby α

def call (o : Op) : Listener o.Res := Prog.call o

/-- `pre_players[i]->fd = fd`. -/
def setFd (s : Lobby) (i : Seat) (fd : Int) : Lobby :=
  { s with fd := Function.update s.fd i fd }

/-- `FD_SET(fd, &rset)` and the update of `maxfd`. -/
def watch (s : Lobby) (fd : Int) : Lobby :=
  { s with rset := insert fd s.rset, maxfd := if fd > s.maxfd then fd else s.maxfd }

/-- `"(join) You are the %d-th player, let's wait for others...\n"`. -/
def joinLine (n : Int) : Line :=
  "(join) You are the ".toList ++ decimal n
    ++ "-th player, let's wait for others...\n".toList

def startLine : Line := "start!\n".toList

/-- One turn of the first loop of `connection_establish`: an empty slot
waits for a client. An interrupt leaves it empty, and goes on with the
next slot. -/
def acceptSlot (count : Int) (i : Seat) : Listener Int := do
  let s ← Prog.get
  if s.fd i = -1 then do
    match ← call .accept with
    | .connected fd => do
        Prog.modify fun s => s.setFd i fd
        call (.write fd (joinLine (count + 1)))
        call (.set fd)
        Prog.modify fun s => s.watch fd
        pure (count + 1)
    | .interrupted => do
        Prog.modify fun s => s.setFd i (-1)
        pure count
    | .failed => fun s => .op .exit s fun r => nomatch r
  else pure (count + 1)

/-- One turn of the second loop: a client that left frees its slot. -/
def checkSlot (count : Int) (i : Seat) : Listener Int := do
  let s ← Prog.get
  call (.isset (s.fd i))
  let isset ← if s.fd i < 0 then call .indeterminate
    else pure (decide (s.fd i ∈ s.testset))
  if isset then do
    match ← call (.read (s.fd i)) with
    | .eof => do
        call (.close (s.fd i))
        Prog.modify fun s => s.setFd i (-1)
        pure (count - 1)
    | _ => pure count
  else pure count

/-- A line to every slot. -/
def toSlots (l : Line) : Listener Unit :=
  (List.range 4).forM fun i => do
    let s ← Prog.get
    call (.write (s.fd (Fin.ofNat 4 i)) l)

/-- `connection_establish`; it returns 0 only. -/
def connectionEstablish : Listener Int :=
  Prog.forever do
    call .pass
    let count ← (List.range 4).foldlM
      (fun count i => acceptSlot count (Fin.ofNat 4 i)) 0
    let s ← Prog.get
    let ready ← call (.select (s.maxfd + 1) s.rset)
    Prog.modify fun s => { s with testset := s.rset.filter fun d => ready d }
    let count ← (List.range 4).foldlM
      (fun count i => checkSlot count (Fin.ofNat 4 i)) count
    call (.decide count)
    if count = 4 then do
      toSlots startLine
      pure (some 0)
    else do
      toSlots "wait...\n".toList
      pure none

/-- The parent's part after a `fork`: it closes the players' descriptors
and takes new slots. -/
def release : Listener Unit :=
  (List.range 4).forM fun i => do
    let s ← Prog.get
    call (.close (s.fd (Fin.ofNat 4 i)))
    Prog.modify fun s => s.setFd (Fin.ofNat 4 i) (-1)

/-- The loop of `main`. -/
def main : Listener Unit :=
  Prog.forever do
    if (← connectionEstablish) = 0 then do
      call .established
      call .fork
      release
      pure none
    else pure (some ())

/-- The globals when `main` gets to its loop: four new slots, `rset`
cleared. -/
def boot : Lobby where
  fd := fun _ => -1
  rset := ∅
  testset := ∅
  maxfd := 0

-- ========================================================== what has happened

/-- The replies so far, the latest first. -/
abbrev Log := List ((o : Op) × o.Res)

/-- The descriptors accepted and not closed since. -/
def live : Log → Finset Int
  | [] => ∅
  | ⟨.accept, .connected fd⟩ :: w => insert fd (live w)
  | ⟨.close fd, _⟩ :: w => (live w).erase fd
  | _ :: w => live w

/-- The descriptors seen at end of file or in error in this pass. -/
def down : Log → Finset Int
  | [] => ∅
  | ⟨.pass, _⟩ :: _ => ∅
  | ⟨.read fd, .eof⟩ :: w => insert fd (down w)
  | ⟨.read fd, .error⟩ :: w => insert fd (down w)
  | _ :: w => down w

/-- The surroundings: other descriptors in use are `others`, `assigns used
fd` says that `accept` may give `fd` while `used` are in use. Everything
else may happen. -/
def Sound (others : Finset Int) (assigns : Finset Int → Int → Prop) : Log → Prop
  | ⟨.accept, .connected fd⟩ :: w => assigns (others ∪ live w) fd
  | _ => True

abbrev sockets (others : Finset Int) (assigns : Finset Int → Int → Prop) :
    Env Op Op.Res :=
  Env.logged Op Op.Res (Sound others assigns)

/-- A new descriptor. -/
def Fresh (assigns : Finset Int → Int → Prop) : Prop :=
  ∀ used fd, assigns used fd → 0 ≤ fd ∧ fd ∉ used

/-- The lowest unused descriptor. -/
def Lowest (assigns : Finset Int → Int → Prop) : Prop :=
  ∀ used fd, assigns used fd → ∀ e, 0 ≤ e → e < fd → e ∈ used

end Lobby

end Mahjong
