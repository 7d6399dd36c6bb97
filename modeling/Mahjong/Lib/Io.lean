/-
The operations of a C program that serves lines over descriptors, as a
signature for resumption processes: `write` a line, `readline` one,
`select` over descriptors, `scanf` a number from standard input, use a
variable before it is set (`indeterminate`: any value), and `exit`.

`note e` does nothing; it marks a point of the program, so that a
statement about runs can speak of it.
-/
import Mahjong.Lib.Process
import Mahjong.Lib.CString

namespace Process

open CString

/-- The operations, over descriptors `Fd` and marks `ε`. -/
inductive IoOp (Fd ε : Type)
  | write (fd : Fd) (l : Line)
  | readline (fd : Fd) (maxlen : Nat)
  | select (fds : List Fd)
  | scanf
  | indeterminate
  | note (e : ε)
  | exit

/-- What `scanf("%d")` finds: the end of file, no number, or a number. -/
inductive Scanned
  | eof
  | mismatch
  | number (i : Int)

/-- What an operation hands back: `readline` the line (empty at end of
file), `select` which descriptors are ready, `scanf("%d")` what it
found; `exit` nothing ever. -/
@[reducible] def IoOp.Res {Fd ε : Type} : IoOp Fd ε → Type
  | .write _ _ => Unit
  | .readline _ _ => Line
  | .select _ => Fd → Bool
  | .scanf => Scanned
  | .indeterminate => Int
  | .note _ => Unit
  | .exit => Empty

/-- A program over these operations. -/
abbrev Io (Fd ε σ α : Type) : Type 1 := Prog (IoOp Fd ε) IoOp.Res σ α

namespace Io

variable {Fd ε σ α : Type}

def call (o : IoOp Fd ε) : Io Fd ε σ o.Res := Prog.call o

def write (fd : Fd) (l : Line) : Io Fd ε σ Unit := call (.write fd l)

def readline (fd : Fd) (maxlen : Nat) : Io Fd ε σ Line :=
  call (.readline fd maxlen)

def select (fds : List Fd) : Io Fd ε σ (Fd → Bool) := call (.select fds)

def scanf : Io Fd ε σ Scanned := call .scanf

def indeterminate : Io Fd ε σ Int := call .indeterminate

def note (e : ε) : Io Fd ε σ Unit := call (.note e)

def exit : Io Fd ε σ α := fun s => .op .exit s fun r => nomatch r

end Io

end Process
