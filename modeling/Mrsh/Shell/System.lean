import Mrsh.Data.Run
import Mrsh.Text

namespace Mrsh

/-! # The operating system

What the shell asks of the system. The system is the parameter `World`, and a
call gives a result and a new world. Like the shell itself, a model of `fork`
returns 0 in the child: a run of the shell is the run of one process, and the
world decides whether it goes on as the parent or as the child.
-/

inductive Errno where
  | eintr | eperm | echild | erange | einval
  | other (code : Nat)
deriving Repr, DecidableEq

inductive Handler where
  | default | ignore | catch
deriving Repr, DecidableEq

inductive OpenMode where
  | readOnly | truncate | append | readWrite
deriving Repr, DecidableEq

inductive GlobResult where
  | paths (paths : List Str)
  | noMatch
  | failed (code : Int)
deriving Repr, DecidableEq

class System (World : Type) where
  fork : World → Except Errno Int × World
  getpid : World → Int × World
  /-- `waitpid pid nohang untraced`, with the result and the wait status. -/
  waitpid : Int → Bool → Bool → World → Except Errno (Int × Nat) × World
  getpgrp : World → Int × World
  getsid : World → Int × World
  getppid : World → Int × World
  /-- Whether the real user is the superuser. -/
  isRoot : World → Bool × World
  setpgid : Int → Int → World → Except Errno Unit × World
  tcgetpgrp : World → Int × World
  tcsetpgrp : Int → World → Except Errno Unit × World
  tcgetattr : World → Except Errno Nat × World
  tcsetattr : Nat → World → Except Errno Unit × World
  isatty : World → Bool × World
  kill : Int → Int → World → Except Errno Unit × World
  getHandler : Nat → World → Except Errno Handler × World
  sigaction : Nat → Handler → World → Except Errno Unit × World
  /-- The signals that arrived and whose handler is that of the shell. -/
  signals : World → List Nat × World
  pipe : World → Except Errno (Int × Int) × World
  openFile : Str → OpenMode → World → Except Errno Int × World
  close : Int → World → Unit × World
  dup : Int → World → Except Errno Int × World
  dup2 : Int → Int → World → Except Errno Unit × World
  /-- At most 1024 characters, of which there are none at the end of the file. -/
  read : Int → World → Except Errno Str × World
  write : Int → Str → World → Except Errno Nat × World
  fgetc : World → Option Char × World
  printOut : Str → World → Unit × World
  printErr : Str → World → Unit × World
  glob : Str → World → GlobResult × World
  /-- The home directory of a user. -/
  getpwnam : Str → World → Option Str
  /-- `access` with `X_OK` or else `R_OK`. -/
  access : Str → Bool → World → Except Errno Unit × World
  chdir : Str → World → Except Errno Unit × World
  getcwd : World → Except Errno Str × World
  /-- The `st_mode` of a file. -/
  stat : Str → World → Except Errno Int × World
  confstrPath : World → Option Str × World
  execv : Str → List Str → List (Str × Str) → World → Option Errno × World
  rand : World → Nat × World
  sysconfClkTck : World → Except Errno Int × World
  times : World → Except Errno (Int × Int × Int × Int) × World
  setFileLimit : Int → World → Except Errno Unit × World
  /-- The limit, where `none` stands for `RLIM_INFINITY`. -/
  getFileLimit : World → Except Errno (Option Nat) × World
  umask : Nat → World → Nat × World
  /-- The value of an uninitialised variable. -/
  indeterminate : World → Int × World
  /-- `fnmatch pattern text`, without flags. -/
  fnmatch : Str → Str → Bool
  /-- `strtod` converted to `long`, and the text after the number. -/
  strtod : Str → Int × Str
  strerror : Errno → Str
  /-- The quotient of two integers as `%f` prints it. -/
  formatQuotient : Int → Int → Str

/-! ## An isolated machine

A system with no files but some executables, and no process but the shell. -/

structure Machine where
  /-- Whether a run goes on as the child after a `fork`. -/
  inChild : Bool
  executables : List Str
  printed : Str
deriving Repr, DecidableEq

def Machine.isolated : Machine := ⟨false, [], []⟩

def noEntry : Errno := .other 2

instance : System Machine where
  fork machine := (.ok (if machine.inChild then 0 else 2), machine)
  getpid machine := (1, machine)
  waitpid _ _ _ machine := (.error .echild, machine)
  getpgrp machine := (1, machine)
  getsid machine := (1, machine)
  getppid machine := (0, machine)
  isRoot machine := (false, machine)
  setpgid _ _ machine := (.ok (), machine)
  tcgetpgrp machine := (-1, machine)
  tcsetpgrp _ machine := (.error .einval, machine)
  tcgetattr machine := (.error .einval, machine)
  tcsetattr _ machine := (.error .einval, machine)
  isatty machine := (false, machine)
  kill _ _ machine := (.error .eperm, machine)
  getHandler _ machine := (.ok .default, machine)
  sigaction _ _ machine := (.ok (), machine)
  signals machine := ([], machine)
  pipe machine := (.error .einval, machine)
  openFile _ _ machine := (.error noEntry, machine)
  close _ machine := ((), machine)
  dup _ machine := (.error .einval, machine)
  dup2 _ _ machine := (.error .einval, machine)
  read _ machine := (.ok [], machine)
  write _ text machine := (.ok text.length, { machine with printed := machine.printed ++ text })
  fgetc machine := (none, machine)
  printOut text machine := ((), { machine with printed := machine.printed ++ text })
  printErr _ machine := ((), machine)
  glob _ machine := (.noMatch, machine)
  getpwnam _ _ := none
  access path _ machine :=
    (if path ∈ machine.executables then .ok () else .error noEntry, machine)
  chdir _ machine := (.error noEntry, machine)
  getcwd machine := (.ok ['/'], machine)
  stat _ machine := (.error noEntry, machine)
  confstrPath machine := (none, machine)
  execv path _ _ machine := (if path ∈ machine.executables then none else some noEntry, machine)
  rand machine := (0, machine)
  sysconfClkTck machine := (.ok 100, machine)
  times machine := (.ok (0, 0, 0, 0), machine)
  setFileLimit _ machine := (.error .eperm, machine)
  getFileLimit machine := (.ok none, machine)
  umask _ machine := (18, machine)
  indeterminate machine := (0, machine)
  fnmatch pattern text := pattern == text
  strtod text := (0, text)
  strerror _ := []
  formatQuotient _ _ := []

/-! ## Constants and wait statuses -/

def pipeBuf : Nat := 4096

def intMax : Int := 2 ^ 31 - 1

def stdinFileno : Int := 0

def stdoutFileno : Int := 1

def sighup : Nat := 1

def sigint : Nat := 2

def sigquit : Nat := 3

def sigkill : Nat := 9

def sigcont : Nat := 18

def sigstop : Nat := 19

def sigtstp : Nat := 20

def sigttin : Nat := 21

def sigttou : Nat := 22

def wtermsig (stat : Nat) : Nat := stat % 128

def wstopsig (stat : Nat) : Nat := stat / 256 % 256

def wexitstatus (stat : Nat) : Nat := stat / 256 % 256

def wifexited (stat : Nat) : Bool := wtermsig stat == 0

def wifsignaled (stat : Nat) : Bool := 0 < wtermsig stat && wtermsig stat < 127

def wifstopped (stat : Nat) : Bool := stat % 256 == 127

end Mrsh
