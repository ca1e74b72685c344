import Mrsh.Shell.System

namespace Mrsh

/-! # A system within a larger one

A machine with one more component answers most calls as before. What the
component is for is then said on its own.
-/

structure SystemPart (Whole World : Type) where
  get : Whole → World
  set : Whole → World → Whole

namespace SystemPart

variable {Whole World : Type}

def ask {α : Type} (part : SystemPart Whole World) (request : World → α × World) (whole : Whole) : α × Whole :=
  ((request (part.get whole)).1, part.set whole (request (part.get whole)).2)

/-- The calls of the part. -/
@[reducible] def system [System World] (part : SystemPart Whole World) : System Whole where
  fork := part.ask System.fork
  getpid := part.ask System.getpid
  waitpid pid nohang untraced := part.ask (System.waitpid pid nohang untraced)
  getpgrp := part.ask System.getpgrp
  getsid := part.ask System.getsid
  getppid := part.ask System.getppid
  isRoot := part.ask System.isRoot
  setpgid pid pgid := part.ask (System.setpgid pid pgid)
  tcgetpgrp := part.ask System.tcgetpgrp
  tcsetpgrp pgid := part.ask (System.tcsetpgrp pgid)
  tcgetattr := part.ask System.tcgetattr
  tcsetattr modes := part.ask (System.tcsetattr modes)
  isatty := part.ask System.isatty
  kill pid sig := part.ask (System.kill pid sig)
  getHandler sig := part.ask (System.getHandler sig)
  sigaction sig handler := part.ask (System.sigaction sig handler)
  signals := part.ask System.signals
  pipe := part.ask System.pipe
  openFile path mode := part.ask (System.openFile path mode)
  close fd := part.ask (System.close fd)
  dup fd := part.ask (System.dup fd)
  dup2 source target := part.ask (System.dup2 source target)
  read fd := part.ask (System.read fd)
  write fd text := part.ask (System.write fd text)
  fgetc := part.ask System.fgetc
  printOut text := part.ask (System.printOut text)
  printErr text := part.ask (System.printErr text)
  glob pattern := part.ask (System.glob pattern)
  getpwnam name whole := System.getpwnam name (part.get whole)
  access path executable := part.ask (System.access path executable)
  chdir path := part.ask (System.chdir path)
  getcwd := part.ask System.getcwd
  stat path := part.ask (System.stat path)
  confstrPath := part.ask System.confstrPath
  execv path argv environ := part.ask (System.execv path argv environ)
  rand := part.ask System.rand
  sysconfClkTck := part.ask System.sysconfClkTck
  times := part.ask System.times
  setFileLimit limit := part.ask (System.setFileLimit limit)
  getFileLimit := part.ask System.getFileLimit
  umask mode := part.ask (System.umask mode)
  indeterminate := part.ask System.indeterminate
  fnmatch := System.fnmatch World
  strtod := System.strtod World
  strerror := System.strerror World
  formatQuotient := System.formatQuotient World

end SystemPart

/-- The answers of an isolated machine, which leave the state as it is. -/
@[reducible] def isolatedSystem (Whole : Type) : System Whole :=
  (⟨fun _ => Machine.isolated, fun whole _ => whole⟩ : SystemPart Whole Machine).system

end Mrsh
