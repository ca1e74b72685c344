import Mrsh.Shell.Job

namespace Mrsh

open Mrsh.Data

/-! # Paths and redirections

The functions of `shell/path.c` and `shell/redir.c`.
-/

/-- The tokens of `strtok` with the delimiter `:`, of which none is empty. -/
def pathTokens (str : Str) : List Str := (str.splitOn ':').filter (!·.isEmpty)

def joinPath (basedir file : Str) : Str :=
  basedir ++ (if basedir.getLast? == some '/' then [] else ['/']) ++ file

section

variable {World : Type} [System World]

def firstAccessible (file : Str) (exec : Bool) : List Str → Leaf World (Option Str)
  | [] => pure none
  | basedir :: rest => do
      let path := joinPath basedir file
      match ← call (System.access path exec) with
      | .ok _ => pure (some path)
      | .error _ => firstAccessible file exec rest

def expandPath (file : Str) (exec defaultPath : Bool) : Leaf World (Option Str) := do
  if '/' ∈ file then pure (some file)
  else
    match ← if defaultPath then call System.confstrPath else envValue "PATH".toList with
    | none => pure none
    | some path => firstAccessible file exec (pathTokens path)

/-- `current_working_dir`, with the error of `getcwd` when there is no result. -/
def currentWorkingDir : Leaf World (Except Errno Str) := call System.getcwd

/-! ## Here-documents -/

/-- The number of characters that were written, which is 0 when the line is
longer than `maxSize`. -/
def writeHereDocumentLine (fd : Int) (line : Word) (maxSize : Option Nat) :
    Leaf World (Except Errno Nat) := do
  let lineStr ← orCrash (mrshWordStr line)
  let writeLen := lineStr.length + 1
  if maxSize.any (· < writeLen) then pure (.ok 0)
  else
    match ← writeAll lineStr with
    | .error errno => pure (.error errno)
    | .ok _ =>
        match ← writeAll ['\n'] with
        | .error errno => pure (.error errno)
        | .ok _ => pure (.ok writeLen)
where
  writeAll (text : Str) : Leaf World (Except Errno Unit) := do
    match ← call (System.write fd text) with
    | .error errno => do
        let msg ← strerror errno
        eprintf ("write() failed: ".toList ++ msg ++ ['\n'])
        pure (.error errno)
    | .ok n =>
        if n != text.length then do
          eprintf "write() failed: short write\n".toList
          pure (.error (.other 0))
        else pure (.ok ())

/-- Writes lines up to the first one that is too long, and returns the lines
that are left. -/
def writeHereDocumentLines (fd : Int) (maxSize : Option Nat) :
    List Word → Leaf World (Except Errno (List Word))
  | [] => pure (.ok [])
  | line :: lines => do
      match ← writeHereDocumentLine fd line maxSize with
      | .error errno => pure (.error errno)
      | .ok 0 => pure (.ok (line :: lines))
      | .ok _ => writeHereDocumentLines fd maxSize lines

def closeBoth (fds : Int × Int) : Leaf World Unit := do
  call (System.close fds.1)
  call (System.close fds.2)

def createHereDocumentFd (lines : List Word) : Leaf World (Except Errno Int) := do
  match ← call System.pipe with
  | .error errno => do
      perror "pipe".toList errno
      pure (.error errno)
  | .ok fds =>
      match ← writeHereDocumentLines fds.2 (some pipeBuf) lines with
      | .error errno => do
          closeBoth fds
          pure (.error errno)
      | .ok [] => do
          call (System.close fds.2)
          pure (.ok fds.1)
      | .ok more => do
          match ← call System.fork with
          | .error errno => do
              perror "fork".toList errno
              closeBoth fds
              pure (.error errno)
          | .ok pid =>
              if pid == 0 then do
                call (System.close fds.1)
                let written ← writeHereDocumentLines fds.2 none more
                call (System.close fds.2)
                exitProcess (if written.toOption.isSome then 0 else 1)
              else do
                call (System.close fds.2)
                pure (.ok fds.1)

/-! ## Redirections -/

def parseFd (str : Str) : Except Errno Int :=
  let scanned := strtol 10 str
  if scanned.outOfRange then .error .erange
  else if !scanned.rest.isEmpty then .error .einval
  else if toInt32 scanned.value < 0 then .error (.other 0)
  else .ok (toInt32 scanned.value)

def defaultRedirFd : IoRedirectOp → Int
  | .great | .clobber | .dgreat | .greatand => stdoutFileno
  | .less | .lessand | .lessgreat | .dless | .dlessdash => stdinFileno

def openRedirect (redir : IoRedirect) (filename : Str) : Leaf World (Except Errno Int) :=
  match redir.op with
  | .less => call (System.openFile filename .readOnly)
  | .great | .clobber => call (System.openFile filename .truncate)
  | .dgreat => call (System.openFile filename .append)
  | .lessand | .greatand => pure (parseFd filename)
  | .lessgreat => call (System.openFile filename .readWrite)
  | .dless | .dlessdash => createHereDocumentFd redir.hereDocument

/-- The descriptor that was opened and the one it is for. -/
def processRedir (redir : IoRedirect) : Leaf World (Option (Int × Int)) := do
  let filename ← orCrash (mrshWordStr redir.name)
  match ← openRedirect redir filename with
  | .error errno => do
      let msg ← strerror errno
      eprintf ("cannot open ".toList ++ filename ++ ": ".toList ++ msg ++ ['\n'])
      pure none
  | .ok fd => pure (some (fd, if redir.ioNumber < 0 then defaultRedirFd redir.op else redir.ioNumber))

end

end Mrsh
