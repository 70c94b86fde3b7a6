import Survol.Lib.Decimal

/-!
# The singleton of a sub-server

A sub-server must run once. A process that wants to start it looks for a file with the pid and
the port of the one that runs; if there is none, or one of a dead process, it opens the file,
writes its own line, and reads it back to see whether another process was faster.

A process makes its file-system steps one by one, and the steps of several processes come in any
order. A file that is removed is still there for the processes that have it open.

## Main definitions

* `Files` — the file of the sub-server, and the contents of the files it has been.
* `Stage` — where a process is between two of its steps.
* `step`, `run` — a step of a process, and the steps of several ones.
-/

namespace Survol.SubServers

open PyText (Text splitOn int?)

/-- The ports of the sub-servers. -/
def portDict : List (String × ℕ) :=
  [("tcpdump", 1111), ("psutil_processes_perf", 2222), ("sockets_promiscuous_mode", 3333),
   ("win_directory_changes", 4444), ("iostat_all_disks", 5555)]

/-- The file of a sub-server: which file its name stands for, and what each file contains. -/
structure Files where
  path : Option ℕ
  contents : ℕ → Text
  fresh : ℕ

/-- Where a process is. -/
inductive Stage
  /-- Before the test of existence. -/
  | begin
  /-- The file exists, and is opened for reading. -/
  | opening
  /-- The first line of the file is read. -/
  | reading (fd : ℕ)
  /-- The process of the file is dead, and the file is removed. -/
  | removing
  /-- Nothing runs: the file is opened and truncated for writing. -/
  | starting
  /-- The line of the process is written. -/
  | writing (fd : ℕ)
  /-- The first line is read back. -/
  | readingBack (fd : ℕ)
  /-- `GetRunning` is true. -/
  | running
  /-- `SetRunning` returned `True`. -/
  | won
  /-- `SetRunning` returned `False`. -/
  | lost
  /-- An exception was raised. -/
  | failed
  deriving DecidableEq

/-- The files, and the stage of each process. -/
structure World where
  files : Files
  stage : ℕ → Stage

/-- The line of a process. -/
def line (pid port : ℕ) : Text := Nat.toDigits 10 pid ++ ' ' :: Nat.toDigits 10 port ++ ['\n']

/-- The first line of a text. -/
def readline (s : Text) : Text :=
  s.takeWhile (· ≠ '\n') ++ if '\n' ∈ s then ['\n'] else []

/-- The pid and the port of the first line; `none` where an exception is raised. -/
def readServer (s : Text) : Option (ℤ × ℤ) :=
  match splitOn ' ' (readline s) with
  | pidText :: portText :: _ => match int? pidText, int? portText with
    | some pid, some port => some (pid, port)
    | _, _ => none
  | _ => none

/-- A text is written at the start of a file. -/
def overwrite (s old : Text) : Text := s ++ old.drop s.length

section Steps

variable (pidExists : ℕ → Bool) (removeErrorCaught : Bool) (port : Option ℕ)

/-- `psutil.pid_exists`. -/
def pid_exists : ℤ → Bool
  | .ofNat pid => pidExists pid
  | .negSucc _ => false

/-- The first line is read in `__init__`. If there is no pid or no port, the second attempt
seeks in the file that the first one has closed, which raises an exception. -/
def readStage (content : Text) : Stage :=
  match readServer content with
  | none => .failed
  | some (pid, _) => if pid_exists pidExists pid then .running else .removing

/-- The files after they are opened for writing, and the file that was opened. -/
def Files.openForWriting (f : Files) : Files × ℕ :=
  match f.path with
  | some fd => ({ f with contents := Function.update f.contents fd [] }, fd)
  | none => (⟨some f.fresh, Function.update f.contents f.fresh [], f.fresh + 1⟩, f.fresh)

/-- The line of another process, or its port, is read back, or none at all. -/
def readBackStage (pid port : ℕ) (content : Text) : Stage :=
  match readServer content with
  | none => .failed
  | some (pidSubSrvAlt, portNumberAlt) =>
    if (pid : ℤ) ≠ pidSubSrvAlt ∨ (port : ℤ) ≠ portNumberAlt then .lost else .won

/-- The files, and the stage of the process `pid`, after its next step. -/
def stepStage (pid : ℕ) (f : Files) : Stage → Files × Stage
  | .begin => (f, if f.path.isSome then .opening else .starting)
  | .opening => match f.path with
    | some fd => (f, .reading fd)
    | none => (f, .starting)
  | .reading fd => (f, readStage pidExists (f.contents fd))
  | .removing => match f.path with
    | some _ => ({ f with path := none }, .starting)
    | none => (f, if removeErrorCaught then .starting else .failed)
  | .starting => match port with
    | some _ => (f.openForWriting.1, .writing f.openForWriting.2)
    | none => (f.openForWriting.1, .failed)
  | .writing fd => match port with
    | some port => ({ f with
        contents := Function.update f.contents fd (overwrite (line pid port) (f.contents fd)) },
        .readingBack fd)
    | none => (f, .failed)
  | .readingBack fd => match port with
    | some port => (f, readBackStage pid port (f.contents fd))
    | none => (f, .failed)
  | stage => (f, stage)

/-- A step of a process; a dead process makes none. -/
def step (w : World) (pid : ℕ) : World :=
  if pidExists pid then
    let r := stepStage pidExists removeErrorCaught port pid w.files (w.stage pid)
    ⟨r.1, Function.update w.stage pid r.2⟩
  else w

/-- The steps of several processes, in the given order. -/
def run (w : World) (order : List ℕ) : World :=
  order.foldl (step pidExists removeErrorCaught port) w

end Steps

/-- No process has begun; a file may be there, with any content. -/
def begin (content : Option Text) : World :=
  ⟨⟨content.map fun _ => 0, fun _ => content.getD [], 1⟩, fun _ => .begin⟩

end Survol.SubServers
