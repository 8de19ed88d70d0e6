import BojanOS.Cmds.Date
import BojanOS.Cmds.Diff
import BojanOS.Cmds.Factor
import BojanOS.Cmds.Grep
import BojanOS.Cmds.InFile
import BojanOS.Cmds.Lines
import BojanOS.Cmds.Ls
import BojanOS.Cmds.Sleep
import BojanOS.Cmds.Status
import BojanOS.Cmds.Test
import BojanOS.Cmds.Usage

/-!
# The table of commands (`commands[]`)

All but eight of the commands leave the tree alone, and the files too, apart from the one that their
output goes to.
-/

namespace BojanOS

open Prog Vfs

/-- What the commands read from other files: the clock, the timer at each call of
`timer_uptime_ms`, `cpu_vendor`, `total_mem_kb`, `shell_hostname` and the history. `fuel` bounds
their loops over the input and over the timer, and `stack` is where `ll` has its array. -/
structure Env where
  now : RtcTime
  uptimeMs : Nat → BitVec 64
  cpuVendor : List Char
  totalMemKb : BitVec 32
  hostname : List Char
  history : List (Option (List Char))
  fuel : Nat
  stack : Args

namespace Env

variable (e : Env)

def ll (argv : List (List Char)) : Prog Int :=
  match e.stack.ofItems argv with
  | none => .fault
  | some a => llCall a e.stack

def sleep (argv : List (List Char)) : Prog Int :=
  match cmdSleep e.uptimeMs e.fuel argv with
  | none => .fault
  | some (rc, _) => pure rc

/-- `commands[]`, without the help texts. -/
def commands : List (String × (List (List Char) → Prog Int)) := [
  ("help", cmdHelp),
  ("about", cmdAbout e.cpuVendor e.totalMemKb),
  ("echo", cmdEcho),
  ("printf", cmdPrintf),
  ("clear", cmdClear),
  ("cls", cmdClear),
  ("pwd", cmdPwd),
  ("cd", cmdCd),
  ("ls", cmdLs),
  ("ll", e.ll),
  ("dir", cmdLs),
  ("mkdir", cmdMkdir),
  ("rmdir", cmdRmdir),
  ("rm", cmdRm),
  ("touch", cmdTouch),
  ("cat", InFile.cmdCat InFile.byPointer e.fuel),
  ("head", InFile.cmdHead InFile.byPointer e.fuel),
  ("tail", InFile.cmdTail InFile.byPointer e.fuel),
  ("wc", InFile.cmdWc InFile.byPointer e.fuel),
  ("grep", cmdGrep e.fuel),
  ("sort", cmdSort e.fuel),
  ("uniq", cmdUniq e.fuel),
  ("diff", cmdDiff),
  ("cp", cmdCp),
  ("mv", cmdMv),
  ("find", cmdFind),
  ("tree", cmdTree),
  ("stat", cmdStat),
  ("basename", cmdBasename),
  ("dirname", cmdDirname),
  ("rev", cmdRev e.fuel),
  ("nl", cmdNl e.fuel),
  ("tee", cmdTee e.fuel),
  ("df", cmdDf),
  ("du", cmdDu),
  ("free", cmdFree e.totalMemKb),
  ("uname", cmdUname),
  ("hostname", cmdHostname e.hostname),
  ("whoami", cmdWhoami),
  ("id", cmdId),
  ("date", fun _ => cmdDate e.now),
  ("cal", cmdCal e.now),
  ("uptime", cmdUptime (e.uptimeMs 0)),
  ("sleep", e.sleep),
  ("seq", cmdSeq),
  ("factor", cmdFactor),
  ("history", cmdHistory e.history),
  ("lscpu", cmdLscpu e.cpuVendor),
  ("true", cmdTrue),
  ("false", cmdFalse),
  ("test", cmdTest),
  ("[", cmdTest),
  ("exit", cmdExit),
  ("logout", cmdExit),
  ("halt", cmdPoweroff),
  ("poweroff", cmdPoweroff),
  ("shutdown", cmdPoweroff),
  ("reboot", cmdReboot)]

/-- `cmd_lookup` -/
def cmdLookup : Commands := fun name =>
  (e.commands.find? fun entry => entry.1.toList = name).map Prod.snd

end Env

/-- The commands that may change the tree, or a file that is not the output. -/
def changers : List String := ["cd", "mkdir", "rmdir", "rm", "touch", "cp", "mv", "tee"]

end BojanOS
