import BojanOS.Cmds.Cal
import BojanOS.Cmds.Files
import BojanOS.Shell.Session

/-!
# The small commands (`cmds.c`)

What they print comes from a few variables of other files, which are parameters here. `poweroff`
and `reboot` do not return, so there is no state behind them. The colours of `about` are left out,
and so are the screen that `clear` empties and `shell_hostname`, which nothing but `hostname` and
the prompt reads.
-/

namespace BojanOS

open Prog

/-! ## Files -/

def cmdPwd (_ : List (List Char)) : Prog Int := do
  let v ← vfs
  puts v.pwd
  shPutc '\n'
  pure 0

/-- Each line reads the node as it is then. -/
def cmdStat (argv : List (List Char)) : Prog Int :=
  if argv.length < 2 then fail "stat: missing operand\n"
  else do
    let path := argv.getD 1 []
    let v ← vfs
    match v.vfsResolve path with
    | none => do
      puts ("stat: ".toList ++ path ++ ": no such file or directory\n".toList)
      pure 1
    | some n => do
      putf "  File: %s\n".toList [.str (some path)]
      let v ← vfs
      let isDir := (v.node n).type = .dir
      putf "  Size: %-10u Type: %s\n".toList [.num (.int (BitVec.ofNat 32 (v.node n).size)),
        .str (some (if isDir then "directory".toList else "regular file".toList))]
      putf "  Access: (%s)  Uid: 0   Gid: 0\n".toList
        [.str (some (if isDir then "0755/drwxr-xr-x".toList else "0644/-rw-r--r--".toList))]
      pure 0

def cmdBasename (argv : List (List Char)) : Prog Int :=
  if argv.length < 2 then pure 1
  else do
    puts (vfsBasename (argv.getD 1 []))
    shPutc '\n'
    pure 0

def cmdDirname (argv : List (List Char)) : Prog Int :=
  if argv.length < 2 then pure 1
  else
    let buf := (argv.getD 1 []).take (PATH_MAX - 1)
    match strrchr buf '/' with
    | none => do
      puts ".\n".toList
      pure 0
    | some slash =>
      if slash = 0 then do
        puts "/\n".toList
        pure 0
      else do
        let buf := buf.take slash
        puts (if buf = [] then ['/'] else buf)
        shPutc '\n'
        pure 0

/-! ## The machine -/

def cmdDf (_ : List (List Char)) : Prog Int := do
  puts "Filesystem     Size    Used   Avail Use% Mounted on\n".toList
  let v ← vfs
  let kilobytes (n : Nat) : PrintfArg := .num (.int (BitVec.ofNat 32 (n / 1024)))
  let heap := v.ram.heap
  putf "ramfs       %6uK %6uK %6uK  %u%% /\n".toList [kilobytes heap.total, kilobytes heap.used,
    kilobytes ((heap.total + 2 ^ 64 - heap.used) % 2 ^ 64), .num (.int (BitVec.ofNat 32
      (if heap.total = 0 then 0 else heap.used * 100 % 2 ^ 64 / heap.total)))]
  pure 0

def cmdFree (totalMemKb : BitVec 32) (_ : List (List Char)) : Prog Int := do
  puts "              total        used        free\n".toList
  let v ← vfs
  let used := BitVec.ofNat 32 (v.ram.heap.used / 1024)
  putf "Mem:       %8uK   %8uK   %8uK\n".toList [.num (.int totalMemKb), .num (.int used),
    .num (.int (if used < totalMemKb then totalMemKb - used else 0))]
  puts "Swap:             0            0            0\n".toList
  pure 0

def cmdUname (argv : List (List Char)) : Prog Int := do
  let all := (argv.drop 1).any fun w => w.head? = some '-' ∧ 'a' ∈ w.drop 1
  puts (if all then "BojanOS 1.0 bojanos x86_64 GNU/BojanOS\n".toList else "BojanOS\n".toList)
  pure 0

def cmdHostname (hostname : List Char) (argv : List (List Char)) : Prog Int :=
  if 2 ≤ argv.length then pure 0
  else do
    puts hostname
    shPutc '\n'
    pure 0

/-- `uptimeMs` is what `timer_uptime_ms` returns. -/
def cmdUptime (uptimeMs : BitVec 64) (_ : List (List Char)) : Prog Int := do
  let s := uptimeMs.toNat / 1000
  let num (n : Nat) : PrintfArg := .num (.int (BitVec.ofNat 32 n))
  putf (" %02u:%02u:%02u up %u:%02u,  1 user,".toList ++
      "  load average: 0.00, 0.00, 0.00\n".toList)
    [num (s / 3600 % 24), num (s / 60 % 60), num (s % 60), num (s / 3600), num (s / 60 % 60)]
  pure 0

def cmdLscpu (cpuVendor : List Char) (_ : List (List Char)) : Prog Int := do
  puts "Architecture:        x86_64\n".toList
  puts "CPU(s):              1\n".toList
  putf "Model name:          %s\n".toList [.str (some cpuVendor)]
  puts "CPU mode:            64-bit\n".toList
  pure 0

/-! ## The shell -/

/-- A line of a text that has no arguments. -/
def cmdText (lines : List String) (_ : List (List Char)) : Prog Int := do
  lines.forM fun line => puts line.toList
  pure 0

def cmdHelp : List (List Char) → Prog Int := cmdText [
  "Built-in commands:\n",
  "  help about ls ll dir cd pwd mkdir rmdir rm touch cp mv\n",
  "  cat head tail wc sort uniq diff grep find tree stat\n",
  "  echo printf rev nl tee basename dirname df du free\n",
  "  date cal uptime sleep seq factor history\n",
  "  uname hostname whoami id lscpu clear\n",
  "  true false test [ exit reboot poweroff\n",
  "Operators: >  >>  <  |  $?  ~\n"]

def cmdAbout (cpuVendor : List Char) (totalMemKb : BitVec 32) (argv : List (List Char)) :
    Prog Int := do
  let _ ← cmdText [
    "  ____  ___      _           ___  ____\n",
    " | __ )/ _ \\ __ | | __ _ _ _/ _ \\/ ___|\n",
    " |  _ \\ | | |  \\| |/ _` | '_| | | \\___ \\\n",
    " | |_) | |_| | |  | (_| | | | |_| |___) |\n",
    " |____/ \\___/|_|\\_|\\__,_|_|  \\___/|____/\n\n",
    "BojanOS 1.0 - a 64-bit operating system written from scratch\n",
    "  own bootloader, long-mode kernel, drivers, filesystem and shell\n"] argv
  putf "  CPU: %s   Memory: %u KB\n".toList [.str (some cpuVendor), .num (.int totalMemKb)]
  puts "Type 'help' for commands.\n".toList
  pure 0

def cmdWhoami : List (List Char) → Prog Int := cmdText ["root\n"]

def cmdId : List (List Char) → Prog Int := cmdText ["uid=0(root) gid=0(root) groups=0(root)\n"]

/-- The screen is not part of the shell. -/
def cmdClear : List (List Char) → Prog Int := cmdText []

def cmdTrue (_ : List (List Char)) : Prog Int := pure 0

def cmdFalse (_ : List (List Char)) : Prog Int := pure 1

/-- A message, and a function that does not return. -/
def cmdHalt (message : String) (_ : List (List Char)) : Prog Int := do
  puts message.toList
  .fault

def cmdExit : List (List Char) → Prog Int := cmdHalt "logout\n"

def cmdReboot : List (List Char) → Prog Int := cmdHalt "rebooting...\n"

def cmdPoweroff : List (List Char) → Prog Int :=
  cmdHalt "System halted. You can power off the VM.\n"

/-- The loop of `cmd_history` from entry `i` on. -/
def historyLoop : Nat → List (Option (List Char)) → Prog Unit
  | _, [] => pure ()
  | i, text :: history => do
    putf "%4d  %s\n".toList [.num (.int (BitVec.ofNat 32 (i + 1))), .str text]
    historyLoop (i + 1) history

def cmdHistory (history : List (Option (List Char))) (_ : List (List Char)) : Prog Int := do
  historyLoop 0 history
  pure 0

end BojanOS
