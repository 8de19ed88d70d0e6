import BojanOS.Lib.Loop
import BojanOS.Kheap
import BojanOS.Vfs.Basic
import BojanOS.Lib.PointerForest
import BojanOS.Lib.Trace
import BojanOS.Vfs.Shape
import BojanOS.Vfs.Init
import BojanOS.Vfs.Remove
import BojanOS.Vfs.Runs
import BojanOS.Vfs.Contents
import BojanOS.Shell.State
import BojanOS.Shell.Tokenize
import BojanOS.Vfs.Lookup
import BojanOS.Vfs.Appends
import BojanOS.Shell.Words
import BojanOS.Shell.InPlace
import BojanOS.Shell.TokenizeOk
import BojanOS.Shell.Pipeline
import BojanOS.Shell.ExecLine
import BojanOS.Shell.LineText
import BojanOS.Shell.Operators
import BojanOS.Shell.Spacing
import BojanOS.Shell.Pipes
import BojanOS.KheapRuns
import BojanOS.Shell.Calls
import BojanOS.Shell.Lexemes
import BojanOS.Shell.Quoting
import BojanOS.Shell.RedirSpacing
import BojanOS.Shell.Argv
import BojanOS.Shell.Redirs
import BojanOS.Cmds.Print
import BojanOS.Shell.Output
import BojanOS.Cmds.Text
import BojanOS.Vfs.FreshHeap
import BojanOS.Shell.Session
import BojanOS.Shell.CtrlC
import BojanOS.Vfs.Named
import BojanOS.Cmds.Files
import BojanOS.Cmds.WorkingDir
import BojanOS.Cmds.Move
import BojanOS.Cmds.Copy
import BojanOS.Lib.CString
import BojanOS.Cmds.PathArrays
import BojanOS.Cmds.DeepPaths
import BojanOS.Lib.Bytes
import BojanOS.Lib.PageWalk
import BojanOS.Lib.Ring
import BojanOS.Dev.Keyboard
import BojanOS.Dev.Modifiers
import BojanOS.Dev.Vga
import BojanOS.Boot.MemoryMap
import BojanOS.Boot.Paging
import BojanOS.Boot.Image
import BojanOS.Boot.ElTorito
import BojanOS.Boot.Loader
import BojanOS.Vfs.Paths
import BojanOS.Vfs.RemoveTree
import BojanOS.Cmds.Input
import BojanOS.Cmds.Remove
import BojanOS.Cmds.Sort
import BojanOS.Cmds.SortNum
import BojanOS.Cmds.SortOptions
import BojanOS.Cmds.Uniq
import BojanOS.Cmds.Tail
import BojanOS.Cmds.Diff
import BojanOS.Cmds.Grep
import BojanOS.Cmds.DiffVerdict
import BojanOS.Cmds.Factor
import BojanOS.Cmds.Glob
import BojanOS.Shell.Printf
import BojanOS.Shell.History
import BojanOS.Shell.LineEditor
import BojanOS.Shell.Echo
import BojanOS.Boot.MapWalks
import BojanOS.Cmds.InFile
import BojanOS.Cmds.Snapshot
import BojanOS.Cmds.Find
import BojanOS.Lib.Calendar
import BojanOS.Cmds.Cal
import BojanOS.Cmds.Date
import BojanOS.Cmds.Ls
import BojanOS.Cmds.Sleep
import BojanOS.Cmds.SplitLines
import BojanOS.Cmds.ReadAll
import BojanOS.Dev.Rtc
import BojanOS.Dev.Frames
import BojanOS.Dev.Accounts
import BojanOS.Cmds.Usage
import BojanOS.Vfs.HeapEnd
import BojanOS.Vfs.PathOps
import BojanOS.Cmds.Services
import BojanOS.Shell.Soundness
