import PlayXv6.Fs.CrashRun
import PlayXv6.Sys.OpenAccess
import PlayXv6.Fs.Agreement
import PlayXv6.Fs.Recycle
import PlayXv6.Vm.Space
import PlayXv6.Ipc.PipeWake
import PlayXv6.Ipc.PollWake
import PlayXv6.Proc.SignalFrame
import PlayXv6.Proc.SignalMask
import PlayXv6.Proc.TreeWake
import PlayXv6.Sys.ConfineCalls
import PlayXv6.Exec.Integrity
import PlayXv6.Fs.LogWake
import PlayXv6.Hal.Refine
import PlayXv6.Mm.HeapRun
import PlayXv6.Driver.VirtioRun
import PlayXv6.Net.UnixRoute
import PlayXv6.Sys.NameTreeRun
import PlayXv6.Sys.SharedRun
import PlayXv6.Vm.LazyPaths
import PlayXv6.Vm.Regions
import PlayXv6.Proc.SignalNext
import PlayXv6.Net.Ports
import PlayXv6.User.Printf
import PlayXv6.Time.Alarms
