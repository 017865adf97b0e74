import LinuxStudy.Fs.FormatOwned
import LinuxStudy.Fs.FormatServed
import LinuxStudy.Fs.OpenTable
import LinuxStudy.Fs.Path
import LinuxStudy.Fs.Trim
import LinuxStudy.Hurlex.HeapRun
import LinuxStudy.Jos.Console
import LinuxStudy.Jos.EnvIds
import LinuxStudy.Jos.FaultFrame
import LinuxStudy.Jos.IpcPage
import LinuxStudy.Jos.KernelHalf
import LinuxStudy.Jos.Mmio
import LinuxStudy.Jos.RefWrap
import LinuxStudy.Jos.SchedYield
import LinuxStudy.Jos.Transmit
import LinuxStudy.Jos.UpcallFrame
import LinuxStudy.Jos.UpcallReturn
import LinuxStudy.Net.Input
import LinuxStudy.Net.Mbox
import LinuxStudy.User.Args
import LinuxStudy.User.Dup
import LinuxStudy.User.Httpd
import LinuxStudy.User.PipeClosed
import LinuxStudy.User.PipeWrap
import LinuxStudy.User.Printfmt
import LinuxStudy.User.Readline
import LinuxStudy.User.Reclaim
import LinuxStudy.User.Spawn
