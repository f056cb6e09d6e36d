import Ruos.Vfs.Fd
import Ruos.Vfs.TmpfsRuns
import Ruos.Vfs.Mounts
import Ruos.Gpt.RoundTrip
import Ruos.Memory.FrameRuns
import Ruos.Memory.MagazineRuns
import Ruos.Pipe
import Ruos.Pty.Lines
import Ruos.Pty.ResidueSeen
import Ruos.Pty.SessionsRuns
import Ruos.Service.StopsRuns
import Ruos.Service.Activated
import Ruos.Wakes
import Ruos.Wasm.Pipelines
import Ruos.Wasm.ThreadGroups
import Ruos.Wasm.FutexRuns
import Ruos.Smp.InboxRuns
import Ruos.Executor.DelayRuns
import Ruos.Gzip.Pack
import Ruos.Console.CursorRuns
import Ruos.Wifi.HandshakeRuns
import Ruos.Fat.Chains
import Ruos.Net.SocketRuns
import Ruos.Net.TxRuns
import Ruos.Paging.FrameRelease
import Ruos.Fat.RecordsSeen
import Ruos.Fat.Failures
import Ruos.Wm.Iterations
import Ruos.Wm.Wake
import Ruos.Mesh.History
import Ruos.Wasm.DemandRegistry
import Ruos.Service.Timers
import Ruos.Kevent
import Ruos.Wasm.Wakeups
import Ruos.Wasm.ReadDir
import Ruos.Wasm.Confined
import Ruos.Power
import Ruos.Keyboard
import Ruos.Nano
import Ruos.Klog
import Ruos.Find
import Ruos.Gzip.CrcRemainder
