import DunitOS.Fs.DunitFs.Fsck
import DunitOS.Fs.DunitFs.Reference
import DunitOS.Fs.MemFs.Handles
import DunitOS.Fs.Listing
import DunitOS.Fs.Protected
import DunitOS.Storage.GptRoundTrip
import DunitOS.Gui.Ownership
import DunitOS.Gui.Frames
import DunitOS.Gui.Configure
import DunitOS.Gui.Barrier
import DunitOS.Memory.Frames
import DunitOS.Memory.HeapSound
import DunitOS.Memory.SpaceRuns
import DunitOS.Kernel.WriteXorExecute
import DunitOS.Kernel.Exclusive
import DunitOS.Kernel.ReadOnly
import DunitOS.Kernel.InitialStack
import DunitOS.Kernel.Reading
import DunitOS.Kernel.Pty
import DunitOS.Kernel.Join
import DunitOS.Kernel.ElfHeader
import DunitOS.Kernel.HangUp
import DunitOS.Kernel.Keyboard
import DunitOS.Gui.Conformance
import DunitOS.Gui.Limits
import DunitOS.Gui.Budget
import DunitOS.Compositor.Windows
import DunitOS.Kernel.Mouse
import DunitOS.Style.Cascade
