import PiOS.Proof.Descriptor
import PiOS.Proof.Signals
import PiOS.Proof.Safety
import PiOS.Proof.Handler
import PiOS.Proof.Drivers
import PiOS.Proof.MessageQueue
import PiOS.Proof.ExitStatus
import PiOS.Proof.UserContext
import PiOS.Proof.RoundRobin
import PiOS.Proof.Semaphore
import PiOS.Proof.BlockingQueue
import PiOS.Proof.Devices
import PiOS.Proof.Requests
import PiOS.Proof.Clock
import PiOS.Proof.ProcInfo
import PiOS.Proof.ReceiveBuffer
import PiOS.Proof.MqDelivery
import PiOS.Proof.ZeroFill
import PiOS.Proof.Alarms
import PiOS.Proof.LineBuffer
import PiOS.Proof.KbdList
import PiOS.Proof.ElfRobust
import PiOS.Proof.LibcHeap
import PiOS.Proof.TmpFiles
import PiOS.Proof.ArchiveScan
import PiOS.Proof.FormatAgree
import PiOS.Proof.FormatEnd
import PiOS.Proof.OwnPages
import PiOS.Proof.RingInterrupt
import PiOS.Proof.Seek
import PiOS.Proof.Keyboard
import PiOS.Proof.HeapArray
import PiOS.Proof.BlockqCalls
import PiOS.Proof.VgaScreen
import PiOS.Proof.PageStable
import PiOS.Proof.RootPaths
