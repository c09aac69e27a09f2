import ZanOS.Boot.Reset
import ZanOS.Ethernet.Interrupt
import ZanOS.Ethernet.Output
import ZanOS.Ethernet.Receive
import ZanOS.Ethernet.Send
import ZanOS.Foundation.Agenda
import ZanOS.Foundation.Assoc
import ZanOS.Foundation.Buffer
import ZanOS.Foundation.ByteSum
import ZanOS.Foundation.FirstFit
import ZanOS.Foundation.Flat
import ZanOS.Foundation.Machine
import ZanOS.Foundation.Memory
import ZanOS.Foundation.Numeral
import ZanOS.Foundation.OnesComplement
import ZanOS.Foundation.Pieces
import ZanOS.Foundation.Radix
import ZanOS.Foundation.Word
import ZanOS.Http.Accounting
import ZanOS.Http.Client
import ZanOS.Http.Delivery
import ZanOS.Http.Request
import ZanOS.Http.Transmit
import ZanOS.Kernel.Atoi
import ZanOS.Kernel.Clock
import ZanOS.Kernel.Heap
import ZanOS.Kernel.Move
import ZanOS.Kernel.Strings
import ZanOS.Lwip.Address
import ZanOS.Lwip.Blocks
import ZanOS.Lwip.Chksum
import ZanOS.Lwip.Mem
import ZanOS.Lwip.MemOps
import ZanOS.Lwip.MemRun
import ZanOS.Lwip.Pbuf
import ZanOS.Lwip.Schedule
import ZanOS.Lwip.Timeouts
import ZanOS.Lwip.TimerRun
import ZanOS.Net.Arp
import ZanOS.Net.Bounds
import ZanOS.Net.Checksum
import ZanOS.Net.Packet
import ZanOS.Net.Ping
import ZanOS.Shell.Answers
import ZanOS.Shell.Console
import ZanOS.Shell.Curl
import ZanOS.Shell.Dispatch
import ZanOS.Shell.Editor
import ZanOS.Shell.Getline
import ZanOS.Shell.Host
import ZanOS.Shell.Language
import ZanOS.Shell.Lines
import ZanOS.Shell.Loop
import ZanOS.Storage.Bookkeeping
import ZanOS.Storage.Catalog
import ZanOS.Storage.History
import ZanOS.Storage.Listing
import ZanOS.Storage.Ramdisk
import ZanOS.Uart.Numbers
import ZanOS.Uart.Printf
