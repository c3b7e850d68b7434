import Etaos.Crt.Calendar
import Etaos.Mm.Partition
import Etaos.Time.OnTime
import Etaos.Fs.ByteFile
import Etaos.Fs.OpenClose
import Etaos.Fs.Tree
import Etaos.Sched.IrqThread
import Etaos.Sched.Signal
import Etaos.Sched.EventWait
import Etaos.Sched.Mutex
import Etaos.Sched.Semaphore
import Etaos.Sched.Ipm
import Etaos.Sched.ConditionSpec
import Etaos.Sched.Edf
import Etaos.Sched.Lottery
import Etaos.Sched.RoundRobin
import Etaos.Lib.XorList
import Etaos.Mm.Policy
import Etaos.Time.Periodic
import Etaos.Drivers.Eeprom
import Etaos.Drivers.I2c
import Etaos.Drivers.Spi
import Etaos.Fs.Romfs
import Etaos.Sched.Clock
import Etaos.Sched.LotteryDraw
import Etaos.Sched.FindThread
import Etaos.Crt.Printf
import Etaos.Crt.Dst
import Etaos.Mm.Realloc
import Etaos.Sched.Create
import Etaos.Sched.PreemptSpec
import Etaos.Fs.Split
import Etaos.Fs.Basename
import Etaos.Fs.Readdir
import Etaos.Fs.Mkdir
import Etaos.Fs.RomfsRead
import Etaos.Crt.Stricmp
import Etaos.Crt.Ltoa
import Etaos.Crt.Snprintf
import Etaos.Crt.Rand
import Etaos.Crt.Fgets
import Etaos.Sched.OneQueue
import Etaos.Drivers.Dht11
import Etaos.Drivers.Core
import Etaos.Vm.System
import Etaos.Vm.ListCopy
import Etaos.Vm.DictRun
import Etaos.Vm.DictUpdate
