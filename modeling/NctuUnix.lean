import NctuUnix.Lib.Run
import NctuUnix.Lib.Bytes
import NctuUnix.Lib.Trap
import NctuUnix.Lib.Radix
import NctuUnix.Lib.Taken
import NctuUnix.Lib.CString
import NctuUnix.Lib.Erase
import NctuUnix.Lib.Leftover
import NctuUnix.Lib.ProcMaps
import NctuUnix.Lib.Getopt
import NctuUnix.Lib.Ecma
import NctuUnix.Lib.Amd64
import NctuUnix.Lib.Bubble
import NctuUnix.Lib.Undo
import NctuUnix.Lib.OStream
import NctuUnix.Lib.Listing
import NctuUnix.Lib.Emulator
import NctuUnix.Lib.CallText
import NctuUnix.Hw1.Print
import NctuUnix.Hw1.Scan
import NctuUnix.Hw1.Answers
import NctuUnix.Hw1.Independent
import NctuUnix.Hw1.Fds
import NctuUnix.Hw1.Command
import NctuUnix.Hw1.Maps
import NctuUnix.Hw1.Dumpinfo
import NctuUnix.Hw1.GetMaps
import NctuUnix.Hw1.Links
import NctuUnix.Hw1.Descriptors
import NctuUnix.Hw1.Restore
import NctuUnix.Hw1.Columns
import NctuUnix.Hw1.Options
import NctuUnix.Hw1.Contains
import NctuUnix.Hw2.Intercept
import NctuUnix.Hw2.Launch
import NctuUnix.Hw2.Record
import NctuUnix.Hw3.Asm
import NctuUnix.Hw3.Sigset
import NctuUnix.Hw3.Setjmp
import NctuUnix.Hw3.Longjmp
import NctuUnix.Hw3.Perror
import NctuUnix.Hw3.Sleep
import NctuUnix.Hw3.Wrappers
import NctuUnix.Hw3.Signal
import NctuUnix.Hw4.Spec
import NctuUnix.Hw4.Tiny
import NctuUnix.Hw4.BpList
import NctuUnix.Hw4.Lifecycle
import NctuUnix.Hw4.Text
import NctuUnix.Hw4.Stray
import NctuUnix.Hw4.Saved
import NctuUnix.Hw4.Complete
import NctuUnix.Hw4.Transparent
import NctuUnix.Hw4.MainLoop
import NctuUnix.Hw4.Stop
import NctuUnix.Hw4.Resume
import NctuUnix.Hw4.Local
import NctuUnix.Hw4.Ids
import NctuUnix.Hw4.Loader
import NctuUnix.Hw4.Image
import NctuUnix.Hw4.Vmmap
import NctuUnix.Hw4.Undo
import NctuUnix.Hw4.Screen
import NctuUnix.Asm.Traps
import NctuUnix.Asm.Bubble
import NctuUnix.Asm.Recur
import NctuUnix.Asm.Loop15
import NctuUnix.Asm.Lower
import NctuUnix.Asm.Dispbin
import NctuUnix.Asm.Math
