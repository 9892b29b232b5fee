import Mp3Kernel.Basis.Past
import Mp3Kernel.Basis.Stacks
import Mp3Kernel.Basis.Machine
import Mp3Kernel.Basis.Cycle
import Mp3Kernel.Strings
import Mp3Kernel.FileSystem
import Mp3Kernel.Devices
import Mp3Kernel.Descriptors
import Mp3Kernel.Paging
import Mp3Kernel.Kernel
import Mp3Kernel.Layout
import Mp3Kernel.Steps
import Mp3Kernel.Forest
import Mp3Kernel.System
import Mp3Kernel.Context
import Mp3Kernel.ExitStatus
import Mp3Kernel.Sessions
import Mp3Kernel.Creation
import Mp3Kernel.Streaming
import Mp3Kernel.Isolation
import Mp3Kernel.Arguments
import Mp3Kernel.RoundRobin
import Mp3Kernel.Directory
import Mp3Kernel.AddressSpace
import Mp3Kernel.Clock
import Mp3Kernel.Basis.Loop
import Mp3Kernel.Screen
import Mp3Kernel.Keyboard
import Mp3Kernel.Page
import Mp3Kernel.Cursor
import Mp3Kernel.Modifiers
import Mp3Kernel.Display
import Mp3Kernel.Lines
import Mp3Kernel.Content
import Mp3Kernel.Input
import Mp3Kernel.Discipline
import Mp3Kernel.Lookup
import Mp3Kernel.Commands
import Mp3Kernel.Reads
import Mp3Kernel.Closing
import Mp3Kernel.Splitting
import Mp3Kernel.Masks
import Mp3Kernel.Rates
import Mp3Kernel.Basis.Assembly
import Mp3Kernel.Blocks
import Mp3Kernel.Numerals
import Mp3Kernel.Formats
import Mp3Kernel.Loading
import Mp3Kernel.Containment
import Mp3Kernel.Basis.Roll
import Mp3Kernel.Reference
import Mp3Kernel.Undo
import Mp3Kernel.Degenerate
import Mp3Kernel.Basis.Interrupts
import Mp3Kernel.Linkage
import Mp3Kernel.Switching
import Mp3Kernel.Accounting
import Mp3Kernel.Programs
import Mp3Kernel.Grep
import Mp3Kernel.Frames
import Mp3Kernel.Basis.Fields
import Mp3Kernel.Gates
import Mp3Kernel.Pointers
import Mp3Kernel.Basis.Controller
import Mp3Kernel.Controllers
import Mp3Kernel.Shell
