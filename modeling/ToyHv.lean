import ToyHv.Emulation.Locks
import ToyHv.Emulation.Registers
import ToyHv.Handles.Mbr
import ToyHv.Handles.Opens
import ToyHv.Handles.Reads
import ToyHv.Handles.RoundTrip
import ToyHv.Handles.Seeks
import ToyHv.Handles.Table
import ToyHv.Lists.MmuRanges
import ToyHv.Lists.Ranges
import ToyHv.Memory.Swizzle
import ToyHv.Monitor.Editing
import ToyHv.Monitor.Output
import ToyHv.Monitor.Stopping
import ToyHv.Rom.Listings
import ToyHv.Rom.Names
import ToyHv.Rom.Refusals
import ToyHv.Translation.Segments
import ToyHv.Tree.Aliases
import ToyHv.Vm.Coherence
