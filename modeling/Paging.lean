import Paging.CommandLine.FileTree.Scratch
import Paging.Engine.Dispatch
import Paging.Main
import Paging.Proofs.CommandRuns
import Paging.Proofs.Elsewhere
import Paging.Proofs.Flushing
import Paging.Proofs.Positional
import Paging.Proofs.Serial
import Paging.Proofs.SharedSpaces
import Paging.Proofs.Tables
import Paging.Proofs.Visibility
import Paging.Schedule
import Paging.Proofs.Agreement
import Paging.Proofs.FrameNumbers
import Paging.Proofs.PatchCalls
import Paging.Proofs.MemoryTypeSlots
import Paging.Proofs.Retyping
import Paging.Proofs.Accepting
import Paging.Proofs.PageTransfer
import Paging.Proofs.WordPlaces
import Paging.Proofs.Allocation
import Paging.Proofs.SlotHistory
import Paging.Proofs.Strategies
import Paging.Proofs.Numerals
import Paging.Proofs.DumpReading
import Paging.Proofs.PageDumps
