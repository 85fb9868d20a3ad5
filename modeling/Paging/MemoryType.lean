/-!
# Memory types by name

Caching policies as the slots of the x86_64 PAT and the AArch64 MAIR hold them, and the identifiers
of T-Head cores: the position of an attribute bit, with `set` added to ask for the bit to be set and
not cleared.
-/

namespace Paging.MemoryType

namespace Pat

def register : UInt32 := 0x277

def uncacheable : UInt8 := 0

def writeCombining : UInt8 := 1

def writeThrough : UInt8 := 4

def writeProtected : UInt8 := 5

def writeBack : UInt8 := 6

/-- Uncached unless a range register says otherwise. -/
def weaklyUncacheable : UInt8 := 7

end Pat

namespace Mair

/-- Normal memory that neither the inner nor the outer domain caches. -/
def nonCacheable : UInt8 := 0x44

def writeThrough : UInt8 := 0xbb

def writeBack : UInt8 := 0xff

end Mair

namespace THead

def strongOrder : UInt8 := 63

def cacheable : UInt8 := 62

def bufferable : UInt8 := 61

def shareable : UInt8 := 60

def set : UInt8 := 0x80

/-- The part of an identifier that is the position. -/
def position : UInt8 := 0x3f

end THead

end Paging.MemoryType
