import SystemInterface.Lib.Flags

/-!
# SystemInterface — file descriptor flags

The flags of `GetSetFdFlags`, which are the same on all systems.
-/

namespace SystemInterface

open Effect

abbrev FdFlags := Flags 32

namespace FdFlags

/-- Writes always write to the end of the file. -/
def APPEND : FdFlags := 0x01

/-- Writes complete with synchronized data. -/
def DSYNC : FdFlags := 0x02

/-- Operations that cannot go on at once fail. -/
def NONBLOCK : FdFlags := 0x04

/-- Reads complete at the level of `DSYNC` and `SYNC`. -/
def RSYNC : FdFlags := 0x08

/-- Writes complete with a synchronized file. -/
def SYNC : FdFlags := 0x10

def empty : FdFlags := 0

end FdFlags

end SystemInterface
