/-!
# Kernel parameters (`param.h`)

The compile-time limits of the kernel. They are plain definitions; proofs unfold them where the
numbers matter.
-/

namespace Xv6

/-- Maximum number of processes. -/
def NPROC : Nat := 64
/-- Maximum number of CPUs. -/
def NCPU : Nat := 8
/-- Open files per process. -/
def NOFILE : Nat := 16
/-- Open files per system. -/
def NFILE : Nat := 100
/-- Maximum number of active i-nodes. -/
def NINODE : Nat := 50
/-- Maximum major device number. -/
def NDEV : Nat := 10
/-- Device number of the file-system root disk. -/
def ROOTDEV : Nat := 1
/-- Maximum number of `exec` arguments. -/
def MAXARG : Nat := 32
/-- Maximum number of blocks any file-system operation writes. -/
def MAXOPBLOCKS : Nat := 10
/-- Maximum number of data blocks in the on-disk log. -/
def LOGSIZE : Nat := MAXOPBLOCKS * 3
/-- Size of the disk block cache. -/
def NBUF : Nat := MAXOPBLOCKS * 3
/-- Size of the file system in blocks. -/
def FSSIZE : Nat := 1000

end Xv6
