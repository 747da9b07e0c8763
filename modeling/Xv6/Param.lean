/-
The constants of kernel/param.h and kernel/fs.h that the models share.
-/
import Mathlib.Init

namespace Xv6

def NPROC : Nat := 64
def NINODE : Nat := 50
def MAXARG : Nat := 32
def MAXOPBLOCKS : Nat := 10
def LOGSIZE : Nat := MAXOPBLOCKS * 3
def USERSTACK : Nat := 1

def ROOTINO : Nat := 1
def BSIZE : Nat := 1024

end Xv6
