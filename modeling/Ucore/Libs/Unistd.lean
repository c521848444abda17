import Mathlib.Init

/- libs/unistd.h and libs/stat.h. -/
namespace Ucore

def O_RDONLY : Nat := 0
def O_WRONLY : Nat := 1
def O_RDWR : Nat := 2
def O_CREAT : Nat := 4
def O_EXCL : Nat := 8
def O_TRUNC : Nat := 16
def O_APPEND : Nat := 32
def O_ACCMODE : Nat := 3

/-- `open_flags & flag`, for flags of one bit. -/
def hasFlag (openFlags flag : Nat) : Bool := openFlags &&& flag ≠ 0

def NO_FD : Int := -0x9527

def LSEEK_SET : Int := 0
def LSEEK_CUR : Int := 1
def LSEEK_END : Int := 2

def S_IFREG : Nat := 0o010000
def S_IFDIR : Nat := 0o020000
def S_IFLNK : Nat := 0o030000
def S_IFCHR : Nat := 0o040000
def S_IFMT : Nat := 0o070000

def S_ISDIR (mode : Nat) : Bool := mode &&& S_IFMT = S_IFDIR

structure Stat where
  mode : Nat
  nlinks : Nat
  blocks : Nat
  size : Nat

end Ucore
