import Mathlib.Data.Int.Notation

/-! Error codes of `errno.h` that the modelled functions return, each one negated. -/
namespace Errno

def efault : ℤ := 7

def ebadf : ℤ := 8

def ebusy : ℤ := 17

def enotempty : ℤ := 18

def enosys : ℤ := 23

def einval : ℤ := 29

def eisdir : ℤ := 32

def enoent : ℤ := 48

def enotdir : ℤ := 50

def enomem : ℤ := 54

def eacces : ℤ := 62

def emfile : ℤ := 73

end Errno
