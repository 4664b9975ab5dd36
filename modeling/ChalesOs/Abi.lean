import Mathlib.Data.Int.Notation
import Mathlib.Data.Nat.Notation

/-!
# Constants of the system call interface

The flags of `open`, the file modes and the error numbers of `sys/abi.h`, as far as the modelled
calls use them.
-/

namespace ChalesOs

/-! ### Flags of `open` -/

/-- `CHALES_O_ACCMODE`. -/
def oAccmode : ℕ := 0x0003

/-- `CHALES_O_RDONLY`. -/
def oRdonly : ℕ := 0x0000

/-- `CHALES_O_WRONLY`. -/
def oWronly : ℕ := 0x0001

/-- `CHALES_O_RDWR`. -/
def oRdwr : ℕ := 0x0002

/-- `CHALES_O_APPEND`. -/
def oAppend : ℕ := 0x0008

/-- `CHALES_O_CREAT`. -/
def oCreat : ℕ := 0x0200

/-- `CHALES_O_TRUNC`. -/
def oTrunc : ℕ := 0x0400

/-- `CHALES_O_EXCL`. -/
def oExcl : ℕ := 0x0800

/-! ### Bits of `st_mode` -/

/-- `CHALES_S_IFDIR`. -/
def sIfdir : ℕ := 0x4000

/-- `CHALES_S_IFREG`. -/
def sIfreg : ℕ := 0x8000

/-! ### Error numbers -/

/-- `CHALES_ENOENT`. -/
def eNoent : ℤ := 2

/-- `CHALES_ESRCH`. -/
def eSrch : ℤ := 3

/-- `CHALES_EBADF`. -/
def eBadf : ℤ := 9

/-- `CHALES_ECHILD`. -/
def eChild : ℤ := 10

/-- `CHALES_EAGAIN`. -/
def eAgain : ℤ := 11

/-- `CHALES_EFAULT`. -/
def eFault : ℤ := 14

/-- `CHALES_EEXIST`. -/
def eExist : ℤ := 17

/-- `CHALES_EISDIR`. -/
def eIsdir : ℤ := 21

/-- `CHALES_EINVAL`. -/
def eInval : ℤ := 22

/-- `CHALES_EMFILE`. -/
def eMfile : ℤ := 24

/-- `CHALES_ENOSPC`. -/
def eNospc : ℤ := 28

end ChalesOs
