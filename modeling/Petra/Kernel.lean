import Petra.Base.Call

/-! # Results of kernel calls

The kernel is modelled as its default build runs it: integer overflow and failed
assertions panic. Machine integers are natural numbers, and an operation that
would leave the range of its type is a panic, never a wrapped value.
-/

namespace Petra

/-- The error codes the modelled calls return. -/
inductive Errno
  | EPERM | ENOENT | EIO | ENOMEM | EACCES | EFAULT | EEXIST | EXDEV | ENOTDIR | EISDIR
  | EINVAL | EFBIG | ENOSPC | ENAMETOOLONG | ENOTEMPTY | EOVERFLOW | EBUSY | ELOOP
  | E2BIG | EAGAIN | EBADF | EIDRM | EPIPE | ERANGE | EOPNOTSUPP | EDESTADDRREQ | EADDRINUSE
  | ENOBUFS
  deriving DecidableEq, Repr

/-- Why a call does not come back: a failed assertion, `expect` or slice bound, integer
arithmetic outside the range of its type, or a loop without end. -/
inductive Panic
  | assertion
  | overflow
  | endless
  deriving DecidableEq, Repr

/-- The number of values of a `usize` or a `u64`. -/
def usizeLimit : Nat := 2 ^ 64

/-- Addition of two `usize` values. -/
def addUsize (a b : Nat) : Except Panic Nat :=
  if a + b < usizeLimit then .ok (a + b) else .error .overflow

theorem addUsize_eq_ok {a b c : Nat} (h : addUsize a b = .ok c) :
    c = a + b ∧ a + b < usizeLimit := by
  unfold addUsize at h
  split_ifs at h with hlt
  cases h
  exact ⟨rfl, hlt⟩

/-- Multiplication of two `usize` or `u64` values. -/
def mulUsize (a b : Nat) : Except Panic Nat :=
  if a * b < usizeLimit then .ok (a * b) else .error .overflow

theorem mulUsize_eq_ok {a b c : Nat} (h : mulUsize a b = .ok c) : c = a * b := by
  unfold mulUsize at h
  split_ifs at h
  cases h
  rfl

end Petra
