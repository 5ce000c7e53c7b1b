/-
# SlateOS.Kernel.Error -- the kernel's error type

Every fallible kernel function returns a value or one variant of this enumeration.
-/
import Mathlib.Logic.Basic

namespace SlateOS.Kernel

/-- `KernelError`, in declaration order. -/
inductive KernelError
  | internalError | notSupported | invalidArgument | wouldBlock | cancelled | timedOut | deadlock
  | interrupted | bufferTooSmall | noSuchSyscall | outOfMemory | invalidAddress | pageFault
  | badAlignment | noSuchProcess | invalidExecutable | processExited | noChildProcess
  | channelClosed | channelFull | messageTooLarge | overflow | resourceExhausted
  | permissionDenied | invalidCapability | notPermitted | notFound | alreadyExists
  | notADirectory | isADirectory | diskFull | invalidHandle | tooManyLinks | notEmpty
  | corruptedData | readOnlyFilesystem | tooManyOpenFiles | fileTooLarge | crossDevice
  | staleHandle | noAttribute | ioError | noSuchDevice | deviceBusy | noSuchDeviceOrAddress
  | connectionRefused | notConnected | inProgress | connectAlready | brokenPipe | addrInUse
  | msgSize | noAddress | wrongSocketType
  deriving DecidableEq, Repr

/-- `KernelResult<T>`. -/
abbrev KernelResult (α : Type) := Except KernelError α

end SlateOS.Kernel
