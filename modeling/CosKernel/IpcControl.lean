import CosKernel.IpcObjects

/-!
# Resetting the objects of inter-process communication

The command `CMD_RESET` of `control` wakes every thread that waits on the object, each with an
error, and puts the object back into its first state. A mailbox has two lists of waiting threads.
A mutex cannot be reset. The loops run with interrupts disabled.
-/
namespace CosKernel

variable {σ ο θ : Type} [DecidableEq θ] [ListFamily σ (ListId ο) θ]

/-- `arg` is a pointer whose low half is the new value. -/
def Semaphore.control (fuel : ℕ) (k : Kernel σ θ) (o : ο) (value : BitVec 16) (cmd : BitVec 8)
    (arg : BitVec 32) : Option (Kernel σ θ × BitVec 16 × ℤ) :=
  if cmd = CMD_RESET then do
    let k ← Kernel.listResumeAll o fuel k
    let value := arg.setWidth 16
    let k ← k.process
    some (k,value,ERR_OK)
  else some (k,value,-ERR_ERROR)

def Mutex.control (m : Mutex θ) (_cmd : BitVec 8) : Mutex θ × ℤ := (m,-ERR_ERROR)

def Event.control (fuel : ℕ) (k : Kernel σ θ) (o : ο) (set_ : BitVec 32) (cmd : BitVec 8) :
    Option (Kernel σ θ × BitVec 32 × ℤ) :=
  if cmd = CMD_RESET then do
    let k ← Kernel.listResumeAll o fuel k
    let set_ := 0
    let k ← k.process
    some (k,set_,ERR_OK)
  else some (k,set_,-ERR_ERROR)

namespace MailBox

/-- Every sender that waits is resumed with an error. -/
def resumeAll (o : ο) : ℕ → Kernel σ θ → Option (Kernel σ θ)
  | 0,_ => none
  | fuel+1,k =>
      if ListFamily.empty k.lists (ListId.sender o) then some k else do
        let t ← ListFamily.front k.lists (ListId.sender o)
        let k := k.setError t (-ERR_ERROR)
        let lists ← ListFamily.erase k.lists (ListId.sender o) t
        let (k,_) ← Kernel.resume {k with lists := lists} t
        resumeAll o fuel k

def control (fuel : ℕ) (k : Kernel σ θ) (o : ο) (m : MailBox) (cmd : BitVec 8) :
    Option (Kernel σ θ × MailBox × ℤ) :=
  if cmd = CMD_RESET then do
    let k ← Kernel.listResumeAll o fuel k
    let k ← resumeAll o fuel k
    let m := {m with entry := 0, inOffset := 0, outOffset := 0}
    let k ← k.process
    some (k,m,ERR_OK)
  else some (k,m,-ERR_ERROR)

end MailBox

end CosKernel
