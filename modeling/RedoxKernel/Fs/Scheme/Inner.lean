import RedoxKernel.Fs.BTreeMap

/-!
# `SchemeInner`: the state a scheme's provider and its clients share

A user-space provider registers a scheme with `Scheme::new`, which makes one `SchemeInner` and
hands out two handles to it: the `Scheme` the kernel's scheme list keeps, and the
`SchemeServerResource` the provider reads requests from and writes replies to. Clients reach the
provider through `SchemeInner::call`, which queues the four words of a request under a fresh id in
`todo` and then polls `done` for a reply under that id.

This module models the shared state and the two halves of `call` that touch it: `submit`, which
takes `next_id`, advances it and queues the request, and `collect`, one look into `done`. The
code between the two is the polling loop with its `context_switch`; the system model of
`Scheme.System` interleaves it with every other party's steps. `nextIdAfter` is the update of
`next_id` on a `w`-bit word, wrap included: `(id + 1) mod 2^w`, with `0` replaced by `1`.
`nextIdAfter_pos` is the fact the id invariant rests on, and `nextIdAfter_of_lt` that below the
wrap the generator counts.

`Error::demux`, the error numbers and the size of a `Packet` come from `system::error` and
`system::scheme`, which the source imports and does not contain: they are modelled from the
spec's words.
-/

set_option autoImplicit false
set_option relaxedAutoImplicit false

namespace RedoxKernel.Fs

/-! ### Words on the wire -/

/-- The four argument words `(a, b, c, d)` of a request or a reply. -/
structure Regs where
  a : Nat
  b : Nat
  c : Nat
  d : Nat
deriving DecidableEq, Repr

/-- `Packet`: the five words `id, a, b, c, d` the provider reads and writes. -/
structure Packet where
  id : Nat
  a : Nat
  b : Nat
  c : Nat
  d : Nat
deriving DecidableEq, Repr

/-- The four words a packet carries after its id. -/
def Packet.regs (packet : Packet) : Regs := ⟨packet.a, packet.b, packet.c, packet.d⟩

/-- Modelled from the spec: `size_of::<Packet>()`, five machine words of `w` bits with no
padding. -/
def packetSize (w : Nat) : Nat := 5 * (w / 8)

/-- `Error`: an error number. -/
structure Error where
  errno : Nat
deriving DecidableEq, Repr

/-- Modelled from the spec: `ENOENT` of `system::error`, with the host ABI's number. -/
def ENOENT : Error := ⟨2⟩

/-- Modelled from the spec: `EBADF` of `system::error`, with the host ABI's number. -/
def EBADF : Error := ⟨9⟩

/-- Modelled from the spec: `EFAULT` of `system::error`, with the host ABI's number. -/
def EFAULT : Error := ⟨14⟩

/-- Modelled from the spec: `EINVAL` of `system::error`, with the host ABI's number. -/
def EINVAL : Error := ⟨22⟩

/-- Modelled from the spec: `ESPIPE` of `system::error`, with the host ABI's number. -/
def ESPIPE : Error := ⟨29⟩

/-- Modelled from the spec: `Error::demux` on a `w`-bit word, a success when the word is
non-negative as a signed word and the error `-word` otherwise. -/
def demux (w x : Nat) : Except Error Nat :=
  if x < 2 ^ (w - 1) then .ok x else .error ⟨2 ^ w - x⟩

/-! ### The shared state -/

/-- `SchemeInner` without its `context` pointer: the scheme's name (the bytes of the `String`),
the id generator, the queued requests and the replies not yet collected. The provider's memory
map, which `context` points to, is part of the system state of `Scheme.System`. -/
structure SchemeInner where
  name : List UInt8
  nextId : Nat
  todo : BTreeMap Regs
  done : BTreeMap Regs

/-- `SchemeInner::new`: ids start at 1, both maps empty. -/
def SchemeInner.new (name : List UInt8) : SchemeInner := ⟨name, 1, .empty, .empty⟩

/-- The update of `next_id` in `SchemeInner::call` on a `w`-bit word: `id + 1`, wrapping, and
`1` where that is `0`. -/
def nextIdAfter (w id : Nat) : Nat :=
  let next := (id + 1) % 2 ^ w
  if next ≤ 0 then 1 else next

/-- The part of `SchemeInner::call` after a successful upgrade and before the polling loop: take
`next_id` as the id, advance it, and queue the request under the id. -/
def SchemeInner.submit (w : Nat) (inner : SchemeInner) (regs : Regs) : Nat × SchemeInner :=
  let id := inner.nextId
  (id, { inner with nextId := nextIdAfter w id, todo := inner.todo.insert id regs })

/-- One check of the polling loop of `SchemeInner::call` after a successful upgrade: take the
reply under `id` out of `done`. -/
def SchemeInner.collect (inner : SchemeInner) (id : Nat) : Option Regs × SchemeInner :=
  ((inner.done.remove id).1, { inner with done := (inner.done.remove id).2 })

/-- The id generator never yields `0`, wrap included. -/
theorem nextIdAfter_pos (w id : Nat) : 0 < nextIdAfter w id := by
  simp only [nextIdAfter]
  split <;> omega

/-- Below the word's range the id generator counts. -/
theorem nextIdAfter_of_lt {w id : Nat} (h : id + 1 < 2 ^ w) : nextIdAfter w id = id + 1 := by
  simp [nextIdAfter, Nat.mod_eq_of_lt h]

/-- At the top of the word's range the id generator wraps to 1. -/
theorem nextIdAfter_top (w : Nat) : nextIdAfter w (2 ^ w - 1) = 1 := by
  have hpos : 0 < 2 ^ w := Nat.pos_pow_of_pos w (by norm_num)
  simp [nextIdAfter, Nat.sub_add_cancel hpos]

@[simp] theorem submit_fst (w : Nat) (inner : SchemeInner) (regs : Regs) :
    (inner.submit w regs).1 = inner.nextId := rfl

@[simp] theorem submit_nextId (w : Nat) (inner : SchemeInner) (regs : Regs) :
    (inner.submit w regs).2.nextId = nextIdAfter w inner.nextId := rfl

@[simp] theorem submit_todo (w : Nat) (inner : SchemeInner) (regs : Regs) :
    (inner.submit w regs).2.todo = inner.todo.insert inner.nextId regs := rfl

@[simp] theorem submit_done (w : Nat) (inner : SchemeInner) (regs : Regs) :
    (inner.submit w regs).2.done = inner.done := rfl

@[simp] theorem submit_name (w : Nat) (inner : SchemeInner) (regs : Regs) :
    (inner.submit w regs).2.name = inner.name := rfl

@[simp] theorem collect_fst (inner : SchemeInner) (id : Nat) :
    (inner.collect id).1 = inner.done.get id := rfl

@[simp] theorem collect_nextId (inner : SchemeInner) (id : Nat) :
    (inner.collect id).2.nextId = inner.nextId := rfl

@[simp] theorem collect_todo (inner : SchemeInner) (id : Nat) :
    (inner.collect id).2.todo = inner.todo := rfl

@[simp] theorem collect_done (inner : SchemeInner) (id : Nat) :
    (inner.collect id).2.done = (inner.done.remove id).2 := rfl

@[simp] theorem collect_name (inner : SchemeInner) (id : Nat) :
    (inner.collect id).2.name = inner.name := rfl

end RedoxKernel.Fs
