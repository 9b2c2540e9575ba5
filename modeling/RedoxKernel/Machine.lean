import Mathlib

/-!
# Checked machine steps

The kernel code is Rust over raw pointers and machine words. A raw access `ptr::read` or
`ptr::write` at `data.offset(k)` is defined only when `k` lies inside the buffer `data` points
to, an indexed access `buf[i]` of a slice panics outside it, and an arithmetic operation on
`usize` that leaves the word's range wraps in a release build. This module gives each of them a
total meaning that also records whether the step stayed within its obligation.

A `Guarded` value is the result of such code together with a flag `safe`: the conjunction, over
every step the code took, of "this access was inside its buffer" and "this word operation did
not wrap". `Guarded` is a monad, so the models of `vec.rs` and `scheme.rs` are written in `do`
notation in the order the source performs its steps, and a theorem that the flag is `true` is a
theorem that no step of the run broke its obligation.

A buffer is a list of cells, `none` for a cell that holds no initialised value, and a byte
slice a list of bytes, indexed by `sliceGet` and `sliceSet`. `read` returns
the cell at an offset; a `write` outside the buffer leaves the buffer's cells as they were,
since the store lands in memory the buffer does not own. `realloc` keeps the common prefix and
leaves the new cells uninitialised. `wordAdd` and `wordSub` are `usize` addition and subtraction
at a word width `w`.

Scope. Allocation never fails here, and a store outside a buffer is not followed into the
memory it corrupts: the flag records that it happened.
-/

set_option autoImplicit false
set_option relaxedAutoImplicit false

namespace RedoxKernel

/-- The result of raw machine code, with whether every step it took stayed inside its buffer
and its word range. -/
structure Guarded (α : Type) where
  val : α
  safe : Bool
deriving DecidableEq, Repr

namespace Guarded

instance : Monad Guarded where
  pure x := ⟨x, true⟩
  bind x f := ⟨(f x.val).val, x.safe && (f x.val).safe⟩

variable {α β : Type}

@[simp] theorem pure_val (x : α) : (pure x : Guarded α).val = x := rfl

@[simp] theorem pure_safe (x : α) : (pure x : Guarded α).safe = true := rfl

@[simp] theorem bind_val (x : Guarded α) (f : α → Guarded β) : (x >>= f).val = (f x.val).val :=
  rfl

@[simp] theorem bind_safe (x : Guarded α) (f : α → Guarded β) :
    (x >>= f).safe = (x.safe && (f x.val).safe) :=
  rfl

@[simp] theorem map_val (x : Guarded α) (f : α → β) : (f <$> x).val = f x.val := rfl

@[simp] theorem map_safe (x : Guarded α) (f : α → β) : (f <$> x).safe = x.safe := by
  show (x.safe && true) = x.safe
  simp

@[simp] theorem pure_bind (x : α) (f : α → Guarded β) : (pure x >>= f) = f x := rfl

@[simp] theorem map_pure (f : α → β) (x : α) : (f <$> pure x : Guarded β) = pure (f x) := rfl

/-- A step that breaks its obligation and yields `x`. -/
def fault (x : α) : Guarded α := ⟨x, false⟩

@[ext] theorem ext {x y : Guarded α} (hval : x.val = y.val) (hsafe : x.safe = y.safe) : x = y := by
  cases x; cases y; simp_all

end Guarded

/-! ### Buffers of cells -/

section Cells

variable {α : Type}

/-- `ptr::read(data.offset(k))`: the cell at `k`, inside the buffer when `k < data.length`. -/
def read (data : List (Option α)) (k : Nat) : Guarded (Option α) :=
  ⟨data[k]?.join, decide (k < data.length)⟩

/-- `ptr::write(data.offset(k), x)`: a store outside the buffer leaves its cells unchanged. -/
def write (data : List (Option α)) (k : Nat) (x : Option α) : Guarded (List (Option α)) :=
  ⟨data.set k x, decide (k < data.length)⟩

/-- `memory::alloc` of `n` cells, none of them initialised. -/
def alloc (n : Nat) : List (Option α) :=
  List.replicate n none

/-- `memory::realloc` to `n` cells: the first `min n data.length` cells are kept. -/
def realloc (data : List (Option α)) (n : Nat) : List (Option α) :=
  data.take n ++ alloc (n - data.length)

@[simp] theorem read_safe (data : List (Option α)) (k : Nat) :
    (read data k).safe = decide (k < data.length) :=
  rfl

@[simp] theorem write_safe (data : List (Option α)) (k : Nat) (x : Option α) :
    (write data k x).safe = decide (k < data.length) :=
  rfl

@[simp] theorem write_val (data : List (Option α)) (k : Nat) (x : Option α) :
    (write data k x).val = data.set k x :=
  rfl

@[simp] theorem read_val_some (data : List (Option α)) (k : Nat) (h : k < data.length) :
    (read data k).val = data[k] := by
  simp [read, h]

@[simp] theorem length_alloc (n : Nat) : (alloc n : List (Option α)).length = n :=
  List.length_replicate n none

@[simp] theorem length_realloc (data : List (Option α)) (n : Nat) :
    (realloc data n).length = n := by
  simp only [realloc, List.length_append, List.length_take, length_alloc]
  omega

/-- A read at the index of a cell, inside the buffer. -/
theorem read_mid (p s : List (Option α)) (x : Option α) :
    read (p ++ x :: s) p.length = pure x := by
  simp [read, pure, List.getElem?_append_right (Nat.le_refl _)]

/-- A store at the index of a cell, inside the buffer, replaces that cell only. -/
theorem write_mid (p s : List (Option α)) (x y : Option α) :
    write (p ++ x :: s) p.length y = pure (p ++ y :: s) := by
  simp [write, pure, List.set_append_right]

/-- Growing a buffer keeps every cell and appends uninitialised ones. -/
theorem realloc_of_le {data : List (Option α)} {n : Nat} (h : data.length ≤ n) :
    realloc data n = data ++ alloc (n - data.length) := by
  rw [realloc, List.take_of_length_le h]

/-- Shrinking a buffer keeps its first `n` cells. -/
theorem realloc_of_ge {data : List (Option α)} {n : Nat} (h : n ≤ data.length) :
    realloc data n = data.take n := by
  simp [realloc, Nat.sub_eq_zero_of_le h, alloc]

end Cells

/-! ### Slices -/

/-- `s[i]` on a byte slice: a panic outside it. -/
def sliceGet (s : List UInt8) (i : Nat) : Guarded UInt8 :=
  ⟨s.getD i 0, decide (i < s.length)⟩

/-- `s[i] = x` on a byte slice: a panic outside it. -/
def sliceSet (s : List UInt8) (i : Nat) (x : UInt8) : Guarded (List UInt8) :=
  ⟨s.set i x, decide (i < s.length)⟩

theorem sliceGet_of_lt {s : List UInt8} {i : Nat} (h : i < s.length) :
    sliceGet s i = pure s[i] := by
  simp [sliceGet, h, pure]

/-- A store at the index of a byte, inside the slice, replaces that byte only. -/
theorem sliceSet_mid (p s : List UInt8) (x y : UInt8) :
    sliceSet (p ++ x :: s) p.length y = pure (p ++ y :: s) := by
  simp [sliceSet, pure, List.set_append_right]

/-! ### Word arithmetic -/

/-- `a + b` on a `w`-bit word: the wrapped sum, safe when it does not overflow. -/
def wordAdd (w a b : Nat) : Guarded Nat :=
  ⟨(a + b) % 2 ^ w, decide (a + b < 2 ^ w)⟩

/-- `a - b` on a `w`-bit word: the wrapped difference, safe when it does not underflow. -/
def wordSub (w a b : Nat) : Guarded Nat :=
  ⟨(a + 2 ^ w - b) % 2 ^ w, decide (b ≤ a)⟩

/-- Without overflow, the word sum is the sum. -/
theorem wordAdd_of_lt {w a b : Nat} (h : a + b < 2 ^ w) : wordAdd w a b = pure (a + b) := by
  simp [wordAdd, Nat.mod_eq_of_lt h, h, pure]

/-- Without underflow, and below the word's range, the word difference is the difference. -/
theorem wordSub_of_le {w a b : Nat} (h : b ≤ a) (ha : a < 2 ^ w) :
    wordSub w a b = pure (a - b) := by
  have hlt : a + 2 ^ w - b = (a - b) + 2 ^ w := by omega
  simp [wordSub, hlt, Nat.mod_eq_of_lt (show a - b < 2 ^ w by omega), h, pure]

end RedoxKernel
