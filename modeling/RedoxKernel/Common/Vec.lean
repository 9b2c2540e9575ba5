import RedoxKernel.Machine

/-!
# The kernel's `Vec<T>`

`kernel/common/vec.rs` is a growable array over a raw pointer: `data` points to a heap buffer and
`length` counts its elements, and every operation reallocates the buffer to exactly `length`
cells. The model keeps both fields: `data` is the buffer, one entry per cell of the allocation,
so `data.length` is the allocation's size, and `length` is the field. Each operation is the
source's code in the `Guarded` monad of `RedoxKernel.Machine`, every `ptr::read` and `ptr::write`
a checked `read` or `write`, in the source's order.

The loops are structural recursions on the number of iterations left: `shiftUp` is the loop of
`insert` that moves the tail up one cell, `shiftDown` the loop of `remove` that moves it down,
`appendLoop` the `for value in vec.iter()` loop of `push_all`, `copyLoop` the `for k in i..j`
loop of `sub`, and `dropLoop` the loop of `Drop`. Their shape lemmas (`shiftUp_spec`,
`shiftDown_spec`, `appendLoop_spec`, `copyLoop_spec`) give the buffer after the whole loop for
every length and index, and every access in bounds; `VecSpec` assembles the operations from them.

`sub` takes the word width `w`: its `i + count` and `j - i` are `usize` operations on a start and
a count the caller chooses. Elsewhere `length` is a `Nat`: a buffer of `length` cells exists, so
`length + 1` cannot wrap.

`from_raw_buf` copies from a region whose length the caller vouches for: it stays inside that region
when the region holds `len` cells (`fromRawBuf_append`) and reads outside it when not
(`fromRawBuf_past`).

Scope. `as_ptr` and the `vec!` macro are not modelled: no modelled function uses them. `clone` of an
element is the identity.
-/

set_option autoImplicit false
set_option relaxedAutoImplicit false

namespace RedoxKernel.Common

/-- `Vec<T>`: the buffer `data` points to, a cell per allocated slot, and the field `length`. -/
structure Vec (α : Type) where
  data : List (Option α)
  length : Nat
deriving DecidableEq, Repr

namespace Vec

variable {α : Type}

/-! ### Construction and access -/

/-- `Vec::new`: the null buffer of no cells. -/
def new : Vec α := ⟨[], 0⟩

/-- `Vec::from_slice`: a buffer of `slice.len()` cells holding a copy of the slice. -/
def fromSlice (slice : List α) : Vec α := ⟨slice.map some, slice.length⟩

/-- The vector holding `xs`: a buffer of exactly `xs.length` cells, each initialised. `VecSpec`
shows that the vectors `new` and `from_slice` build are of this form and that every operation
keeps them so. -/
def ofList (xs : List α) : Vec α := ⟨xs.map some, xs.length⟩

/-- `Vec::len`. -/
def len (v : Vec α) : Nat := v.length

/-- `Vec::get`: the cell at `i`, or `None` when `i >= length`. -/
def get (v : Vec α) (i : Nat) : Guarded (Option (Option α)) :=
  if i ≥ v.length then pure none else some <$> read v.data i

/-- `get` on the vector holding `xs` is `xs[i]?`, with no access outside the buffer. -/
theorem get_ofList (xs : List α) (i : Nat) : (ofList xs).get i = pure (xs[i]?.map some) := by
  by_cases hi : i < xs.length
  · apply Guarded.ext <;> simp [get, ofList, hi, Nat.not_le.mpr hi, List.getElem?_eq_getElem hi, read]
  · simp [get, ofList, Nat.le_of_not_lt hi, List.getElem?_eq_none (Nat.le_of_not_lt hi)]

/-- `Vec::set`: a store at `i` whenever `i <= length`. -/
def set (v : Vec α) (i : Nat) (value : α) : Guarded (Vec α) :=
  if i ≤ v.length then (fun data => { v with data }) <$> write v.data i (some value)
  else pure v

/-- `Vec::as_slice`: the first `length` cells, or the empty slice for an empty vector. -/
def asSlice (v : Vec α) : List (Option α) :=
  if 0 < v.length then v.data.take v.length else []

/-! ### Insertion and removal -/

/-- The loop of `Vec::insert`, `while j > i { data[j] = data[j - 1]; j -= 1 }`, entered with
`j`. -/
def shiftUp (i : Nat) : Nat → List (Option α) → Guarded (List (Option α))
  | 0, data => pure data
  | j + 1, data =>
    if j + 1 > i then do
      let item ← read data j
      let data ← write data (j + 1) item
      shiftUp i j data
    else pure data

/-- The loop of `insert` entered at `j = i` does nothing. -/
theorem shiftUp_self (i : Nat) (data : List (Option α)) : shiftUp i i data = pure data := by
  cases i <;> simp [shiftUp]

/-- The loop of `insert` over a run `q` of cells that starts at `i` and ends below the cell `c`:
each cell of `q` moves up one place and the cell at `i` keeps its value, with every access
inside the buffer. -/
theorem shiftUp_spec (p : List (Option α)) :
    ∀ (q s : List (Option α)) (c : Option α),
      shiftUp p.length (p.length + q.length) (p ++ q ++ c :: s) =
        pure (p ++ (q ++ [c]).take 1 ++ q ++ s) := by
  intro q
  induction q using List.reverseRecOn with
  | nil => intro s c; simp [shiftUp_self]
  | append_singleton q z ih =>
    intro s c
    have hread : read (p ++ (q ++ [z]) ++ c :: s) (p.length + q.length) = pure z := by
      simpa using read_mid (p ++ q) (c :: s) z
    have hwrite : write (p ++ (q ++ [z]) ++ c :: s) (p.length + q.length + 1) z =
        pure (p ++ q ++ z :: z :: s) := by
      simpa using write_mid (p ++ q ++ [z]) s c z
    rw [List.length_append, List.length_singleton, ← Nat.add_assoc, shiftUp,
      if_pos (by omega), hread, Guarded.pure_bind, hwrite, Guarded.pure_bind, ih,
      List.take_append_of_le_length (by simp : 1 ≤ (q ++ [z]).length)]
    simp

/-- `Vec::insert`: grow by one cell, move the tail up, store at `i`; nothing when
`i > length`. -/
def insert (v : Vec α) (i : Nat) (value : α) : Guarded (Vec α) :=
  if i ≤ v.length then do
    let length := v.length + 1
    let data ← shiftUp i (length - 1) (realloc v.data length)
    let data ← write data i (some value)
    pure ⟨data, length⟩
  else pure v

/-- The loop of `Vec::remove`, `while j < length { data[j] = data[j + 1]; j += 1 }`, with `n`
iterations left and entered with `j`. -/
def shiftDown : Nat → Nat → List (Option α) → Guarded (List (Option α))
  | 0, _, data => pure data
  | n + 1, j, data => do
    let item ← read data (j + 1)
    let data ← write data j item
    shiftDown n (j + 1) data

/-- The loop of `remove` over the cells `q` above the cell `c` at `j`: each cell of `q` moves
down one place and the last cell keeps its value, with every access inside the buffer. -/
theorem shiftDown_spec (s : List (Option α)) :
    ∀ (q p : List (Option α)) (c : Option α),
      shiftDown q.length p.length (p ++ c :: q ++ s) =
        pure (p ++ q ++ (c :: q).getLast (List.cons_ne_nil c q) :: s) := by
  intro q
  induction q with
  | nil => intro p c; simp [shiftDown]
  | cons z q ih =>
    intro p c
    have hread : read (p ++ c :: (z :: q) ++ s) (p.length + 1) = pure z := by
      simpa using read_mid (p ++ [c]) (q ++ s) z
    have hwrite : write (p ++ c :: (z :: q) ++ s) p.length z = pure (p ++ z :: z :: q ++ s) := by
      simpa using write_mid p (z :: q ++ s) c z
    have hrest := ih (p ++ [z]) z
    simp only [List.length_append, List.length_singleton, List.append_assoc,
      List.singleton_append] at hrest
    rw [List.length_cons, shiftDown, hread, Guarded.pure_bind, hwrite, Guarded.pure_bind]
    simp only [List.cons_append, List.append_assoc] at hrest ⊢
    rw [hrest, List.getLast_cons (List.cons_ne_nil z q)]

/-- `Vec::remove`: read the cell at `i`, move the tail down, shrink by one cell. -/
def remove (v : Vec α) (i : Nat) : Guarded (Vec α × Option (Option α)) :=
  if i < v.length then do
    let length := v.length - 1
    let item ← read v.data i
    let data ← shiftDown (length - i) i v.data
    pure (⟨realloc data length, length⟩, some item)
  else pure (v, none)

/-- `Vec::push`: grow by one cell and store at the new last index. -/
def push (v : Vec α) (value : α) : Guarded (Vec α) := do
  let length := v.length + 1
  let data ← write (realloc v.data length) (length - 1) (some value)
  pure ⟨data, length⟩

/-- `Vec::pop`: read the last cell and shrink by one; `None` on an empty vector. -/
def pop (v : Vec α) : Guarded (Vec α × Option (Option α)) :=
  if v.length > 0 then do
    let length := v.length - 1
    let item ← read v.data length
    pure (⟨realloc v.data length, length⟩, some item)
  else pure (v, none)

/-! ### Bulk operations -/

/-- The loop of `Vec::push_all`, `for value in vec.iter() { data[i] = value; i += 1 }`, with
`n` items left, at iterator offset `offset` and store index `i`. -/
def appendLoop (vec : Vec α) : Nat → Nat → Nat → List (Option α) → Guarded (List (Option α))
  | 0, _, _, data => pure data
  | n + 1, offset, i, data => do
    match ← vec.get offset with
    | some value => do
      let data ← write data i value
      appendLoop vec n (offset + 1) (i + 1) data
    | none => pure data

/-- The loop of `push_all` copying `n` items of the vector holding `ys` from `offset` on into the
run `q` of cells at `i`, with every access inside both buffers. -/
theorem appendLoop_spec (ys : List α) :
    ∀ (n offset : Nat) (p q s : List (Option α)), offset + n ≤ ys.length → q.length = n →
      appendLoop (ofList ys) n offset p.length (p ++ q ++ s) =
        pure (p ++ ((ys.drop offset).take n).map some ++ s) := by
  intro n
  induction n with
  | zero => intro offset p q s _ hq; simp [appendLoop, List.length_eq_zero.mp hq]
  | succ n ih =>
    intro offset p q s hn hq
    obtain ⟨c, q, rfl⟩ := List.exists_cons_of_length_eq_add_one hq
    have hoffset : offset < ys.length := by omega
    have hwrite : write (p ++ c :: q ++ s) p.length (some ys[offset]) =
        pure (p ++ some ys[offset] :: q ++ s) := by
      simpa using write_mid p (q ++ s) c (some ys[offset])
    have hrest := ih (offset + 1) (p ++ [some ys[offset]]) q s (by omega) (by simpa using hq)
    simp only [List.length_append, List.length_singleton, List.append_assoc,
      List.singleton_append] at hrest
    rw [appendLoop, get_ofList, List.getElem?_eq_getElem hoffset]
    simp only [Option.map_some', Guarded.pure_bind]
    rw [hwrite, Guarded.pure_bind]
    simp only [List.cons_append, List.append_assoc] at hrest ⊢
    rw [hrest, List.drop_eq_getElem_cons hoffset]
    rfl

/-- `Vec::push_all`: grow by `vec.len()` cells and copy `vec`'s items after the old ones. -/
def pushAll (v vec : Vec α) : Guarded (Vec α) := do
  let length := v.length + vec.len
  let data ← appendLoop vec vec.len 0 v.length (realloc v.data length)
  pure ⟨data, length⟩

/-- `Clone for Vec`: `push_all` onto `Vec::new`. -/
def clone (v : Vec α) : Guarded (Vec α) :=
  new.pushAll v

/-- The loop of `Drop for Vec`, reading `n` cells from `i` on. -/
def dropLoop (data : List (Option α)) : Nat → Nat → Guarded Unit
  | 0, _ => pure ()
  | n + 1, i => do
    let _ ← read data i
    dropLoop data n (i + 1)

/-- The loop of `Drop` reads inside the buffer when its cells lie in it. -/
theorem dropLoop_of_le (data : List (Option α)) :
    ∀ (n i : Nat), i + n ≤ data.length → dropLoop data n i = pure () := by
  intro n
  induction n with
  | zero => intro i _; rfl
  | succ n ih =>
    intro i hn
    rw [dropLoop, ih (i + 1) (by omega)]
    apply Guarded.ext <;> simp [read]
    omega

/-- `Drop for Vec`: read every element out, then free the buffer. -/
def drop (v : Vec α) : Guarded Unit :=
  dropLoop v.data v.len 0

/-- The loop of `Vec::sub`, `for k in i..j { out[k - i] = data[k] }`, with `n` iterations left
and entered with `k`. -/
def copyLoop (data : List (Option α)) (i : Nat) :
    Nat → Nat → List (Option α) → Guarded (List (Option α))
  | 0, _, out => pure out
  | n + 1, k, out => do
    let item ← read data k
    let out ← write out (k - i) item
    copyLoop data i n (k + 1) out

/-- The loop of `sub` copying the run `q` of cells at `k` into the run `r` at `k - i` of the new
buffer, with every access inside both buffers. -/
theorem copyLoop_spec (i : Nat) :
    ∀ (n : Nat) (a q b p r t : List (Option α)), i ≤ a.length → p.length = a.length - i →
      q.length = n → r.length = n →
      copyLoop (a ++ q ++ b) i n a.length (p ++ r ++ t) = pure (p ++ q ++ t) := by
  intro n
  induction n with
  | zero =>
    intro a q b p r t _ _ hq hr
    simp [copyLoop, List.length_eq_zero.mp hq, List.length_eq_zero.mp hr]
  | succ n ih =>
    intro a q b p r t hi hp hq hr
    obtain ⟨x, q, rfl⟩ := List.exists_cons_of_length_eq_add_one hq
    obtain ⟨y, r, rfl⟩ := List.exists_cons_of_length_eq_add_one hr
    have hread : read (a ++ x :: q ++ b) a.length = pure x := by
      simpa using read_mid a (q ++ b) x
    have hwrite : write (p ++ y :: r ++ t) (a.length - i) x = pure (p ++ x :: r ++ t) := by
      rw [← hp]; simpa using write_mid p (r ++ t) y x
    have hrest := ih (a ++ [x]) q b (p ++ [x]) r t
      (by simp only [List.length_append, List.length_singleton]; omega)
      (by simp only [List.length_append, List.length_singleton]; omega)
      (by simpa using hq) (by simpa using hr)
    simp only [List.length_append, List.length_singleton, List.append_assoc,
      List.singleton_append] at hrest
    rw [copyLoop, hread, Guarded.pure_bind, hwrite, Guarded.pure_bind]
    simp only [List.cons_append, List.append_assoc] at hrest ⊢
    exact hrest

/-- `Vec::sub` on `w`-bit words: clamp `start` to the length, add `count`, clamp again, and
copy the cells in between into a new buffer. -/
def sub (w : Nat) (v : Vec α) (start count : Nat) : Guarded (Vec α) := do
  let i := if start > v.len then v.len else start
  let j ← wordAdd w i count
  let j := if j > v.len then v.len else j
  let length ← wordSub w j i
  if length = 0 then pure new
  else do
    let data ← copyLoop v.data i (j - i) i (alloc length)
    pure ⟨data, length⟩

/-- `Vec::from_raw_buf`: a buffer of `len` cells, into which `ptr::copy` copies `len` cells of the
region `src` that `ptr` points to, cell by cell from the start. -/
def fromRawBuf (src : List (Option α)) (len : Nat) : Guarded (Vec α) := do
  let data ← copyLoop src 0 len 0 (alloc len)
  pure ⟨data, len⟩

/-- `from_raw_buf` of `len` cells from a region that holds at least `len` cells copies them, with
every access inside both buffers. -/
theorem fromRawBuf_append (cells rest : List (Option α)) :
    fromRawBuf (cells ++ rest) cells.length = pure ⟨cells, cells.length⟩ := by
  have h := copyLoop_spec 0 cells.length [] cells rest [] (alloc cells.length) []
    (Nat.zero_le _) rfl rfl (length_alloc _)
  simp only [List.nil_append, List.append_nil, List.length_nil] at h
  rw [fromRawBuf, h, Guarded.pure_bind]

/-- The copy loop of `n + 1` cells from `k` reads outside a buffer that ends before
`k + n + 1`. -/
theorem copyLoop_past (data : List (Option α)) (i : Nat) :
    ∀ (n k : Nat) (out : List (Option α)), data.length < k + n + 1 →
      (copyLoop data i (n + 1) k out).safe = false
  | 0, k, out, h => by simp [copyLoop]; omega
  | n + 1, k, out, h => by
    have ih := fun out => copyLoop_past data i n (k + 1) out (by omega)
    rw [copyLoop]
    simp [ih]

/-- `from_raw_buf` of more cells than its region holds reads outside the region. -/
theorem fromRawBuf_past {src : List (Option α)} {len : Nat} (h : src.length < len) :
    (fromRawBuf src len).safe = false := by
  obtain ⟨n, rfl⟩ : ∃ n, len = n + 1 := ⟨len - 1, by omega⟩
  simp [fromRawBuf, copyLoop_past src 0 n 0 _ (by omega)]

end Vec

/-! ### Iteration -/

section Iteration

variable {α : Type}

/-- The step both iterators take, `get(offset)`: the item, and the offset moved past it. -/
def nextAt (vec : Vec α) (offset : Nat) : Guarded (Option (Option α) × Nat) := do
  match ← vec.get offset with
  | some item => pure (some item, offset + 1)
  | none => pure (none, offset)

/-- The iterator step on the vector holding `xs` yields `xs[offset]` and moves on, or yields
nothing and stays, with no access outside the buffer. -/
theorem nextAt_ofList (xs : List α) (offset : Nat) :
    nextAt (Vec.ofList xs) offset =
      pure (if offset < xs.length then (xs[offset]?.map some, offset + 1) else (none, offset)) := by
  by_cases hoffset : offset < xs.length
  · simp [nextAt, Vec.get_ofList, hoffset, List.getElem?_eq_getElem hoffset]
  · simp [nextAt, Vec.get_ofList, hoffset, List.getElem?_eq_none (Nat.le_of_not_lt hoffset)]

/-- `VecIterator`: a borrowed vector and the offset of the next item. -/
structure VecIterator (α : Type) where
  vec : Vec α
  offset : Nat

/-- `VecIterator::next`. -/
def VecIterator.next (it : VecIterator α) : Guarded (Option (Option α) × VecIterator α) :=
  (fun r => (r.1, { it with offset := r.2 })) <$> nextAt it.vec it.offset

/-- `OwnedVecIterator`: a moved vector and the offset of the next item. -/
structure OwnedVecIterator (α : Type) where
  vec : Vec α
  offset : Nat

/-- `OwnedVecIterator::next`: as `VecIterator::next`, with the item cloned. -/
def OwnedVecIterator.next (it : OwnedVecIterator α) :
    Guarded (Option (Option α) × OwnedVecIterator α) :=
  (fun r => (r.1, { it with offset := r.2 })) <$> nextAt it.vec it.offset

/-- `Vec::iter`. -/
def Vec.iter (v : Vec α) : VecIterator α := ⟨v, 0⟩

/-- `Vec::into_iter`. -/
def Vec.intoIter (v : Vec α) : OwnedVecIterator α := ⟨v, 0⟩

/-- The items of `n` successive calls of an iterator's `next`. -/
def calls {σ β : Type} (next : σ → Guarded (Option β × σ)) : Nat → σ → Guarded (List (Option β))
  | 0, _ => pure []
  | n + 1, it => do
    let (item, it) ← next it
    let items ← calls next n it
    pure (item :: items)

end Iteration

end RedoxKernel.Common
