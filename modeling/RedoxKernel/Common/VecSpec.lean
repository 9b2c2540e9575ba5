import RedoxKernel.Common.Vec

/-!
# `Vec<T>` refines `List`

Every operation of `Vec`, applied to the vector holding a list `xs` (`Vec.ofList xs`), returns the
vector holding the list that the matching `List` operation returns, and makes no access outside
its buffers: `push_ofList`, `pop_ofList`, `insert_ofList`, `remove_ofList`, `set_ofList`,
`pushAll_ofList`, `clone_ofList`, `asSlice_ofList` and `drop_ofList`, with `get_ofList` and
`nextAt_ofList` in `Vec`. Each states the whole `Guarded` result, so it says both what the
operation computes and that every access was in bounds, except `set_ofList`, whose flag is false
exactly at `i = length`.

`VecOp` lists the operations that change a vector and `VecOp.applyList` the matching list
operation; `foldl_apply_ofList` is the run lemma: any sequence of operations from a vector
holding `xs` gives the vector holding the list the list operations give. `vec_refines_list`
gathers the operations, the iterators (`calls_ofList`: `n` calls of `next` yield the list's items
in order, then `None`) and the runs from `Vec::new` and `Vec::from_slice`.

Two defects of the source show up here. `Vec::set` tests `i <= self.length`, so `set(length, x)`
writes one cell past the buffer (`set_length_writes_past_buffer`); every other access of every
operation is in bounds. `Vec::sub` adds `count` to the clamped start in `usize`, and for a count
near `usize::MAX` the sum wraps, the clamp is defeated and `j - i` wraps as well
(`sub_wraps_at_max_count`); below that range `sub_ofList` gives `(xs.drop start).take count`.
`VecOp.run` performs a run of operations with all their accesses, and `vec_runs_in_bounds` gives
its exact flag: a run stays inside its buffers exactly when none of its `set`s stores at index
`length`.
-/

set_option autoImplicit false
set_option relaxedAutoImplicit false

namespace RedoxKernel.Common

namespace Vec

variable {α : Type}

/-! ### One operation -/

@[simp] theorem data_ofList (xs : List α) : (ofList xs).data = xs.map some := rfl

@[simp] theorem length_ofList (xs : List α) : (ofList xs).length = xs.length := rfl

/-- Growing the buffer of the vector holding `xs` by `n` cells. -/
theorem realloc_ofList (xs : List α) (n : Nat) :
    realloc (xs.map some) (xs.length + n) = xs.map some ++ alloc n := by
  rw [realloc_of_le (by simp)]
  simp

/-- `Vec::push` appends. -/
theorem push_ofList (xs : List α) (x : α) : (ofList xs).push x = pure (ofList (xs ++ [x])) := by
  have hwrite := write_mid (xs.map some) [] none (some x)
  simp only [List.length_map] at hwrite
  simp only [push, ofList, realloc_ofList, Nat.add_sub_cancel, alloc, List.replicate_one,
    hwrite, Guarded.pure_bind]
  simp

/-- `Vec::pop` removes and returns the last element, and does nothing to an empty vector. -/
theorem pop_ofList (xs : List α) :
    (ofList xs).pop = pure (ofList xs.dropLast, xs.getLast?.map some) := by
  rcases List.eq_nil_or_concat xs with rfl | ⟨ys, y, rfl⟩
  · rfl
  · rw [List.concat_eq_append]
    have hread := read_mid (ys.map some) [] (some y)
    simp only [List.length_map] at hread
    simp only [pop, ofList, List.map_append, List.map_singleton, List.length_append,
      List.length_singleton, Nat.add_sub_cancel, hread, Guarded.pure_bind]
    rw [if_pos (Nat.succ_pos _), realloc_of_ge (by simp)]
    simp

/-- `Vec::insert` puts the value at `i` when `i ≤ length`, and does nothing otherwise. -/
theorem insert_ofList (xs : List α) (i : Nat) (x : α) :
    (ofList xs).insert i x =
      pure (ofList (if i ≤ xs.length then xs.take i ++ x :: xs.drop i else xs)) := by
  by_cases hi : i ≤ xs.length
  · set p := (xs.take i).map some
    set q := (xs.drop i).map some
    have hp : p.length = i := by simp [p, hi]
    have hpq : xs.length = p.length + q.length := by
      simp only [p, q, List.length_map, List.length_take, List.length_drop]; omega
    have hdata : realloc (xs.map some) (xs.length + 1) = p ++ q ++ none :: [] := by
      rw [realloc_ofList, ← List.map_append, List.take_append_drop]
      rfl
    have hshift := shiftUp_spec p q [] none
    rw [← hpq, hp, ← hdata] at hshift
    obtain ⟨y, hy⟩ : ∃ y, (q ++ [none]).take 1 = [y] := by
      cases q <;> simp
    have hwrite := write_mid p q y (some x)
    rw [hp] at hwrite
    simp only [insert, ofList, if_pos hi, Nat.add_sub_cancel, hshift, hy, Guarded.pure_bind,
      List.append_assoc, List.singleton_append, List.append_nil, hwrite]
    congr 1
    simp [p, q]
    omega
  · simp [insert, ofList, hi]

/-- `Vec::remove` returns the element at `i` and erases it, and does nothing when `i` is past the
end. -/
theorem remove_ofList (xs : List α) (i : Nat) :
    (ofList xs).remove i = pure (ofList (xs.eraseIdx i), xs[i]?.map some) := by
  by_cases hi : i < xs.length
  · set p := (xs.take i).map some
    set q := (xs.drop (i + 1)).map some
    have hp : p.length = i := by simp only [p, List.length_map, List.length_take]; omega
    have hq : xs.length - 1 - i = q.length := by
      simp only [q, List.length_map, List.length_drop]; omega
    have hdata : xs.map some = p ++ some xs[i] :: q := by
      simp only [p, q, ← List.map_cons, ← List.map_append, ← List.drop_eq_getElem_cons hi,
        List.take_append_drop]
    have hread := read_mid p q (some xs[i])
    have hshift := shiftDown_spec [] q p (some xs[i])
    simp only [List.append_nil] at hshift
    rw [hp, ← hq, ← hdata] at hshift
    rw [hp, ← hdata] at hread
    simp only [remove, ofList, List.length_map, if_pos hi, hread, hshift, Guarded.pure_bind]
    rw [realloc_of_ge (by simp only [List.length_append, List.length_singleton]; omega),
      List.take_left' (by simp only [List.length_append]; omega),
      List.getElem?_eq_getElem hi, List.eraseIdx_eq_take_drop_succ]
    congr 1
    simp [p, q]
    omega
  · have hge : xs.length ≤ i := Nat.le_of_not_lt hi
    simp [remove, ofList, hi, List.eraseIdx_of_length_le hge, List.getElem?_eq_none hge]

/-- `Vec::set` replaces the element at `i`, and its store is outside the buffer exactly when
`i = length`. -/
theorem set_ofList (xs : List α) (i : Nat) (x : α) :
    (ofList xs).set i x = ⟨ofList (xs.set i x), decide (i ≠ xs.length)⟩ := by
  by_cases hi : i ≤ xs.length
  · apply Guarded.ext
    · simp [Vec.set, ofList, hi, List.map_set]
    · rcases Nat.lt_or_eq_of_le hi with hlt | rfl
      · simp [Vec.set, ofList, hlt, hi]
        omega
      · simp [Vec.set, ofList]
  · have hge : xs.length ≤ i := by omega
    simp [Vec.set, ofList, hi, List.set_eq_of_length_le hge, pure]
    omega

/-- `Vec::as_slice` is the list. -/
theorem asSlice_ofList (xs : List α) : (ofList xs).asSlice = xs.map some := by
  cases xs <;> simp [asSlice, ofList]

/-- `Vec::push_all` appends the other vector's elements. -/
theorem pushAll_ofList (xs ys : List α) :
    (ofList xs).pushAll (ofList ys) = pure (ofList (xs ++ ys)) := by
  have hloop := appendLoop_spec ys ys.length 0 (xs.map some) (alloc ys.length) [] (by simp)
    (by simp)
  simp only [List.length_map, List.append_nil, List.drop_zero, List.take_length] at hloop
  simp only [pushAll, len, length_ofList, data_ofList, realloc_ofList, hloop, Guarded.pure_bind]
  simp [ofList]

/-- `Clone for Vec` copies the list. -/
theorem clone_ofList (xs : List α) : (ofList xs).clone = pure (ofList xs) := by
  simpa using pushAll_ofList [] xs

/-- `Drop for Vec` reads every element inside the buffer. -/
theorem drop_ofList (xs : List α) : (ofList xs).drop = pure () :=
  dropLoop_of_le _ _ _ (by simp [ofList, len])

/-! ### Iteration -/

/-- `n` calls of an iterator whose `next` is `nextAt` on the vector holding `xs`, from
`offset`, yield the items from `offset` on and then `None`. -/
theorem calls_of_nextAt {σ : Type} (xs : List α) (mk : Nat → σ)
    (next : σ → Guarded (Option (Option α) × σ))
    (hnext : ∀ offset, next (mk offset) = (fun r => (r.1, mk r.2)) <$> nextAt (ofList xs) offset) :
    ∀ (n offset : Nat), calls next n (mk offset) =
      pure (((xs.drop offset).map (fun x => some (some x))).take n ++
        List.replicate (n - (xs.length - offset)) none) := by
  intro n
  induction n with
  | zero => intro offset; simp [calls]
  | succ n ih =>
    intro offset
    have hstep : next (mk offset) = pure (if offset < xs.length
        then (xs[offset]?.map some, mk (offset + 1)) else (none, mk offset)) := by
      rw [hnext, nextAt_ofList]
      split <;> rfl
    rw [calls, hstep]
    by_cases hoffset : offset < xs.length
    · rw [if_pos hoffset, Guarded.pure_bind]
      simp only [ih, Guarded.pure_bind, List.getElem?_eq_getElem hoffset,
        List.drop_eq_getElem_cons hoffset]
      simp only [Option.map_some', List.map_cons, List.take_succ_cons, List.cons_append]
      congr 4
      omega
    · rw [if_neg hoffset, Guarded.pure_bind]
      have hdrop : xs.drop offset = [] := List.drop_eq_nil_of_le (by omega)
      simp [ih, hdrop, Nat.sub_eq_zero_of_le (Nat.le_of_not_lt hoffset), List.replicate_succ]

/-- `Vec::iter` yields the list's items in order, then `None` on every later call. -/
theorem calls_iter_ofList (xs : List α) (n : Nat) :
    calls VecIterator.next n (ofList xs).iter =
      pure ((xs.map (fun x => some (some x))).take n ++ List.replicate (n - xs.length) none) := by
  simpa using calls_of_nextAt xs (fun offset => (⟨ofList xs, offset⟩ : VecIterator α))
    VecIterator.next (fun _ => rfl) n 0

/-- `Vec::into_iter` yields the list's items in order, then `None` on every later call. -/
theorem calls_intoIter_ofList (xs : List α) (n : Nat) :
    calls OwnedVecIterator.next n (ofList xs).intoIter =
      pure ((xs.map (fun x => some (some x))).take n ++ List.replicate (n - xs.length) none) := by
  simpa using calls_of_nextAt xs (fun offset => (⟨ofList xs, offset⟩ : OwnedVecIterator α))
    OwnedVecIterator.next (fun _ => rfl) n 0

/-! ### Runs of operations -/

/-- The operations that change a vector, with their arguments; `pushAll` appends the vector
holding its list. -/
inductive VecOp (α : Type)
  | push (value : α)
  | pop
  | insert (i : Nat) (value : α)
  | remove (i : Nat)
  | set (i : Nat) (value : α)
  | pushAll (vec : List α)

namespace VecOp

/-- An operation as `vec.rs` performs it, keeping the vector it leaves. -/
def apply (v : Vec α) : VecOp α → Vec α
  | push value => (v.push value).val
  | pop => v.pop.val.1
  | insert i value => (v.insert i value).val
  | remove i => (v.remove i).val.1
  | set i value => (v.set i value).val
  | pushAll vec => (v.pushAll (ofList vec)).val

/-- The matching operation on lists. -/
def applyList (xs : List α) : VecOp α → List α
  | push value => xs ++ [value]
  | pop => xs.dropLast
  | insert i value => if i ≤ xs.length then xs.take i ++ [value] ++ xs.drop i else xs
  | remove i => xs.eraseIdx i
  | set i value => xs.set i value
  | pushAll vec => xs ++ vec

/-- One operation on the vector holding `xs` leaves the vector holding the list operation's
result. -/
theorem apply_ofList (xs : List α) (op : VecOp α) :
    apply (ofList xs) op = ofList (applyList xs op) := by
  cases op with
  | push value => simp [apply, applyList, push_ofList]
  | pop => simp [apply, applyList, pop_ofList]
  | insert i value => simp [apply, applyList, insert_ofList]
  | remove i => simp [apply, applyList, remove_ofList]
  | set i value => simp [apply, applyList, set_ofList]
  | pushAll vec => simp [apply, applyList, pushAll_ofList]

/-- A run of operations from the vector holding `xs` leaves the vector holding the list the same
run of list operations leaves. -/
theorem foldl_apply_ofList (ops : List (VecOp α)) :
    ∀ xs : List α, ops.foldl apply (ofList xs) = ofList (ops.foldl applyList xs) := by
  induction ops with
  | nil => intro xs; rfl
  | cons op ops ih => intro xs; rw [List.foldl_cons, apply_ofList, ih, List.foldl_cons]

/-- An operation as `vec.rs` performs it, with every access it makes. -/
def step (v : Vec α) : VecOp α → Guarded (Vec α)
  | push value => v.push value
  | pop => Prod.fst <$> v.pop
  | insert i value => v.insert i value
  | remove i => Prod.fst <$> v.remove i
  | set i value => v.set i value
  | pushAll vec => v.pushAll (ofList vec)

/-- Whether the operation stays inside the buffer of the vector holding `xs`: every operation
does, except `set` at index `length`. -/
def inBounds (xs : List α) : VecOp α → Bool
  | set i _ => decide (i ≠ xs.length)
  | _ => true

/-- A run of operations with every access they make, each from the vector the one before left. -/
def run (v : Vec α) : List (VecOp α) → Guarded (Vec α)
  | [] => pure v
  | op :: ops => step v op >>= fun v' => run v' ops

/-- Whether every operation of a run from the vector holding `xs` stays inside its buffer. -/
def runInBounds (xs : List α) : List (VecOp α) → Bool
  | [] => true
  | op :: ops => op.inBounds xs && runInBounds (applyList xs op) ops

/-- One operation on the vector holding `xs`, with its accesses: the vector holding the list
operation's result, inside the buffer unless it is `set` at index `length`. -/
theorem step_ofList (xs : List α) (op : VecOp α) :
    step (ofList xs) op = ⟨ofList (applyList xs op), op.inBounds xs⟩ := by
  cases op with
  | push value => rw [step, push_ofList]; rfl
  | pop => rw [step, pop_ofList]; rfl
  | insert i value =>
    rw [step, insert_ofList]
    simp only [applyList, List.append_assoc, List.singleton_append]
    rfl
  | remove i => rw [step, remove_ofList]; rfl
  | set i value => rw [step, set_ofList]; rfl
  | pushAll vec => rw [step, pushAll_ofList]; rfl

/-- A run of operations from the vector holding `xs`, with its accesses. -/
theorem run_ofList (ops : List (VecOp α)) :
    ∀ xs : List α, run (ofList xs) ops = ⟨ofList (ops.foldl applyList xs), runInBounds xs ops⟩ := by
  induction ops with
  | nil => intro xs; rfl
  | cons op ops ih =>
    intro xs
    rw [run, step_ofList]
    show (⟨(run (ofList (applyList xs op)) ops).val,
      op.inBounds xs && (run (ofList (applyList xs op)) ops).safe⟩ : Guarded (Vec α)) = _
    rw [ih]
    rfl

/-- After a `push`, index `3` of `[1, 2, 3]` is the length again, and `set` there leaves the
buffer. -/
example : runInBounds ([1, 2] : List Nat) [.push 3, .set 2 0, .set 3 0] = false := by decide

end VecOp

/-- `Vec` refines `List`. On the vector holding `xs`, `push`, `pop`, `insert`, `remove`, `set`
and `push_all` give the vector holding what the list operation gives, with `pop` and `remove`
returning the element taken out; `clone`, `from_slice` and `as_slice` give the same list; `get i`
is `xs[i]?`; `n` calls of either iterator's `next` yield the items in order and then `None`. Any
run of operations from `Vec::from_slice s` or `Vec::new` leaves the vector holding the list the
same run of list operations leaves, whose length is that list's length. -/
theorem vec_refines_list :
    (∀ (xs : List α) (x : α), ((ofList xs).push x).val = ofList (xs ++ [x])) ∧
    (∀ xs : List α, (ofList xs).pop.val = (ofList xs.dropLast, xs.getLast?.map some)) ∧
    (∀ (xs : List α) (i : Nat) (x : α), ((ofList xs).insert i x).val =
      ofList (if i ≤ xs.length then xs.take i ++ [x] ++ xs.drop i else xs)) ∧
    (∀ (xs : List α) (i : Nat),
      ((ofList xs).remove i).val = (ofList (xs.eraseIdx i), xs[i]?.map some)) ∧
    (∀ (xs : List α) (i : Nat) (x : α), ((ofList xs).set i x).val = ofList (xs.set i x)) ∧
    (∀ xs ys : List α, ((ofList xs).pushAll (ofList ys)).val = ofList (xs ++ ys)) ∧
    (∀ xs : List α, (ofList xs).clone.val = ofList xs ∧ fromSlice xs = ofList xs ∧
      (ofList xs).asSlice = xs.map some) ∧
    (∀ (xs : List α) (i : Nat), ((ofList xs).get i).val = xs[i]?.map some) ∧
    (∀ (xs : List α) (n : Nat),
      (calls VecIterator.next n (ofList xs).iter).val =
        (xs.map fun x => some (some x)).take n ++ List.replicate (n - xs.length) none ∧
      (calls OwnedVecIterator.next n (ofList xs).intoIter).val =
        (xs.map fun x => some (some x)).take n ++ List.replicate (n - xs.length) none) ∧
    (∀ (s : List α) (ops : List (VecOp α)),
      ops.foldl VecOp.apply (fromSlice s) = ofList (ops.foldl VecOp.applyList s) ∧
      (ops.foldl VecOp.apply (fromSlice s)).length = (ops.foldl VecOp.applyList s).length ∧
      ops.foldl VecOp.apply new = ofList (ops.foldl VecOp.applyList [])) := by
  refine ⟨fun xs x => by rw [push_ofList]; rfl, fun xs => by rw [pop_ofList]; rfl,
    fun xs i x => by simp [insert_ofList], fun xs i => by rw [remove_ofList]; rfl,
    fun xs i x => by rw [set_ofList], fun xs ys => by rw [pushAll_ofList]; rfl,
    fun xs => ⟨by rw [clone_ofList]; rfl, rfl, asSlice_ofList xs⟩,
    fun xs i => by rw [get_ofList]; rfl,
    fun xs n => ⟨by rw [calls_iter_ofList]; rfl, by rw [calls_intoIter_ofList]; rfl⟩,
    fun s ops => ⟨VecOp.foldl_apply_ofList ops s, ?_, VecOp.foldl_apply_ofList ops []⟩⟩
  rw [fromSlice, ← ofList, VecOp.foldl_apply_ofList]
  rfl

/-! ### Sub-vectors -/

/-- While `start` clamped to the length, plus `count`, stays below the word's range, `Vec::sub`
takes `count` elements from `start` on, inside both buffers. -/
theorem sub_ofList (w : Nat) (xs : List α) (start count : Nat) (hlen : xs.length < 2 ^ w)
    (hsum : min start xs.length + count < 2 ^ w) :
    sub w (ofList xs) start count = pure (ofList ((xs.drop start).take count)) := by
  set i := min start xs.length with hi_def
  set j := min (i + count) xs.length with hj_def
  have hi : (if start > xs.length then xs.length else start) = i := by
    simp only [i]; split <;> omega
  have hj : (if i + count > xs.length then xs.length else i + count) = j := by
    simp only [j]; split <;> omega
  have htake : (xs.drop i).take (j - i) = (xs.drop start).take count := by
    by_cases hstart : start ≤ xs.length
    · have hstart' : i = start := by omega
      rw [hstart', List.take_eq_take]
      simp only [List.length_drop]
      omega
    · have hi' : i = xs.length := by omega
      simp [hi', List.drop_eq_nil_of_le (Nat.le_of_not_le hstart)]
  simp only [sub, len, length_ofList, hi, wordAdd_of_lt hsum, Guarded.pure_bind, hj,
    wordSub_of_le (by omega : i ≤ j) (by omega : j < 2 ^ w)]
  by_cases hzero : j - i = 0
  · have hnil : (xs.drop start).take count = [] := by
      rw [← htake, hzero, List.take_zero]
    simp [hzero, hnil, new, ofList]
  · have hxs : xs.map some = (xs.take i).map some ++ ((xs.drop i).take (j - i)).map some ++
        (xs.drop j).map some := by
      have hdrop : xs.drop j = (xs.drop i).drop (j - i) := by
        rw [List.drop_drop, Nat.add_sub_cancel' (by omega : i ≤ j)]
      rw [← List.map_append, ← List.map_append, List.append_assoc, hdrop, List.take_append_drop,
        List.take_append_drop]
    have hloop := copyLoop_spec i (j - i) ((xs.take i).map some)
      (((xs.drop i).take (j - i)).map some) ((xs.drop j).map some) [] (alloc (j - i)) []
      (by simp only [List.length_map, List.length_take]; omega)
      (by simp only [List.length_nil, List.length_map, List.length_take]; omega)
      (by simp only [List.length_map, List.length_take, List.length_drop]; omega) (by simp)
    simp only [List.nil_append, List.append_nil, List.length_map, List.length_take,
      Nat.min_eq_left (by omega : i ≤ xs.length)] at hloop
    rw [← hxs] at hloop
    simp only [if_neg hzero, data_ofList, hloop, Guarded.pure_bind, htake]
    congr 1
    simp [ofList]
    omega

/-- `sub_ofList` on `[1, 2, 3, 4]`, two elements from index 1, on 64-bit words. -/
theorem sub_ofList_middle :
    ([1, 2, 3, 4] : List Nat).length < 2 ^ 64 ∧ min 1 ([1, 2, 3, 4] : List Nat).length + 2 < 2 ^ 64 ∧
      sub 64 (ofList ([1, 2, 3, 4] : List Nat)) 1 2 = pure (ofList [2, 3]) :=
  ⟨by decide, by decide, sub_ofList 64 [1, 2, 3, 4] 1 2 (by decide) (by decide)⟩

/-- `Vec::sub` on a one-element vector with `start = 1` and `count = usize::MAX`: `i + count`
overflows to 0, `j - i` underflows, and the result claims `usize::MAX` elements where
`(xs.drop 1).take count` has none. -/
theorem sub_wraps_at_max_count :
    (sub 64 (fromSlice [0]) 1 (2 ^ 64 - 1)).safe = false ∧
      (sub 64 (fromSlice [0]) 1 (2 ^ 64 - 1)).val.length = 2 ^ 64 - 1 ∧
      (([0] : List Nat).drop 1).take (2 ^ 64 - 1) = [] := by
  decide

/-- `Vec::set` at index `length` stores one cell past the buffer, on every vector, and leaves the
vector as it was. -/
theorem set_length_writes_past_buffer (xs : List α) (x : α) :
    (ofList xs).set xs.length x = ⟨ofList xs, false⟩ := by
  rw [set_ofList, List.set_eq_of_length_le (Nat.le_refl _)]
  simp

/-- Every run of `Vec` operations from the vector holding `xs`, performed as `vec.rs` performs
them, leaves the vector holding what the same run of list operations leaves, and stays inside its
buffers exactly when no `set` of the run stores at index `length`; `get`, `clone` and `drop` stay
inside the buffer of every vector. -/
theorem vec_runs_in_bounds :
    (∀ (xs : List α) (ops : List (VecOp α)),
      VecOp.run (ofList xs) ops =
        ⟨ofList (ops.foldl VecOp.applyList xs), VecOp.runInBounds xs ops⟩) ∧
    (∀ (xs : List α) (i : Nat), ((ofList xs).get i).safe = true) ∧
    (∀ xs : List α, (ofList xs).clone.safe = true ∧ (ofList xs).drop.safe = true) :=
  ⟨fun xs ops => VecOp.run_ofList ops xs, fun xs i => by rw [get_ofList]; rfl,
    fun xs => ⟨by rw [clone_ofList]; rfl, by rw [drop_ofList]; rfl⟩⟩

end Vec

end RedoxKernel.Common
