import RedoxKernel.Fs.Scheme.Inner

/-!
# `SchemeServerResource`: the provider's handle

The provider holds a `SchemeServerResource`, a strong reference to the `SchemeInner`. Reading from
it takes the queued request with the least id out of `todo` (`read`); writing to it stores a reply
in `done` under the packet's id (`write`). Both insist on a buffer of exactly one `Packet`.
`path` writes `":"` and the scheme's name into the caller's buffer, truncated to its length.

`read_of_firstKey` and `read_of_empty` are the two outcomes of `read` on a `Packet`-sized buffer
when `todo` has no key `0`: the least queued request is removed and delivered, or, on an empty
queue, the packet gets id `0` and nothing changes. The key `0` cannot occur (`Scheme.Ids`), which
is what keeps a request from sitting forever at the head of the queue.

`path` is two `while` loops. Each is modelled with a fuel argument and reports a fault if the fuel
runs out while its guard still holds; `path_spec` shows that the length of the buffer is enough
fuel, that neither loop indexes outside the buffer or the name and that the guard `i - 1` is never
taken at `i = 0`, and that the result is the first `min n (1 + |name|)` bytes of `":" ++ name`
over the unchanged rest of the buffer.
-/

set_option autoImplicit false
set_option relaxedAutoImplicit false

namespace RedoxKernel.Fs

namespace SchemeServerResource

/-! ### Requests and replies -/

/-- `SchemeServerResource::read` into a buffer of `len` bytes that holds `packet`: on a
`Packet`-sized buffer, the id of the least queued request, and when that id is not `0`, the
request's words, removed from `todo`. -/
def read (w : Nat) (inner : SchemeInner) (len : Nat) (packet : Packet) :
    Except Error Nat × Packet × SchemeInner :=
  if len = packetSize w then
    let packet := { packet with id := inner.todo.firstKey?.getD 0 }
    if packet.id > 0 then
      match inner.todo.remove packet.id with
      | (some regs, todo) =>
        (.ok (packetSize w), { packet with a := regs.a, b := regs.b, c := regs.c, d := regs.d },
          { inner with todo })
      | (none, todo) => (.ok 0, packet, { inner with todo })
    else (.ok 0, packet, inner)
  else (.error EINVAL, packet, inner)

/-- `SchemeServerResource::write` from a buffer of `len` bytes that holds `packet`: on a
`Packet`-sized buffer, the reply's words stored in `done` under the packet's id. -/
def write (w : Nat) (inner : SchemeInner) (len : Nat) (packet : Packet) :
    Except Error Nat × SchemeInner :=
  if len = packetSize w then
    (.ok (packetSize w), { inner with done := inner.done.insert packet.id packet.regs })
  else (.error EINVAL, inner)

/-- `SchemeServerResource::seek`. -/
def seek : Except Error Nat := .error ESPIPE

/-- `SchemeServerResource::sync`. -/
def sync : Except Error Unit := .error EINVAL

/-- `SchemeServerResource::truncate`. -/
def truncate (_len : Nat) : Except Error Unit := .error EINVAL

/-- On a `Packet`-sized buffer, with a least queued id `k` that is not `0`, `read` removes the
request under `k` and delivers `k` and its four words. -/
theorem read_of_firstKey (w : Nat) (inner : SchemeInner) (packet : Packet) {k : Nat}
    (hk : inner.todo.firstKey? = some k) (hpos : 0 < k) :
    ∃ regs, inner.todo.get k = some regs ∧
      read w inner (packetSize w) packet =
        (.ok (packetSize w), ⟨k, regs.a, regs.b, regs.c, regs.d⟩,
          { inner with todo := (inner.todo.remove k).2 }) := by
  obtain ⟨regs, hregs⟩ := Option.isSome_iff_exists.mp (BTreeMap.firstKey?_eq_some hk).1
  refine ⟨regs, hregs, ?_⟩
  have hremove : inner.todo.remove k = (some regs, (inner.todo.remove k).2) := by
    rw [← hregs]; rfl
  simp only [read, hk, Option.getD_some, if_true, gt_iff_lt, hpos, if_pos]
  rw [hremove]

/-- On a `Packet`-sized buffer and an empty queue, `read` gives id `0` and `Ok(0)` and changes
nothing. -/
theorem read_of_empty (w : Nat) (inner : SchemeInner) (packet : Packet)
    (hempty : inner.todo.firstKey? = none) :
    read w inner (packetSize w) packet = (.ok 0, { packet with id := 0 }, inner) := by
  simp [read, hempty]

/-! ### The path -/

/-- `b":"`, the byte of `':'`. -/
def pathA : List UInt8 := [58]

/-- The first loop of `SchemeServerResource::path`, `while i < buf.len() && i < path_a.len() {
buf[i] = path_a[i]; i += 1 }`, allowed `fuel` iterations. -/
def pathLoopA : Nat → Nat → List UInt8 → Guarded (Nat × List UInt8)
  | 0, i, buf => if i < buf.length ∧ i < pathA.length then Guarded.fault (i, buf) else pure (i, buf)
  | fuel + 1, i, buf =>
    if i < buf.length ∧ i < pathA.length then do
      let x ← sliceGet pathA i
      let buf ← sliceSet buf i x
      pathLoopA fuel (i + 1) buf
    else pure (i, buf)

/-- The guard of the second loop, `i < buf.len() && i - path_a.len() < path_b.len()`, on `w`-bit
words: the subtraction is evaluated only when the first test holds. -/
def pathGuardB (w : Nat) (pathB buf : List UInt8) (i : Nat) : Guarded Bool :=
  if i < buf.length then (fun k => decide (k < pathB.length)) <$> wordSub w i pathA.length
  else pure false

/-- The second loop of `SchemeServerResource::path`, `while i < buf.len() && i - path_a.len() <
path_b.len() { buf[i] = path_b[i - path_a.len()]; i += 1 }`, allowed `fuel` iterations. -/
def pathLoopB (w : Nat) (pathB : List UInt8) : Nat → Nat → List UInt8 → Guarded (Nat × List UInt8)
  | 0, i, buf => do
    if ← pathGuardB w pathB buf i then Guarded.fault (i, buf) else pure (i, buf)
  | fuel + 1, i, buf => do
    if ← pathGuardB w pathB buf i then
      let k ← wordSub w i pathA.length
      let x ← sliceGet pathB k
      let buf ← sliceSet buf i x
      pathLoopB w pathB fuel (i + 1) buf
    else pure (i, buf)

/-- `SchemeServerResource::path`: `":"` and then the scheme's name, copied into `buf` for as long
as it has room; the length of the buffer bounds the iterations of each loop. -/
def path (w : Nat) (inner : SchemeInner) (buf : List UInt8) :
    Guarded (Except Error Nat × List UInt8) := do
  let (i, buf) ← pathLoopA buf.length 0 buf
  let (i, buf) ← pathLoopB w inner.name buf.length i buf
  pure (.ok i, buf)

/-- The first loop on a buffer with room writes `':'` at 0 and stops at 1. -/
theorem pathLoopA_cons (fuel : Nat) (b : UInt8) (rest : List UInt8) :
    pathLoopA (fuel + 1) 0 (b :: rest) = pure (1, 58 :: rest) := by
  have hstop : ∀ f, pathLoopA f 1 (58 :: rest) = pure (1, 58 :: rest) := by
    intro f; cases f <;> simp [pathLoopA, pathA]
  have hget : sliceGet pathA 0 = pure 58 := rfl
  have hset : sliceSet (b :: rest) 0 58 = pure (58 :: rest) := by
    simpa using sliceSet_mid [] rest b 58
  rw [pathLoopA, if_pos (by simp [pathA]), hget, Guarded.pure_bind, hset, Guarded.pure_bind, hstop]

/-- The second loop, entered at `i ≥ 1` on a buffer whose first `i` bytes are those of
`":" ++ name`, copies the name on until the buffer or the name runs out, with every index inside
the buffer and the name and no subtraction below zero. -/
theorem pathLoopB_spec (w : Nat) (name : List UInt8) :
    ∀ (rest : List UInt8) (fuel i : Nat), 1 ≤ i → i ≤ 1 + name.length → rest.length ≤ fuel →
      i + rest.length < 2 ^ w →
      pathLoopB w name fuel i ((58 :: name).take i ++ rest) =
        pure (i + min rest.length (1 + name.length - i),
          (58 :: name).take (i + min rest.length (1 + name.length - i)) ++
            rest.drop (min rest.length (1 + name.length - i))) := by
  intro rest
  induction rest with
  | nil =>
    intro fuel i _ hi _ _
    have hlen : ((58 :: name).take i).length = i := by simp; omega
    have hguard : pathGuardB w name ((58 :: name).take i) i = pure false := by
      simp [pathGuardB, hlen]
    cases fuel <;> simp [pathLoopB, hguard]
  | cons r rest ih =>
    intro fuel i h1 hi hfuel hw
    obtain ⟨fuel, rfl⟩ : ∃ f, fuel = f + 1 := ⟨fuel - 1, by simp at hfuel; omega⟩
    have hlen : ((58 :: name).take i).length = i := by simp; omega
    have hsub : wordSub w i pathA.length = pure (i - 1) :=
      wordSub_of_le (by simp [pathA]; omega) (by simp at hw; omega)
    by_cases hmore : i - 1 < name.length
    · have hguard : pathGuardB w name ((58 :: name).take i ++ r :: rest) i = pure true := by
        simp [pathGuardB, hlen, hsub, hmore]
      have hget : sliceGet name (i - 1) = pure name[i - 1] := sliceGet_of_lt hmore
      have hset := sliceSet_mid ((58 :: name).take i) rest r name[i - 1]
      rw [hlen] at hset
      have htake : (58 :: name).take i ++ name[i - 1] :: rest = (58 :: name).take (i + 1) ++ rest := by
        obtain ⟨j, rfl⟩ : ∃ j, i = j + 1 := ⟨i - 1, by omega⟩
        have hj : j < name.length := by omega
        simp [List.take_succ_cons, List.take_succ, List.getElem?_eq_getElem hj]
      have hrest := ih fuel (i + 1) (by omega) (by omega) (by simp at hfuel; omega)
        (by simp at hw; omega)
      rw [pathLoopB, hguard, Guarded.pure_bind, if_pos rfl, hsub, Guarded.pure_bind, hget,
        Guarded.pure_bind, hset, Guarded.pure_bind, htake, hrest]
      have hmin : min (r :: rest).length (1 + name.length - i) =
          min rest.length (1 + name.length - (i + 1)) + 1 := by simp only [List.length_cons]; omega
      rw [hmin, List.drop_succ_cons, ← Nat.add_assoc, Nat.add_right_comm i]
    · have hguard : pathGuardB w name ((58 :: name).take i ++ r :: rest) i = pure false := by
        simp [pathGuardB, hlen, hsub, hmore]
      have hzero : 1 + name.length - i = 0 := by omega
      rw [pathLoopB, hguard, Guarded.pure_bind, if_neg (by simp)]
      simp [hzero]

/-- `SchemeServerResource::path` writes the first `min n (1 + |name|)` bytes of `":" ++ name`
into a buffer of `n` bytes, leaves the rest of it unchanged and returns their number, with no
index outside the buffer or the name and no `i - 1` taken at `i = 0`, on every buffer of a
`w`-bit address space. -/
theorem path_spec (w : Nat) (inner : SchemeInner) (buf : List UInt8) (hbuf : buf.length < 2 ^ w) :
    path w inner buf =
      pure (.ok (min buf.length (1 + inner.name.length)),
        (58 :: inner.name).take (min buf.length (1 + inner.name.length)) ++
          buf.drop (min buf.length (1 + inner.name.length))) := by
  cases buf with
  | nil =>
    have hguard : pathGuardB w inner.name [] 0 = pure false := by simp [pathGuardB]
    simp [path, pathLoopA, pathLoopB, hguard]
  | cons b rest =>
    have hloop := pathLoopB_spec w inner.name rest (rest.length + 1) 1 (Nat.le_refl 1)
      (by omega) (by omega) (by simpa [Nat.add_comm] using hbuf)
    simp only [List.take_succ_cons, List.take_zero] at hloop
    rw [show [(58 : UInt8)] ++ rest = 58 :: rest from rfl] at hloop
    obtain ⟨m, hm⟩ : ∃ m, min (rest.length + 1) (1 + inner.name.length) = m + 1 :=
      ⟨min rest.length inner.name.length, by omega⟩
    have hk : min rest.length (1 + inner.name.length - 1) = m := by omega
    simp only [path, List.length_cons, pathLoopA_cons, Guarded.pure_bind]
    rw [hloop, hk, hm, Guarded.pure_bind, List.drop_succ_cons, Nat.add_comm 1 m]

/-- `path_spec` on a three-byte buffer for the scheme `pipe`, which it truncates to `:pi`. -/
theorem path_spec_pipe :
    [(0 : UInt8), 0, 0].length < 2 ^ 64 ∧
      path 64 (SchemeInner.new [112, 105, 112, 101]) [0, 0, 0] = pure (.ok 3, [58, 112, 105]) :=
  ⟨by decide, path_spec 64 (SchemeInner.new [112, 105, 112, 101]) [0, 0, 0] (by decide)⟩

end SchemeServerResource

end RedoxKernel.Fs
