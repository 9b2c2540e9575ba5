import RedoxKernel.Fs.Scheme.Server
import RedoxKernel.Fs.Scheme.Client

/-!
# The scheme as a system of concurrent parties

A scheme has one provider, which holds the `SchemeServerResource` handles, and any number of client
contexts, which reach the provider through `SchemeInner::call`. The kernel switches contexts only
where `call` yields, in its polling loop, so the code a party runs between two yields is one step.
`System` is the state all parties share: the number of strong references to the `SchemeInner` (the
provider's handles), the inner itself, the provider context's memory map, the names of the kernel's
registered schemes, and where each client is. `Action` is one step of one party and `System.step`
its effect, `none` where that party cannot take it.

A client step is the start of an operation up to its first yield (`startCall` for the operations
without a buffer, `lend` for the six that lend one) or one turn of the polling loop (`poll`), which
ends the operation when a reply is there or the inner is gone and then retires the lent window. A
provider step is a `read` (`recv`) or `write` (`reply`) on its handle, a `dup`, or the drop of a
handle (`close`), the last of which runs `Drop for SchemeInner`.

The state also carries a ghost trace, newest event first, of what the properties talk about:
requests queued, delivered and answered, calls returning or refused, the inner dropped.
`HappensBefore` orders its events. `Transition` lists the ten things a step can do, and
`step_cases` proves that every step is one of them; the invariants of `Scheme.Ids`,
`Scheme.Order` and `Scheme.Calls` are proved from it alone. `Reachable w P` holds of the states
that runs from `Scheme::new` reach when every step satisfies `P`: `NoWrap w` excludes the wrap of
`next_id`, and `RepliesToRead w` has the provider answer only requests it read, each at most once.
`System.run` takes a list of steps in turn, for the results that say what a run can reach, and
`System.Obeys` says that each of them is allowed by a discipline in the state it is taken from.
The sample runs at the end (`twoCalls`, `firstReturned`, `bothRead`) are the states on which the
later modules' results are shown.

Scope. Each context runs one scheme operation at a time. `Context::next_mem` is not modelled: its
value is part of the `lend` action, so every value it can return is covered. What an operation
makes of its call's result (a `Box<SchemeResource>`, `Ok(())`) is not modelled either, nor the
error a lending operation returns at once when it gets no window (`Lend.noWindow`): the model keeps
that step's effect on the memory map, and the trace records only calls.
-/

set_option autoImplicit false
set_option relaxedAutoImplicit false

namespace RedoxKernel.Fs

/-! ### State and actions -/

/-- Where a client context is: in no scheme operation, or blocked in the polling loop of
`SchemeInner::call` on request `id`, with the window its operation lent, to retire on return. -/
inductive Phase
  | idle
  | waiting (id : Nat) (lent : Option Nat)
deriving DecidableEq, Repr

/-- An event of the ghost trace. -/
inductive Event
  /-- The call of `client` queued `regs` under `id`. -/
  | submit (client id : Nat) (regs : Regs)
  /-- The provider read request `id` and its words. -/
  | deliver (id : Nat) (regs : Regs)
  /-- The provider wrote a reply for `id`. -/
  | reply (id : Nat) (regs : Regs)
  /-- The call of `client` on `id` returned `result`. -/
  | ret (client id : Nat) (result : Except Error Nat)
  /-- The call of `client` could not upgrade at its start and returned `Err(EBADF)`. -/
  | refuse (client : Nat)
  /-- The last strong reference to the inner was dropped. -/
  | drop

/-- The shared state: the number of `Arc<SchemeInner>` alive, the inner, the provider context's
memory map, the names of the kernel's registered schemes, each client's phase, and the ghost
trace, newest event first. -/
structure System where
  strong : Nat
  inner : SchemeInner
  memory : List ContextMemory
  schemes : List (List UInt8)
  clients : Nat → Phase
  trace : List Event

/-- One step of one party. -/
inductive Action
  /-- `client` starts a call with no buffer (`seek`, `sync`, `truncate`, or the close of `Drop`). -/
  | call (client : Nat) (regs : Regs)
  /-- `client` starts a lending operation `op`, and `next_mem()` gives `virt`. -/
  | lend (client : Nat) (op : Lend) (virt : Nat)
  /-- `client` takes one turn of its polling loop. -/
  | poll (client : Nat)
  /-- The provider reads into a buffer of `len` bytes holding `packet`. -/
  | recv (len : Nat) (packet : Packet)
  /-- The provider writes a buffer of `len` bytes holding `packet`. -/
  | reply (len : Nat) (packet : Packet)
  /-- The provider duplicates a handle. -/
  | dup
  /-- The provider drops a handle. -/
  | close

namespace System

/-- `Scheme::new`: one provider handle, a fresh inner, every client idle. -/
def new (name : List UInt8) (memory : List ContextMemory) (schemes : List (List UInt8)) :
    System :=
  ⟨1, SchemeInner.new name, memory, schemes, fun _ => .idle, []⟩

/-! ### The parties' steps -/

/-- `SchemeInner::call` by client `c` up to its first yield: with the inner alive, queue the request
under `next_id`, advance `next_id` and block; with the inner gone, return `Err(EBADF)`. -/
def startCall (w : Nat) (s : System) (c : Nat) (regs : Regs) (lent : Option Nat) : System :=
  if 0 < s.strong then
    { s with inner := (s.inner.submit w regs).2,
             clients := Function.update s.clients c (.waiting s.inner.nextId lent),
             trace := .submit c s.inner.nextId regs :: s.trace }
  else { s with trace := .refuse c :: s.trace }

/-- A lending operation of client `c` up to its first yield, with `next_mem()` giving `virt`: with
the inner alive, push the window's record and, unless `virt` is `0`, start the call; otherwise
return the operation's error, the record left in place. -/
def lend (w : Nat) (s : System) (c : Nat) (op : Lend) (virt : Nat) : System :=
  if 0 < s.strong then
    let s := { s with memory := s.memory ++ [op.record virt] }
    if 0 < virt then s.startCall w c (op.request virt) (some virt) else s
  else s

/-- The retirement of the window a returning operation lent, if it lent one. -/
def retireLent : Option Nat → List ContextMemory → List ContextMemory
  | some virt, memory => retire virt memory
  | none, memory => memory

/-- One turn of the polling loop of client `c`, blocked on `id`: with the inner alive, take the
reply under `id` out of `done`, and if there was one, return its first word demuxed and retire the
lent window; with the inner gone, return `Err(EBADF)`, and the retirement's upgrade fails too. -/
def poll (w : Nat) (s : System) (c id : Nat) (lent : Option Nat) : System :=
  if 0 < s.strong then
    match s.inner.collect id with
    | (some regs, inner) =>
      { s with inner, memory := retireLent lent s.memory,
               clients := Function.update s.clients c .idle,
               trace := .ret c id (demux w regs.a) :: s.trace }
    | (none, _) => s
  else
    { s with clients := Function.update s.clients c .idle,
             trace := .ret c id (.error EBADF) :: s.trace }

/-- `SchemeServerResource::read` on a buffer of `len` bytes holding `packet`; a request is delivered
when the buffer is `Packet`-sized and the packet comes back with an id that is not `0`. -/
def recv (w : Nat) (s : System) (len : Nat) (packet : Packet) : System :=
  let (_, packet, inner) := SchemeServerResource.read w s.inner len packet
  { s with inner,
           trace := if len = packetSize w ∧ 0 < packet.id then
             .deliver packet.id packet.regs :: s.trace else s.trace }

/-- `SchemeServerResource::write` from a buffer of `len` bytes holding `packet`. -/
def reply (w : Nat) (s : System) (len : Nat) (packet : Packet) : System :=
  { s with inner := (SchemeServerResource.write w s.inner len packet).2,
           trace := if len = packetSize w then .reply packet.id packet.regs :: s.trace
             else s.trace }

/-- The drop of a provider handle. The last one drops the inner, whose `Drop` removes every
scheme of its name from the kernel's list. -/
def close (s : System) : System :=
  if s.strong = 1 then
    { s with strong := 0, schemes := s.schemes.filter (· ≠ s.inner.name),
             trace := .drop :: s.trace }
  else { s with strong := s.strong - 1 }

/-- One step: a client acts only in its own phase, and the provider only while it holds a
handle. -/
def step (w : Nat) (s : System) : Action → Option System
  | .call c regs => if s.clients c = .idle then some (s.startCall w c regs none) else none
  | .lend c op virt => if s.clients c = .idle then some (s.lend w c op virt) else none
  | .poll c =>
    match s.clients c with
    | .waiting id lent => some (s.poll w c id lent)
    | .idle => none
  | .recv len packet => if 0 < s.strong then some (s.recv w len packet) else none
  | .reply len packet => if 0 < s.strong then some (s.reply w len packet) else none
  | .dup => if 0 < s.strong then some { s with strong := s.strong + 1 } else none
  | .close => if 0 < s.strong then some s.close else none

end System

/-! ### Disciplines and reachable states -/

/-- The steps that run `submit` take `next_id` below `2^w - 1`, so that it never wraps. -/
def NoWrap (w : Nat) (s : System) : Action → Prop
  | .call _ _ => 0 < s.strong → s.inner.nextId + 1 < 2 ^ w
  | .lend _ _ virt => 0 < s.strong → 0 < virt → s.inner.nextId + 1 < 2 ^ w
  | _ => True

/-- The provider writes a reply only for an id it has read and not yet answered. -/
def RepliesToRead (w : Nat) (s : System) : Action → Prop
  | .reply len packet => len = packetSize w →
    (∃ regs, Event.deliver packet.id regs ∈ s.trace) ∧
      ∀ regs, Event.reply packet.id regs ∉ s.trace
  | _ => True

/-- The steps that neither wrap `next_id` nor reply out of turn. -/
def Disciplined (w : Nat) (s : System) (a : Action) : Prop := NoWrap w s a ∧ RepliesToRead w s a

/-- The states reachable from `Scheme::new` by steps that satisfy `P`. -/
inductive Reachable (w : Nat) (P : System → Action → Prop) : System → Prop
  | new (name : List UInt8) (memory : List ContextMemory) (schemes : List (List UInt8)) :
      Reachable w P (System.new name memory schemes)
  | next {s s' : System} {a : Action} :
      Reachable w P s → P s a → s.step w a = some s' → Reachable w P s'

namespace Reachable

variable {w : Nat} {P Q : System → Action → Prop} {s : System}

/-- A property that holds of every new scheme and that every allowed step from a reachable state
keeps holds of every reachable state. -/
theorem invariant (I : System → Prop)
    (hnew : ∀ name memory schemes, I (System.new name memory schemes))
    (hstep : ∀ {s s' : System} {a : Action},
      Reachable w P s → I s → P s a → s.step w a = some s' → I s')
    (hs : Reachable w P s) : I s := by
  induction hs with
  | new name memory schemes => exact hnew name memory schemes
  | next hs hP h ih => exact hstep hs ih hP h

/-- One more step from a reachable state, allowed by `P` in that state. -/
theorem after {s' : System} {a : Action} (hs : Reachable w P s) (h : s.step w a = some s')
    (hP : P s a) : Reachable w P s' :=
  .next hs hP h

/-- Fewer allowed steps reach fewer states. -/
theorem mono (hPQ : ∀ s a, P s a → Q s a) (hs : Reachable w P s) : Reachable w Q s := by
  induction hs with
  | new name memory schemes => exact .new name memory schemes
  | next _ hP h ih => exact .next ih (hPQ _ _ hP) h

end Reachable

/-! ### What a step can do -/

/-- The ten transitions, each with its guard and its whole effect on the state; the discipline
a run imposes shows up as what it gives the transition it restricts. -/
inductive Transition (w : Nat) (s : System) (a : Action) : System → Prop
  /-- A call queues its request under `next_id` and blocks, after pushing its window if it lent
  one. -/
  | submit (c : Nat) (regs : Regs) (lent : Option Nat) (memory : List ContextMemory) :
      s.clients c = .idle → 0 < s.strong → (NoWrap w s a → s.inner.nextId + 1 < 2 ^ w) →
      (lent = none ∧ memory = s.memory ∨ ∃ op virt, a = .lend c op virt ∧ lent = some virt ∧
        memory = s.memory ++ [Lend.record op virt]) →
      Transition w s a
        { s with memory, inner := (s.inner.submit w regs).2,
                 clients := Function.update s.clients c (.waiting s.inner.nextId lent),
                 trace := .submit c s.inner.nextId regs :: s.trace }
  /-- A call starts after the inner is gone. -/
  | refuse (c : Nat) : s.clients c = .idle → s.strong = 0 →
      Transition w s a { s with trace := .refuse c :: s.trace }
  /-- Nothing changes. -/
  | idle : Transition w s a s
  /-- A lending operation pushes its window and returns at once, `next_mem()` having given `0`. -/
  | push (c : Nat) (op : Lend) (virt : Nat) : a = .lend c op virt → 0 < s.strong →
      Transition w s a { s with memory := s.memory ++ [op.record virt] }
  /-- A blocked call finds its reply, returns it and retires its window. -/
  | answer (c id : Nat) (lent : Option Nat) (regs : Regs) :
      s.clients c = .waiting id lent → 0 < s.strong → s.inner.done.get id = some regs →
      Transition w s a
        { s with inner := (s.inner.collect id).2, memory := System.retireLent lent s.memory,
                 clients := Function.update s.clients c .idle,
                 trace := .ret c id (demux w regs.a) :: s.trace }
  /-- A blocked call finds the inner gone. -/
  | orphan (c id : Nat) (lent : Option Nat) : s.clients c = .waiting id lent → s.strong = 0 →
      Transition w s a
        { s with clients := Function.update s.clients c .idle,
                 trace := .ret c id (.error EBADF) :: s.trace }
  /-- The provider reads the request with the least id. -/
  | deliver (k : Nat) (regs : Regs) : 0 < s.strong → s.inner.todo.firstKey? = some k → 0 < k →
      s.inner.todo.get k = some regs →
      Transition w s a
        { s with inner := { s.inner with todo := (s.inner.todo.remove k).2 },
                 trace := .deliver k regs :: s.trace }
  /-- The provider stores a reply. -/
  | reply (packet : Packet) : 0 < s.strong →
      (RepliesToRead w s a →
        (∃ regs, Event.deliver packet.id regs ∈ s.trace) ∧
          ∀ regs, Event.reply packet.id regs ∉ s.trace) →
      Transition w s a
        { s with inner := { s.inner with done := s.inner.done.insert packet.id packet.regs },
                 trace := .reply packet.id packet.regs :: s.trace }
  /-- The provider duplicates or drops a handle and keeps at least one. -/
  | share (n : Nat) : 0 < s.strong → 0 < n → Transition w s a { s with strong := n }
  /-- The provider drops its last handle. -/
  | drop : s.strong = 1 →
      Transition w s a
        { s with strong := 0, schemes := s.schemes.filter (· ≠ s.inner.name),
                 trace := .drop :: s.trace }

namespace System

variable {w : Nat} {s s' : System} {a : Action}

/-- `read` on a system whose least queued id is `k`: a delivery when `k` is not `0` and the buffer
is `Packet`-sized, and no change otherwise. -/
theorem recv_cases (len : Nat) (packet : Packet) :
    s.recv w len packet = s ∨
      ∃ k regs, s.inner.todo.firstKey? = some k ∧ 0 < k ∧ s.inner.todo.get k = some regs ∧
        s.recv w len packet =
          { s with inner := { s.inner with todo := (s.inner.todo.remove k).2 },
                   trace := .deliver k regs :: s.trace } := by
  by_cases hlen : len = packetSize w
  · subst hlen
    cases hk : s.inner.todo.firstKey? with
    | none =>
      left
      simp [recv, SchemeServerResource.read_of_empty _ _ _ hk]
    | some k =>
      rcases Nat.eq_zero_or_pos k with rfl | hpos
      · left
        simp [recv, SchemeServerResource.read, hk]
      · obtain ⟨regs, hregs, hread⟩ := SchemeServerResource.read_of_firstKey w s.inner packet hk hpos
        right
        refine ⟨k, regs, rfl, hpos, hregs, ?_⟩
        simp only [recv, hread, hpos, and_self, if_true]
        rfl
  · left
    simp [recv, SchemeServerResource.read, hlen]

/-- Every step is one of the ten transitions. -/
theorem step_cases (h : s.step w a = some s') : Transition w s a s' := by
  cases a <;> simp only [step, Option.ite_none_right_eq_some, Option.some.injEq] at h
  case call c regs =>
    obtain ⟨hc, rfl⟩ := h
    unfold startCall
    split_ifs with hs
    · exact .submit c regs none s.memory hc hs (fun hw => hw hs) (.inl ⟨rfl, rfl⟩)
    · exact .refuse c hc (by omega)
  case lend c op virt =>
    obtain ⟨hc, rfl⟩ := h
    unfold lend startCall
    by_cases hs : 0 < s.strong
    · by_cases hv : 0 < virt
      · simp only [hs, hv, if_true]
        exact .submit c _ (some virt) _ hc hs (fun hw => hw hs hv) (.inr ⟨op, virt, rfl, rfl, rfl⟩)
      · simp only [hs, hv, if_true, if_false]
        exact .push c op virt rfl hs
    · simp only [hs, if_false]
      exact .idle
  case poll c =>
    split at h
    · next id lent hc =>
      cases h
      unfold poll
      split_ifs with hs
      · have hcollect : s.inner.collect id = (s.inner.done.get id, (s.inner.collect id).2) := rfl
        rw [hcollect]
        cases hdone : s.inner.done.get id with
        | none => exact .idle
        | some regs => exact .answer c id lent regs hc hs hdone
      · exact .orphan c id lent hc (by omega)
    · cases h
  case recv len packet =>
    obtain ⟨hs, rfl⟩ := h
    rcases recv_cases (s := s) (w := w) len packet with hrecv | ⟨k, regs, hk, hpos, hregs, hrecv⟩
    · rw [hrecv]; exact .idle
    · rw [hrecv]; exact .deliver k regs hs hk hpos hregs
  case reply len packet =>
    obtain ⟨hs, rfl⟩ := h
    unfold reply SchemeServerResource.write
    split_ifs with hlen
    · exact .reply packet hs fun hP => hP hlen
    · exact .idle
  case dup =>
    obtain ⟨hs, rfl⟩ := h
    exact .share _ hs (Nat.succ_pos _)
  case close =>
    obtain ⟨hs, rfl⟩ := h
    unfold close
    split_ifs with hone
    · exact .drop hone
    · exact .share _ hs (by omega)

/-- With the inner alive and a reply under `id` in `done`, a client blocked on `id` returns the
reply's first word, demuxed, at its next turn, and retires its window. -/
theorem step_poll_of_done {c id : Nat} {lent : Option Nat} {regs : Regs} (hs : 0 < s.strong)
    (hc : s.clients c = .waiting id lent) (hdone : s.inner.done.get id = some regs) :
    s.step w (.poll c) =
      some { s with inner := (s.inner.collect id).2, memory := retireLent lent s.memory,
                    clients := Function.update s.clients c .idle,
                    trace := .ret c id (demux w regs.a) :: s.trace } := by
  have hcollect : s.inner.collect id = (some regs, (s.inner.collect id).2) := by
    rw [← hdone]; rfl
  simp only [step, hc]
  rw [poll, if_pos hs, hcollect]

/-- With the inner gone, a blocked client's next turn returns `Err(EBADF)`. -/
theorem step_poll_of_dropped {c id : Nat} {lent : Option Nat} (hs : s.strong = 0)
    (hc : s.clients c = .waiting id lent) :
    s.step w (.poll c) =
      some { s with clients := Function.update s.clients c .idle,
                    trace := .ret c id (.error EBADF) :: s.trace } := by
  simp [step, hc, poll, hs]

/-- With the inner gone, a call started by an idle client returns `Err(EBADF)` at once. -/
theorem step_call_of_dropped {c : Nat} (regs : Regs) (hs : s.strong = 0)
    (hc : s.clients c = .idle) :
    s.step w (.call c regs) = some { s with trace := .refuse c :: s.trace } := by
  simp [step, hc, startCall, hs]

/-- With the inner alive and `k`, not `0`, the least queued id, the provider's `read` on a
`Packet`-sized buffer delivers request `k`, whatever the buffer held. -/
theorem step_recv_of_firstKey {k : Nat} {regs : Regs} (hs : 0 < s.strong)
    (hk : s.inner.todo.firstKey? = some k) (hpos : 0 < k) (hregs : s.inner.todo.get k = some regs)
    (packet : Packet) :
    s.step w (.recv (packetSize w) packet) =
      some { s with inner := { s.inner with todo := (s.inner.todo.remove k).2 },
                    trace := .deliver k regs :: s.trace } := by
  obtain ⟨regs', hregs', hread⟩ := SchemeServerResource.read_of_firstKey w s.inner packet hk hpos
  cases hregs.symm.trans hregs'
  simp only [step, if_pos hs, recv, hread, hpos, and_self, if_true]
  rfl

/-- With the inner alive, the provider's `write` of a `Packet`-sized buffer stores its words as the
reply for its id, whatever was there. -/
theorem step_reply_of_size (hs : 0 < s.strong) (packet : Packet) :
    s.step w (.reply (packetSize w) packet) =
      some { s with inner := { s.inner with done := s.inner.done.insert packet.id packet.regs },
                    trace := .reply packet.id packet.regs :: s.trace } := by
  simp only [step, if_pos hs, reply, SchemeServerResource.write, if_true]

/-! ### Runs -/

/-- The steps `actions`, one after another, `none` as soon as one cannot be taken. -/
def run (w : Nat) (s : System) : List Action → Option System
  | [] => some s
  | a :: actions => (s.step w a).bind fun s' => s'.run w actions

@[simp] theorem run_nil : s.run w [] = some s := rfl

theorem run_cons_of_step (h : s.step w a = some s') (actions : List Action) :
    s.run w (a :: actions) = s'.run w actions := by
  simp [run, h]

theorem run_append (actions₁ actions₂ : List Action) :
    s.run w (actions₁ ++ actions₂) = (s.run w actions₁).bind fun s' => s'.run w actions₂ := by
  induction actions₁ generalizing s with
  | nil => rfl
  | cons a actions ih =>
    rcases h : s.step w a with _ | s₁
    · simp [run, h]
    · rw [List.cons_append, run_cons_of_step h, run_cons_of_step h, ih]

/-- Every step of `actions` from `s` is allowed by `P` in the state it is taken from. -/
def Obeys (w : Nat) (P : System → Action → Prop) (s : System) : List Action → Prop
  | [] => True
  | a :: actions => P s a ∧ ∀ s', s.step w a = some s' → s'.Obeys w P actions

/-- A step other than client `c`'s own turn leaves a blocked `c` as it is: another client's step
changes only its own phase, and the provider's steps no phase. -/
theorem clients_step_of_waiting {c id : Nat} {lent : Option Nat}
    (hc : s.clients c = .waiting id lent) (ha : a ≠ .poll c) (h : s.step w a = some s') :
    s'.clients c = .waiting id lent := by
  cases a <;> simp only [step, Option.ite_none_right_eq_some, Option.some.injEq] at h
  case call c' regs =>
    obtain ⟨hidle, rfl⟩ := h
    have hne : c ≠ c' := by rintro rfl; rw [hc] at hidle; cases hidle
    unfold startCall
    split_ifs <;> simp [Function.update_noteq hne, hc]
  case lend c' op virt =>
    obtain ⟨hidle, rfl⟩ := h
    have hne : c ≠ c' := by rintro rfl; rw [hc] at hidle; cases hidle
    unfold lend startCall
    split_ifs with hs <;> simp [Function.update_noteq hne, hc, hs]
  case poll c' =>
    have hne : c ≠ c' := by rintro rfl; exact ha rfl
    split at h
    · cases h
      unfold poll
      split_ifs
      · split <;> simp [Function.update_noteq hne, hc]
      · simp [Function.update_noteq hne, hc]
    · cases h
  all_goals obtain ⟨-, rfl⟩ := h
  case close => unfold close; split_ifs <;> exact hc
  all_goals exact hc

end System

/-- A run from a reachable state, of steps that `P` allows in every state, reaches reachable
states. -/
theorem Reachable.of_run {w : Nat} {P : System → Action → Prop} {s s' : System}
    {actions : List Action} (hP : ∀ s, ∀ a ∈ actions, P s a) (hs : Reachable w P s)
    (h : s.run w actions = some s') : Reachable w P s' := by
  induction actions generalizing s with
  | nil => exact Option.some.inj h ▸ hs
  | cons a actions ih =>
    obtain ⟨s₁, h₁, h⟩ := Option.bind_eq_some.mp h
    exact ih (fun s b hb => hP s b (List.mem_cons_of_mem a hb))
      (.next hs (hP s a (List.mem_cons_self a actions)) h₁) h

/-! ### The order of events -/

/-- `e₁` happened before `e₂`: in the trace, newest first, `e₂` stands before `e₁`. -/
def HappensBefore (t : List Event) (e₁ e₂ : Event) : Prop := List.Sublist [e₂, e₁] t

section HappensBefore

variable {t : List Event} {e e₁ e₂ : Event}

theorem HappensBefore.mem_left (h : HappensBefore t e₁ e₂) : e₁ ∈ t :=
  List.Sublist.subset h (by simp)

theorem HappensBefore.mem_right (h : HappensBefore t e₁ e₂) : e₂ ∈ t :=
  List.Sublist.subset h (by simp)

theorem HappensBefore.cons (h : HappensBefore t e₁ e₂) (e : Event) :
    HappensBefore (e :: t) e₁ e₂ :=
  show List.Sublist [e₂, e₁] (e :: t) from .cons e h

/-- Every event already in the trace happened before the one added now. -/
theorem happensBefore_head (h : e₁ ∈ t) (e : Event) : HappensBefore (e :: t) e₁ e :=
  show List.Sublist [e, e₁] (e :: t) from .cons₂ e (List.singleton_sublist.mpr h)

/-- Adding an event orders it after every event already there, and orders nothing else anew. -/
theorem happensBefore_cons_iff :
    HappensBefore (e :: t) e₁ e₂ ↔ HappensBefore t e₁ e₂ ∨ (e₂ = e ∧ e₁ ∈ t) := by
  simp only [HappensBefore, List.sublist_cons_iff, List.cons.injEq, List.singleton_sublist]
  constructor
  · rintro (h | ⟨r, ⟨rfl, rfl⟩, hr⟩)
    · exact .inl h
    · exact .inr ⟨rfl, List.singleton_sublist.mp hr⟩
  · rintro (h | ⟨rfl, h⟩)
    · exact .inl h
    · exact .inr ⟨[e₁], ⟨rfl, rfl⟩, List.singleton_sublist.mpr h⟩

/-- Two different events of a trace happened one before the other. -/
theorem happensBefore_total (h₁ : e₁ ∈ t) (h₂ : e₂ ∈ t) (hne : e₁ ≠ e₂) :
    HappensBefore t e₁ e₂ ∨ HappensBefore t e₂ e₁ := by
  induction t with
  | nil => simp at h₁
  | cons e t ih =>
    rw [List.mem_cons] at h₁ h₂
    rcases h₁ with rfl | h₁ <;> rcases h₂ with rfl | h₂
    · exact absurd rfl hne
    · exact .inr (happensBefore_head h₂ _)
    · exact .inl (happensBefore_head h₁ _)
    · exact (ih h₁ h₂).imp (·.cons e) (·.cons e)

end HappensBefore

/-! ### Sample runs -/

/-- Clients `0` and `1` blocked on ids `1` and `2` of a new scheme, on 64-bit words. -/
def twoCalls : System :=
  ((System.new [] [] []).startCall 64 0 ⟨3, 7, 0, 0⟩ none).startCall 64 1 ⟨4, 8, 0, 0⟩ none

/-- Two calls below the wrap reach `twoCalls`. -/
theorem reachable_twoCalls : Reachable 64 (Disciplined 64) twoCalls :=
  .next (.next (.new [] [] [])
    (show Disciplined 64 (System.new [] [] []) (.call 0 ⟨3, 7, 0, 0⟩) from
      ⟨fun _ => by decide, trivial⟩) rfl)
    (show Disciplined 64 ((System.new [] [] []).startCall 64 0 ⟨3, 7, 0, 0⟩ none)
      (.call 1 ⟨4, 8, 0, 0⟩) from ⟨fun _ => by decide, trivial⟩) rfl

/-- `twoCalls` after the provider read client `0`'s request and answered it with `5`, and
client `0` returned; client `1`'s request is still queued. -/
def firstReturned : System :=
  ((twoCalls.recv 64 40 ⟨0, 0, 0, 0, 0⟩).reply 64 40 ⟨1, 5, 0, 0, 0⟩).poll 64 0 1 none

/-- `firstReturned` after the provider read client `1`'s request too. -/
def bothRead : System := firstReturned.recv 64 40 ⟨0, 0, 0, 0, 0⟩

/-- A disciplined run reaches `firstReturned`. -/
theorem reachable_firstReturned : Reachable 64 (Disciplined 64) firstReturned := by
  have htrace : (twoCalls.recv 64 40 ⟨0, 0, 0, 0, 0⟩).trace =
      [.deliver 1 ⟨3, 7, 0, 0⟩, .submit 1 2 ⟨4, 8, 0, 0⟩, .submit 0 1 ⟨3, 7, 0, 0⟩] := rfl
  have hread : Disciplined 64 (twoCalls.recv 64 40 ⟨0, 0, 0, 0, 0⟩) (.reply 40 ⟨1, 5, 0, 0, 0⟩) :=
    ⟨trivial, fun _ => ⟨⟨⟨3, 7, 0, 0⟩, by rw [htrace]; simp⟩, fun regs => by rw [htrace]; simp⟩⟩
  exact ((reachable_twoCalls.after (a := .recv 40 ⟨0, 0, 0, 0, 0⟩) rfl ⟨trivial, trivial⟩).after
    (a := .reply 40 ⟨1, 5, 0, 0, 0⟩) rfl hread).after (a := .poll 0) rfl ⟨trivial, trivial⟩

/-- A disciplined run reaches `bothRead`. -/
theorem reachable_bothRead : Reachable 64 (Disciplined 64) bothRead :=
  reachable_firstReturned.after (a := .recv 40 ⟨0, 0, 0, 0, 0⟩) rfl ⟨trivial, trivial⟩

end RedoxKernel.Fs
