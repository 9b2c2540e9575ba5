import RedoxKernel.Fs.Scheme.Provider

/-!
# Every request once

`SchemeInner::call` inserts a request into `todo` under `next_id`, `SchemeServerResource::read`
removes the least key of `todo` and hands it to the provider, and the polling loop of `call` takes
its reply out of `done` and returns. This module counts what passes through those two maps over
whole runs.

`requests_conserved`: with no wrap of `next_id`, the requests queued so far, oldest first, carry
increasing ids and are exactly the requests delivered so far, in the order of delivery, followed by
the entries still in `todo`. No request is lost or duplicated between `call` and `read`, and none
overtakes another. The invariant is `Conserved`, kept by every step (`Conserved.step`): a
`submit` appends to both sides, since `next_id` lies above every queued key, and a delivery moves
the first entry of `todo` to the end of the deliveries (`BTreeMap.head_entry`).

`calls_return_once`: in a disciplined run no request id is returned twice, the requests a client
has queued are exactly its blocked call and the calls returned to it, and no two clients are
blocked on one id. The step lemma is `not_returned_of_waiting`: the id a client is blocked on has
not been returned, by that client or any other, which follows from `Answered` and the uniqueness
of queued ids.

Both need `next_id` not to wrap. Across the wrap a call can take the id of a call still blocked,
and the answer to one goes to the other (`call_reuses_held_id`). And even where no id is shared,
ascending id order stops being the order of queuing: `wrap_breaks_fifo` builds, at every width, a
run in which `next_id` wraps to a free `1` and the request queued under it is delivered before an
older one. The run serves `2^w - 2` calls one by one (`Served.serve_upto`), so that every map is
empty when `next_id` wraps.
-/

set_option autoImplicit false
set_option relaxedAutoImplicit false

namespace RedoxKernel.Fs

/-! ### The requests of a trace -/

/-- The request an event queued, if it queued one: its id and words. -/
def Event.request? : Event → Option (Nat × Regs)
  | .submit _ id regs => some (id, regs)
  | _ => none

/-- The request an event delivered to the provider, if it delivered one. -/
def Event.delivery? : Event → Option (Nat × Regs)
  | .deliver id regs => some (id, regs)
  | _ => none

/-- The id of the call an event returned, if it returned one. -/
def Event.returnedId? : Event → Option Nat
  | .ret _ id _ => some id
  | _ => none

/-- The requests a trace queued, oldest first. -/
def requests (t : List Event) : List (Nat × Regs) := (t.filterMap Event.request?).reverse

/-- The requests a trace delivered, oldest first. -/
def deliveries (t : List Event) : List (Nat × Regs) := (t.filterMap Event.delivery?).reverse

/-- The ids of the calls a trace returned, oldest first. -/
def returnedIds (t : List Event) : List Nat := (t.filterMap Event.returnedId?).reverse

section Trace

variable (e : Event) (t : List Event)

theorem requests_cons : requests (e :: t) = requests t ++ e.request?.toList := by
  cases h : e.request? <;> simp [requests, List.filterMap_cons, h]

theorem deliveries_cons : deliveries (e :: t) = deliveries t ++ e.delivery?.toList := by
  cases h : e.delivery? <;> simp [deliveries, List.filterMap_cons, h]

theorem returnedIds_cons : returnedIds (e :: t) = returnedIds t ++ e.returnedId?.toList := by
  cases h : e.returnedId? <;> simp [returnedIds, List.filterMap_cons, h]

variable {e t}

theorem mem_returnedIds {id : Nat} : id ∈ returnedIds t ↔ ∃ c r, Event.ret c id r ∈ t := by
  simp only [returnedIds, List.mem_reverse, List.mem_filterMap]
  constructor
  · rintro ⟨e, he, hid⟩
    cases e <;> simp only [Event.returnedId?, reduceCtorEq, Option.some.injEq] at hid
    exact ⟨_, _, hid ▸ he⟩
  · rintro ⟨c, r, h⟩
    exact ⟨_, h, rfl⟩

theorem mem_requests {x : Nat × Regs} : x ∈ requests t ↔ ∃ c, Event.submit c x.1 x.2 ∈ t := by
  simp only [requests, List.mem_reverse, List.mem_filterMap]
  constructor
  · rintro ⟨e, he, hx⟩
    cases e <;> simp only [Event.request?, reduceCtorEq, Option.some.injEq] at hx
    subst hx
    exact ⟨_, he⟩
  · rintro ⟨c, h⟩
    exact ⟨_, h, rfl⟩

end Trace

/-! ### Conservation of requests -/

/-- The requests queued so far have increasing ids and are the deliveries followed by `todo`. -/
def Conserved (s : System) : Prop :=
  (requests s.trace).Pairwise (·.1 < ·.1) ∧
    requests s.trace = deliveries s.trace ++ s.inner.todo.entries

namespace Conserved

variable {w : Nat} {s s' : System} {a : Action}

/-- A step that records neither a request nor a delivery and leaves `todo` alone keeps the
count. -/
theorem quiet (hC : Conserved s) {e : Event} (htrace : s'.trace = e :: s.trace)
    (hreq : e.request? = none) (hdel : e.delivery? = none)
    (htodo : s'.inner.todo = s.inner.todo) : Conserved s' := by
  rw [Conserved, htrace, htodo, requests_cons, deliveries_cons, hreq, hdel]
  simpa using hC

/-- Every step from a state with the order facts keeps the count. -/
theorem step (hC : Conserved s) (hO : Ordered s) (h : s.step w a = some s') : Conserved s' := by
  cases System.step_cases h with
  | submit c regs lent memory =>
    have habove : ∀ e ∈ s.inner.todo.entries, e.1 < s.inner.nextId := fun e he => by
      obtain ⟨v, hv⟩ := Option.isSome_iff_exists.mp (BTreeMap.get_isSome_of_mem he)
      obtain ⟨c', hc'⟩ := hO.todo_submitted _ _ hv
      exact hO.submit_lt _ _ _ hc'
    have hnew : ∀ x ∈ requests s.trace, x.1 < s.inner.nextId := fun x hx => by
      obtain ⟨c', hc'⟩ := mem_requests.mp hx
      exact hO.submit_lt _ _ _ hc'
    simp only [Conserved, requests_cons, deliveries_cons, Event.request?, Event.delivery?,
      Option.toList, List.append_nil, submit_todo, BTreeMap.insert_entries_of_lt _ habove]
    refine ⟨List.pairwise_append.mpr ⟨hC.1, List.pairwise_singleton _ _, ?_⟩, by rw [hC.2]; simp⟩
    simpa using hnew
  | deliver k regs _ hk _ hregs =>
    obtain ⟨rest, hrest⟩ := BTreeMap.entries_of_firstKey hk hregs
    refine ⟨by simpa [requests_cons, Event.request?] using hC.1, ?_⟩
    simp only [requests_cons, deliveries_cons, Event.request?, Event.delivery?, Option.toList,
      List.append_nil, (BTreeMap.head_entry hrest).2.2]
    rw [hC.2, hrest]
    simp
  | refuse c => exact hC.quiet rfl rfl rfl rfl
  | answer c id lent regs => exact hC.quiet rfl rfl rfl rfl
  | orphan c id lent => exact hC.quiet rfl rfl rfl rfl
  | reply packet => exact hC.quiet rfl rfl rfl rfl
  | drop => exact hC.quiet rfl rfl rfl rfl
  | idle => exact hC
  | push c op virt => exact hC
  | share n => exact hC

end Conserved

/-- The count holds in every state that runs without a wrap of `next_id` reach. -/
theorem conserved_of_reachable {w : Nat} {s : System} (hs : Reachable w (NoWrap w) s) :
    Conserved s :=
  hs.invariant Conserved (fun _ _ _ => ⟨.nil, rfl⟩)
    fun hs hC _ h => hC.step (ordered_of_reachable hs) h

/-- In every run in which `next_id` does not wrap, whatever the provider does, the requests queued
so far, oldest first, carry increasing ids and are exactly the requests delivered so far, in the
order of delivery, followed by the entries still in `todo`: between `call` and `read` no request
is lost, duplicated or overtaken. -/
theorem requests_conserved {w : Nat} {s : System} (hs : Reachable w (NoWrap w) s) :
    (requests s.trace).Pairwise (·.1 < ·.1) ∧
      requests s.trace = deliveries s.trace ++ s.inner.todo.entries :=
  conserved_of_reachable hs

/-- `requests_conserved` on `firstReturned`: request `1` delivered, request `2` still queued. -/
theorem requests_conserved_firstReturned :
    Reachable 64 (NoWrap 64) firstReturned ∧
      deliveries firstReturned.trace = [(1, ⟨3, 7, 0, 0⟩)] ∧
      firstReturned.inner.todo.entries = [(2, ⟨4, 8, 0, 0⟩)] ∧
      (requests firstReturned.trace).Pairwise (·.1 < ·.1) ∧
      requests firstReturned.trace =
        deliveries firstReturned.trace ++ firstReturned.inner.todo.entries :=
  have hs : Reachable 64 (NoWrap 64) firstReturned := reachable_firstReturned.mono fun _ _ h => h.1
  ⟨hs, rfl, rfl, requests_conserved hs⟩

/-! ### Each call returns once -/

section ReturnsOnce

variable {w : Nat} {s s' : System} {a : Action}

/-- The id a client is blocked on has not been returned, to it or to any other client. -/
theorem not_returned_of_waiting (hA : Answered w s) (hO : Ordered s) {c id : Nat}
    {lent : Option Nat} (hc : s.clients c = .waiting id lent) : id ∉ returnedIds s.trace := by
  intro hid
  obtain ⟨c', r, hr⟩ := mem_returnedIds.mp hid
  obtain ⟨regs', hsub'⟩ := hA.submit_of_ret hr
  obtain ⟨⟨regs, hsub⟩, hnot⟩ := (hA.waiting_iff c id).mp ⟨lent, hc⟩
  obtain ⟨rfl, -⟩ := hO.submit_unique hsub' hsub
  exact hnot r hr

/-- Returning a call whose id has not been returned keeps the returned ids distinct. -/
theorem returnedIds_nodup_ret (hN : (returnedIds s.trace).Nodup) {c id : Nat}
    (hid : id ∉ returnedIds s.trace) (r : Except Error Nat) :
    (returnedIds (.ret c id r :: s.trace)).Nodup := by
  simp only [returnedIds_cons, Event.returnedId?, Option.toList]
  exact List.nodup_append.mpr ⟨hN, List.nodup_singleton id, List.disjoint_singleton.mpr hid⟩

/-- Every step from a state with the return facts keeps the returned ids distinct. -/
theorem returnedIds_nodup_step (hN : (returnedIds s.trace).Nodup) (hA : Answered w s)
    (hO : Ordered s) (h : s.step w a = some s') : (returnedIds s'.trace).Nodup := by
  cases System.step_cases h
  case answer c id lent regs hc _ _ =>
    exact returnedIds_nodup_ret hN (not_returned_of_waiting hA hO hc) _
  case orphan c id lent hc _ =>
    exact returnedIds_nodup_ret hN (not_returned_of_waiting hA hO hc) _
  all_goals simpa [returnedIds_cons, Event.returnedId?] using hN

end ReturnsOnce

/-- No id is returned twice in a disciplined run. -/
theorem returnedIds_nodup {w : Nat} {s : System} (hs : Reachable w (Disciplined w) s) :
    (returnedIds s.trace).Nodup :=
  hs.invariant (fun s => (returnedIds s.trace).Nodup) (fun _ _ _ => List.nodup_nil)
    fun hs hN _ h =>
      have ⟨hO, hA⟩ := answered_of_reachable hs
      returnedIds_nodup_step hN hA hO h

/-- In every disciplined run no request id is returned twice, to one client or to two. The requests
a client has queued are exactly the call it is blocked on and the calls that returned to it; the id
it is blocked on has not been returned, and no other client is blocked on it. -/
theorem calls_return_once {w : Nat} {s : System} (hs : Reachable w (Disciplined w) s) :
    (returnedIds s.trace).Nodup ∧
      (∀ c id, (∃ regs, Event.submit c id regs ∈ s.trace) ↔
        (∃ lent, s.clients c = .waiting id lent) ∨ ∃ r, Event.ret c id r ∈ s.trace) ∧
      ∀ c id lent, s.clients c = .waiting id lent →
        id ∉ returnedIds s.trace ∧ ∀ c' lent', s.clients c' = .waiting id lent' → c' = c := by
  obtain ⟨hO, hA⟩ := answered_of_reachable hs
  refine ⟨returnedIds_nodup hs, fun c id => ⟨fun ⟨regs, hsub⟩ => ?_, ?_⟩,
    fun c id lent hc => ⟨not_returned_of_waiting hA hO hc, fun c' lent' hc' => ?_⟩⟩
  · by_cases hret : ∃ r, Event.ret c id r ∈ s.trace
    · exact .inr hret
    · obtain ⟨lent, hc⟩ := (hA.waiting_iff c id).mpr ⟨⟨regs, hsub⟩, fun r hr => hret ⟨r, hr⟩⟩
      exact .inl ⟨lent, hc⟩
  · rintro (⟨lent, hc⟩ | ⟨r, hr⟩)
    · exact ((hA.waiting_iff c id).mp ⟨lent, hc⟩).1
    · exact hA.submit_of_ret hr
  · obtain ⟨⟨regs, hsub⟩, -⟩ := (hA.waiting_iff c id).mp ⟨lent, hc⟩
    obtain ⟨⟨regs', hsub'⟩, -⟩ := (hA.waiting_iff c' id).mp ⟨lent', hc'⟩
    exact (hO.submit_unique hsub' hsub).1

/-- `calls_return_once` on `firstReturned`: client `0`'s call returned, client `1` is blocked on
`2`. -/
theorem calls_return_once_firstReturned :
    Reachable 64 (Disciplined 64) firstReturned ∧ returnedIds firstReturned.trace = [1] ∧
      firstReturned.clients 1 = .waiting 2 none ∧
      (returnedIds firstReturned.trace).Nodup ∧
      (∀ c id, (∃ regs, Event.submit c id regs ∈ firstReturned.trace) ↔
        (∃ lent, firstReturned.clients c = .waiting id lent) ∨
          ∃ r, Event.ret c id r ∈ firstReturned.trace) ∧
      ∀ c id lent, firstReturned.clients c = .waiting id lent →
        id ∉ returnedIds firstReturned.trace ∧
          ∀ c' lent', firstReturned.clients c' = .waiting id lent' → c' = c :=
  ⟨reachable_firstReturned, rfl, rfl, calls_return_once reachable_firstReturned⟩

/-! ### Across the wrap -/

/-- Past the wrap of `next_id`, ascending id order is no longer the order of queuing, even when no
two requests share an id. At every width from 2 bits: client `0` makes `2^w - 2` calls, each served
before the next; client `1` then queues a request under `2^w - 1`, and `next_id` wraps to `1`, which
no request, reply or blocked call holds. Client `0`'s next request is queued under `1`, after
client `1`'s, and the provider's next `read` delivers it first, client `1`'s request still waiting
in `todo`. -/
theorem wrap_breaks_fifo (w : Nat) (hw : 2 ≤ w) (regs regs' : Regs) (packet : Packet) :
    ∃ s s', Reachable w (RepliesToRead w) s ∧ s.trace.head? = some (.submit 1 (2 ^ w - 1) regs) ∧
      s.inner.todo.get 1 = none ∧ s.inner.done.get 1 = none ∧
      (∀ c lent, s.clients c ≠ .waiting 1 lent) ∧
      s.run w [.call 0 regs', .recv (packetSize w) packet] = some s' ∧
      s'.trace = .deliver 1 regs' :: .submit 0 1 regs' :: s.trace ∧
      s'.inner.todo.get (2 ^ w - 1) = some regs := by
  have hbig : 4 ≤ 2 ^ w :=
    calc 4 = 2 ^ 2 := rfl
      _ ≤ 2 ^ w := Nat.pow_le_pow_right (by norm_num) hw
  obtain ⟨s₀, hs₀, hS, hclients, -⟩ := (served_new (w := w) [] [] []).serve_upto (c := 0) regs
    (2 ^ w - 2) (.new [] [] []) rfl (by omega)
  have hidle₀ : ∀ c, s₀.clients c = .idle := fun c => congrFun hclients c
  have hlive := hS.live
  -- client `1` queues under `2^w - 1`, and `next_id` wraps to `1`
  set s := s₀.startCall w 1 regs none with hs
  have h₁ : s₀.step w (.call 1 regs) = some s := by simp [System.step, hidle₀]
  have hnext₀ : s₀.inner.nextId = 2 ^ w - 1 := by
    rw [hS.next, zero_add, nextIdAfter_of_lt (by omega)]; omega
  -- client `0` queues under `1`
  set s₂ := s.startCall w 0 regs' none with hs₂
  have hidle : s.clients 0 = .idle := by simp [hs, System.startCall, hlive, hidle₀]
  have h₂ : s.step w (.call 0 regs') = some s₂ := by simp [System.step, hidle]
  have htodo₂ : s₂.inner.todo = (BTreeMap.empty.insert (2 ^ w - 1) regs).insert 1 regs' := by
    simp [hs₂, hs, System.startCall, hlive, hS.todo, hnext₀, nextIdAfter_top]
  -- the provider's `read` takes the least key, `1`
  have hfirst : s₂.inner.todo.firstKey? = some 1 := by
    simp [htodo₂, BTreeMap.insert, BTreeMap.insertEntry, BTreeMap.firstKey?, BTreeMap.empty,
      show 1 < 2 ^ w - 1 by omega]
  have hget : s₂.inner.todo.get 1 = some regs' := by simp [htodo₂]
  have h₃ := System.step_recv_of_firstKey (w := w)
    (by simp [hs₂, hs, System.startCall, hlive]) hfirst Nat.one_pos hget packet
  refine ⟨s, _, hs₀.after h₁ trivial, by simp [hs, System.startCall, hlive, hnext₀],
    by simp [hs, System.startCall, hlive, hS.todo, hnext₀, show 1 ≠ 2 ^ w - 1 by omega],
    by simp [hs, System.startCall, hlive, hS.done], fun c lent => ?_,
    by rw [System.run_cons_of_step h₂, System.run_cons_of_step h₃]; rfl,
    by simp [hs₂, hs, System.startCall, hlive, hnext₀, nextIdAfter_top],
    by simp [htodo₂, show 2 ^ w - 1 ≠ 1 by omega]⟩
  by_cases hc : c = 1
  · subst hc
    simp [hs, System.startCall, hlive, hnext₀, show 2 ^ w - 1 ≠ 1 by omega]
  · simp [hs, System.startCall, hlive, hc, hidle₀]

/-- `wrap_breaks_fifo` on 64-bit words. -/
theorem wrap_breaks_fifo_64 :
    2 ≤ 64 ∧ ∃ s s', Reachable 64 (RepliesToRead 64) s ∧
      s.trace.head? = some (.submit 1 (2 ^ 64 - 1) ⟨3, 0, 0, 0⟩) ∧
      s.inner.todo.get 1 = none ∧ s.inner.done.get 1 = none ∧
      (∀ c lent, s.clients c ≠ .waiting 1 lent) ∧
      s.run 64 [.call 0 ⟨4, 0, 0, 0⟩, .recv (packetSize 64) ⟨0, 0, 0, 0, 0⟩] = some s' ∧
      s'.trace = .deliver 1 ⟨4, 0, 0, 0⟩ :: .submit 0 1 ⟨4, 0, 0, 0⟩ :: s.trace ∧
      s'.inner.todo.get (2 ^ 64 - 1) = some ⟨3, 0, 0, 0⟩ :=
  ⟨by norm_num, wrap_breaks_fifo 64 (by norm_num) _ _ _⟩

end RedoxKernel.Fs
