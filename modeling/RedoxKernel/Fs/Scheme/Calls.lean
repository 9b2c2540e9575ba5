import RedoxKernel.Fs.Scheme.Order

/-!
# What a call returns

A client's `SchemeInner::call` queues its request and polls `done` until a reply under its id is
there, or until the inner can no longer be upgraded. This module proves what that gives the client
and the provider in every run with no wrap of `next_id` and a provider that answers only requests it
read, each at most once (`Reachable w (Disciplined w)`); `CallContract` states it and
`calls_answered` proves it. A delivery carries the id and words of a request queued before it, and no
id is delivered twice or queued by two calls. A call returns, after queuing its request, either the
first word of the reply written for its id, demuxed, or `Err(EBADF)`, and `Err(EBADF)` only after the
last strong reference is gone. From then on every blocked call returns `Err(EBADF)` at its next turn
and every new call at once.

The proof keeps the trace a `Chronicle`: each event was allowed by the events before it
(`Event.Allowed`), so each step has to check only the event it adds, against the state it is taken
in. `Answered` adds what the state says about the trace: the provider's handles are gone exactly when
the trace has the drop, a blocked client has queued its request, a call that has not returned is
blocked, and a reply in `done` was written and not yet collected. One lemma per transition keeps it
(`Answered.submit`, `Answered.finish` for the two ways a call returns, `Answered.reply`, and the
simple steps in `Answered.step`), with the order facts of `Scheme.Order` at hand.

Two more results follow from the same facts. `ids_exclusive` is the other side of
`wrap_shares_id`: with no wrap, the id `call` takes is in neither map and held by no blocked call,
blocked calls hold distinct ids, `todo` and `done` share no key, and while the inner lives every key
of either is held by a blocked call. `reply_reaches_caller` says that no reply is lost: while the
inner lives, a blocked call for which a reply was written returns it at its next turn.
-/

set_option autoImplicit false
set_option relaxedAutoImplicit false

namespace RedoxKernel.Fs

/-! ### What an event needs of the past -/

/-- What an event needs of the trace before it: a delivery, a request queued with its id and words;
a reply, a delivery and a request of its id; a return, its call's request and either a reply for its
id whose first word it returns demuxed, or the drop with `Err(EBADF)`; a refusal, the drop. -/
def Event.Allowed (w : Nat) (t : List Event) : Event → Prop
  | .submit _ _ _ => True
  | .deliver k regs => ∃ c, Event.submit c k regs ∈ t
  | .reply k _ => (∃ x, Event.deliver k x ∈ t) ∧ ∃ c regs₀, Event.submit c k regs₀ ∈ t
  | .ret c id r => (∃ regs₀, Event.submit c id regs₀ ∈ t) ∧
      ((∃ regs, Event.reply id regs ∈ t ∧ r = demux w regs.a) ∨
        (r = .error EBADF ∧ Event.drop ∈ t))
  | .refuse _ => Event.drop ∈ t
  | .drop => True

/-- A trace in which every event was allowed by the events before it. -/
inductive Chronicle (w : Nat) : List Event → Prop
  | nil : Chronicle w []
  | cons {e : Event} {t : List Event} : Chronicle w t → e.Allowed w t → Chronicle w (e :: t)

/-- An event of a chronicle was allowed by a part of the trace that happened before it. -/
theorem Chronicle.of_mem {w : Nat} {t : List Event} {e : Event} (h : Chronicle w t) (he : e ∈ t) :
    ∃ t₀, e.Allowed w t₀ ∧ ∀ x ∈ t₀, HappensBefore t x e := by
  induction h with
  | nil => simp at he
  | @cons e' t _ hallowed ih =>
    rcases List.mem_cons.mp he with rfl | he
    · exact ⟨t, hallowed, fun x hx => happensBefore_head hx _⟩
    · obtain ⟨t₀, hallowed₀, hbefore⟩ := ih he
      exact ⟨t₀, hallowed₀, fun x hx => (hbefore x hx).cons _⟩

/-! ### The return facts -/

/-- What a disciplined run keeps about calls and replies: the provider's handles are gone exactly
when the trace has the drop, a client is blocked on an id exactly when it queued a request under it
that has not returned, every reply in `done` was written, and while the inner lives `done` holds
exactly the replies written whose call has not returned. -/
structure Answered (w : Nat) (s : System) : Prop where
  chronicle : Chronicle w s.trace
  dropped_iff : s.strong = 0 ↔ Event.drop ∈ s.trace
  waiting_iff : ∀ c id, (∃ lent, s.clients c = .waiting id lent) ↔
    (∃ regs, Event.submit c id regs ∈ s.trace) ∧ ∀ r, Event.ret c id r ∉ s.trace
  done_replied : ∀ k regs, s.inner.done.get k = some regs → Event.reply k regs ∈ s.trace
  done_iff : 0 < s.strong → ∀ k regs, s.inner.done.get k = some regs ↔
    Event.reply k regs ∈ s.trace ∧ ∀ c r, Event.ret c k r ∉ s.trace

/-- Two requests queued under one id are one request, with no wrap of `next_id`. -/
theorem Ordered.submit_unique {s : System} (hO : Ordered s) {c₁ c₂ id : Nat} {r₁ r₂ : Regs}
    (h₁ : Event.submit c₁ id r₁ ∈ s.trace) (h₂ : Event.submit c₂ id r₂ ∈ s.trace) :
    c₁ = c₂ ∧ r₁ = r₂ := by
  by_contra hne
  rcases happensBefore_total h₁ h₂ (by intro he; cases he; exact hne ⟨rfl, rfl⟩) with h | h
  · exact absurd (hO.submits_ordered _ _ _ _ _ _ h) (Nat.lt_irrefl _)
  · exact absurd (hO.submits_ordered _ _ _ _ _ _ h) (Nat.lt_irrefl _)

namespace Answered

variable {w : Nat} {s s' : System} {a : Action}

/-- A call that has returned queued its request under its id before. -/
theorem submit_of_ret (hA : Answered w s) {c id : Nat} {r : Except Error Nat}
    (h : Event.ret c id r ∈ s.trace) : ∃ regs, Event.submit c id regs ∈ s.trace := by
  obtain ⟨t₀, ⟨⟨regs, hsub⟩, -⟩, hbefore⟩ := hA.chronicle.of_mem h
  exact ⟨regs, (hbefore _ hsub).mem_left⟩

/-- A call that has returned was answered by a reply for its id, or the inner is gone. -/
theorem replied_of_ret (hA : Answered w s) {c id : Nat} {r : Except Error Nat}
    (h : Event.ret c id r ∈ s.trace) :
    (∃ regs, Event.reply id regs ∈ s.trace) ∨ Event.drop ∈ s.trace := by
  obtain ⟨t₀, ⟨-, ⟨regs, hreg, -⟩ | ⟨-, hdrop⟩⟩, hbefore⟩ := hA.chronicle.of_mem h
  · exact .inl ⟨regs, (hbefore _ hreg).mem_left⟩
  · exact .inr (hbefore _ hdrop).mem_left

/-- Queuing a request keeps the return facts. -/
theorem submit (hA : Answered w s) (hO : Ordered s) {c : Nat} (hc : s.clients c = .idle)
    (regs : Regs) (lent : Option Nat) (memory : List ContextMemory) :
    Answered w { s with memory, inner := (s.inner.submit w regs).2,
                        clients := Function.update s.clients c (.waiting s.inner.nextId lent),
                        trace := .submit c s.inner.nextId regs :: s.trace } where
  chronicle := hA.chronicle.cons trivial
  dropped_iff := by simpa using hA.dropped_iff
  waiting_iff c' id := by
    by_cases hc' : c' = c
    · subst hc'
      constructor
      · rintro ⟨lent', hw⟩
        simp only [Function.update_same, Phase.waiting.injEq] at hw
        obtain ⟨rfl, -⟩ := hw
        refine ⟨⟨regs, List.mem_cons_self _ _⟩, fun r hr => ?_⟩
        obtain ⟨regs', hsub⟩ := hA.submit_of_ret ((List.mem_cons.mp hr).resolve_left nofun)
        exact Nat.lt_irrefl _ (hO.submit_lt _ _ _ hsub)
      · rintro ⟨⟨regs', hsub⟩, hret⟩
        rcases List.mem_cons.mp hsub with he | hsub
        · cases he; exact ⟨lent, Function.update_same _ _ _⟩
        · obtain ⟨lent', hw⟩ := (hA.waiting_iff c' id).mpr
            ⟨⟨regs', hsub⟩, fun r hr => hret r (List.mem_cons_of_mem _ hr)⟩
          rw [hc] at hw; cases hw
    · simpa [Function.update_noteq hc', hc'] using hA.waiting_iff c' id
  done_replied k regs' h := List.mem_cons_of_mem _ (hA.done_replied k regs' h)
  done_iff hs k regs' := by simpa using hA.done_iff hs k regs'

/-- A blocked call that returns keeps the return facts, whatever it returns, when the return is
allowed and leaves `done` as the facts want it. -/
theorem finish (hA : Answered w s) {c id : Nat} {lent : Option Nat} {r : Except Error Nat}
    (hc : s.clients c = .waiting id lent) (inner : SchemeInner) (memory : List ContextMemory)
    (hallowed : (Event.ret c id r).Allowed w s.trace)
    (hreplied : ∀ k regs, inner.done.get k = some regs → Event.reply k regs ∈ s.trace)
    (hdone : 0 < s.strong → ∀ k regs, inner.done.get k = some regs ↔
      Event.reply k regs ∈ s.trace ∧ ∀ c' r', Event.ret c' k r' ∉ .ret c id r :: s.trace) :
    Answered w { s with inner, memory, clients := Function.update s.clients c .idle,
                        trace := .ret c id r :: s.trace } where
  chronicle := hA.chronicle.cons hallowed
  dropped_iff := by simpa using hA.dropped_iff
  waiting_iff c' id' := by
    by_cases hc' : c' = c
    · subst hc'
      constructor
      · rintro ⟨lent', hw⟩
        simp at hw
      · rintro ⟨⟨regs, hsub⟩, hret⟩
        by_cases hid : id' = id
        · exact absurd (hid ▸ List.mem_cons_self _ _) (hret r)
        · obtain ⟨lent', hw⟩ := (hA.waiting_iff c' id').mpr
            ⟨⟨regs, (List.mem_cons.mp hsub).resolve_left nofun⟩,
              fun r' hr' => hret r' (List.mem_cons_of_mem _ hr')⟩
          rw [hc] at hw; cases hw; exact absurd rfl hid
    · simpa [Function.update_noteq hc', hc'] using hA.waiting_iff c' id'
  done_replied k regs h := List.mem_cons_of_mem _ (hreplied k regs h)
  done_iff hs k regs := by simpa using hdone hs k regs

/-- A blocked call that finds its reply keeps the return facts. -/
theorem answer (hA : Answered w s) {c id : Nat} {lent : Option Nat} {regs : Regs}
    (hc : s.clients c = .waiting id lent) (hdone : s.inner.done.get id = some regs) :
    Answered w { s with inner := (s.inner.collect id).2, memory := System.retireLent lent s.memory,
                        clients := Function.update s.clients c .idle,
                        trace := .ret c id (demux w regs.a) :: s.trace } := by
  obtain ⟨⟨regs₀, hsub⟩, -⟩ := (hA.waiting_iff c id).mp ⟨lent, hc⟩
  refine hA.finish hc _ _ ⟨⟨regs₀, hsub⟩, .inl ⟨regs, hA.done_replied id regs hdone, rfl⟩⟩
    (fun k regs' h => ?_) (fun hs k regs' => ?_)
  · simp only [collect_done, BTreeMap.get_remove] at h
    split_ifs at h
    exact hA.done_replied k regs' h
  · simp only [collect_done, BTreeMap.get_remove]
    split_ifs with hk
    · subst hk
      simp only [reduceCtorEq, false_iff, not_and, not_forall, not_not]
      exact fun _ => ⟨c, _, List.mem_cons_self _ _⟩
    · rw [hA.done_iff hs k regs']
      simp [hk]

/-- A blocked call that finds the inner gone keeps the return facts. -/
theorem orphan (hA : Answered w s) {c id : Nat} {lent : Option Nat}
    (hc : s.clients c = .waiting id lent) (hs : s.strong = 0) :
    Answered w { s with clients := Function.update s.clients c .idle,
                        trace := .ret c id (.error EBADF) :: s.trace } := by
  obtain ⟨⟨regs₀, hsub⟩, -⟩ := (hA.waiting_iff c id).mp ⟨lent, hc⟩
  exact hA.finish hc s.inner s.memory ⟨⟨regs₀, hsub⟩, .inr ⟨rfl, hA.dropped_iff.mp hs⟩⟩
    hA.done_replied fun hs' => absurd hs (Nat.pos_iff_ne_zero.mp hs')

/-- A reply to a request the provider read and has not answered keeps the return facts. -/
theorem reply (hA : Answered w s) (hO : Ordered s) (hs : 0 < s.strong) (packet : Packet)
    (hread : ∃ x, Event.deliver packet.id x ∈ s.trace)
    (hfirst : ∀ regs, Event.reply packet.id regs ∉ s.trace) :
    Answered w
      { s with inner := { s.inner with done := s.inner.done.insert packet.id packet.regs },
               trace := .reply packet.id packet.regs :: s.trace } where
  chronicle := by
    obtain ⟨x, hx⟩ := hread
    obtain ⟨c, hc⟩ := hO.deliver_submitted packet.id x hx
    exact hA.chronicle.cons ⟨⟨x, hx⟩, c, x, hc.mem_left⟩
  dropped_iff := by simpa using hA.dropped_iff
  waiting_iff c id := by simpa using hA.waiting_iff c id
  done_replied k regs h := by
    simp only [BTreeMap.get_insert] at h
    split_ifs at h with hk
    · cases h; exact hk ▸ List.mem_cons_self _ _
    · exact List.mem_cons_of_mem _ (hA.done_replied k regs h)
  done_iff _ k regs := by
    simp only [BTreeMap.get_insert]
    split_ifs with hk
    · subst hk
      have hnoret : ∀ c r, Event.ret c packet.id r ∉ s.trace := fun c r hr => by
        rcases hA.replied_of_ret hr with ⟨regs', hreg⟩ | hdrop
        · exact hfirst regs' hreg
        · exact hs.ne' (hA.dropped_iff.mpr hdrop)
      simp [hnoret, hfirst, eq_comm]
    · rw [hA.done_iff hs k regs]
      simp [hk]

/-- Every disciplined step keeps the return facts. -/
theorem step (hA : Answered w s) (hO : Ordered s) (hP : Disciplined w s a)
    (h : s.step w a = some s') : Answered w s' := by
  cases System.step_cases h with
  | submit c regs lent memory hc => exact hA.submit hO hc regs lent memory
  | answer c id lent regs hc _ hdone => exact hA.answer hc hdone
  | orphan c id lent hc hs => exact hA.orphan hc hs
  | reply packet hs hdisc =>
    obtain ⟨hread, hfirst⟩ := hdisc hP.2
    exact hA.reply hO hs packet hread hfirst
  | refuse c _ hs =>
    exact ⟨hA.chronicle.cons (hA.dropped_iff.mp hs), by simpa using hA.dropped_iff,
      fun c id => by simpa using hA.waiting_iff c id,
      fun k regs h => List.mem_cons_of_mem _ (hA.done_replied k regs h),
      fun hs' => absurd hs (Nat.pos_iff_ne_zero.mp hs')⟩
  | deliver k regs hs _ _ hregs =>
    exact ⟨hA.chronicle.cons (hO.todo_submitted k regs hregs), by simpa using hA.dropped_iff,
      fun c id => by simpa using hA.waiting_iff c id,
      fun k regs h => List.mem_cons_of_mem _ (hA.done_replied k regs h),
      fun _ k regs => by simpa using hA.done_iff hs k regs⟩
  | drop _ =>
    exact ⟨hA.chronicle.cons trivial, by simp, fun c id => by simpa using hA.waiting_iff c id,
      fun k regs h => List.mem_cons_of_mem _ (hA.done_replied k regs h), nofun⟩
  | share n hs hn =>
    exact ⟨hA.chronicle, ⟨fun h => absurd h hn.ne', fun h => absurd (hA.dropped_iff.mpr h) hs.ne'⟩,
      hA.waiting_iff, hA.done_replied, fun _ => hA.done_iff hs⟩
  | idle => exact hA
  | push c op virt => exact ⟨hA.1, hA.2, hA.3, hA.4, hA.5⟩

end Answered

/-- The order facts and the return facts hold in every state of a disciplined run. -/
theorem answered_of_reachable {w : Nat} {s : System} (hs : Reachable w (Disciplined w) s) :
    Ordered s ∧ Answered w s :=
  hs.invariant (fun s => Ordered s ∧ Answered w s)
    (fun _ _ _ => ⟨⟨nofun, nofun, nofun, nofun, nofun, nofun⟩,
      ⟨.nil, by simp [System.new], fun _ _ => by simp [System.new], nofun, fun _ _ _ => by
        simp [System.new, SchemeInner.new]⟩⟩)
    fun _ ⟨hO, hA⟩ hP h => ⟨hO.step hP.1 h, hA.step hO hP h⟩

/-! ### The contract of a call -/

/-- What `SchemeInner::call` promises its callers and the provider, over the trace of a run. -/
structure CallContract (w : Nat) (s : System) : Prop where
  /-- Every delivery carries the id and the words of a request queued before it. -/
  deliver_queued : ∀ id regs, Event.deliver id regs ∈ s.trace →
    ∃ c, HappensBefore s.trace (.submit c id regs) (.deliver id regs)
  /-- No id is delivered twice. -/
  deliver_once : ∀ id x₁ x₂, ¬ HappensBefore s.trace (.deliver id x₁) (.deliver id x₂)
  /-- No two calls queue under one id. -/
  submit_unique : ∀ c₁ c₂ id r₁ r₂, Event.submit c₁ id r₁ ∈ s.trace →
    Event.submit c₂ id r₂ ∈ s.trace → c₁ = c₂ ∧ r₁ = r₂
  /-- A call returns after queuing its request: either the first word, demuxed, of a reply
  written for its id after the request was queued, or `Err(EBADF)` after the drop. -/
  ret_answered : ∀ c id r, Event.ret c id r ∈ s.trace →
    ∃ regs₀, HappensBefore s.trace (.submit c id regs₀) (.ret c id r) ∧
      ((∃ regs, HappensBefore s.trace (.submit c id regs₀) (.reply id regs) ∧
          HappensBefore s.trace (.reply id regs) (.ret c id r) ∧ r = demux w regs.a) ∨
        (r = .error EBADF ∧ HappensBefore s.trace .drop (.ret c id r)))
  /-- A call refused at its start comes after the drop. -/
  refuse_dropped : ∀ c, Event.refuse c ∈ s.trace → HappensBefore s.trace .drop (.refuse c)
  /-- After the drop, a blocked call returns `Err(EBADF)` at its next turn, and a new call at
  once. -/
  after_drop : Event.drop ∈ s.trace → ∀ c,
    (∀ id lent, s.clients c = .waiting id lent →
      s.step w (.poll c) =
        some { s with clients := Function.update s.clients c .idle,
                      trace := .ret c id (.error EBADF) :: s.trace }) ∧
    (s.clients c = .idle → ∀ regs,
      s.step w (.call c regs) = some { s with trace := .refuse c :: s.trace })

/-- In every run with no wrap of `next_id` and a provider that answers only requests it read, each
at most once, the calls keep their contract. -/
theorem calls_answered {w : Nat} {s : System} (hs : Reachable w (Disciplined w) s) :
    CallContract w s := by
  obtain ⟨hO, hA⟩ := answered_of_reachable hs
  refine ⟨hO.deliver_submitted, fun id x₁ x₂ h => Nat.lt_irrefl id (hO.delivers_ordered _ _ _ _ h),
    fun c₁ c₂ id r₁ r₂ h₁ h₂ => hO.submit_unique h₁ h₂, fun c id r hr => ?_, fun c hr => ?_,
    fun hdrop c => ?_⟩
  · obtain ⟨t₀, ⟨⟨regs₀, hsub⟩, hreply | ⟨hr', hdrop⟩⟩, hbefore⟩ := hA.chronicle.of_mem hr
    · obtain ⟨regs, hreg, rfl⟩ := hreply
      have hreg' := (hbefore _ hreg).mem_left
      obtain ⟨t₁, ⟨-, c', regs', hsub'⟩, hbefore'⟩ := hA.chronicle.of_mem hreg'
      obtain ⟨rfl, rfl⟩ := hO.submit_unique (hbefore' _ hsub').mem_left (hbefore _ hsub).mem_left
      exact ⟨regs', hbefore _ hsub, .inl ⟨regs, hbefore' _ hsub', hbefore _ hreg, rfl⟩⟩
    · exact ⟨regs₀, hbefore _ hsub, .inr ⟨hr', hbefore _ hdrop⟩⟩
  · obtain ⟨t₀, hdrop, hbefore⟩ := hA.chronicle.of_mem hr
    exact hbefore _ hdrop
  · have hs0 := hA.dropped_iff.mpr hdrop
    exact ⟨fun id lent hc => System.step_poll_of_dropped hs0 hc,
      fun hc regs => System.step_call_of_dropped regs hs0 hc⟩

/-- `calls_answered` on `firstReturned`, whose trace holds a delivery, a reply and a return. -/
theorem calls_answered_firstReturned :
    Reachable 64 (Disciplined 64) firstReturned ∧
      firstReturned.trace = [.ret 0 1 (demux 64 5), .reply 1 ⟨5, 0, 0, 0⟩,
        .deliver 1 ⟨3, 7, 0, 0⟩, .submit 1 2 ⟨4, 8, 0, 0⟩, .submit 0 1 ⟨3, 7, 0, 0⟩] ∧
      CallContract 64 firstReturned :=
  ⟨reachable_firstReturned, rfl, calls_answered reachable_firstReturned⟩

/-! ### Ids with no wrap -/

/-- The exclusivity of ids that the `TODO` of `call` asks about. -/
structure IdsExclusive (s : System) : Prop where
  /-- The id `call` takes next is in neither map and held by no blocked call. -/
  next_free : s.inner.todo.get s.inner.nextId = none ∧ s.inner.done.get s.inner.nextId = none ∧
    ∀ c lent, s.clients c ≠ .waiting s.inner.nextId lent
  /-- Blocked calls hold distinct ids. -/
  waiting_distinct : ∀ c₁ c₂ id l₁ l₂, s.clients c₁ = .waiting id l₁ →
    s.clients c₂ = .waiting id l₂ → c₁ = c₂
  /-- `todo` and `done` share no key. -/
  maps_disjoint : ∀ k, (s.inner.todo.get k).isSome → s.inner.done.get k = none
  /-- While the inner lives, every key of either map is held by a blocked call. -/
  keys_held : 0 < s.strong → ∀ k, (s.inner.todo.get k).isSome ∨ (s.inner.done.get k).isSome →
    ∃ c lent, s.clients c = .waiting k lent

/-- A reply was written for a request that was delivered and that some call queued. -/
theorem Answered.reply_requested {w : Nat} {s : System} (hA : Answered w s) {k : Nat} {regs : Regs}
    (h : Event.reply k regs ∈ s.trace) :
    (∃ x, Event.deliver k x ∈ s.trace) ∧ ∃ c regs₀, Event.submit c k regs₀ ∈ s.trace := by
  obtain ⟨t₀, ⟨⟨x, hx⟩, c, regs₀, hsub⟩, hbefore⟩ := hA.chronicle.of_mem h
  exact ⟨⟨x, (hbefore _ hx).mem_left⟩, c, regs₀, (hbefore _ hsub).mem_left⟩

/-- A request still queued has not been delivered. -/
theorem Ordered.not_delivered {s : System} (hO : Ordered s) {k : Nat} {regs x : Regs}
    (hk : s.inner.todo.get k = some regs) : Event.deliver k x ∉ s.trace := fun hx =>
  Nat.lt_irrefl k (hO.delivered_lt_todo k x k regs hx hk)

/-- A reply written for the id of a blocked call waits in `done` while the inner lives. -/
theorem Answered.done_of_reply {w : Nat} {s : System} (hA : Answered w s) (hO : Ordered s)
    (hlive : 0 < s.strong) {c id : Nat} {lent : Option Nat} {regs : Regs}
    (hc : s.clients c = .waiting id lent) (hreply : Event.reply id regs ∈ s.trace) :
    s.inner.done.get id = some regs := by
  obtain ⟨⟨regs₀, hsub⟩, hret⟩ := (hA.waiting_iff c id).mp ⟨lent, hc⟩
  refine (hA.done_iff hlive id regs).mpr ⟨hreply, fun c' r hr => ?_⟩
  obtain ⟨regs', hsub'⟩ := hA.submit_of_ret hr
  obtain ⟨rfl, -⟩ := hO.submit_unique hsub' hsub
  exact hret r hr

/-- With no wrap of `next_id` and a provider that answers only requests it read, each at most
once, ids never collide. -/
theorem ids_exclusive {w : Nat} {s : System} (hs : Reachable w (Disciplined w) s) :
    IdsExclusive s := by
  obtain ⟨hO, hA⟩ := answered_of_reachable hs
  have hwaiting : ∀ c id lent, s.clients c = .waiting id lent →
      ∃ regs, Event.submit c id regs ∈ s.trace := fun c id lent h =>
    ((hA.waiting_iff c id).mp ⟨lent, h⟩).1
  have hfresh : ∀ c regs, Event.submit c s.inner.nextId regs ∉ s.trace := fun c regs h =>
    Nat.lt_irrefl _ (hO.submit_lt _ _ _ h)
  have hheld : ∀ k c regs, Event.submit c k regs ∈ s.trace → (∀ r, Event.ret c k r ∉ s.trace) →
      ∃ c lent, s.clients c = .waiting k lent := fun k c regs hsub hret =>
    ⟨c, (hA.waiting_iff c k).mpr ⟨⟨regs, hsub⟩, hret⟩⟩
  refine ⟨⟨Option.eq_none_iff_forall_not_mem.mpr fun regs h => ?_,
    Option.eq_none_iff_forall_not_mem.mpr fun regs h => ?_, fun c lent hc => ?_⟩,
    fun c₁ c₂ id l₁ l₂ h₁ h₂ => ?_, fun k hk => ?_, fun hlive k hk => ?_⟩
  · obtain ⟨c, hc⟩ := hO.todo_submitted _ regs h
    exact hfresh c regs hc
  · obtain ⟨-, c, regs₀, hc⟩ := hA.reply_requested (hA.done_replied _ regs h)
    exact hfresh c regs₀ hc
  · obtain ⟨regs, hsub⟩ := hwaiting c _ lent hc
    exact hfresh c regs hsub
  · obtain ⟨r₁, hs₁⟩ := hwaiting c₁ id l₁ h₁
    obtain ⟨r₂, hs₂⟩ := hwaiting c₂ id l₂ h₂
    exact (hO.submit_unique hs₁ hs₂).1
  · obtain ⟨regs, hregs⟩ := Option.isSome_iff_exists.mp hk
    refine Option.eq_none_iff_forall_not_mem.mpr fun regs' h => ?_
    obtain ⟨⟨x, hx⟩, -⟩ := hA.reply_requested (hA.done_replied k regs' h)
    exact hO.not_delivered hregs hx
  · rcases hk with hk | hk
    · obtain ⟨regs, hregs⟩ := Option.isSome_iff_exists.mp hk
      obtain ⟨c, hsub⟩ := hO.todo_submitted k regs hregs
      refine hheld k c regs hsub fun r hr => ?_
      rcases hA.replied_of_ret hr with ⟨regs', hreg⟩ | hdrop
      · obtain ⟨⟨x, hx⟩, -⟩ := hA.reply_requested hreg
        exact hO.not_delivered hregs hx
      · exact hlive.ne' (hA.dropped_iff.mpr hdrop)
    · obtain ⟨regs, hregs⟩ := Option.isSome_iff_exists.mp hk
      obtain ⟨hreg, hnoret⟩ := (hA.done_iff hlive k regs).mp hregs
      obtain ⟨-, c, regs₀, hsub⟩ := hA.reply_requested hreg
      exact hheld k c regs₀ hsub (hnoret c)

/-- `ids_exclusive` on `twoCalls`, where two calls are blocked and both requests queued. -/
theorem ids_exclusive_twoCalls :
    Reachable 64 (Disciplined 64) twoCalls ∧ IdsExclusive twoCalls :=
  ⟨reachable_twoCalls, ids_exclusive reachable_twoCalls⟩

/-! ### No reply is lost -/

/-- With no wrap of `next_id` and a provider that answers only requests it read, each at most
once, a reply written for a blocked call is not lost while the inner lives: the call returns its
first word, demuxed, at its next turn, and retires its window. -/
theorem reply_reaches_caller {w : Nat} {s : System} (hs : Reachable w (Disciplined w) s)
    (hlive : 0 < s.strong) {c id : Nat} {lent : Option Nat} {regs : Regs}
    (hc : s.clients c = .waiting id lent) (hreply : Event.reply id regs ∈ s.trace) :
    s.step w (.poll c) =
      some { s with inner := (s.inner.collect id).2, memory := System.retireLent lent s.memory,
                    clients := Function.update s.clients c .idle,
                    trace := .ret c id (demux w regs.a) :: s.trace } := by
  obtain ⟨hO, hA⟩ := answered_of_reachable hs
  exact System.step_poll_of_done hlive hc (hA.done_of_reply hO hlive hc hreply)

/-- A round trip on 64-bit words: client 0 calls with `(3, 7, 0, 0)`, the provider reads the
request and writes the reply `5` for it. -/
def roundTrip : System :=
  (((System.new [] [] []).startCall 64 0 ⟨3, 7, 0, 0⟩ none).recv 64 40 ⟨0, 0, 0, 0, 0⟩).reply
    64 40 ⟨1, 5, 0, 0, 0⟩

/-- `reply_reaches_caller` on `roundTrip`: client 0 gets `Ok(5)` at its next turn. -/
theorem reply_reaches_caller_roundTrip :
    Reachable 64 (Disciplined 64) roundTrip ∧ 0 < roundTrip.strong ∧
      roundTrip.clients 0 = .waiting 1 none ∧ Event.reply 1 ⟨5, 0, 0, 0⟩ ∈ roundTrip.trace ∧
      roundTrip.step 64 (.poll 0) =
        some { roundTrip with inner := (roundTrip.inner.collect 1).2,
                              memory := System.retireLent none roundTrip.memory,
                              clients := Function.update roundTrip.clients 0 .idle,
                              trace := .ret 0 1 (demux 64 5) :: roundTrip.trace } := by
  let s₁ := (System.new [] [] []).startCall 64 0 ⟨3, 7, 0, 0⟩ none
  let s₂ := s₁.recv 64 40 ⟨0, 0, 0, 0, 0⟩
  have htrace : s₂.trace = [.deliver 1 ⟨3, 7, 0, 0⟩, .submit 0 1 ⟨3, 7, 0, 0⟩] := rfl
  have hrun : Reachable 64 (Disciplined 64) roundTrip :=
    .next (.next (.next (.new [] [] [])
      (show Disciplined 64 (System.new [] [] []) (.call 0 ⟨3, 7, 0, 0⟩) from
        ⟨fun _ => by decide, trivial⟩) rfl)
      (show Disciplined 64 s₁ (.recv 40 ⟨0, 0, 0, 0, 0⟩) from ⟨trivial, trivial⟩) rfl)
      (show Disciplined 64 s₂ (.reply 40 ⟨1, 5, 0, 0, 0⟩) from
        ⟨trivial, fun _ => ⟨⟨⟨3, 7, 0, 0⟩, by rw [htrace]; simp⟩, fun regs => by
          rw [htrace]; simp⟩⟩) rfl
  have hc : roundTrip.clients 0 = .waiting 1 none := rfl
  have hreply : Event.reply 1 ⟨5, 0, 0, 0⟩ ∈ roundTrip.trace := List.mem_cons_self _ _
  exact ⟨hrun, Nat.one_pos, hc, hreply, reply_reaches_caller hrun Nat.one_pos hc hreply⟩

end RedoxKernel.Fs
