import RedoxKernel.Fs.Scheme.Calls

/-!
# What the provider can always do

The provider owns the scheme: its handles hold the only strong references to the `SchemeInner`,
and the kernel reaches the scheme only through the inner. This module proves four things about
the provider's side over whole runs.

`drop_is_final`: once the provider has dropped its last handle, and `Drop for SchemeInner` has
taken the scheme's name out of the kernel's list, no run brings the scheme back. Every step then refuses a call or
ends a blocked one with `Err(EBADF)` (`Inert.of_step`): the handle count stays `0`, and the inner,
the provider's memory map and the kernel's scheme list are never touched again.

`provider_drains_todo`: from every reachable state with the inner alive, one `read` on a
`Packet`-sized buffer per queued request delivers all of them, in ascending order of id, and
leaves `todo` empty, whatever the buffers held. No request is stuck behind another, and none is
lost (`run_recv_drains`, from the order of `BTreeMap` entries and the id facts of `Scheme.Ids`).

`blocked_call_returns`: in a disciplined run a blocked call never waits for good on the kernel.
The provider alone, by `read`s and at most one `write`, all within the discipline, can bring it to
return at its next turn. It rests on `Queued`: with no wrap of `next_id`, a request stays in
`todo` until it is delivered.

`scheme_quiesces`: in such a run the scheme never deadlocks while the inner lives. From every
state, the provider's `read`s and `write`s and one turn of each blocked client bring every call
home and leave `todo` and `done` empty (`settle_one` for one client, `settle_all` for all the
clients of the trace). The proof that `done` ends empty rests on `Answered.done_held`: every reply
in `done` is under the id of a call still blocked.

Scope. The last three results say that a run exists. The model makes no fairness assumption, so a
provider that never answers blocks its callers for good, as the source's polling loop does.
-/

set_option autoImplicit false
set_option relaxedAutoImplicit false

namespace RedoxKernel.Fs

/-! ### After the drop -/

/-- `s'` differs from `s` only in its clients and in events at the head of its trace by which
calls learn that the scheme is gone: a call refused at its start, or a blocked call returning
`Err(EBADF)`. -/
structure Inert (s s' : System) : Prop where
  strong : s'.strong = s.strong
  inner : s'.inner = s.inner
  memory : s'.memory = s.memory
  schemes : s'.schemes = s.schemes
  trace : ∃ new, s'.trace = new ++ s.trace ∧
    ∀ e ∈ new, (∃ c, e = .refuse c) ∨ ∃ c id, e = .ret c id (.error EBADF)

namespace Inert

variable {w : Nat} {s s₁ s₂ : System} {a : Action}

theorem refl (s : System) : Inert s s := ⟨rfl, rfl, rfl, rfl, [], rfl, nofun⟩

theorem trans (h₁ : Inert s s₁) (h₂ : Inert s₁ s₂) : Inert s s₂ where
  strong := h₂.strong.trans h₁.strong
  inner := h₂.inner.trans h₁.inner
  memory := h₂.memory.trans h₁.memory
  schemes := h₂.schemes.trans h₁.schemes
  trace := by
    obtain ⟨new₁, ht₁, he₁⟩ := h₁.trace
    obtain ⟨new₂, ht₂, he₂⟩ := h₂.trace
    exact ⟨new₂ ++ new₁, by rw [ht₂, ht₁, List.append_assoc],
      fun e he => (List.mem_append.mp he).elim (he₂ e) (he₁ e)⟩

/-- With the inner gone, a step only refuses a call or ends a blocked one: every other transition
needs a provider handle. -/
theorem of_step (hs : s.strong = 0) (h : s.step w a = some s₁) : Inert s s₁ := by
  cases System.step_cases h
  case refuse => exact ⟨rfl, rfl, rfl, rfl, [_], rfl, by simp⟩
  case orphan => exact ⟨rfl, rfl, rfl, rfl, [_], rfl, by simp⟩
  case idle => exact .refl s
  -- the other seven transitions need a handle
  all_goals omega

/-- With the inner gone, a whole run only refuses calls or ends blocked ones. -/
theorem of_run (hs : s.strong = 0) {actions : List Action} {s' : System}
    (h : s.run w actions = some s') : Inert s s' := by
  induction actions generalizing s with
  | nil => exact Option.some.inj h ▸ .refl s
  | cons a actions ih =>
    obtain ⟨s₁, h₁, h⟩ := Option.bind_eq_some.mp h
    have hstep := of_step hs h₁
    exact hstep.trans (ih (hstep.strong.trans hs) h)

end Inert

/-- Once the provider has dropped its last handle, every run from there, whatever its steps,
leaves the handle count at `0` and the inner, the provider's memory map and the kernel's scheme
list as they were: no handle comes back, and no request is queued, delivered or answered again.
The trace grows only by calls refused at their start and blocked calls returning
`Err(EBADF)`. -/
theorem drop_is_final {w : Nat} {s s' : System} {actions : List Action} (hs : s.strong = 0)
    (h : s.run w actions = some s') :
    s'.strong = 0 ∧ s'.inner = s.inner ∧ s'.memory = s.memory ∧ s'.schemes = s.schemes ∧
      ∃ new, s'.trace = new ++ s.trace ∧
        ∀ e ∈ new, (∃ c, e = .refuse c) ∨ ∃ c id, e = .ret c id (.error EBADF) := by
  have hI := Inert.of_run hs h
  exact ⟨hI.strong.trans hs, hI.inner, hI.memory, hI.schemes, hI.trace⟩

/-- The scheme `pipe`, registered next to `file`, right after its provider dropped its only
handle. -/
def pipeClosed : System :=
  (System.new [112, 105, 112, 101] [] [[112, 105, 112, 101], [102, 105, 108, 101]]).close

/-- `pipeClosed` after client `0` tried a call. -/
def pipeRefused : System := { pipeClosed with trace := .refuse 0 :: pipeClosed.trace }

/-- `drop_is_final` on a call made after `pipe` was dropped. -/
theorem drop_is_final_pipeClosed :
    pipeClosed.strong = 0 ∧ pipeClosed.run 64 [.call 0 ⟨1, 2, 3, 4⟩] = some pipeRefused ∧
      pipeRefused.strong = 0 ∧ pipeRefused.inner = pipeClosed.inner ∧
      pipeRefused.memory = pipeClosed.memory ∧ pipeRefused.schemes = pipeClosed.schemes ∧
      ∃ new, pipeRefused.trace = new ++ pipeClosed.trace ∧
        ∀ e ∈ new, (∃ c, e = .refuse c) ∨ ∃ c id, e = .ret c id (.error EBADF) :=
  have h : pipeClosed.run 64 [.call 0 ⟨1, 2, 3, 4⟩] = some pipeRefused := rfl
  ⟨rfl, h, drop_is_final rfl h⟩

/-! ### Draining the queue -/

/-- From a state with the inner alive whose queued ids are not `0`, one `read` on a `Packet`-sized
buffer per entry of `todo` delivers the entries in their order and empties `todo`. -/
theorem run_recv_drains {w : Nat} (packet : Packet) :
    ∀ (entries : List (Nat × Regs)) (s : System), s.inner.todo.entries = entries →
      0 < s.strong → (∀ e ∈ entries, 0 < e.1) →
      s.run w (List.replicate entries.length (.recv (packetSize w) packet)) =
        some { s with inner := { s.inner with todo := .empty },
                      trace := (entries.map fun e => Event.deliver e.1 e.2).reverse ++ s.trace }
  | [], ⟨strong, ⟨name, nextId, todo, done⟩, memory, schemes, clients, trace⟩, hes, _, _ => by
    have htodo : todo = .empty := BTreeMap.eq_empty_of_entries hes
    subst htodo
    rfl
  | (k, regs) :: rest, s, hes, hs, hpos => by
    obtain ⟨hk, hregs, hrest⟩ := BTreeMap.head_entry hes
    rw [List.length_cons, List.replicate_succ, System.run_cons_of_step
      (System.step_recv_of_firstKey hs hk (hpos _ (List.mem_cons_self _ _)) hregs packet),
      run_recv_drains (w := w) packet rest
        { s with inner := { s.inner with todo := (s.inner.todo.remove k).2 },
                 trace := .deliver k regs :: s.trace }
        hrest hs fun e he => hpos e (List.mem_cons_of_mem _ he)]
    simp

/-- From every state of every run with the inner alive, the provider can empty `todo`: one `read`
on a `Packet`-sized buffer per queued request delivers each request once, with its id and words,
in the order of `todo`'s entries, which is ascending order of id, whatever the buffers held, and
changes nothing else. -/
theorem provider_drains_todo {w : Nat} {P : System → Action → Prop} {s : System}
    (hs : Reachable w P s) (hlive : 0 < s.strong) (packet : Packet) :
    s.run w (List.replicate s.inner.todo.entries.length (.recv (packetSize w) packet)) =
      some { s with inner := { s.inner with todo := .empty },
                    trace := (s.inner.todo.entries.map fun e => Event.deliver e.1 e.2).reverse ++
                      s.trace } :=
  run_recv_drains packet _ s rfl hlive fun _ he =>
    (idsOk_of_reachable hs).key_pos (BTreeMap.get_isSome_of_mem he)

/-- `provider_drains_todo` on `twoCalls`: two `read`s deliver ids `1` and `2`. -/
theorem provider_drains_todo_twoCalls :
    Reachable 64 (Disciplined 64) twoCalls ∧ 0 < twoCalls.strong ∧
      twoCalls.run 64
          (List.replicate twoCalls.inner.todo.entries.length (.recv (packetSize 64) ⟨0, 0, 0, 0, 0⟩)) =
        some { twoCalls with inner := { twoCalls.inner with todo := .empty },
                             trace := (twoCalls.inner.todo.entries.map
                               fun e => Event.deliver e.1 e.2).reverse ++ twoCalls.trace } :=
  ⟨reachable_twoCalls, Nat.one_pos,
    provider_drains_todo reachable_twoCalls Nat.one_pos ⟨0, 0, 0, 0, 0⟩⟩

/-! ### Every blocked call can return -/

/-- Every request is still queued under its id until it is delivered. -/
def Queued (s : System) : Prop :=
  ∀ c id regs, Event.submit c id regs ∈ s.trace →
    s.inner.todo.get id = some regs ∨ Event.deliver id regs ∈ s.trace

section Queue

variable {w : Nat} {s s' : System} {a : Action}

/-- A step that queues nothing and leaves `todo` alone keeps every request queued. -/
theorem Queued.quiet (hQ : Queued s) {e : Event} (htrace : s'.trace = e :: s.trace)
    (he : ∀ c id regs, e ≠ .submit c id regs) (htodo : s'.inner.todo = s.inner.todo) :
    Queued s' := by
  intro c id regs hmem
  rw [htrace] at hmem ⊢
  rw [htodo]
  exact (hQ c id regs ((List.mem_cons.mp hmem).resolve_left fun h => he c id regs h.symm)).imp_right
    (List.mem_cons_of_mem e)

/-- Every step below the wrap keeps every request queued until it is delivered: a new request goes
in under an id no earlier request has, and a delivery takes out only the request it records. -/
theorem Queued.step (hQ : Queued s) (hO : Ordered s) (h : s.step w a = some s') : Queued s' := by
  cases System.step_cases h with
  | submit c regs lent memory =>
    intro c' id regs' hmem
    simp only [submit_todo, BTreeMap.get_insert]
    rcases List.mem_cons.mp hmem with he | hmem
    · cases he
      exact .inl (if_pos rfl)
    · rw [if_neg (hO.submit_lt c' id regs' hmem).ne]
      exact (hQ c' id regs' hmem).imp_right (List.mem_cons_of_mem _)
  | deliver k regs _ _ _ hregs =>
    intro c id regs' hmem
    replace hmem := (List.mem_cons.mp hmem).resolve_left nofun
    simp only [BTreeMap.get_remove]
    by_cases hk : id = k
    · subst hk
      rcases hQ c id regs' hmem with hq | hd
      · cases hregs.symm.trans hq
        exact .inr (List.mem_cons_self _ _)
      · exact .inr (List.mem_cons_of_mem _ hd)
    · rw [if_neg hk]
      exact (hQ c id regs' hmem).imp_right (List.mem_cons_of_mem _)
  | refuse c => exact hQ.quiet rfl (fun _ _ _ => nofun) rfl
  | answer c id lent regs => exact hQ.quiet rfl (fun _ _ _ => nofun) rfl
  | orphan c id lent => exact hQ.quiet rfl (fun _ _ _ => nofun) rfl
  | reply packet => exact hQ.quiet rfl (fun _ _ _ => nofun) rfl
  | drop => exact hQ.quiet rfl (fun _ _ _ => nofun) rfl
  | idle => exact hQ
  | push c op virt => exact hQ
  | share n => exact hQ

end Queue

/-- In every run with no wrap of `next_id`, a request stays queued until it is delivered. -/
theorem queued_of_reachable {w : Nat} {s : System} (hs : Reachable w (NoWrap w) s) : Queued s :=
  hs.invariant Queued (fun _ _ _ => nofun) fun hs hQ _ h => hQ.step (ordered_of_reachable hs) h

/-- From a disciplined state with the inner alive, a call blocked on a request that the provider
has read and not answered returns the words of a `write` for it at its next turn. -/
theorem reply_then_poll {w : Nat} {s : System} (hs : Reachable w (Disciplined w) s)
    (hlive : 0 < s.strong) {c id : Nat} {lent : Option Nat} (hc : s.clients c = .waiting id lent)
    (hread : ∃ x, Event.deliver id x ∈ s.trace) (hfirst : ∀ r, Event.reply id r ∉ s.trace)
    (regs : Regs) :
    ∃ s', s.run w [.reply (packetSize w) ⟨id, regs.a, regs.b, regs.c, regs.d⟩, .poll c] =
        some s' ∧ Reachable w (Disciplined w) s' ∧ s'.clients c = .idle ∧
      s'.trace.head? = some (.ret c id (demux w regs.a)) := by
  obtain ⟨s₁, hreply, hlive₁, hc₁, hdone₁⟩ : ∃ s₁,
      s.step w (.reply (packetSize w) ⟨id, regs.a, regs.b, regs.c, regs.d⟩) = some s₁ ∧
        0 < s₁.strong ∧ s₁.clients c = .waiting id lent ∧ s₁.inner.done.get id = some regs :=
    ⟨_, System.step_reply_of_size hlive _, hlive, hc, by rw [BTreeMap.get_insert, if_pos rfl]; rfl⟩
  have hpoll := System.step_poll_of_done (w := w) hlive₁ hc₁ hdone₁
  exact ⟨_, by rw [System.run_cons_of_step hreply]; exact System.run_cons_of_step hpoll [],
    (hs.after hreply ⟨trivial, fun _ => ⟨hread, hfirst⟩⟩).after hpoll ⟨trivial, trivial⟩,
    by simp, rfl⟩

/-- In every run with no wrap of `next_id` and a provider that answers only requests it read, each
at most once, a call blocked while the inner lives never waits for good on the kernel: the
provider alone, by `read`s on `Packet`-sized buffers and at most one `write` for the call's id,
all within the discipline, can bring it to return at its next turn. -/
theorem blocked_call_returns {w : Nat} {s : System} (hs : Reachable w (Disciplined w) s)
    (hlive : 0 < s.strong) {c id : Nat} {lent : Option Nat} (hc : s.clients c = .waiting id lent)
    (packet : Packet) :
    ∃ provider : List Action,
      (∀ a ∈ provider, a = .recv (packetSize w) packet ∨
        ∃ regs : Regs, a = .reply (packetSize w) ⟨id, regs.a, regs.b, regs.c, regs.d⟩) ∧
      ∃ s', s.run w (provider ++ [.poll c]) = some s' ∧ Reachable w (Disciplined w) s' ∧
        s'.clients c = .idle ∧ ∃ r, s'.trace.head? = some (.ret c id r) := by
  obtain ⟨hO, hA⟩ := answered_of_reachable hs
  obtain ⟨⟨regs₀, hsub⟩, -⟩ := (hA.waiting_iff c id).mp ⟨lent, hc⟩
  by_cases hreplied : ∃ r, Event.reply id r ∈ s.trace
  · -- already answered: the next turn collects the reply
    obtain ⟨r, hr⟩ := hreplied
    have hpoll := System.step_poll_of_done (w := w) hlive hc (hA.done_of_reply hO hlive hc hr)
    exact ⟨[], nofun, _, System.run_cons_of_step hpoll [], hs.after hpoll ⟨trivial, trivial⟩,
      by simp, _, rfl⟩
  have hfirst : ∀ r, Event.reply id r ∉ s.trace := fun r h => hreplied ⟨r, h⟩
  have honce : ∀ a ∈ [Action.reply (packetSize w) ⟨id, regs₀.a, regs₀.b, regs₀.c, regs₀.d⟩],
      a = .recv (packetSize w) packet ∨
        ∃ regs : Regs, a = .reply (packetSize w) ⟨id, regs.a, regs.b, regs.c, regs.d⟩ :=
    fun a ha => .inr ⟨regs₀, List.mem_singleton.mp ha⟩
  rcases queued_of_reachable (hs.mono fun _ _ h => h.1) c id regs₀ hsub with hq | hd
  · -- still queued: read the queue out, then answer
    have hdrain := run_recv_drains (w := w) packet _ s rfl hlive fun _ he =>
      (idsOk_of_reachable hs).key_pos (BTreeMap.get_isSome_of_mem he)
    have hs₁ := hs.of_run (fun _ a ha => by
      rw [List.eq_of_mem_replicate ha]; exact ⟨trivial, trivial⟩) hdrain
    obtain ⟨s', hrun, hs', hidle, hret⟩ := reply_then_poll hs₁ hlive hc
      ⟨regs₀, List.mem_append_left _ (List.mem_reverse.mpr
        (List.mem_map.mpr ⟨(id, regs₀), BTreeMap.find?_eq_some_mem hq, rfl⟩))⟩
      (fun r h => (List.mem_append.mp h).elim (by simp) (hfirst r)) regs₀
    refine ⟨List.replicate s.inner.todo.entries.length (.recv (packetSize w) packet) ++
      [.reply (packetSize w) ⟨id, regs₀.a, regs₀.b, regs₀.c, regs₀.d⟩], fun a ha =>
      (List.mem_append.mp ha).elim
      (fun ha => .inl (List.eq_of_mem_replicate ha)) (honce a), s', ?_, hs', hidle, _, hret⟩
    rw [List.append_assoc, System.run_append, hdrain]
    exact hrun
  · -- read and not answered: answer it
    obtain ⟨s', hrun, hs', hidle, hret⟩ := reply_then_poll hs hlive hc ⟨regs₀, hd⟩ hfirst regs₀
    exact ⟨_, honce, s', hrun, hs', hidle, _, hret⟩

/-- `blocked_call_returns` on `twoCalls`, for client `1`, whose request waits behind client `0`'s. -/
theorem blocked_call_returns_twoCalls :
    Reachable 64 (Disciplined 64) twoCalls ∧ 0 < twoCalls.strong ∧
      twoCalls.clients 1 = .waiting 2 none ∧
      ∃ provider : List Action,
        (∀ a ∈ provider, a = .recv (packetSize 64) ⟨0, 0, 0, 0, 0⟩ ∨
          ∃ regs : Regs, a = .reply (packetSize 64) ⟨2, regs.a, regs.b, regs.c, regs.d⟩) ∧
        ∃ s', twoCalls.run 64 (provider ++ [.poll 1]) = some s' ∧
          Reachable 64 (Disciplined 64) s' ∧ s'.clients 1 = .idle ∧
          ∃ r, s'.trace.head? = some (.ret 1 2 r) :=
  ⟨reachable_twoCalls, Nat.one_pos, rfl,
    blocked_call_returns reachable_twoCalls Nat.one_pos (rfl : twoCalls.clients 1 = .waiting 2 none)
      ⟨0, 0, 0, 0, 0⟩⟩

/-! ### Bringing every call home -/

/-- Every reply waiting in `done` while the inner lives is under the id of a blocked call. -/
theorem Answered.done_held {w : Nat} {s : System} (hA : Answered w s) (hlive : 0 < s.strong)
    {k : Nat} {regs : Regs} (hdone : s.inner.done.get k = some regs) :
    ∃ c lent, s.clients c = .waiting k lent := by
  obtain ⟨hreply, hnoret⟩ := (hA.done_iff hlive k regs).mp hdone
  obtain ⟨-, c, regs₀, hsub⟩ := hA.reply_requested hreply
  obtain ⟨lent, hc⟩ := (hA.waiting_iff c k).mpr ⟨⟨regs₀, hsub⟩, hnoret c⟩
  exact ⟨c, lent, hc⟩

/-- The clients that queued a request in a trace. -/
def callers (t : List Event) : List Nat :=
  t.filterMap fun e => match e with
    | .submit c _ _ => some c
    | _ => none

theorem mem_callers {t : List Event} {c id : Nat} {regs : Regs}
    (h : Event.submit c id regs ∈ t) : c ∈ callers t :=
  List.mem_filterMap.mpr ⟨_, h, rfl⟩

section Settle

variable {w : Nat}

/-- From a disciplined state with the inner alive and `todo` empty, a `write` for client `c`'s
request if it has none yet, and a turn of `c`, bring `c` home and change no other client. -/
theorem settle_one {t : System} (hs : Reachable w (Disciplined w) t) (hlive : 0 < t.strong)
    (htodo : t.inner.todo = .empty) (c : Nat) :
    ∃ acts t', (∀ a ∈ acts, (∃ p, a = .reply (packetSize w) p) ∨ a = .poll c) ∧
      t.run w acts = some t' ∧ Reachable w (Disciplined w) t' ∧ 0 < t'.strong ∧
      t'.inner.todo = .empty ∧ t'.clients = Function.update t.clients c .idle := by
  cases hc : t.clients c with
  | idle =>
    exact ⟨[], t, nofun, rfl, hs, hlive, htodo, by rw [← hc, Function.update_eq_self]⟩
  | waiting id lent =>
    obtain ⟨hO, hA⟩ := answered_of_reachable hs
    by_cases hreplied : ∃ r, Event.reply id r ∈ t.trace
    · -- already answered: the turn collects the reply
      obtain ⟨r, hr⟩ := hreplied
      have hpoll := System.step_poll_of_done (w := w) hlive hc (hA.done_of_reply hO hlive hc hr)
      exact ⟨[.poll c], _, fun a ha => .inr (List.mem_singleton.mp ha),
        System.run_cons_of_step hpoll [], hs.after hpoll ⟨trivial, trivial⟩, hlive,
        by simpa using htodo, rfl⟩
    · -- read and not answered, since `todo` is empty: answer it, then the turn collects it
      obtain ⟨⟨regs₀, hsub⟩, -⟩ := (hA.waiting_iff c id).mp ⟨lent, hc⟩
      have hread : Event.deliver id regs₀ ∈ t.trace :=
        (queued_of_reachable (hs.mono fun _ _ h => h.1) c id regs₀ hsub).resolve_left
          (by simp [htodo])
      have hreply := System.step_reply_of_size (w := w) hlive ⟨id, regs₀.a, regs₀.b, regs₀.c, regs₀.d⟩
      have hdone : (t.inner.done.insert id regs₀).get id = some regs₀ := by simp
      have hpoll := System.step_poll_of_done (w := w) (s := { t with
          inner := { t.inner with done := t.inner.done.insert id regs₀ },
          trace := .reply id regs₀ :: t.trace }) hlive hc hdone
      refine ⟨[.reply (packetSize w) ⟨id, regs₀.a, regs₀.b, regs₀.c, regs₀.d⟩, .poll c], _,
        fun a ha => ?_, by rw [System.run_cons_of_step hreply]; exact System.run_cons_of_step hpoll [],
        (hs.after hreply ⟨trivial, fun _ => ⟨⟨regs₀, hread⟩, fun r h => hreplied ⟨r, h⟩⟩⟩).after
          hpoll ⟨trivial, trivial⟩, hlive, by simpa using htodo, rfl⟩
      rcases List.mem_pair.mp ha with rfl | rfl
      · exact .inl ⟨_, rfl⟩
      · exact .inr rfl

/-- From a disciplined state with the inner alive and `todo` empty, settling the clients of a list
one after another brings each of them home and changes no other client. -/
theorem settle_all :
    ∀ (L : List Nat) (t : System), Reachable w (Disciplined w) t → 0 < t.strong →
      t.inner.todo = .empty →
      ∃ acts t', (∀ a ∈ acts, (∃ p, a = .reply (packetSize w) p) ∨ ∃ c, a = .poll c) ∧
        t.run w acts = some t' ∧ Reachable w (Disciplined w) t' ∧ 0 < t'.strong ∧
        t'.inner.todo = .empty ∧ ∀ c, t'.clients c = if c ∈ L then .idle else t.clients c
  | [], t, hs, hlive, htodo => ⟨[], t, nofun, rfl, hs, hlive, htodo, fun _ => rfl⟩
  | c :: L, t, hs, hlive, htodo => by
    obtain ⟨acts₁, t₁, hacts₁, hrun₁, hs₁, hlive₁, htodo₁, hclients₁⟩ := settle_one hs hlive htodo c
    obtain ⟨acts₂, t₂, hacts₂, hrun₂, hs₂, hlive₂, htodo₂, hclients₂⟩ :=
      settle_all L t₁ hs₁ hlive₁ htodo₁
    refine ⟨acts₁ ++ acts₂, t₂, fun a ha => ?_, by rw [System.run_append, hrun₁]; exact hrun₂,
      hs₂, hlive₂, htodo₂, fun c' => ?_⟩
    · rcases List.mem_append.mp ha with ha | ha
      · exact (hacts₁ a ha).imp_right fun h => ⟨c, h⟩
      · exact hacts₂ a ha
    · rw [hclients₂ c', hclients₁]
      by_cases hc' : c' = c
      · subst hc'; simp
      · by_cases hL : c' ∈ L <;> simp [hc', hL]

end Settle

/-- In every run with no wrap of `next_id` and a provider that answers only requests it read, each
at most once, the scheme can always come to rest while the inner lives: from every state, the
provider's `read`s and `write`s, within the discipline, and one turn of each blocked client bring
every call home, leaving `todo` and `done` empty and every client idle. No state of such a run is
one from which a call can only wait for good. -/
theorem scheme_quiesces {w : Nat} {s : System} (hs : Reachable w (Disciplined w) s)
    (hlive : 0 < s.strong) (packet : Packet) :
    ∃ actions s', (∀ a ∈ actions, a = .recv (packetSize w) packet ∨
        (∃ p, a = .reply (packetSize w) p) ∨ ∃ c, a = .poll c) ∧
      s.run w actions = some s' ∧ Reachable w (Disciplined w) s' ∧
      s'.inner.todo = .empty ∧ s'.inner.done = .empty ∧ ∀ c, s'.clients c = .idle := by
  -- the provider reads the queue out
  have hdrain := run_recv_drains (w := w) packet _ s rfl hlive fun _ he =>
    (idsOk_of_reachable hs).key_pos (BTreeMap.get_isSome_of_mem he)
  have hs₁ := hs.of_run (fun _ a ha => by
    rw [List.eq_of_mem_replicate ha]; exact ⟨trivial, trivial⟩) hdrain
  -- then settles every client that ever queued a request
  obtain ⟨acts, s₂, hacts, hrun₂, hs₂, hlive₂, htodo₂, hclients₂⟩ :=
    settle_all (callers s.trace) _ hs₁ hlive rfl
  have hidle : ∀ c, s₂.clients c = .idle := fun c => by
    rw [hclients₂ c]
    split_ifs with hc
    · rfl
    · cases hph : s.clients c with
      | idle => rfl
      | waiting id lent =>
        obtain ⟨⟨regs, hsub⟩, -⟩ := ((answered_of_reachable hs).2.waiting_iff c id).mp ⟨lent, hph⟩
        exact absurd (mem_callers hsub) hc
  have hdone : s₂.inner.done = .empty := by
    cases hent : s₂.inner.done.entries with
    | nil => exact BTreeMap.eq_empty_of_entries hent
    | cons e rest =>
      obtain ⟨v, hv⟩ := Option.isSome_iff_exists.mp
        (BTreeMap.get_isSome_of_mem (show e ∈ s₂.inner.done.entries by simp [hent]))
      obtain ⟨c, lent, hc⟩ := (answered_of_reachable hs₂).2.done_held hlive₂ hv
      rw [hidle c] at hc
      cases hc
  refine ⟨_ ++ acts, s₂, fun a ha => ?_, by rw [System.run_append, hdrain]; exact hrun₂, hs₂,
    htodo₂, hdone, hidle⟩
  rcases List.mem_append.mp ha with ha | ha
  · exact .inl (List.eq_of_mem_replicate ha)
  · exact .inr (hacts a ha)

/-- `scheme_quiesces` on `twoCalls`. -/
theorem scheme_quiesces_twoCalls :
    Reachable 64 (Disciplined 64) twoCalls ∧ 0 < twoCalls.strong ∧
      ∃ actions s', (∀ a ∈ actions, a = .recv (packetSize 64) ⟨0, 0, 0, 0, 0⟩ ∨
          (∃ p, a = .reply (packetSize 64) p) ∨ ∃ c, a = .poll c) ∧
        twoCalls.run 64 actions = some s' ∧ Reachable 64 (Disciplined 64) s' ∧
        s'.inner.todo = .empty ∧ s'.inner.done = .empty ∧ ∀ c, s'.clients c = .idle :=
  ⟨reachable_twoCalls, Nat.one_pos, scheme_quiesces reachable_twoCalls Nat.one_pos _⟩

end RedoxKernel.Fs
