import RedoxKernel.Fs.Scheme.System

/-!
# Request ids

`SchemeInner::call` takes its id from `next_id` and advances it on a `w`-bit word, with `0` replaced
by `1`. Two facts about the ids hold in every reachable state, with no discipline on any party and
the wrap included (`IdsOk`, `idsOk_of_reachable`): `next_id` is not `0`, and `0` is not a key of
`todo`. They are what `SchemeServerResource::read` needs: its packet id `0` stands for an empty
queue, so a request under `0` would never be delivered and would hold up the queue behind it.
`read_takes_least` shows that it never comes to that: on a `Packet`-sized buffer, `read` delivers the
least queued request whenever there is one, and answers `Ok(0)` with id `0` exactly when the queue
is empty. `ids_follow_generator` gives the whole sequence: in every run the requests are queued
under `1, f 1, f (f 1), …` in the order they are made, `f` being the update of `next_id`.

What the ids do not give is uniqueness across the wrap. The `TODO` in `call` asks what happens when
an id collides with one in `todo` or `done`. It takes only two clients: `serve_queued` gives the
whole effect of a `read`, a `write` and the collecting turn, `Served.serve` serves one call with it,
and `Served.serve_upto` repeats that up to the top of the word. `wrap_shares_id` runs one call that
the provider reads and does not answer, then `2^w - 2` calls served in turn; `next_id` wraps, and
the next call gets id `1` while the first still holds it. `call_reuses_held_id` takes that run on
32-bit words on to its end: the provider answers the new request, and the old call returns the
answer. With no wrap the ids are unique (`Scheme.Calls`).
-/

set_option autoImplicit false
set_option relaxedAutoImplicit false

namespace RedoxKernel.Fs

/-! ### What every step keeps -/

/-- The id facts `read` relies on: `next_id` is not `0`, and `0` is not a key of `todo`. -/
structure IdsOk (inner : SchemeInner) : Prop where
  nextId_pos : 0 < inner.nextId
  todo_zero : inner.todo.get 0 = none

section Steps

variable {w : Nat} {s s' : System} {a : Action}

/-- Every step keeps the id facts, whatever the party and whether or not `next_id` wraps. -/
theorem IdsOk.step (hI : IdsOk s.inner) (h : s.step w a = some s') : IdsOk s'.inner := by
  cases System.step_cases h with
  | submit c regs lent memory =>
    exact ⟨nextIdAfter_pos w _, by simp [hI.todo_zero, hI.nextId_pos.ne]⟩
  | answer c id lent regs => exact ⟨hI.nextId_pos, hI.todo_zero⟩
  | deliver k regs => exact ⟨hI.nextId_pos, by simp [hI.todo_zero]⟩
  | reply packet => exact ⟨hI.nextId_pos, hI.todo_zero⟩
  | refuse c => exact hI
  | idle => exact hI
  | push c op virt => exact hI
  | orphan c id lent => exact hI
  | share n => exact hI
  | drop => exact hI

/-- Under the id facts every queued id is positive. -/
theorem IdsOk.key_pos {inner : SchemeInner} (hI : IdsOk inner) {k : Nat}
    (hk : (inner.todo.get k).isSome) : 0 < k :=
  Nat.pos_of_ne_zero fun h0 => by rw [h0, hI.todo_zero] at hk; exact absurd hk (by simp)

end Steps

/-- The id facts hold in every state that any steps reach from `Scheme::new`. -/
theorem idsOk_of_reachable {w : Nat} {P : System → Action → Prop} {s : System}
    (hs : Reachable w P s) : IdsOk s.inner :=
  hs.invariant (fun s => IdsOk s.inner) (fun _ _ _ => ⟨Nat.one_pos, rfl⟩) fun _ hI _ h => hI.step h

/-! ### `read` never sticks -/

/-- In every state that any sequence of steps reaches, wrap included, `next_id` is not `0` and
`0` is not a key of `todo`; so `read` on a `Packet`-sized buffer takes out the least queued
request and returns it under its id with its four words whenever `todo` is not empty, and returns
`Ok(0)` with id `0`, leaving everything as it was, exactly when `todo` is empty. -/
theorem read_takes_least {w : Nat} {s : System} (hs : Reachable w (fun _ _ => True) s)
    (packet : Packet) :
    0 < s.inner.nextId ∧ s.inner.todo.get 0 = none ∧
      (∀ k, s.inner.todo.firstKey? = some k →
        (∀ k', (s.inner.todo.get k').isSome → k ≤ k') ∧
        ∃ regs, s.inner.todo.get k = some regs ∧
          SchemeServerResource.read w s.inner (packetSize w) packet =
            (.ok (packetSize w), ⟨k, regs.a, regs.b, regs.c, regs.d⟩,
              { s.inner with todo := (s.inner.todo.remove k).2 })) ∧
      (SchemeServerResource.read w s.inner (packetSize w) packet =
          (.ok 0, { packet with id := 0 }, s.inner) ↔ s.inner.todo.firstKey? = none) := by
  have hI := idsOk_of_reachable hs
  have hpos : ∀ k, s.inner.todo.firstKey? = some k → 0 < k := fun k hk =>
    hI.key_pos (BTreeMap.firstKey?_eq_some hk).1
  refine ⟨hI.nextId_pos, hI.todo_zero, fun k hk => ⟨(BTreeMap.firstKey?_eq_some hk).2,
    SchemeServerResource.read_of_firstKey w s.inner packet hk (hpos k hk)⟩, ?_⟩
  constructor
  · intro hread
    cases hk : s.inner.todo.firstKey? with
    | none => rfl
    | some k =>
      obtain ⟨regs, -, hread'⟩ :=
        SchemeServerResource.read_of_firstKey w s.inner packet hk (hpos k hk)
      rw [hread'] at hread
      have hid := congrArg (fun r => r.2.1.id) hread
      simp only at hid
      exact absurd hid (hpos k hk).ne'
  · exact SchemeServerResource.read_of_empty w s.inner packet

/-- `read_takes_least` on `twoCalls`, whose queue holds ids `1` and `2`. -/
theorem read_takes_least_twoCalls :
    Reachable 64 (fun _ _ => True) twoCalls ∧ twoCalls.inner.todo.firstKey? = some 1 ∧
      0 < twoCalls.inner.nextId ∧ twoCalls.inner.todo.get 0 = none ∧
      (∀ k, twoCalls.inner.todo.firstKey? = some k →
        (∀ k', (twoCalls.inner.todo.get k').isSome → k ≤ k') ∧
        ∃ regs, twoCalls.inner.todo.get k = some regs ∧
          SchemeServerResource.read 64 twoCalls.inner (packetSize 64) ⟨0, 0, 0, 0, 0⟩ =
            (.ok (packetSize 64), ⟨k, regs.a, regs.b, regs.c, regs.d⟩,
              { twoCalls.inner with todo := (twoCalls.inner.todo.remove k).2 })) ∧
      (SchemeServerResource.read 64 twoCalls.inner (packetSize 64) ⟨0, 0, 0, 0, 0⟩ =
          (.ok 0, { (⟨0, 0, 0, 0, 0⟩ : Packet) with id := 0 }, twoCalls.inner) ↔
        twoCalls.inner.todo.firstKey? = none) :=
  have hs : Reachable 64 (fun _ _ => True) twoCalls := reachable_twoCalls.mono fun _ _ _ => trivial
  ⟨hs, rfl, read_takes_least hs ⟨0, 0, 0, 0, 0⟩⟩

/-! ### The sequence of ids -/

/-- The id an event queued a request under, if it queued one. -/
def Event.requestId? : Event → Option Nat
  | .submit _ id _ => some id
  | _ => none

/-- The ids a trace's requests were queued under, oldest first. -/
def requestIds (t : List Event) : List Nat := (t.filterMap Event.requestId?).reverse

@[simp] theorem requestIds_submit (c id : Nat) (regs : Regs) (t : List Event) :
    requestIds (.submit c id regs :: t) = requestIds t ++ [id] := by
  simp [requestIds, Event.requestId?]

/-- The generator of ids from `1` never yields `0`, however often it wraps. -/
theorem iterate_nextIdAfter_pos (w : Nat) : ∀ m, 0 < (nextIdAfter w)^[m] 1
  | 0 => Nat.one_pos
  | m + 1 => by rw [Function.iterate_succ_apply']; exact nextIdAfter_pos w _

/-- The requests so far were queued under the ids `next_id`'s update makes from `1`, in turn, and
`next_id` is the one after them. -/
def FollowsGenerator (w : Nat) (s : System) : Prop :=
  requestIds s.trace = List.iterate (nextIdAfter w) 1 (requestIds s.trace).length ∧
    s.inner.nextId = (nextIdAfter w)^[(requestIds s.trace).length] 1

section Generator

variable {w : Nat} {s s' : System} {a : Action}

/-- A step that queues nothing and leaves `next_id` alone keeps the ids on the generator. -/
theorem FollowsGenerator.quiet (hI : FollowsGenerator w s)
    (htrace : requestIds s'.trace = requestIds s.trace)
    (hnext : s'.inner.nextId = s.inner.nextId) : FollowsGenerator w s' := by
  unfold FollowsGenerator
  rw [htrace, hnext]
  exact hI

/-- Every step keeps the ids on the generator, with no discipline and across the wrap. -/
theorem FollowsGenerator.step (hI : FollowsGenerator w s) (h : s.step w a = some s') :
    FollowsGenerator w s' := by
  cases System.step_cases h with
  | submit c regs lent memory =>
    obtain ⟨hids, hnext⟩ := hI
    simp only [FollowsGenerator, requestIds_submit, submit_nextId, List.length_append,
      List.length_singleton, Function.iterate_succ_apply']
    refine ⟨?_, by rw [hnext]⟩
    rw [List.iterate_add, ← hids, ← hnext]
    rfl
  | refuse c => exact hI.quiet rfl rfl
  | answer c id lent regs => exact hI.quiet rfl rfl
  | orphan c id lent => exact hI.quiet rfl rfl
  | deliver k regs => exact hI.quiet rfl rfl
  | reply packet => exact hI.quiet rfl rfl
  | drop => exact hI.quiet rfl rfl
  | idle => exact hI
  | push c op virt => exact hI
  | share n => exact hI

end Generator

/-- In every run from `Scheme::new`, whatever its parties do and across the wrap, the requests are
queued under the ids `1, f 1, f (f 1), …` in the order they are made, where `f` is the update of
`next_id`, and never under `0`; `next_id` is the id the next request gets. -/
theorem ids_follow_generator {w : Nat} {P : System → Action → Prop} {s : System}
    (hs : Reachable w P s) :
    requestIds s.trace = List.iterate (nextIdAfter w) 1 (requestIds s.trace).length ∧
      s.inner.nextId = (nextIdAfter w)^[(requestIds s.trace).length] 1 ∧
      ∀ id ∈ requestIds s.trace, 0 < id := by
  have hI : FollowsGenerator w s :=
    hs.invariant (FollowsGenerator w) (fun _ _ _ => ⟨rfl, rfl⟩) fun _ hI _ h => hI.step h
  refine ⟨hI.1, hI.2, fun id hid => ?_⟩
  rw [hI.1, List.mem_iterate] at hid
  obtain ⟨m, -, rfl⟩ := hid
  exact iterate_nextIdAfter_pos w m

/-- `ids_follow_generator` on `twoCalls`, whose requests were queued under `1` and `2`. -/
theorem ids_follow_generator_twoCalls :
    Reachable 64 (Disciplined 64) twoCalls ∧ requestIds twoCalls.trace = [1, 2] ∧
      requestIds twoCalls.trace =
        List.iterate (nextIdAfter 64) 1 (requestIds twoCalls.trace).length ∧
      twoCalls.inner.nextId = (nextIdAfter 64)^[(requestIds twoCalls.trace).length] 1 ∧
      ∀ id ∈ requestIds twoCalls.trace, 0 < id :=
  ⟨reachable_twoCalls, rfl, ids_follow_generator reachable_twoCalls⟩

/-! ### Ids across the wrap -/

/-- Whatever the width, the id generator takes `0` to `1`. -/
theorem nextIdAfter_zero (w : Nat) : nextIdAfter w 0 = 1 := by
  have hle := Nat.mod_le 1 (2 ^ w)
  simp only [nextIdAfter, zero_add]
  split_ifs <;> omega

section Serve

variable {w : Nat}

/-- From a live state whose queue holds only a request under `k`, with `done` empty and no reply
yet under `k`, the provider's `read`, its `write` of a packet for `k`, and the turn of a client
blocked on `k` return that packet's first word to the client and leave both maps empty. -/
theorem serve_queued {s : System} {k c : Nat} {lent : Option Nat} {regs : Regs}
    (hs : Reachable w (RepliesToRead w) s) (hlive : 0 < s.strong) (hk : 0 < k)
    (htodo : s.inner.todo = BTreeMap.empty.insert k regs) (hdone : s.inner.done = .empty)
    (hc : s.clients c = .waiting k lent) (hfresh : ∀ x, Event.reply k x ∉ s.trace)
    (packet p : Packet) (hp : p.id = k) :
    ∃ s', s.run w [.recv (packetSize w) packet, .reply (packetSize w) p, .poll c] = some s' ∧
      Reachable w (RepliesToRead w) s' ∧ s'.strong = s.strong ∧
      s'.inner = { s.inner with todo := .empty, done := .empty } ∧
      s'.clients = Function.update s.clients c .idle ∧
      s'.trace = .ret c k (demux w p.regs.a) :: .reply k p.regs :: .deliver k regs :: s.trace := by
  subst hp
  -- the provider reads the request
  set s₁ := { s with inner := { s.inner with todo := (s.inner.todo.remove p.id).2 },
                     trace := .deliver p.id regs :: s.trace } with hs₁
  have h₁ : s.step w (.recv (packetSize w) packet) = some s₁ :=
    System.step_recv_of_firstKey hlive (by rw [htodo]; rfl) hk (by simp [htodo]) packet
  -- answers it
  have h₂ := System.step_reply_of_size (w := w) (s := s₁) hlive p
  have hreply : RepliesToRead w s₁ (.reply (packetSize w) p) := fun _ =>
    ⟨⟨regs, List.mem_cons_self _ _⟩, fun x hx => hfresh x ((List.mem_cons.mp hx).resolve_left nofun)⟩
  -- and the blocked client collects the answer
  have hanswer : (s₁.inner.done.insert p.id p.regs).get p.id = some p.regs := by simp
  have h₃ := System.step_poll_of_done (w := w) (s := { s₁ with
      inner := { s₁.inner with done := s₁.inner.done.insert p.id p.regs },
      trace := .reply p.id p.regs :: s₁.trace }) hlive hc hanswer
  refine ⟨_, (System.run_cons_of_step h₁ _).trans ((System.run_cons_of_step h₂ _).trans
      (System.run_cons_of_step h₃ [])), ((hs.after h₁ trivial).after h₂ hreply).after h₃ trivial,
    rfl, ?_, rfl, rfl⟩
  simp [hs₁, SchemeInner.collect, htodo, hdone, BTreeMap.remove_insert_empty]

/-- A state from which every call so far, but the calls of clients still blocked, has come and
gone, `next_id` following `k`: the inner alive, both maps empty, and every reply written for an id
up to `k`. -/
structure Served (w k : Nat) (s : System) : Prop where
  live : 0 < s.strong
  next : s.inner.nextId = nextIdAfter w k
  todo : s.inner.todo = .empty
  done : s.inner.done = .empty
  replies : ∀ id x, Event.reply id x ∈ s.trace → id ≤ k

/-- A new scheme has served nothing. -/
theorem served_new (name : List UInt8) (memory : List ContextMemory)
    (schemes : List (List UInt8)) : Served w 0 (System.new name memory schemes) :=
  ⟨Nat.one_pos, (nextIdAfter_zero w).symm, rfl, rfl, fun _ _ h => absurd h (List.not_mem_nil _)⟩

/-- One more call of an idle client `c` below the top of the word: queued, read, answered with
its own words within the discipline, and returned. No other client moves, and the only reply the
run writes is under `k + 1`. -/
theorem Served.serve {k : Nat} {s : System} (hs : Reachable w (RepliesToRead w) s)
    (hS : Served w k s) (hk : k + 1 < 2 ^ w) {c : Nat} (hc : s.clients c = .idle) (regs : Regs) :
    ∃ s', Reachable w (RepliesToRead w) s' ∧ Served w (k + 1) s' ∧ s'.clients = s.clients ∧
      ∃ new, s'.trace = new ++ s.trace ∧ ∀ id x, Event.reply id x ∈ new → k < id := by
  have hlive := hS.live
  have hid : s.inner.nextId = k + 1 := by rw [hS.next, nextIdAfter_of_lt hk]
  -- client `c` queues its request under `k + 1`
  set s₁ := s.startCall w c regs none with hs₁
  have h₁ : s.step w (.call c regs) = some s₁ := by simp [System.step, hc]
  have hfresh : ∀ x, Event.reply (k + 1) x ∉ s₁.trace := fun x hx => by
    simp only [hs₁, System.startCall, hlive, if_true, List.mem_cons, reduceCtorEq, false_or] at hx
    exact absurd (hS.replies _ _ hx) (by omega)
  obtain ⟨s', -, hs', hstrong, hinner, hclients, htrace⟩ :=
    serve_queued (hs.after h₁ trivial) (by simp [hs₁, System.startCall, hlive]) (Nat.succ_pos k)
      (show s₁.inner.todo = BTreeMap.empty.insert (k + 1) regs by
        simp [hs₁, System.startCall, hlive, hS.todo, hid])
      (by simp [hs₁, System.startCall, hlive, hS.done])
      (show s₁.clients c = .waiting (k + 1) none by simp [hs₁, System.startCall, hlive, hid])
      hfresh ⟨0, 0, 0, 0, 0⟩
      ⟨k + 1, regs.a, regs.b, regs.c, regs.d⟩ rfl
  -- the run adds the request, its delivery, one reply under `k + 1` and the return
  set new : List Event := [.ret c (k + 1) (demux w regs.a),
    .reply (k + 1) ⟨regs.a, regs.b, regs.c, regs.d⟩, .deliver (k + 1) regs, .submit c (k + 1) regs]
  have htrace' : s'.trace = new ++ s.trace := by
    simp [htrace, hs₁, System.startCall, hlive, hid, Packet.regs, new]
  have hnew : ∀ id x, Event.reply id x ∈ new → id = k + 1 := by simp [new]
  refine ⟨s', hs', ⟨by simp [hstrong, hs₁, System.startCall, hlive], ?_, by rw [hinner],
    by rw [hinner], fun id x hx => ?_⟩, ?_, new, htrace', fun id x hx => ?_⟩
  · simp [hinner, hs₁, System.startCall, hlive, hid]
  · rcases List.mem_append.mp (htrace' ▸ hx) with hx | hx
    · exact (hnew id x hx).le
    · exact Nat.le_succ_of_le (hS.replies _ _ hx)
  · rw [hclients, hs₁, System.startCall, if_pos hlive]
    simp [hc]
  · exact (hnew id x hx) ▸ Nat.lt_succ_self k

/-- `n` calls of an idle client `c`, each served before the next, up to the top of the word: the
last may wrap `next_id`. No other client moves, and every reply the run writes is under an id
above `k`. -/
theorem Served.serve_upto {c : Nat} (regs : Regs) (n : Nat) :
    ∀ {k : Nat} {s : System}, Reachable w (RepliesToRead w) s → Served w k s →
      s.clients c = .idle → k + n < 2 ^ w →
      ∃ s', Reachable w (RepliesToRead w) s' ∧ Served w (k + n) s' ∧ s'.clients = s.clients ∧
        ∃ new, s'.trace = new ++ s.trace ∧ ∀ id x, Event.reply id x ∈ new → k < id := by
  induction n with
  | zero => exact fun hs hS _ _ => ⟨_, hs, hS, rfl, [], rfl, nofun⟩
  | succ n ih =>
    intro k s hs hS hc hn
    obtain ⟨s₁, hs₁, hS₁, hclients₁, new₁, htrace₁, hnew₁⟩ := hS.serve hs (by omega) hc regs
    obtain ⟨s₂, hs₂, hS₂, hclients₂, new₂, htrace₂, hnew₂⟩ :=
      ih hs₁ hS₁ (by rw [hclients₁]; exact hc) (by omega)
    refine ⟨s₂, hs₂, by rwa [Nat.add_right_comm, Nat.add_assoc] at hS₂,
      hclients₂.trans hclients₁, new₂ ++ new₁, by rw [htrace₂, htrace₁, List.append_assoc],
      fun id x hx => ?_⟩
    rcases List.mem_append.mp hx with hx | hx
    · exact Nat.lt_of_succ_le (Nat.le_of_lt (hnew₂ id x hx))
    · exact hnew₁ id x hx

end Serve

/-- At any width from 2 bits, with two clients: client `0` calls and the provider reads its
request; client `1` makes `2^w - 2` calls, each read, answered and returned before the next, and
`next_id` wraps to `1`; client `1`'s next call is given id `1`, which client `0` still holds, its
request read and not answered. -/
theorem wrap_shares_id (w : Nat) (hw : 2 ≤ w) (regs regs' : Regs) :
    ∃ s, Reachable w (RepliesToRead w) s ∧ 0 < s.strong ∧ Event.deliver 1 regs ∈ s.trace ∧
      (∀ x, Event.reply 1 x ∉ s.trace) ∧ s.clients 0 = .waiting 1 none ∧
      s.clients 1 = .waiting 1 none ∧ s.inner.todo = BTreeMap.empty.insert 1 regs' ∧
      s.inner.done = .empty := by
  have hbig : 4 ≤ 2 ^ w :=
    calc 4 = 2 ^ 2 := rfl
      _ ≤ 2 ^ w := Nat.pow_le_pow_right (by norm_num) hw
  -- client `0` calls and the provider reads its request
  obtain ⟨s₂, hs₂, hS₂, htrace₂, hclients₂⟩ : ∃ s₂, Reachable w (RepliesToRead w) s₂ ∧
      Served w 1 s₂ ∧ s₂.trace = [.deliver 1 regs, .submit 0 1 regs] ∧
      s₂.clients = Function.update (fun _ => .idle) 0 (.waiting 1 none) := by
    set s₁ := (System.new [] [] []).startCall w 0 regs none
    have htodo₁ : s₁.inner.todo = BTreeMap.empty.insert 1 regs := rfl
    have h₂ := System.step_recv_of_firstKey (w := w) (s := s₁) Nat.one_pos (by rw [htodo₁]; rfl)
      Nat.one_pos (show s₁.inner.todo.get 1 = some regs by simp [htodo₁]) ⟨0, 0, 0, 0, 0⟩
    refine ⟨_, ((Reachable.new _ _ _).after (a := .call 0 regs) rfl trivial).after h₂ trivial,
      ⟨Nat.one_pos, rfl, BTreeMap.remove_insert_empty 1 regs, rfl, fun _ _ h => ?_⟩, rfl, rfl⟩
    simp [s₁, System.startCall, System.new] at h
  -- client `1` makes `2^w - 2` calls, served in turn, and `next_id` wraps
  obtain ⟨s₃, hs₃, hS₃, hclients₃, new, htrace₃, hnew⟩ :=
    hS₂.serve_upto (c := 1) regs (2 ^ w - 2) hs₂ (by rw [hclients₂]; rfl) (by omega)
  have hnext₃ : s₃.inner.nextId = 1 := by
    rw [hS₃.next, show 1 + (2 ^ w - 2) = 2 ^ w - 1 by omega, nextIdAfter_top]
  have hidle : s₃.clients 1 = .idle := by rw [hclients₃, hclients₂]; rfl
  -- client `1` calls again and is given id `1`
  refine ⟨s₃.startCall w 1 regs' none, hs₃.after (a := .call 1 regs') (by simp [System.step, hidle])
    trivial, by simp [System.startCall, hS₃.live], ?_, fun x hx => ?_, ?_, ?_, ?_, ?_⟩
  · simp [System.startCall, hS₃.live, htrace₃, htrace₂]
  · simp only [System.startCall, hS₃.live, if_true, List.mem_cons, reduceCtorEq, false_or,
      htrace₃, List.mem_append, htrace₂, List.not_mem_nil, or_false] at hx
    exact Nat.lt_irrefl 1 (hnew 1 x hx)
  · simp [System.startCall, hS₃.live, hclients₃, hclients₂]
  · simp [System.startCall, hS₃.live, hnext₃]
  · simp [System.startCall, hS₃.live, hnext₃, hS₃.todo]
  · simp [System.startCall, hS₃.live, hS₃.done]

/-- On 32-bit words, with two clients and never more than two calls at a time: client `0` calls
and the provider reads its request; client `1` makes `2^32 - 2` calls, each read, answered and
returned before the next; `next_id` wraps, and client `1`'s next call is given id `1`, which
client `0` still holds. The provider reads that request and answers it, and client `0`, at its
next turn, returns the answer to client `1`'s request; client `1` stays blocked on `1`, with
nothing under `1` in `done`. -/
theorem call_reuses_held_id :
    ∃ s s', Reachable 32 (RepliesToRead 32) s ∧ Event.deliver 1 ⟨0, 0, 0, 0⟩ ∈ s.trace ∧
      s.clients 0 = .waiting 1 none ∧ s.clients 1 = .waiting 1 none ∧
      s.inner.todo.get 1 = some ⟨1, 0, 0, 0⟩ ∧
      s.run 32 [.recv (packetSize 32) ⟨0, 0, 0, 0, 0⟩, .reply (packetSize 32) ⟨1, 5, 0, 0, 0⟩,
        .poll 0] = some s' ∧ Reachable 32 (RepliesToRead 32) s' ∧
      s'.trace = .ret 0 1 (demux 32 5) :: .reply 1 ⟨5, 0, 0, 0⟩ :: .deliver 1 ⟨1, 0, 0, 0⟩ :: s.trace ∧
      s'.clients 1 = .waiting 1 none ∧ s'.inner.done.get 1 = none := by
  obtain ⟨s, hs, hlive, hread, hfresh, h₀, h₁, htodo, hdone⟩ :=
    wrap_shares_id 32 (by norm_num) ⟨0, 0, 0, 0⟩ ⟨1, 0, 0, 0⟩
  obtain ⟨s', hrun, hs', -, hinner, hclients, htrace⟩ :=
    serve_queued hs hlive Nat.one_pos htodo hdone h₀ hfresh ⟨0, 0, 0, 0, 0⟩ ⟨1, 5, 0, 0, 0⟩ rfl
  exact ⟨s, s', hs, hread, h₀, h₁, by simp [htodo], hrun, hs', htrace,
    by simp [hclients, h₁], by simp [hinner]⟩

end RedoxKernel.Fs
