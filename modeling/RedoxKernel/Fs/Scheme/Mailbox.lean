import RedoxKernel.Fs.Scheme.Provider

/-!
# A scheme is a first-in, first-out mailbox

What a scheme is for, said with no `BTreeMap`, no ids on words and no ghost trace: a mailbox
between clients and one provider. `Mailbox` is its state: whether the provider is still there, the
requests not yet taken, oldest first, the answers not yet collected, under their ids, and the id
each client waits on. `Mailbox.Step` is what can happen to it. A client posts a request under an id
that is in use nowhere and waits on it. The provider takes the oldest request, or answers under any
id. A waiting client collects the answer under its id, or gives up once the provider is gone. The
provider goes. `Mailbox.Sound` is what a mailbox guarantees by construction: no two queued
requests share an id, and no two clients wait on one id.

`System.mailbox` reads the mailbox off a state of the model of the code: `todo`'s entries are the
queue, `done` holds the answers, and a blocked client waits on its id. `mailbox_step` proves that
every step from a state of a disciplined run is a mailbox step, and `scheme_refines_mailbox` that
every state of such a run reads as a mailbox that a run of mailbox steps reaches. So `todo`, keyed
by ids that grow, is a FIFO queue, and `done` never holds an answer under the id a new call is
given. Across the wrap of `next_id` the refinement fails (`wrap_escapes_mailbox`): a run that wraps
reaches a state in which two clients wait on one id, which no run of the mailbox reaches.

Scope. The mailbox does not see the lent windows (`Scheme.Mapping`) or what a returning call
makes of its answer (`Scheme.Calls`).
-/

set_option autoImplicit false
set_option relaxedAutoImplicit false

namespace RedoxKernel.Fs

/-! ### The mailbox -/

/-- What a scheme holds for its parties: whether the provider is there, the requests not yet
taken, oldest first, the answers not yet collected, and the id each client waits on. -/
@[ext] structure Mailbox where
  alive : Bool
  queue : List (Nat × Regs)
  answers : Nat → Option Regs
  callers : Nat → Option Nat

namespace Mailbox

/-- A new mailbox: its provider there, and nothing in it. -/
def init : Mailbox := ⟨true, [], fun _ => none, fun _ => none⟩

/-- `id` is in use: a request under it is queued, an answer under it waits, or a client waits on
it. -/
def InUse (m : Mailbox) (id : Nat) : Prop :=
  (∃ regs, (id, regs) ∈ m.queue) ∨ (m.answers id).isSome ∨ ∃ c, m.callers c = some id

/-- What can happen to a mailbox. -/
inductive Step (m : Mailbox) : Mailbox → Prop
  /-- An idle client posts a request under an id in use nowhere, and waits on it. -/
  | post (c id : Nat) (regs : Regs) : m.alive → m.callers c = none → 0 < id → ¬ m.InUse id →
      Step m { m with queue := m.queue ++ [(id, regs)],
                      callers := Function.update m.callers c (some id) }
  /-- The provider takes the oldest request. -/
  | take (id : Nat) (regs : Regs) (rest : List (Nat × Regs)) : m.alive →
      m.queue = (id, regs) :: rest → Step m { m with queue := rest }
  /-- The provider answers under an id. -/
  | answer (id : Nat) (regs : Regs) : m.alive →
      Step m { m with answers := Function.update m.answers id (some regs) }
  /-- A waiting client collects the answer under its id. -/
  | collect (c id : Nat) (regs : Regs) : m.alive → m.callers c = some id →
      m.answers id = some regs →
      Step m { m with answers := Function.update m.answers id none,
                      callers := Function.update m.callers c none }
  /-- A waiting client gives up once the provider is gone. -/
  | abandon (c id : Nat) : m.alive = false → m.callers c = some id →
      Step m { m with callers := Function.update m.callers c none }
  /-- The provider goes. -/
  | close : m.alive → Step m { m with alive := false }
  /-- Nothing the mailbox sees happens. -/
  | stay : Step m m

/-- The mailboxes that runs from a new one reach. -/
inductive Reachable : Mailbox → Prop
  | init : Reachable init
  | step {m m' : Mailbox} : Reachable m → Step m m' → Reachable m'

/-- What a mailbox guarantees: queued requests have distinct ids, and clients wait on distinct
ids. -/
structure Sound (m : Mailbox) : Prop where
  queue_nodup : (m.queue.map Prod.fst).Nodup
  callers_distinct : ∀ c₁ c₂ id, m.callers c₁ = some id → m.callers c₂ = some id → c₁ = c₂

/-- A client that a step stopped waiting was waiting before, if it waits now. -/
theorem some_of_update_none {f : Nat → Option Nat} {c c' id : Nat}
    (h : Function.update f c none c' = some id) : f c' = some id := by
  by_cases hcc : c' = c
  · subst hcc; simp at h
  · rwa [Function.update_noteq hcc] at h

/-- Every step keeps a mailbox sound. -/
theorem Sound.step {m m' : Mailbox} (hI : Sound m) (h : Step m m') : Sound m' := by
  cases h with
  | post c id regs _ _ _ hfree =>
    have hid : ∀ c, m.callers c ≠ some id := fun c h => hfree (.inr (.inr ⟨c, h⟩))
    refine ⟨?_, fun c₁ c₂ id' h₁ h₂ => ?_⟩
    · rw [List.map_append, List.nodup_append]
      refine ⟨hI.queue_nodup, List.nodup_singleton _, ?_⟩
      simp only [List.map_cons, List.map_nil, List.disjoint_singleton, List.mem_map, not_exists,
        not_and]
      exact fun e he hfst => hfree (.inl ⟨e.2, by rw [← hfst]; exact he⟩)
    · simp only [Function.update_apply] at h₁ h₂
      split_ifs at h₁ h₂ with hc₁ hc₂ hc₂
      · exact hc₁.trans hc₂.symm
      · cases h₁; exact absurd h₂ (hid c₂)
      · cases h₂; exact absurd h₁ (hid c₁)
      · exact hI.callers_distinct c₁ c₂ id' h₁ h₂
  | take id regs rest _ hq =>
    have hnodup := hI.queue_nodup
    rw [hq, List.map_cons] at hnodup
    exact ⟨(List.nodup_cons.mp hnodup).2, hI.callers_distinct⟩
  | answer id regs => exact ⟨hI.1, hI.2⟩
  | collect c id regs =>
    exact ⟨hI.1, fun c₁ c₂ id' h₁ h₂ =>
      hI.2 c₁ c₂ id' (some_of_update_none h₁) (some_of_update_none h₂)⟩
  | abandon c id =>
    exact ⟨hI.1, fun c₁ c₂ id' h₁ h₂ =>
      hI.2 c₁ c₂ id' (some_of_update_none h₁) (some_of_update_none h₂)⟩
  | close => exact ⟨hI.1, hI.2⟩
  | stay => exact hI

/-- Every mailbox a run reaches is sound. -/
theorem Reachable.sound {m : Mailbox} (h : Reachable m) : Sound m := by
  induction h with
  | init => exact ⟨List.nodup_nil, fun _ _ _ h => nomatch h⟩
  | step _ hstep ih => exact ih.step hstep

end Mailbox

/-! ### The mailbox a scheme holds -/

/-- The id a phase waits on. -/
def Phase.awaited : Phase → Option Nat
  | .idle => none
  | .waiting id _ => some id

/-- A phase waits on `id` exactly when it is blocked on `id`. -/
theorem Phase.awaited_eq_some {p : Phase} {id : Nat} :
    p.awaited = some id ↔ ∃ lent, p = .waiting id lent := by
  cases p <;> simp [Phase.awaited, eq_comm]

/-- The mailbox a state of the scheme holds: the provider is there while a strong reference is,
`todo`'s entries are the queue, `done` holds the answers, and each client waits on its phase's
id. -/
def System.mailbox (s : System) : Mailbox where
  alive := decide (0 < s.strong)
  queue := s.inner.todo.entries
  answers := s.inner.done.get
  callers := Phase.awaited ∘ s.clients

/-- A new scheme holds a new mailbox. -/
theorem mailbox_new (name : List UInt8) (memory : List ContextMemory)
    (schemes : List (List UInt8)) : (System.new name memory schemes).mailbox = Mailbox.init :=
  rfl

/-- In a state of a disciplined run, the id `call` takes next is in use nowhere in the mailbox:
it is above every queued id, no answer is stored under it, and no client waits on it. -/
theorem nextId_free {w : Nat} {s : System} (hO : Ordered s) (hA : Answered w s) :
    (∀ e ∈ s.inner.todo.entries, e.1 < s.inner.nextId) ∧ ¬ s.mailbox.InUse s.inner.nextId := by
  have hbelow : ∀ e ∈ s.inner.todo.entries, e.1 < s.inner.nextId := fun e he => by
    obtain ⟨regs, hregs⟩ := Option.isSome_iff_exists.mp (BTreeMap.get_isSome_of_mem he)
    obtain ⟨c, hc⟩ := hO.todo_submitted e.1 regs hregs
    exact hO.submit_lt _ _ _ hc
  refine ⟨hbelow, ?_⟩
  rintro (⟨regs, hr⟩ | hd | ⟨c, hc⟩)
  · exact Nat.lt_irrefl _ (hbelow _ hr)
  · obtain ⟨regs, hregs⟩ := Option.isSome_iff_exists.mp hd
    obtain ⟨-, c, regs₀, hsub⟩ := hA.reply_requested (hA.done_replied _ _ hregs)
    exact Nat.lt_irrefl _ (hO.submit_lt _ _ _ hsub)
  · obtain ⟨lent, hw⟩ := Phase.awaited_eq_some.mp hc
    obtain ⟨⟨regs, hsub⟩, -⟩ := (hA.waiting_iff c _).mp ⟨lent, hw⟩
    exact Nat.lt_irrefl _ (hO.submit_lt _ _ _ hsub)

/-- Every step from a state of a disciplined run is a step of the mailbox the state holds. -/
theorem mailbox_step {w : Nat} {s s' : System} {a : Action} (hs : Reachable w (Disciplined w) s)
    (h : s.step w a = some s') : Mailbox.Step s.mailbox s'.mailbox := by
  cases System.step_cases h with
  | submit c regs lent memory hc hlive =>
    obtain ⟨hO, hA⟩ := answered_of_reachable hs
    obtain ⟨hbelow, hfree⟩ := nextId_free hO hA
    have hstep := @Mailbox.Step.post s.mailbox c s.inner.nextId regs (by simp [System.mailbox, hlive])
      (by simp [System.mailbox, hc, Phase.awaited]) (idsOk_of_reachable hs).nextId_pos hfree
    convert hstep using 1
    exact Mailbox.ext rfl (BTreeMap.insert_entries_of_lt regs hbelow) rfl
      (Function.comp_update Phase.awaited s.clients c (.waiting s.inner.nextId lent))
  | answer c id lent regs hc hlive hdone =>
    have hstep := @Mailbox.Step.collect s.mailbox c id regs (by simp [System.mailbox, hlive])
      (Phase.awaited_eq_some.mpr ⟨lent, hc⟩) hdone
    convert hstep using 1
    exact Mailbox.ext rfl rfl (BTreeMap.get_remove_eq _ _)
      (Function.comp_update Phase.awaited s.clients c .idle)
  | orphan c id lent hc hdead =>
    have hstep := @Mailbox.Step.abandon s.mailbox c id (by simp [System.mailbox, hdead])
      (Phase.awaited_eq_some.mpr ⟨lent, hc⟩)
    convert hstep using 1
    exact Mailbox.ext rfl rfl rfl (Function.comp_update Phase.awaited s.clients c .idle)
  | deliver k regs hlive hk _ hregs =>
    obtain ⟨rest, hes⟩ := BTreeMap.entries_of_firstKey hk hregs
    have hstep := @Mailbox.Step.take s.mailbox k regs rest (by simp [System.mailbox, hlive]) hes
    convert hstep using 1
    exact Mailbox.ext rfl (BTreeMap.head_entry hes).2.2 rfl rfl
  | reply packet hlive =>
    have hstep := @Mailbox.Step.answer s.mailbox packet.id packet.regs
      (by simp [System.mailbox, hlive])
    convert hstep using 1
    exact Mailbox.ext rfl rfl (BTreeMap.get_insert_eq _ _ _) rfl
  | drop hone => exact .close (by simp [System.mailbox, hone])
  | share n hlive hn =>
    convert Mailbox.Step.stay using 1
    exact Mailbox.ext (by simp [System.mailbox, hlive, hn]) rfl rfl rfl
  | refuse c => exact .stay
  | idle => exact .stay
  | push c op virt => exact .stay

/-- Every state of a disciplined run holds a mailbox that a run of the mailbox reaches. -/
theorem mailbox_reachable {w : Nat} {s : System} (hs : Reachable w (Disciplined w) s) :
    Mailbox.Reachable s.mailbox :=
  hs.invariant (fun s => Mailbox.Reachable s.mailbox)
    (fun name memory schemes => by simp only [mailbox_new]; exact .init)
    fun hs hI _ h => .step hI (mailbox_step hs h)

/-- In every run with no wrap of `next_id` and a provider that answers only requests it read, each
at most once, the scheme is a first-in, first-out mailbox: every state holds a mailbox that a run
of the mailbox reaches, and every step from it, whatever the party, is a step of that mailbox:
a request is queued behind every queued one under an id in use nowhere, the provider takes the
oldest, and a blocked call collects the answer under its own id. -/
theorem scheme_refines_mailbox {w : Nat} {s : System} (hs : Reachable w (Disciplined w) s) :
    Mailbox.Reachable s.mailbox ∧
      ∀ a s', s.step w a = some s' → Mailbox.Step s.mailbox s'.mailbox :=
  ⟨mailbox_reachable hs, fun _ _ h => mailbox_step hs h⟩

/-- `scheme_refines_mailbox` on `twoCalls`. -/
theorem scheme_refines_mailbox_twoCalls :
    Reachable 64 (Disciplined 64) twoCalls ∧ Mailbox.Reachable twoCalls.mailbox ∧
      ∀ a s', twoCalls.step 64 a = some s' → Mailbox.Step twoCalls.mailbox s'.mailbox :=
  ⟨reachable_twoCalls, scheme_refines_mailbox reachable_twoCalls⟩

/-- At any width from 2 bits, a run in which the provider answers only what it read, but `next_id`
wraps, reaches a state that holds a mailbox no run of the mailbox reaches: two clients wait on
id `1`. -/
theorem wrap_escapes_mailbox (w : Nat) (hw : 2 ≤ w) :
    ∃ s, Reachable w (RepliesToRead w) s ∧ ¬ Mailbox.Reachable s.mailbox := by
  obtain ⟨s, hs, -, -, -, h₀, h₁, -⟩ := wrap_shares_id w hw ⟨0, 0, 0, 0⟩ ⟨1, 0, 0, 0⟩
  refine ⟨s, hs, fun hm => ?_⟩
  have := hm.sound.callers_distinct 0 1 1 (Phase.awaited_eq_some.mpr ⟨none, h₀⟩)
    (Phase.awaited_eq_some.mpr ⟨none, h₁⟩)
  omega

/-- `wrap_escapes_mailbox` on 64-bit words. -/
theorem wrap_escapes_mailbox_64 :
    2 ≤ 64 ∧ ∃ s, Reachable 64 (RepliesToRead 64) s ∧ ¬ Mailbox.Reachable s.mailbox :=
  ⟨by norm_num, wrap_escapes_mailbox 64 (by norm_num)⟩

end RedoxKernel.Fs
